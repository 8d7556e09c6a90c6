import WorkflowCompiler.Proofs.Context.Substitution
import WorkflowCompiler.Proofs.Placeholder.Tidy

/-!
# Texts whose placeholders are provided for

If the values of a context are tidy and have placeholders of a kind only, so has what a pass makes
of a tidy text with placeholders of the kind (`Context.Closed.expandIn_eq_ok`).

A path is *provided* for by names if it leads to outputs, to one of the names, or to the present
moment. A text is *fine* if it is tidy and its placeholders are provided for. A context *serves*
names if no path that they provide for is undefined in it, and the texts of its values are fine. In
such a context a fine text is substituted without an undefined placeholder
(`Context.Serves.substituteIn_ne_undefined`), and what it becomes is fine again
(`Context.Serves.fine_of_substituteIn`).
-/

namespace WorkflowCompiler

/-- The names for which the clock has a text. -/
def clockNames : List String := ["timestamp", "date", "time"]

/-- The path leads to outputs, to one of the names, or to the present moment as a whole. -/
def Provided (names : List String) (path : String) : Prop :=
  match Referent.ofPath path with
  | .output _ _ => True
  | .binding root fields => root ∈ names ∨ fields = [] ∧ root ∈ clockNames

/-- The placeholders of pieces are of a kind, and no other ones come in when the pieces are put
together. -/
structure FinePieces (P : String → Prop) (ps : List Piece) : Prop where
  /-- the pieces can be read in a text -/
  proper : ∀ piece ∈ ps, piece.Proper
  /-- they are read as they were put together -/
  tidy : tidy ps = true
  /-- the placeholders are of the kind -/
  paths : ∀ path ∈ ps.filterMap Piece.path?, P path

/-- The placeholders of a text are provided for, and no other ones come in with braces of it. -/
def Fine (names : List String) (text : String) : Prop :=
  TidyText text ∧ ∀ path ∈ placeholderPaths text, Provided names path

/-- What the paths of a kind stand for is tidy, and has placeholders of the kind only. -/
def Context.Closed (P : String → Prop) (c : Context) : Prop :=
  ∀ path value, P path → c.resolveIn path = .ok (.value value) →
    FinePieces P (pieces value.text.toList)

/-- A context in which nothing that the names provide for is undefined, and in which the texts of
the values are fine. -/
structure Context.Serves (c : Context) (names : List String) : Prop where
  /-- what is provided for is not undefined -/
  defined : ∀ path, Provided names path → ∀ other, c.resolveIn path ≠ .error (.undefined other)
  /-- the texts of the values are fine -/
  values : ∀ path value, c.resolveIn path = .ok (.value value) → Fine names value.text

section Fine

variable {P : String → Prop} {names more : List String} {ps qs : List Piece} {text : String}

theorem Provided.mono {path : String} (h : Provided names path) (hsub : names ⊆ more) :
    Provided more path := by
  rw [Provided] at h ⊢
  cases hpath : Referent.ofPath path with
  | output => trivial
  | binding root fields =>
    simp only [hpath] at h ⊢
    exact h.imp_left fun hroot => hsub hroot

theorem Fine.mono (h : Fine names text) (hsub : names ⊆ more) : Fine more text :=
  ⟨h.1, fun path hpath => (h.2 path hpath).mono hsub⟩

theorem Fine.pieces (h : Fine names text) : FinePieces (Provided names) (pieces text.toList) :=
  ⟨fun _ hpiece => proper_of_mem_pieces hpiece, h.1, h.2⟩

theorem FinePieces.append (hps : FinePieces P ps) (hqs : FinePieces P qs) :
    FinePieces P (ps ++ qs) where
  proper := List.forall_mem_append.2 ⟨hps.proper, hqs.proper⟩
  tidy := tidy_append hps.tidy hqs.tidy
  paths := by
    rw [List.filterMap_append, List.forall_mem_append]
    exact ⟨hps.paths, hqs.paths⟩

/-- Fine pieces are read as the pieces they are. -/
theorem FinePieces.read (h : FinePieces P ps) :
    FinePieces P (WorkflowCompiler.pieces (ps.flatMap Piece.chars)) := by
  rw [pieces_flatMap_chars h.proper h.tidy]
  exact h

end Fine

/-! ## Passes -/

namespace Context.Closed

variable {P : String → Prop} {c : Context} {ps : List Piece} {text out : List Char}

/-- A piece is kept, or the pieces of the text of a value take its place. -/
theorem expandPieceIn_eq_ok (h : c.Closed P) {piece : Piece}
    (hpiece : ∀ path, piece.path? = some path → P path) {next : List Char × Bool}
    (hok : c.expandPieceIn Json.text piece = .ok next) :
    next.1 = piece.chars ∨ ∃ qs, FinePieces P qs ∧ next.1 = qs.flatMap Piece.chars := by
  rcases hpath : piece.path? with _ | path
  · simp only [expandPieceIn, hpath, Except.ok.injEq] at hok
    exact .inl (congrArg Prod.fst hok.symm)
  · simp only [expandPieceIn, hpath] at hok
    rcases hr : c.resolveIn path with e | value | _
    · rw [hr] at hok
      cases hok
    · rw [hr] at hok
      cases hok
      exact .inr ⟨_, h path value (hpiece path hpath) hr, (pieces_chars _).symm⟩
    · rw [hr] at hok
      cases hok
      exact .inl rfl

/-- A pass over fine pieces puts fine pieces in their place. -/
theorem expandIn_eq_ok (h : c.Closed P) (hps : FinePieces P ps) {next : List Char × Bool}
    (hok : c.expandIn Json.text ps = .ok next) :
    ∃ qs, FinePieces P qs ∧ next.1 = qs.flatMap Piece.chars := by
  obtain ⟨hproper, htidy, hpaths⟩ := hps
  fun_induction tidy ps generalizing next with
  | case1 =>
    cases hok
    exact ⟨[], ⟨hproper, htidy, hpaths⟩, rfl⟩
  | case2 body rest ih =>
    obtain ⟨head, hhead, hok⟩ := exists_of_bind_eq_ok hok
    obtain ⟨tail, htail, hok⟩ := exists_of_bind_eq_ok hok
    cases hok
    have hslot : (Piece.slot body :: rest) = [Piece.slot body] ++ rest := rfl
    rw [hslot, List.forall_mem_append] at hproper
    rw [hslot, List.filterMap_append, List.forall_mem_append] at hpaths
    obtain ⟨qs, hqs, hrest⟩ := ih htail hproper.2 htidy hpaths.2
    have hpiece : ∀ path, (Piece.slot body).path? = some path → P path := fun path hpath =>
      hpaths.1 path (List.mem_filterMap.2 ⟨_, List.mem_singleton_self _, hpath⟩)
    rcases h.expandPieceIn_eq_ok hpiece hhead with hkept | ⟨ps, hps, hput⟩
    · refine ⟨[Piece.slot body] ++ qs, .append ⟨hproper.1, rfl, hpaths.1⟩ hqs, ?_⟩
      rw [List.flatMap_append, ← hrest, hkept, List.flatMap_singleton]
    · refine ⟨ps ++ qs, hps.append hqs, ?_⟩
      rw [List.flatMap_append, ← hrest, hput]
  | case3 c' rest ih =>
    obtain ⟨head, hhead, hok⟩ := exists_of_bind_eq_ok hok
    obtain ⟨tail, htail, hok⟩ := exists_of_bind_eq_ok hok
    obtain ⟨second, hsecond, htail⟩ := exists_of_bind_eq_ok htail
    obtain ⟨last, hlast, htail⟩ := exists_of_bind_eq_ok htail
    cases hhead
    cases hsecond
    cases htail
    cases hok
    rw [Bool.and_eq_true] at htidy
    have hpair : (Piece.char '\x7b' :: .char c' :: rest) =
        [Piece.char '\x7b', .char c'] ++ rest := rfl
    rw [hpair, List.forall_mem_append] at hproper
    obtain ⟨qs, hqs, hrest⟩ := ih hlast hproper.2 htidy.2 hpaths
    refine ⟨[Piece.char '\x7b', .char c'] ++ qs, .append ⟨hproper.1, ?_, ?_⟩ hqs, ?_⟩
    · simpa [tidy] using htidy.1
    · simp [Piece.path?]
    · simp [Piece.chars, hrest]
  | case4 => cases htidy
  | case5 c' rest hrest hbrace ih =>
    obtain ⟨head, hhead, hok⟩ := exists_of_bind_eq_ok hok
    obtain ⟨tail, htail, hok⟩ := exists_of_bind_eq_ok hok
    cases hhead
    cases hok
    have hchar : (Piece.char c' :: rest) = [Piece.char c'] ++ rest := rfl
    rw [hchar, List.forall_mem_append] at hproper
    obtain ⟨qs, hqs, hrest⟩ := ih htail hproper.2 htidy hpaths
    refine ⟨[Piece.char c'] ++ qs, .append ⟨hproper.1, ?_, ?_⟩ hqs, ?_⟩
    · simp [tidy]
    · simp [Piece.path?]
    · simp [Piece.chars, hrest]

/-- What comes of fine pieces is fine. -/
theorem finePieces_of_roundsIn (h : c.Closed P) {rounds : Nat}
    (hfine : FinePieces P (pieces text)) (hok : c.roundsIn rounds text = .ok out) :
    FinePieces P (pieces out) := by
  induction rounds generalizing text with
  | zero =>
    rw [roundsIn] at hok
    split at hok
    · cases hok
      exact hfine
    · cases hok
  | succ rounds ih =>
    obtain ⟨⟨next, replaced⟩, hnext, hok⟩ := exists_of_bind_eq_ok hok
    obtain ⟨qs, hqs, rfl⟩ := h.expandIn_eq_ok hfine hnext
    cases replaced with
    | false =>
      cases hok
      exact hqs.read
    | true => exact ih hqs.read hok

end Context.Closed

/-! ## Substituting -/

namespace Context.Serves

variable {c : Context} {names : List String} {ps : List Piece} {text : List Char}

theorem closed (h : c.Serves names) : c.Closed (Provided names) :=
  fun path value _ hvalue => (h.values path value hvalue).pieces

/-- A placeholder that is provided for is not undefined. -/
theorem expandPieceIn_ne_undefined (h : c.Serves names) {piece : Piece}
    (hprovided : ∀ path, piece.path? = some path → Provided names path) (write : Json → String)
    (other : String) : c.expandPieceIn write piece ≠ .error (.undefined other) := by
  rcases hpath : piece.path? with _ | path
  · simp [expandPieceIn, hpath]
  · have hdefined := h.defined path (hprovided path hpath) other
    rcases hr : c.resolveIn path with e | r
    · rw [hr] at hdefined
      simpa [expandPieceIn, hpath, hr, Except.map] using hdefined
    · simp [expandPieceIn, hpath, hr, Except.map]

/-- A pass over placeholders that are provided for comes upon nothing undefined. -/
theorem expandIn_ne_undefined (h : c.Serves names) (write : Json → String)
    (hprovided : ∀ path ∈ ps.filterMap Piece.path?, Provided names path) (other : String) :
    c.expandIn write ps ≠ .error (.undefined other) := by
  induction ps with
  | nil => exact fun h => by cases h
  | cons piece rest ih =>
    obtain ⟨hpath, hrest⟩ := Context.forall_mem_paths_cons.1 hprovided
    have hhead := h.expandPieceIn_ne_undefined hpath write other
    have htail := ih hrest
    rw [expandIn]
    rcases hfirst : c.expandPieceIn write piece with e | head
    · rw [hfirst] at hhead
      exact hhead
    · rcases hlater : c.expandIn write rest with e | tail
      · rw [hlater] at htail
        exact htail
      · exact fun h => by cases h

theorem roundsIn_ne_undefined (h : c.Serves names) (rounds : Nat)
    (hfine : FinePieces (Provided names) (pieces text)) (other : String) :
    c.roundsIn rounds text ≠ .error (.undefined other) := by
  induction rounds generalizing text with
  | zero =>
    rw [roundsIn]
    intro hundefined
    split at hundefined <;> cases hundefined
  | succ rounds ih =>
    have hpass := h.expandIn_ne_undefined Json.text hfine.paths other
    rw [roundsIn]
    rcases hnext : c.expandIn Json.text (pieces text) with e | ⟨next, replaced⟩
    · rw [hnext] at hpass
      intro hundefined
      cases hundefined
      exact hpass rfl
    · obtain ⟨qs, hqs, rfl⟩ := h.closed.expandIn_eq_ok hfine hnext
      cases replaced with
      | false => exact fun h => by cases h
      | true => exact ih hqs.read

/-- A fine text has no undefined placeholder, and none comes in while it is substituted. -/
theorem substituteIn_ne_undefined (h : c.Serves names) {value : String} (hfine : Fine names value)
    (other : String) : c.substituteIn value ≠ .error (.undefined other) := by
  have hrounds := h.roundsIn_ne_undefined maxRounds hfine.pieces other
  rw [substituteIn]
  rcases hout : c.roundsIn maxRounds value.toList with e | next
  · rw [hout] at hrounds
    simpa [Except.map] using hrounds
  · simp [Except.map]

theorem substituteShellIn_ne_undefined (h : c.Serves names) {value : String}
    (hfine : Fine names value) (other : String) :
    c.substituteShellIn value ≠ .error (.undefined other) := by
  have hpass := h.expandIn_ne_undefined (fun value => ShellWord.quote value.text)
    hfine.pieces.paths other
  rw [substituteShellIn]
  rcases hout : c.expandIn (fun value => ShellWord.quote value.text) (pieces value.toList) with
    e | next
  · rw [hout] at hpass
    simpa [Except.map] using hpass
  · simp [Except.map]

/-- What a fine text becomes is fine. -/
theorem fine_of_substituteIn (h : c.Serves names) {value result : String} (hfine : Fine names value)
    (hok : c.substituteIn value = .ok result) : Fine names result := by
  rw [substituteIn] at hok
  rcases hout : c.roundsIn maxRounds value.toList with e | next
  · rw [hout] at hok
    cases hok
  · rw [hout] at hok
    cases hok
    have hnext := h.closed.finePieces_of_roundsIn hfine.pieces hout
    rw [Fine, TidyText, placeholderPaths, String.toList_ofList]
    exact ⟨hnext.tidy, hnext.paths⟩

end Context.Serves

end WorkflowCompiler
