import WorkflowCompiler.Proofs.Context.Resolution

/-!
# Substituting as a function of the context

A substitution reads its result off the context, like the resolving that it is made of, and does
nothing to the context but keep outputs (`Reads`). So what a text becomes is a function of the
context (`Context.substituteIn`, `Context.substituteShellIn`), and contexts that agree substitute
alike.
-/

namespace WorkflowCompiler

open Attempt

/-! ## Computations that read the context -/

/-- The computation ends as the function says of the context, and the context that it leaves at
most keeps more outputs. -/
def Reads {ε α : Type} (x : Attempt Session ε α) (f : Context → Except ε α) : Prop :=
  ∀ s, ∃ s', x s = (f s.context, s') ∧ s.context.Remembers s'.context

/-- The function says the same of a context that keeps more outputs. -/
def Persistent {β : Type} (f : Context → β) : Prop := ∀ c c', Context.Remembers c c' → f c' = f c

section Reads

variable {ε ε' α β : Type}

theorem reads_pure (a : α) : Reads (pure a : Attempt Session ε α) fun _ => .ok a :=
  fun s => ⟨s, rfl, .refl _⟩

theorem reads_resolve (path : String) : Reads (resolve path) fun c => c.resolveIn path :=
  resolve_apply path

theorem Reads.bind {x : Attempt Session ε α} {f : Context → Except ε α}
    {y : α → Attempt Session ε β} {g : α → Context → Except ε β} (hx : Reads x f)
    (hy : ∀ a, Reads (y a) (g a)) (hg : ∀ a, Persistent (g a)) :
    Reads (x >>= y) fun c => f c >>= fun a => g a c := by
  intro s
  obtain ⟨s', hs, hremembers⟩ := hx s
  rcases hf : f s.context with e | a
  · rw [hf] at hs
    refine ⟨s', ?_, hremembers⟩
    simp only [bind_apply_of_error hs, hf]
    rfl
  · rw [hf] at hs
    obtain ⟨s'', hs', hremembers'⟩ := hy a s'
    refine ⟨s'', ?_, hremembers.trans hremembers'⟩
    simp only [bind_apply_of_ok hs, hs', hg a _ _ hremembers, hf]
    rfl

theorem Reads.mapError {x : Attempt Session ε α} {f : Context → Except ε α} (h : Reads x f)
    (g : ε → ε') : Reads (mapError g x) fun c => (f c).mapError g := by
  intro s
  obtain ⟨s', hs, hremembers⟩ := h s
  exact ⟨s', by rw [mapError_apply, hs], hremembers⟩

theorem Reads.congr {x : Attempt Session ε α} {f g : Context → Except ε α} (h : Reads x f)
    (hfg : ∀ c, f c = g c) : Reads x g := by
  intro s
  rw [← hfg]
  exact h s

end Reads

/-! ## What a text becomes -/

namespace Context

variable (c : Context)

/-- What is put in the place of a placeholder, and whether it was replaced. -/
def replacement (write : Json → String) (piece : Piece) : Resolution → List Char × Bool
  | .value value => ((write value).toList, true)
  | .deferred => (piece.chars, false)

/-- What is put in the place of a piece, and whether it was replaced. -/
def expandPieceIn (write : Json → String) (piece : Piece) :
    Except ResolutionError (List Char × Bool) :=
  match piece.path? with
  | none => .ok (piece.chars, false)
  | some path => (c.resolveIn path).map (replacement write piece)

/-- What is put in the place of pieces, and whether one was replaced. -/
def expandIn (write : Json → String) : List Piece → Except ResolutionError (List Char × Bool)
  | [] => .ok ([], false)
  | piece :: rest => do
    let head ← c.expandPieceIn write piece
    let tail ← expandIn write rest
    .ok (head.1 ++ tail.1, head.2 || tail.2)

/-- What a text becomes after so many passes. -/
def roundsIn : Nat → List Char → Except ResolutionError (List Char)
  | 0, text =>
    let paths := (pieces text).filterMap Piece.path?
    if paths = [] || c.deferred then .ok text else .error (.unresolved maxRounds paths)
  | rounds + 1, text => do
    let next ← c.expandIn Json.text (pieces text)
    if next.2 then roundsIn rounds next.1 else .ok next.1

/-- What a text becomes. -/
def substituteIn (text : String) : Except ResolutionError String :=
  (c.roundsIn maxRounds text.toList).map String.ofList

/-- What a text becomes for the shell. -/
def substituteShellIn (text : String) : Except ResolutionError String :=
  (c.expandIn (fun value => ShellWord.quote value.text) (pieces text.toList)).map
    fun next => String.ofList next.1

variable {c} {c' : Context}

theorem forall_mem_paths_cons {P : String → Prop} {piece : Piece} {ps : List Piece} :
    (∀ path ∈ (piece :: ps).filterMap Piece.path?, P path) ↔
      (∀ path, piece.path? = some path → P path) ∧ ∀ path ∈ ps.filterMap Piece.path?, P path := by
  rcases hpath : piece.path? with _ | path
  · rw [List.filterMap_cons_none hpath]
    simp
  · rw [List.filterMap_cons_some hpath, List.forall_mem_cons]
    simp

theorem expandPieceIn_congr {write : Json → String} {piece : Piece}
    (h : ∀ path, piece.path? = some path → c'.resolveIn path = c.resolveIn path) :
    c'.expandPieceIn write piece = c.expandPieceIn write piece := by
  rw [expandPieceIn, expandPieceIn]
  cases hpath : piece.path? with
  | none => rfl
  | some path => simp only [h path hpath]

/-- A pass only asks for the paths of its placeholders. -/
theorem expandIn_congr_of_mem {write : Json → String} {ps : List Piece}
    (h : ∀ path ∈ ps.filterMap Piece.path?, c'.resolveIn path = c.resolveIn path) :
    c'.expandIn write ps = c.expandIn write ps := by
  induction ps with
  | nil => rfl
  | cons piece rest ih =>
    obtain ⟨hhead, hrest⟩ := forall_mem_paths_cons.1 h
    rw [expandIn, expandIn, expandPieceIn_congr hhead, ih hrest]

theorem expandIn_congr {write : Json → String} {ps : List Piece}
    (h : ∀ path, c'.resolveIn path = c.resolveIn path) :
    c'.expandIn write ps = c.expandIn write ps :=
  expandIn_congr_of_mem fun path _ => h path

theorem roundsIn_congr {rounds : Nat} {text : List Char}
    (h : ∀ path, c'.resolveIn path = c.resolveIn path) (hdeferred : c'.deferred = c.deferred) :
    c'.roundsIn rounds text = c.roundsIn rounds text := by
  induction rounds generalizing text with
  | zero => rw [roundsIn, roundsIn, hdeferred]
  | succ rounds ih =>
    rw [roundsIn, roundsIn, expandIn_congr h]
    simp only [ih]

end Context

/-- Contexts that agree substitute alike. -/
theorem Context.Alike.substituteIn_eq {c c' : Context} (h : c.Alike c') (text : String) :
    c'.substituteIn text = c.substituteIn text := by
  rw [substituteIn, substituteIn, roundsIn_congr h.resolveIn_eq h.deferred_eq]

theorem Context.Alike.substituteShellIn_eq {c c' : Context} (h : c.Alike c') (text : String) :
    c'.substituteShellIn text = c.substituteShellIn text := by
  rw [substituteShellIn, substituteShellIn, expandIn_congr h.resolveIn_eq]

/-! ## Contexts that resolve more -/

/-- The second context resolves whatever the first one resolves, and to the same. -/
structure Context.Refines (c c' : Context) : Prop where
  /-- what is resolved is resolved to the same -/
  resolveIn_eq : ∀ {path : String} {r : Resolution},
    c.resolveIn path = .ok r → c'.resolveIn path = .ok r
  /-- what may stay unresolved may stay so -/
  deferred : c.deferred = true → c'.deferred = true

theorem eq_ok_of_mapError_eq_ok {ε ε' α : Type} {x : Except ε α} {g : ε → ε'} {a : α}
    (h : x.mapError g = .ok a) : x = .ok a := by
  cases x with
  | error e => cases h
  | ok b =>
    cases h
    rfl

theorem exists_of_bind_eq_ok {ε α β : Type} {x : Except ε α} {f : α → Except ε β} {b : β}
    (h : (x >>= f) = .ok b) : ∃ a, x = .ok a ∧ f a = .ok b := by
  cases x with
  | error e => cases h
  | ok a => exact ⟨a, rfl, h⟩

namespace Context

variable {c c' : Context}

theorem Alike.refines (h : c.Alike c') : c.Refines c' where
  resolveIn_eq := fun hr => (h.resolveIn_eq _).trans hr
  deferred := fun hd => h.deferred_eq.trans hd

namespace Refines

theorem expandPieceIn_eq (h : c.Refines c') {write : Json → String} {piece : Piece}
    {next : List Char × Bool} (hok : c.expandPieceIn write piece = .ok next) :
    c'.expandPieceIn write piece = .ok next := by
  cases hpath : piece.path? with
  | none =>
    rw [expandPieceIn, hpath] at hok ⊢
    exact hok
  | some path =>
    simp only [expandPieceIn, hpath] at hok ⊢
    rcases hr : c.resolveIn path with e | r
    · rw [hr] at hok
      cases hok
    · rw [hr] at hok
      rw [h.resolveIn_eq hr]
      exact hok

theorem expandIn_eq (h : c.Refines c') {write : Json → String} {ps : List Piece}
    {next : List Char × Bool} (hok : c.expandIn write ps = .ok next) :
    c'.expandIn write ps = .ok next := by
  induction ps generalizing next with
  | nil => exact hok
  | cons piece rest ih =>
    obtain ⟨head, hhead, hok⟩ := exists_of_bind_eq_ok hok
    obtain ⟨tail, htail, hok⟩ := exists_of_bind_eq_ok hok
    rw [expandIn, h.expandPieceIn_eq hhead, ih htail]
    exact hok

theorem roundsIn_eq (h : c.Refines c') {rounds : Nat} {text next : List Char}
    (hok : c.roundsIn rounds text = .ok next) : c'.roundsIn rounds text = .ok next := by
  induction rounds generalizing text with
  | zero =>
    simp only [roundsIn] at hok ⊢
    split at hok
    · rename_i hleft
      -- what is left in the text is left by the other context as well
      rw [Bool.or_eq_true] at hleft
      rw [if_pos (by rw [Bool.or_eq_true]; exact hleft.imp_right h.deferred)]
      exact hok
    · cases hok
  | succ rounds ih =>
    obtain ⟨pass, hpass, hok⟩ := exists_of_bind_eq_ok hok
    rw [roundsIn, h.expandIn_eq hpass]
    obtain ⟨out, replaced⟩ := pass
    cases replaced with
    | false => exact hok
    | true => exact ih hok

theorem substituteIn_eq (h : c.Refines c') {text out : String}
    (hok : c.substituteIn text = .ok out) : c'.substituteIn text = .ok out := by
  rw [substituteIn] at hok ⊢
  rcases hrounds : c.roundsIn maxRounds text.toList with e | next
  · rw [hrounds] at hok
    cases hok
  · rw [hrounds] at hok
    rw [h.roundsIn_eq hrounds]
    exact hok

theorem substituteShellIn_eq (h : c.Refines c') {text out : String}
    (hok : c.substituteShellIn text = .ok out) : c'.substituteShellIn text = .ok out := by
  rw [substituteShellIn] at hok ⊢
  rcases hpass : c.expandIn (fun value => ShellWord.quote value.text) (pieces text.toList) with
    e | next
  · rw [hpass] at hok
    cases hok
  · rw [hpass] at hok
    rw [h.expandIn_eq hpass]
    exact hok

end Refines

end Context

/-! ## What substitutions read -/

theorem reads_expandPiece (write : Json → String) (piece : Piece) :
    Reads (expandPiece write piece) fun c => c.expandPieceIn write piece := by
  rcases hpath : piece.path? with _ | path
  · simp only [expandPiece, Context.expandPieceIn, hpath]
    exact reads_pure _
  · simp only [expandPiece, Context.expandPieceIn, hpath]
    refine ((reads_resolve path).bind
      (g := fun r _ => .ok (Context.replacement write piece r)) ?_ fun _ _ _ _ => rfl).congr ?_
    · intro r
      cases r <;> exact reads_pure _
    · intro c
      cases c.resolveIn path <;> rfl

theorem reads_expandPieces (write : Json → String) (ps : List Piece) :
    Reads (expandPieces write ps) fun c => c.expandIn write ps := by
  induction ps with
  | nil => exact reads_pure _
  | cons piece rest ih =>
    refine (reads_expandPiece write piece).bind (fun head => ih.bind (fun tail => reads_pure _)
      fun _ _ _ _ => rfl) fun head c c' h => ?_
    simp only [Context.expandIn_congr h.alike.resolveIn_eq]

theorem reads_settle (text : List Char) : Reads (settle text) fun c => c.roundsIn 0 text := by
  intro s
  refine ⟨s, ?_, .refl _⟩
  simp only [settle, bind_apply_of_ok (ask_apply _ s), Context.roundsIn]
  split <;> rfl

theorem reads_substituteRounds (rounds : Nat) (text : List Char) :
    Reads (substituteRounds rounds text) fun c => c.roundsIn rounds text := by
  induction rounds generalizing text with
  | zero => exact reads_settle text
  | succ rounds ih =>
    refine (reads_expandPieces Json.text (pieces text)).bind
      (g := fun next c => if next.2 then c.roundsIn rounds next.1 else .ok next.1) ?_ ?_
    · rintro ⟨next, replaced⟩
      cases replaced with
      | false => exact reads_pure next
      | true => exact ih next
    · rintro ⟨next, replaced⟩ c c' h
      simp only [Context.roundsIn_congr h.alike.resolveIn_eq h.alike.deferred_eq]

/-- What a substitution reads off the context. -/
theorem reads_substitute (text : String) :
    Reads (substitute text) fun c => c.substituteIn text := by
  rw [substitute_eq]
  refine ((reads_substituteRounds maxRounds text.toList).bind (fun _ => reads_pure _)
    fun _ _ _ _ => rfl).congr fun c => ?_
  rw [Context.substituteIn]
  cases c.roundsIn maxRounds text.toList <;> rfl

/-- What a substitution for the shell reads off the context. -/
theorem reads_substituteShell (text : String) :
    Reads (substituteShell text) fun c => c.substituteShellIn text := by
  rw [substituteShell_eq]
  refine ((reads_expandPieces _ (pieces text.toList)).bind (fun _ => reads_pure _)
    fun _ _ _ _ => rfl).congr fun c => ?_
  rw [Context.substituteShellIn]
  cases c.expandIn (fun value => ShellWord.quote value.text) (pieces text.toList) <;> rfl

end WorkflowCompiler
