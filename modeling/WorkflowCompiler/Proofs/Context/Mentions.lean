import WorkflowCompiler.Proofs.Context.Leftovers
import WorkflowCompiler.Proofs.Placeholder.Grammar

/-!
# Texts that mention a root

A text mentions a root if one of its placeholders is rooted in it (`Mentions`). Contexts that differ
in one root only (`Context.AgreesBut`) make the same of a text until a pass brings the root in
(`Context.AgreesBut.roundsIn_eq_or_mentions`). A root that has to wait, or stands for a text that
mentions it itself, *recurs*: it is mentioned ever after (`Context.Recurs.mentions_of_roundsIn`).

A text is settled in a context if all its placeholders have to wait there (`Context.SettledIn`). Put
between texts without braces it is still settled, so that a placeholder that stands for it comes to
it in one pass (`Context.substituteIn_between`).
-/

namespace WorkflowCompiler

/-! ## Pieces of texts put together -/

section Pieces

variable {before after text : List Char}

theorem pieces_append_left (h : before.all isBraceFree = true) (text : List Char) :
    pieces (before ++ text) = before.map .char ++ pieces text := by
  induction before with
  | nil => rfl
  | cons c before ih =>
    rw [List.all_cons, Bool.and_eq_true] at h
    have hbrace : c ≠ '\x7b' := by
      rintro rfl
      exact absurd h.1 (by decide)
    rw [List.cons_append, pieces_of_slotAt?_eq_none (slotAt?_char hbrace _), ih h.2]
    rfl

/-- What has no braces does not end a slot that starts before it. -/
theorem slotAt?_append_right (h : after.all isBraceFree = true)
    (hnone : slotAt? text = none) : slotAt? (text ++ after) = none := by
  rcases hslot : slotAt? (text ++ after) with _ | ⟨body, rest⟩
  · rfl
  · exfalso
    obtain ⟨heq, hbody⟩ := eq_of_slotAt?_eq_some hslot
    rcases List.append_eq_append_iff.1 heq with ⟨right, hsplit, hright⟩ | ⟨right, hsplit, -⟩
    · rcases List.eq_nil_or_concat right with rfl | ⟨init, last, rfl⟩
      · rw [List.append_nil] at hsplit
        rw [← hsplit, ← List.append_nil (Piece.slot body).chars, slotAt?_slot hbody] at hnone
        cases hnone
      · -- the last character of the slot stands behind the text
        have hlast : last = '\x7d' := by
          have hends := congrArg List.getLast? hsplit
          rw [List.concat_eq_append, ← List.append_assoc, List.getLast?_concat, Piece.chars,
            show (['\x7d', '\x7d'] : List Char) = ['\x7d'] ++ ['\x7d'] from rfl,
            ← List.append_assoc, List.getLast?_concat] at hends
          exact (Option.some.inj hends).symm
        have hmem : last ∈ after := by simp [hright]
        rw [hlast] at hmem
        exact absurd (List.all_eq_true.1 h _ hmem) (by decide)
    · rw [hsplit, slotAt?_slot hbody] at hnone
      cases hnone

theorem pieces_append_right (text : List Char) (h : after.all isBraceFree = true) :
    pieces (text ++ after) = pieces text ++ after.map .char := by
  fun_induction pieces text with
  | case1 =>
    have hafter := pieces_append_left h []
    rwa [List.append_nil, pieces_nil, List.append_nil] at hafter
  | case2 c cs body rest hslot ih =>
    obtain ⟨heq, hbody⟩ := eq_of_slotAt?_eq_some hslot
    rw [heq, List.append_assoc, pieces_of_slotAt?_eq_some (slotAt?_slot hbody _), ih]
    rfl
  | case3 c cs hslot ih =>
    have hnone := slotAt?_append_right h hslot
    rw [List.cons_append] at hnone ⊢
    rw [pieces_of_slotAt?_eq_none hnone, ih]
    rfl

theorem filterMap_path?_char (cs : List Char) :
    (cs.map Piece.char).filterMap Piece.path? = [] := by
  rw [List.filterMap_map, List.filterMap_eq_nil_iff]
  exact fun _ _ => rfl

end Pieces

/-! ## Mentioning -/

/-- What is rooted in one name has the name as its first segment. -/
theorem rootedIn_singleton {root path : String} :
    RootedIn [root] path ↔ ∃ fields, Referent.ofPath path = .binding root fields := by
  constructor
  · rintro ⟨name, fields, hpath, hname⟩
    rw [List.mem_singleton.1 hname] at hpath
    exact ⟨fields, hpath⟩
  · rintro ⟨fields, hpath⟩
    exact ⟨root, fields, hpath, List.mem_singleton_self root⟩

/-- A placeholder of the text is rooted in the name. -/
def Mentions (root : String) (text : List Char) : Prop :=
  ∃ path ∈ (pieces text).filterMap Piece.path?, RootedIn [root] path

variable {root : String} {text next : List Char}

/-- The placeholder stands in the text, whatever stands around it. -/
theorem mentions_iff_exists_append :
    Mentions root text ↔ ∃ body path, body.all isBraceFree = true ∧
      (Piece.slot body).path? = some path ∧ RootedIn [root] path ∧
      ∃ before after, text = before ++ ((Piece.slot body).chars ++ after) := by
  constructor
  · rintro ⟨path, hmem, hroot⟩
    obtain ⟨piece, hpiece, hpath⟩ := List.mem_filterMap.1 hmem
    obtain _ | body := piece
    · cases hpath
    · have hbody : (Piece.slot body).Proper := proper_of_mem_pieces hpiece
      obtain ⟨before, after, hsplit⟩ := List.append_of_mem hpiece
      refine ⟨body, path, hbody, hpath, hroot, before.flatMap Piece.chars,
        after.flatMap Piece.chars, ?_⟩
      rw [← pieces_chars text, hsplit, List.flatMap_append, List.flatMap_cons]
  · rintro ⟨body, path, hbody, hpath, hroot, before, after, rfl⟩
    refine ⟨path, ?_, hroot⟩
    rw [pieces_append_slot hbody]
    exact List.mem_filterMap.2 ⟨_, List.mem_append_right _ List.mem_cons_self, hpath⟩

theorem Mentions.append (h : Mentions root text) (before after : List Char) :
    Mentions root (before ++ (text ++ after)) := by
  obtain ⟨body, path, hbody, hpath, hroot, left, right, rfl⟩ := mentions_iff_exists_append.1 h
  refine mentions_iff_exists_append.2
    ⟨body, path, hbody, hpath, hroot, before ++ left, right ++ after, ?_⟩
  simp only [List.append_assoc]

namespace Context

variable {c c' : Context} {write : Json → String} {ps qs : List Piece} {rounds : Nat}

/-! ## Passes -/

theorem expandIn_append (c : Context) (write : Json → String) (ps qs : List Piece) :
    c.expandIn write (ps ++ qs) = (do
      let left ← c.expandIn write ps
      let right ← c.expandIn write qs
      .ok (left.1 ++ right.1, left.2 || right.2)) := by
  induction ps with
  | nil =>
    rw [List.nil_append, expandIn]
    rcases c.expandIn write qs with e | ⟨right, replaced⟩ <;> rfl
  | cons piece ps ih =>
    rw [List.cons_append, expandIn, expandIn, ih]
    rcases c.expandPieceIn write piece with e | ⟨head, first⟩
    · rfl
    · rcases c.expandIn write ps with e | ⟨left, later⟩
      · rfl
      · rcases c.expandIn write qs with e | ⟨right, last⟩
        · rfl
        · simp only [bind, Except.bind, List.append_assoc, Bool.or_assoc]

/-- A placeholder that has to wait is left as it stands. -/
theorem expandPieceIn_of_deferred {piece : Piece}
    (h : ∀ path, piece.path? = some path → c.resolveIn path = .ok .deferred) :
    c.expandPieceIn write piece = .ok (piece.chars, false) := by
  rw [expandPieceIn]
  rcases hpath : piece.path? with _ | path
  · rfl
  · simp only [h path hpath]
    rfl

/-- A pass over placeholders that all have to wait leaves the pieces as they stand. -/
theorem expandIn_of_deferred
    (h : ∀ path ∈ ps.filterMap Piece.path?, c.resolveIn path = .ok .deferred) :
    c.expandIn write ps = .ok (ps.flatMap Piece.chars, false) := by
  induction ps with
  | nil => rfl
  | cons piece rest ih =>
    obtain ⟨hhead, hrest⟩ := forall_mem_paths_cons.1 h
    rw [expandIn, expandPieceIn_of_deferred hhead, ih hrest]
    rfl

/-! ## Roots that recur -/

/-- Where the root stands for a value, the text of that mentions the root again. -/
def Recurs (root : String) (c : Context) : Prop :=
  ∀ path value, RootedIn [root] path → c.resolveIn path = .ok (.value value) →
    Mentions root value.text.toList

/-- A pass does not lose a root that recurs. -/
theorem Recurs.mentions_of_expandIn (hc : c.Recurs root) {replaced : Bool}
    (h : c.expandIn Json.text (pieces text) = .ok (next, replaced)) (hm : Mentions root text) :
    Mentions root next := by
  obtain ⟨path, hmem, hroot⟩ := hm
  obtain ⟨piece, hpiece, hpath⟩ := List.mem_filterMap.1 hmem
  obtain ⟨before, after, hsplit⟩ := List.append_of_mem hpiece
  rw [hsplit, expandIn_append] at h
  obtain ⟨⟨left, first⟩, -, h⟩ := exists_of_bind_eq_ok h
  obtain ⟨⟨right, last⟩, hright, h⟩ := exists_of_bind_eq_ok h
  obtain ⟨⟨head, here⟩, hhead, hright⟩ := exists_of_bind_eq_ok hright
  obtain ⟨⟨tail, later⟩, -, hright⟩ := exists_of_bind_eq_ok hright
  cases hright
  cases h
  -- what stands in the place of the placeholder mentions the root
  refine Mentions.append ?_ left tail
  rw [expandPieceIn] at hhead
  simp only [hpath] at hhead
  rcases hvalue : c.resolveIn path with e | value | _
  · rw [hvalue] at hhead
    cases hhead
  · rw [hvalue] at hhead
    cases hhead
    exact hc path value hroot hvalue
  · rw [hvalue] at hhead
    cases hhead
    obtain _ | body := piece
    · cases hpath
    · have hbody : (Piece.slot body).Proper := proper_of_mem_pieces hpiece
      exact mentions_iff_exists_append.2
        ⟨body, path, hbody, hpath, hroot, [], [], by rw [List.append_nil, List.nil_append]⟩

theorem Recurs.mentions_of_roundsIn (hc : c.Recurs root)
    (h : c.roundsIn rounds text = .ok next) (hm : Mentions root text) : Mentions root next := by
  induction rounds generalizing text with
  | zero =>
    simp only [roundsIn] at h
    split at h
    · cases h
      exact hm
    · cases h
  | succ rounds ih =>
    obtain ⟨⟨pass, replaced⟩, hpass, h⟩ := exists_of_bind_eq_ok h
    have hmentions := hc.mentions_of_expandIn hpass hm
    cases replaced with
    | false =>
      cases h
      exact hmentions
    | true => exact ih h hmentions

/-! ## Contexts that differ in a root -/

/-- The contexts resolve alike what is not rooted in one of the names. -/
structure AgreesBut (roots : List String) (c c' : Context) : Prop where
  /-- other paths resolve to the same -/
  resolveIn_eq : ∀ path, ¬ RootedIn roots path → c'.resolveIn path = c.resolveIn path
  /-- the same deferral -/
  deferred_eq : c'.deferred = c.deferred

/-- Two contexts make the same of a text, or of a text that mentions the root in which they
differ. -/
theorem AgreesBut.roundsIn_eq_or_mentions (h : c.AgreesBut [root] c') {out out' : List Char}
    (hout : c.roundsIn rounds text = .ok out) (hout' : c'.roundsIn rounds text = .ok out') :
    out' = out ∨ ∃ rounds text, Mentions root text ∧ c.roundsIn rounds text = .ok out ∧
      c'.roundsIn rounds text = .ok out' := by
  induction rounds generalizing text with
  | zero =>
    left
    simp only [roundsIn, h.deferred_eq] at hout hout'
    split at hout
    · rename_i hleft
      rw [if_pos hleft] at hout'
      cases hout
      cases hout'
      rfl
    · cases hout
  | succ rounds ih =>
    by_cases hm : Mentions root text
    · exact .inr ⟨_, text, hm, hout, hout'⟩
    · have hsame : c'.expandIn Json.text (pieces text) = c.expandIn Json.text (pieces text) :=
        expandIn_congr_of_mem fun path hpath =>
          h.resolveIn_eq path fun hroot => hm ⟨path, hpath, hroot⟩
      obtain ⟨⟨pass, replaced⟩, hpass, hout⟩ := exists_of_bind_eq_ok hout
      rw [roundsIn, hsame, hpass] at hout'
      cases replaced with
      | false =>
        cases hout
        cases hout'
        exact .inl rfl
      | true => exact ih hout hout'

/-! ## Settled texts -/

/-- All placeholders of the text have to wait. -/
def SettledIn (c : Context) (text : List Char) : Prop :=
  ∀ path ∈ (pieces text).filterMap Piece.path?, c.resolveIn path = .ok .deferred

theorem SettledIn.roundsIn_eq (h : c.SettledIn text) (rounds : Nat) :
    c.roundsIn (rounds + 1) text = .ok text := by
  rw [roundsIn, expandIn_of_deferred h, pieces_chars]
  rfl

theorem SettledIn.between {before after : List Char} (h : c.SettledIn text)
    (hbefore : before.all isBraceFree = true) (hafter : after.all isBraceFree = true) :
    c.SettledIn (before ++ (text ++ after)) := by
  rw [SettledIn, pieces_append_left hbefore, pieces_append_right _ hafter, List.filterMap_append,
    List.filterMap_append, filterMap_path?_char, filterMap_path?_char, List.nil_append,
    List.append_nil]
  exact h

/-- A root that is not bound late is not mentioned in a settled text. -/
theorem SettledIn.not_mentions (h : c.SettledIn text)
    (hlate : root ∉ c.late) : ¬ Mentions root text := by
  rintro ⟨path, hmem, hroot⟩
  obtain ⟨fields, hreferent⟩ := rootedIn_singleton.1 hroot
  have hwait := h path hmem
  simp only [resolveIn, hreferent, resolveBinding, if_neg hlate] at hwait
  split at hwait
  · exact map_value_ne_deferred _ hwait
  · split at hwait <;> cases hwait

/-- A strict context leaves settled texts. -/
theorem Strict.settledIn_of_substituteIn (hc : c.Strict c.late) {text out : String}
    (h : c.substituteIn text = .ok out) : c.SettledIn out.toList := by
  intro path hpath
  obtain ⟨name, fields, hname, hlate⟩ := hc.leftTo_of_substituteIn h path hpath
  rw [resolveIn, hname]
  simp only [resolveBinding, if_pos hlate]

/-- A pass leaves a text without braces. -/
theorem expandIn_of_braceFree (h : text.all isBraceFree = true) :
    c.expandIn write (pieces text) = .ok (text, false) := by
  have hpieces := pieces_append_left h []
  rw [List.append_nil, pieces_nil, List.append_nil] at hpieces
  rw [expandIn_of_deferred, pieces_chars]
  rw [hpieces, filterMap_path?_char]
  exact fun path hpath => absurd hpath List.not_mem_nil

/-- A pass over a placeholder between texts without braces puts its value there. -/
theorem expandIn_between {body before after : List Char} {path : String} {value : Json}
    (hbody : body.all isBraceFree = true) (hpath : (Piece.slot body).path? = some path)
    (hvalue : c.resolveIn path = .ok (.value value)) (hbefore : before.all isBraceFree = true)
    (hafter : after.all isBraceFree = true) :
    c.expandIn write (pieces (before ++ ((Piece.slot body).chars ++ after))) =
      .ok (before ++ ((write value).toList ++ after), true) := by
  have hslot : c.expandPieceIn write (.slot body) = .ok ((write value).toList, true) := by
    rw [expandPieceIn]
    simp only [hpath, hvalue]
    rfl
  rw [pieces_append_slot hbody, expandIn_append, expandIn_of_braceFree hbefore, expandIn, hslot,
    expandIn_of_braceFree hafter]
  rfl

theorem substituteIn_eq_ok_iff {text out : String} :
    c.substituteIn text = .ok out ↔ c.roundsIn maxRounds text.toList = .ok out.toList := by
  rw [substituteIn]
  rcases c.roundsIn maxRounds text.toList with e | next
  · constructor <;> (intro h; cases h)
  · change Except.ok (String.ofList next) = .ok out ↔ Except.ok next = .ok out.toList
    rw [Except.ok.injEq, Except.ok.injEq, ← String.toList_inj, String.toList_ofList]

/-- A pass that replaces something is gone on from. -/
theorem roundsIn_of_expandIn (h : c.expandIn Json.text (pieces text) = .ok (next, true))
    (rounds : Nat) : c.roundsIn (rounds + 1) text = c.roundsIn rounds next := by
  rw [roundsIn, h]
  rfl

/-- It takes one pass to put what a placeholder stands for in its place. -/
theorem substituteIn_slot_eq_ok_iff {body : List Char} {path out : String} {value : Json}
    (hbody : body.all isBraceFree = true) (hpath : (Piece.slot body).path? = some path)
    (hvalue : c.resolveIn path = .ok (.value value)) :
    c.substituteIn (String.ofList (Piece.slot body).chars) = .ok out ↔
      c.roundsIn (maxRounds - 1) value.text.toList = .ok out.toList := by
  have hpass : c.expandIn Json.text (pieces ([] ++ ((Piece.slot body).chars ++ []))) =
      .ok ([] ++ (value.text.toList ++ []), true) :=
    expandIn_between hbody hpath hvalue rfl rfl
  rw [List.nil_append, List.append_nil, List.nil_append, List.append_nil] at hpass
  obtain ⟨rounds, hrounds⟩ : ∃ rounds, maxRounds = rounds + 1 := ⟨9, rfl⟩
  rw [substituteIn_eq_ok_iff, hrounds, Nat.add_sub_cancel, String.toList_ofList,
    roundsIn_of_expandIn hpass]

/-- Between texts without braces, a placeholder comes to the settled text that it stands for. -/
theorem substituteIn_between {body : List Char} {path value before after : String}
    (hbody : body.all isBraceFree = true) (hpath : (Piece.slot body).path? = some path)
    (hvalue : c.resolveIn path = .ok (.value (.str value))) (hsettled : c.SettledIn value.toList)
    (hbefore : before.toList.all isBraceFree = true)
    (hafter : after.toList.all isBraceFree = true) :
    c.substituteIn (before ++ String.ofList (Piece.slot body).chars ++ after) =
      .ok (before ++ value ++ after) := by
  have hpass : c.expandIn Json.text
      (pieces (before.toList ++ ((Piece.slot body).chars ++ after.toList))) =
        .ok (before.toList ++ ((Json.str value).text.toList ++ after.toList), true) :=
    expandIn_between hbody hpath hvalue hbefore hafter
  rw [Json.text] at hpass
  obtain ⟨rounds, hrounds⟩ : ∃ rounds, maxRounds = rounds + 1 + 1 := ⟨8, rfl⟩
  rw [substituteIn_eq_ok_iff, hrounds, String.append_assoc, String.append_assoc]
  simp only [String.toList_append, String.toList_ofList]
  rw [roundsIn_of_expandIn hpass, (hsettled.between hbefore hafter).roundsIn_eq]

end Context

end WorkflowCompiler
