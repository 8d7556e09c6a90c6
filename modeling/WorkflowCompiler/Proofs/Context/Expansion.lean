import Mathlib.Data.List.Basic
import WorkflowCompiler.Proofs.Context.Replacing
import WorkflowCompiler.Proofs.Placeholder.Tidy

/-!
# Substituting is expanding

A substitution makes passes over a whole text. What it should come to is said placeholder by
placeholder: each is replaced by the expansion of the text of its value (`Context.Expands`). For
texts and values that are *clean*, put together from characters that are no braces and from
placeholders, the two agree (`substitute_eq_expansion`).

A pass takes a text to the next level of nesting: what is left of the placeholders after so many
passes are those that stand behind so many others (`Context.placeholdersAt`).
-/

namespace WorkflowCompiler

/-! ## Clean texts -/

/-- The piece is a character that is no brace, or a placeholder. -/
def Piece.Clean : Piece → Prop
  | .char c => isBraceFree c = true
  | .slot body => body.all isBraceFree = true ∧ (Piece.slot body).path?.isSome = true

instance (piece : Piece) : Decidable piece.Clean :=
  match piece with
  | .char c => inferInstanceAs (Decidable (isBraceFree c = true))
  | .slot body =>
    inferInstanceAs
      (Decidable (body.all isBraceFree = true ∧ (Piece.slot body).path?.isSome = true))

/-- The text is put together from characters that are no braces and from placeholders. -/
def CleanText (text : String) : Prop :=
  ∃ ps : List Piece, (∀ piece ∈ ps, piece.Clean) ∧ text.toList = ps.flatMap Piece.chars

theorem Piece.Clean.proper {piece : Piece} (h : piece.Clean) : piece.Proper := by
  cases piece with
  | char c => trivial
  | slot body => exact h.1

theorem tidy_of_clean {ps : List Piece} (h : ∀ piece ∈ ps, piece.Clean) : tidy ps = true := by
  induction ps with
  | nil => rfl
  | cons piece rest ih =>
    rw [List.forall_mem_cons] at h
    have hpiece : tidy [piece] = true := by
      cases piece with
      | slot body => rfl
      | char c =>
        have hbrace : c ≠ '\x7b' := by
          rintro rfl
          exact absurd h.1 (by decide)
        rw [tidy]
        · rfl
        · rintro _ _ ⟨⟩
        · exact hbrace
    exact tidy_append hpiece (ih h.2)

/-- Clean pieces are read as the pieces they are. -/
theorem pieces_of_clean {ps : List Piece} (h : ∀ piece ∈ ps, piece.Clean) :
    pieces (ps.flatMap Piece.chars) = ps :=
  pieces_flatMap_chars (fun piece hpiece => (h piece hpiece).proper) (tidy_of_clean h)

theorem cleanText_iff {text : String} :
    CleanText text ↔ ∀ piece ∈ pieces text.toList, piece.Clean := by
  constructor
  · rintro ⟨ps, hps, htext⟩
    rw [htext, pieces_of_clean hps]
    exact hps
  · intro h
    exact ⟨pieces text.toList, h, (pieces_chars _).symm⟩

instance (text : String) : Decidable (CleanText text) := decidable_of_iff' _ cleanText_iff

namespace Context

/-! ## Expansions -/

/-- The pieces expand to the characters: each placeholder to what the text of its value expands
to, and everything else to itself. -/
inductive Expands (c : Context) : List Piece → List Char → Prop where
  /-- nothing is left -/
  | nil : Expands c [] []
  /-- plain text stays as it stands -/
  | plain {piece : Piece} {rest : List Piece} {out : List Char} (hplain : piece.path? = none)
      (hrest : Expands c rest out) : Expands c (piece :: rest) (piece.chars ++ out)
  /-- a placeholder is expanded -/
  | placeholder {piece : Piece} {rest : List Piece} {path : String} {value : Json}
      {inner out : List Char} (hpath : piece.path? = some path)
      (hvalue : c.resolveIn path = .ok (.value value))
      (hinner : Expands c (pieces value.text.toList) inner) (hrest : Expands c rest out) :
      Expands c (piece :: rest) (inner ++ out)

variable {c : Context} {ps qs : List Piece} {texts : List String}

namespace Expands

/-- There is at most one expansion. -/
theorem unique {out out' : List Char} (h : c.Expands ps out) (h' : c.Expands ps out') :
    out' = out := by
  induction h generalizing out' with
  | nil =>
    cases h'
    rfl
  | plain hplain _ ih =>
    cases h' with
    | plain _ hrest' => rw [ih hrest']
    | placeholder hpath' =>
      rw [hplain] at hpath'
      cases hpath'
  | placeholder hpath hvalue _ _ ihinner ihrest =>
    cases h' with
    | plain hplain' =>
      rw [hpath] at hplain'
      cases hplain'
    | placeholder hpath' hvalue' hinner' hrest' =>
      rw [hpath, Option.some.injEq] at hpath'
      subst hpath'
      rw [hvalue, Except.ok.injEq, Resolution.value.injEq] at hvalue'
      subst hvalue'
      rw [ihinner hinner', ihrest hrest']

/-- Pieces without placeholders expand to what they stand for. -/
theorem of_plain (h : ps.filterMap Piece.path? = []) : c.Expands ps (ps.flatMap Piece.chars) := by
  induction ps with
  | nil => exact .nil
  | cons piece rest ih =>
    rw [List.filterMap_cons] at h
    rcases hpath : piece.path? with _ | path
    · rw [hpath] at h
      exact .plain hpath (ih h)
    · rw [hpath] at h
      cases h

/-- The expansion of pieces one after the other is made of their expansions. -/
theorem of_append {out : List Char} (h : c.Expands (ps ++ qs) out) :
    ∃ first second, out = first ++ second ∧ c.Expands ps first ∧ c.Expands qs second := by
  induction ps generalizing out with
  | nil => exact ⟨[], out, rfl, .nil, h⟩
  | cons piece rest ih =>
    cases h with
    | plain hplain hrest =>
      obtain ⟨first, second, rfl, hfirst, hsecond⟩ := ih hrest
      exact ⟨_, second, (List.append_assoc ..).symm, .plain hplain hfirst, hsecond⟩
    | placeholder hpath hvalue hinner hrest =>
      obtain ⟨first, second, rfl, hfirst, hsecond⟩ := ih hrest
      exact ⟨_, second, (List.append_assoc ..).symm, .placeholder hpath hvalue hinner hfirst,
        hsecond⟩

end Expands

/-! ## Levels of nesting -/

/-- The texts of the values that the placeholders of a text resolve to. -/
def valueTexts (c : Context) (text : String) : List String :=
  (placeholderPaths text).filterMap fun path =>
    match c.resolveIn path with
    | .ok (.value value) => some value.text
    | _ => none

/-- The texts that are met behind so many placeholders when texts are expanded. -/
def textsMet (c : Context) : Nat → List String → List String
  | 0, texts => texts
  | n + 1, texts => c.textsMet n (texts.flatMap c.valueTexts)

/-- The placeholders that are met behind so many others when a text is expanded. -/
def placeholdersAt (c : Context) (n : Nat) (text : String) : List String :=
  (c.textsMet n [text]).flatMap placeholderPaths

/-- The placeholders in the text of the value that a path resolves to. -/
def valuePaths (c : Context) (path : String) : List String :=
  match c.resolveIn path with
  | .ok (.value value) => placeholderPaths value.text
  | _ => []

/-- The pieces that a pass puts in the place of a piece. -/
def unfold (c : Context) (piece : Piece) : List Piece :=
  match piece.path? with
  | none => [piece]
  | some path =>
    match c.resolveIn path with
    | .ok (.value value) => pieces value.text.toList
    | _ => [piece]

theorem textsMet_nil (c : Context) (n : Nat) : c.textsMet n [] = [] := by
  induction n with
  | zero => rfl
  | succ n ih => exact ih

theorem unfold_of_path?_eq_none {piece : Piece} (h : piece.path? = none) :
    c.unfold piece = [piece] := by
  rw [unfold, h]

theorem unfold_of_resolveIn {piece : Piece} {path : String} {value : Json}
    (h : piece.path? = some path) (hvalue : c.resolveIn path = .ok (.value value)) :
    c.unfold piece = pieces value.text.toList := by
  simp only [unfold, h, hvalue]

theorem mem_valueTexts {text path : String} {value : Json} (hpath : path ∈ placeholderPaths text)
    (hvalue : c.resolveIn path = .ok (.value value)) : value.text ∈ c.valueTexts text :=
  List.mem_filterMap.2 ⟨path, hpath, by rw [hvalue]⟩

/-- The pieces that a pass leaves stand for the characters it writes. -/
theorem flatMap_unfold_chars (c : Context) (ps : List Piece) :
    (ps.flatMap c.unfold).flatMap Piece.chars = ps.flatMap (c.written Json.text) := by
  rw [List.flatMap_assoc]
  refine List.flatMap_congr fun piece _ => ?_
  rcases hpath : piece.path? with _ | path
  · rw [unfold_of_path?_eq_none hpath, written_of_path?_eq_none hpath, List.flatMap_singleton]
  · simp only [unfold, written, hpath]
    rcases c.resolveIn path with _ | _ | _
    · exact List.flatMap_singleton ..
    · exact pieces_chars _
    · exact List.flatMap_singleton ..

/-- What the pieces that a pass leaves expand to is what they expanded to before it. -/
theorem expands_of_unfold (h : ∀ path ∈ ps.filterMap Piece.path?, c.Resolves path)
    {out : List Char} (hout : c.Expands (ps.flatMap c.unfold) out) : c.Expands ps out := by
  induction ps generalizing out with
  | nil => exact hout
  | cons piece rest ih =>
    obtain ⟨hhead, hrest⟩ := forall_mem_paths_cons.1 h
    rw [List.flatMap_cons] at hout
    obtain ⟨first, second, rfl, hfirst, hsecond⟩ := hout.of_append
    rcases hpath : piece.path? with _ | path
    · rw [unfold_of_path?_eq_none hpath] at hfirst
      have hkept : first = piece.chars :=
        (Expands.of_plain (by simp [hpath])).unique hfirst |>.trans (by simp)
      rw [hkept]
      exact .plain hpath (ih hrest hsecond)
    · obtain ⟨value, hvalue⟩ := hhead path hpath
      rw [unfold_of_resolveIn hpath hvalue] at hfirst
      exact .placeholder hpath hvalue hfirst (ih hrest hsecond)

/-- A pass puts the placeholders of the values in the place of those that it replaces. -/
theorem filterMap_flatMap_unfold (h : ∀ path ∈ ps.filterMap Piece.path?, c.Resolves path) :
    (ps.flatMap c.unfold).filterMap Piece.path? =
      (ps.filterMap Piece.path?).flatMap c.valuePaths := by
  rw [List.filterMap_flatMap, List.filterMap_eq_flatMap_toList, List.flatMap_assoc]
  refine List.flatMap_congr fun piece hpiece => ?_
  rcases hpath : piece.path? with _ | path
  · simp [unfold_of_path?_eq_none hpath, hpath]
  · obtain ⟨value, hvalue⟩ := h path (List.mem_filterMap.2 ⟨piece, hpiece, hpath⟩)
    rw [unfold_of_resolveIn hpath hvalue, Option.toList_some, List.flatMap_singleton, valuePaths,
      hvalue]
    rfl

/-- The placeholders in the texts of values are those of the values. -/
theorem flatMap_valueTexts_placeholderPaths (c : Context) (texts : List String) :
    (texts.flatMap c.valueTexts).flatMap placeholderPaths =
      (texts.flatMap placeholderPaths).flatMap c.valuePaths := by
  rw [List.flatMap_assoc, List.flatMap_assoc]
  refine List.flatMap_congr fun text _ => ?_
  rw [valueTexts, List.filterMap_eq_flatMap_toList, List.flatMap_assoc]
  refine List.flatMap_congr fun path _ => ?_
  rw [valuePaths]
  rcases c.resolveIn path with _ | _ | _
  · rfl
  · exact List.flatMap_singleton ..
  · rfl

/-- A pass takes the placeholders of a level to those of the next one. -/
theorem paths_flatMap_unfold (h : ∀ path ∈ ps.filterMap Piece.path?, c.Resolves path)
    (hpaths : ps.filterMap Piece.path? = texts.flatMap placeholderPaths) :
    (ps.flatMap c.unfold).filterMap Piece.path? =
      (texts.flatMap c.valueTexts).flatMap placeholderPaths := by
  rw [filterMap_flatMap_unfold h, hpaths, flatMap_valueTexts_placeholderPaths]

/-- A pass over clean pieces leaves clean pieces, if the values are clean. -/
theorem clean_of_mem_unfold (hps : ∀ piece ∈ ps, piece.Clean)
    (hpaths : ps.filterMap Piece.path? = texts.flatMap placeholderPaths)
    (hvalues : ∀ text ∈ texts.flatMap c.valueTexts, CleanText text) :
    ∀ piece ∈ ps.flatMap c.unfold, piece.Clean := by
  intro piece hpiece
  obtain ⟨outer, houter, hpiece⟩ := List.mem_flatMap.1 hpiece
  have hkept : piece ∈ [outer] → piece.Clean := by
    intro hmem
    rw [List.mem_singleton.1 hmem]
    exact hps outer houter
  rcases hpath : outer.path? with _ | path
  · rw [unfold_of_path?_eq_none hpath] at hpiece
    exact hkept hpiece
  · rcases hvalue : c.resolveIn path with e | value | _
    · simp only [unfold, hpath, hvalue] at hpiece
      exact hkept hpiece
    · rw [unfold_of_resolveIn hpath hvalue] at hpiece
      have hmet : path ∈ texts.flatMap placeholderPaths := by
        rw [← hpaths]
        exact List.mem_filterMap.2 ⟨outer, houter, hpath⟩
      obtain ⟨text, htext, hmem⟩ := List.mem_flatMap.1 hmet
      have hclean := hvalues _ (List.mem_flatMap.2 ⟨text, htext, mem_valueTexts hmem hvalue⟩)
      exact cleanText_iff.1 hclean piece hpiece
    · simp only [unfold, hpath, hvalue] at hpiece
      exact hkept hpiece

/-! ## Passes -/

/-- After so many passes over clean pieces, the placeholders that are left are those behind so many
others, and what is left expands to what the pieces expand to. -/
theorem exists_roundsIn_eq {rounds : Nat} (hdeferred : c.deferred = false)
    (hps : ∀ piece ∈ ps, piece.Clean)
    (hpaths : ps.filterMap Piece.path? = texts.flatMap placeholderPaths)
    (hclean : ∀ n ≤ rounds, ∀ text ∈ c.textsMet n texts, CleanText text)
    (hresolves : ∀ n < rounds, ∀ path ∈ (c.textsMet n texts).flatMap placeholderPaths,
      c.Resolves path) :
    ∃ qs, qs.filterMap Piece.path? = (c.textsMet rounds texts).flatMap placeholderPaths ∧
      (∀ out, c.Expands qs out → c.Expands ps out) ∧
      c.roundsIn rounds (ps.flatMap Piece.chars) =
        if qs.filterMap Piece.path? = [] then .ok (qs.flatMap Piece.chars)
        else .error (.unresolved maxRounds (qs.filterMap Piece.path?)) := by
  induction rounds generalizing ps texts with
  | zero =>
    refine ⟨ps, hpaths, fun _ hout => hout, ?_⟩
    simp only [roundsIn, pieces_of_clean hps, hdeferred, Bool.or_false, decide_eq_true_eq]
  | succ rounds ih =>
    have hps_resolve : ∀ path ∈ ps.filterMap Piece.path?, c.Resolves path := by
      rw [hpaths]
      exact hresolves 0 (Nat.succ_pos rounds)
    rw [roundsIn, pieces_of_clean hps, expandIn_of_resolves hps_resolve]
    cases hreplaced : ps.any fun piece => piece.path?.isSome with
    | false =>
      -- without placeholders there are no further levels, and the pass changes nothing
      have hnone : ps.filterMap Piece.path? = [] := by
        rw [List.filterMap_eq_nil_iff]
        intro piece hpiece
        have hplain := List.any_eq_false.1 hreplaced piece hpiece
        rwa [Bool.not_eq_true, Option.isSome_eq_false_iff, Option.isNone_iff_eq_none] at hplain
      have htexts : texts.flatMap c.valueTexts = [] := by
        rw [hnone] at hpaths
        rw [List.flatMap_eq_nil_iff]
        intro text htext
        rw [valueTexts, List.flatMap_eq_nil_iff.1 hpaths.symm text htext]
        rfl
      refine ⟨ps, ?_, fun _ hout => hout, ?_⟩
      · rw [hnone, textsMet, htexts, textsMet_nil]
        rfl
      · rw [if_pos hnone]
        have hsame : ps.flatMap (c.written Json.text) = ps.flatMap Piece.chars := by
          refine List.flatMap_congr fun piece hpiece => written_of_path?_eq_none ?_
          exact List.filterMap_eq_nil_iff.1 hnone piece hpiece
        rw [hsame]
        rfl
    | true =>
      obtain ⟨qs, hleft, hexpands, hrounds⟩ := ih
        (clean_of_mem_unfold hps hpaths (hclean 1 (by omega)))
        (paths_flatMap_unfold hps_resolve hpaths)
        (fun n hn => hclean (n + 1) (by omega)) (fun n hn => hresolves (n + 1) (by omega))
      refine ⟨qs, hleft, fun out hout => expands_of_unfold hps_resolve (hexpands out hout), ?_⟩
      rw [flatMap_unfold_chars] at hrounds
      exact hrounds

end Context

/-- Without deferral, where everything that is met when a text is expanded is clean and resolves:
if the placeholders are nested no deeper than there are passes, the text becomes its expansion; if
they are nested deeper, the substitution fails and names the placeholders that are left. -/
theorem substitute_eq_expansion {s : Session} {text : String}
    (hdeferred : s.context.deferred = false)
    (hclean : ∀ n ≤ maxRounds, ∀ met ∈ s.context.textsMet n [text], CleanText met)
    (hresolves : ∀ n < maxRounds, ∀ path ∈ s.context.placeholdersAt n text,
      s.context.Resolves path) :
    (s.context.placeholdersAt maxRounds text = [] →
      ∃ out, (substitute text s).1 = .ok (String.ofList out) ∧
        ∀ other, s.context.Expands (pieces text.toList) other ↔ other = out) ∧
    (s.context.placeholdersAt maxRounds text ≠ [] →
      (substitute text s).1 =
        .error (.unresolved maxRounds (s.context.placeholdersAt maxRounds text))) := by
  have hpieces := cleanText_iff.1 (hclean 0 (Nat.zero_le _) text (List.mem_singleton_self text))
  have hpaths : (pieces text.toList).filterMap Piece.path? = [text].flatMap placeholderPaths :=
    (List.flatMap_singleton ..).symm
  obtain ⟨qs, hleft, hexpands, hrounds⟩ :=
    Context.exists_roundsIn_eq hdeferred hpieces hpaths hclean hresolves
  rw [pieces_chars, hleft, ← Context.placeholdersAt] at hrounds
  rw [substitute_fst, Context.substituteIn, hrounds]
  constructor
  · intro hnone
    rw [if_pos hnone]
    refine ⟨qs.flatMap Piece.chars, rfl, fun other => ⟨fun hother => ?_, ?_⟩⟩
    · exact (hexpands _ (.of_plain (hleft.trans hnone))).unique hother
    · rintro rfl
      exact hexpands _ (.of_plain (hleft.trans hnone))
  · intro hsome
    rw [if_neg hsome]
    rfl

/-- A session with variables that refer to each other: some of them end, and two go round. -/
def signSession : Session where
  context :=
    { vars :=
        [("first", .str "Ada"), ("left", .str "to the \x7b\x7bright\x7d\x7d"),
          ("name", .str "\x7b\x7bfirst\x7d\x7d L."), ("right", .str "to the \x7b\x7bleft\x7d\x7d"),
          ("sign", .str "\x7b\x7b name \x7d\x7d, by \x7b\x7bfirst\x7d\x7d")] }

/-- A name in a signature is expanded, and signs that point at each other are not. -/
theorem signSession_expansion :
    (∃ out, (substitute "- \x7b\x7bsign\x7d\x7d" signSession).1 = .ok (String.ofList out) ∧
        ∀ other, signSession.context.Expands (pieces "- \x7b\x7bsign\x7d\x7d".toList) other ↔
          other = out) ∧
      (substitute "\x7b\x7bname\x7d\x7d: \x7b\x7bleft\x7d\x7d" signSession).1 =
        .error (.unresolved maxRounds ["left"]) := by
  have hends := @substitute_eq_expansion signSession "- \x7b\x7bsign\x7d\x7d" rfl
    (by decide +kernel) (by decide +kernel)
  have hround := @substitute_eq_expansion signSession
    "\x7b\x7bname\x7d\x7d: \x7b\x7bleft\x7d\x7d" rfl (by decide +kernel) (by decide +kernel)
  have hleft : signSession.context.placeholdersAt maxRounds
      "\x7b\x7bname\x7d\x7d: \x7b\x7bleft\x7d\x7d" = ["left"] := by decide +kernel
  rw [hleft] at hround
  exact ⟨hends.1 (by decide +kernel), hround.2 (by decide)⟩

end WorkflowCompiler
