import WorkflowCompiler.Placeholder.Scan

/-!
# Texts that are read as they were put together

When values are put in the place of placeholders, braces that stand next to each other may join to
slots that were there neither in the text nor in a value. Pieces are *tidy* if no opening brace
outside of a slot stands before another opening brace, or at the end. Written one after the other,
tidy pieces are read as the same pieces again (`pieces_flatMap_chars`), and tidy pieces after tidy
pieces are tidy (`tidy_append`).
-/

namespace WorkflowCompiler

/-- The piece can be read in a text: the body of a slot has no braces. -/
def Piece.Proper : Piece → Prop
  | .char _ => True
  | .slot body => body.all isBraceFree = true

/-- Outside of slots, every opening brace stands before a character that is none. -/
def tidy : List Piece → Bool
  | [] => true
  | .slot _ :: rest => tidy rest
  | .char '\x7b' :: .char c :: rest => c ≠ '\x7b' && tidy rest
  | .char '\x7b' :: _ => false
  | .char _ :: rest => tidy rest

/-- The text is read as it was put together, whatever is put before or behind it. -/
def TidyText (text : String) : Prop := tidy (pieces text.toList) = true

instance (text : String) : Decidable (TidyText text) :=
  inferInstanceAs (Decidable (tidy (pieces text.toList) = true))

theorem proper_of_mem_pieces {cs : List Char} {piece : Piece} (h : piece ∈ pieces cs) :
    piece.Proper := by
  fun_induction pieces cs with
  | case1 => cases h
  | case2 c cs body rest hslot ih =>
    rcases List.mem_cons.1 h with rfl | h
    · exact (eq_of_slotAt?_eq_some hslot).2
    · exact ih h
  | case3 c cs hslot ih =>
    rcases List.mem_cons.1 h with rfl | h
    · trivial
    · exact ih h

theorem slotAt?_slot {body : List Char} (h : body.all isBraceFree = true) (rest : List Char) :
    slotAt? ((Piece.slot body).chars ++ rest) = some (body, rest) := by
  have hfree : ∀ c ∈ body, isBraceFree c = true := List.all_eq_true.1 h
  have hend : isBraceFree '\x7d' = false := rfl
  simp only [Piece.chars, List.cons_append, List.append_assoc, List.nil_append, slotAt?,
    List.dropWhile_append_of_pos hfree, List.takeWhile_append_of_pos hfree,
    List.dropWhile_cons_of_neg (Bool.eq_false_iff.1 hend),
    List.takeWhile_cons_of_neg (Bool.eq_false_iff.1 hend), List.append_nil]

theorem slotAt?_char {c : Char} (h : c ≠ '\x7b') (rest : List Char) :
    slotAt? (c :: rest) = none := by
  rw [slotAt?]
  rintro cs ⟨⟩
  exact h rfl

theorem slotAt?_brace {c : Char} (h : c ≠ '\x7b') (rest : List Char) :
    slotAt? ('\x7b' :: c :: rest) = none := by
  rw [slotAt?]
  rintro cs ⟨⟩
  exact h rfl

/-- Tidy pieces are read as the pieces they are. -/
theorem pieces_flatMap_chars {ps : List Piece} (hproper : ∀ piece ∈ ps, piece.Proper)
    (h : tidy ps = true) : pieces (ps.flatMap Piece.chars) = ps := by
  fun_induction tidy ps with
  | case1 => exact pieces_nil
  | case2 body rest ih =>
    rw [List.forall_mem_cons] at hproper
    rw [List.flatMap_cons, pieces_of_slotAt?_eq_some (slotAt?_slot hproper.1 _), ih hproper.2 h]
  | case3 c rest ih =>
    rw [List.forall_mem_cons, List.forall_mem_cons] at hproper
    rw [Bool.and_eq_true, decide_eq_true_eq] at h
    have hbrace := slotAt?_brace h.1 (rest.flatMap Piece.chars)
    have hchar := slotAt?_char h.1 (rest.flatMap Piece.chars)
    have hwritten : (Piece.char '\x7b' :: .char c :: rest).flatMap Piece.chars =
        '\x7b' :: c :: rest.flatMap Piece.chars := rfl
    rw [hwritten, pieces_of_slotAt?_eq_none hbrace, pieces_of_slotAt?_eq_none hchar,
      ih hproper.2.2 h.2]
  | case4 => cases h
  | case5 c rest hrest hbrace ih =>
    rw [List.forall_mem_cons] at hproper
    have hwritten : (Piece.char c :: rest).flatMap Piece.chars = c :: rest.flatMap Piece.chars :=
      rfl
    rw [hwritten, pieces_of_slotAt?_eq_none (slotAt?_char hbrace _), ih hproper.2 h]

theorem tidy_append {ps qs : List Piece} (hps : tidy ps = true) (hqs : tidy qs = true) :
    tidy (ps ++ qs) = true := by
  fun_induction tidy ps with
  | case1 => exact hqs
  | case2 body rest ih => exact ih hps
  | case3 c rest ih =>
    rw [Bool.and_eq_true] at hps
    simp only [List.cons_append, tidy, Bool.and_eq_true]
    exact ⟨hps.1, ih hps.2⟩
  | case4 => cases hps
  | case5 c rest hrest hbrace ih =>
    rw [List.cons_append, tidy]
    · exact ih hps
    · exact fun _ _ _ => hbrace
    · exact hbrace

end WorkflowCompiler
