/-!
# Blank characters

A text is *blank* when it holds nothing but white space, and *trimming* removes the blank
characters at both its ends. White space is Unicode's property `White_Space`: twenty-five
characters, among them the line and paragraph separators and the ideographic space, but not
the zero-width characters.

* `isBlank` — the property, as a table of ranges;
* `trimChars`, `trim` — the text between the first and the last character that is not blank;
* `allBlank` — a text that trims to nothing (`allBlank_iff_trim_eq`).
-/

namespace WorkflowCompiler.Text

/-- The ranges of code points with the property `White_Space`, both ends included. -/
def blankRanges : List (Nat × Nat) :=
  [(0x09, 0x0D), (0x20, 0x20), (0x85, 0x85), (0xA0, 0xA0), (0x1680, 0x1680),
   (0x2000, 0x200A), (0x2028, 0x2029), (0x202F, 0x202F), (0x205F, 0x205F), (0x3000, 0x3000)]

/-- The character is white space. -/
def isBlank (c : Char) : Bool :=
  blankRanges.any fun range => range.1 ≤ c.toNat && c.toNat ≤ range.2

/-- The table covers all that Lean's own ASCII test calls white space. -/
theorem isBlank_of_isWhitespace {c : Char} (h : c.isWhitespace = true) : isBlank c = true := by
  simp only [Char.isWhitespace, Bool.or_eq_true, decide_eq_true_eq] at h
  rcases h with ((rfl | rfl) | rfl) | rfl <;> decide

/-- The characters from the first to the last one that is not blank. -/
def trimChars (cs : List Char) : List Char :=
  ((cs.dropWhile isBlank).reverse.dropWhile isBlank).reverse

/-- The text without the blank characters at its ends. -/
def trim (s : String) : String := String.ofList (trimChars s.toList)

/-- The text holds blank characters only. -/
def allBlank (s : String) : Bool := s.toList.all isBlank

theorem dropWhile_eq_nil_of_all {α : Type} {p : α → Bool} {l : List α} (h : l.all p = true) :
    l.dropWhile p = [] := by
  induction l with
  | nil => rfl
  | cons a l ih =>
    simp only [List.all_cons, Bool.and_eq_true] at h
    simp [List.dropWhile, h.1, ih h.2]

theorem all_of_dropWhile_eq_nil {α : Type} {p : α → Bool} {l : List α}
    (h : l.dropWhile p = []) : l.all p = true := by
  induction l with
  | nil => rfl
  | cons a l ih =>
    by_cases ha : p a = true
    · rw [List.dropWhile_cons_of_pos ha] at h
      simp [ha, ih h]
    · rw [List.dropWhile_cons_of_neg ha] at h
      cases h

/-- What is left after dropping a leading run does not start with a member of it. -/
theorem head_dropWhile {α : Type} {p : α → Bool} {l r : List α} {a : α}
    (h : l.dropWhile p = a :: r) : p a = false := by
  induction l with
  | nil => cases h
  | cons b l ih =>
    by_cases hb : p b = true
    · rw [List.dropWhile_cons_of_pos hb] at h
      exact ih h
    · rw [List.dropWhile_cons_of_neg hb] at h
      cases h
      exact Bool.eq_false_iff.2 hb

theorem dropWhile_of_head {α : Type} {p : α → Bool} {l : List α}
    (h : ∀ a r, l = a :: r → p a = false) : l.dropWhile p = l := by
  cases l with
  | nil => rfl
  | cons a r => exact List.dropWhile_cons_of_neg (Bool.eq_false_iff.1 (h a r rfl))

/-- A text that is trimmed has no blanks at its ends. -/
theorem trimChars_trimChars (cs : List Char) : trimChars (trimChars cs) = trimChars cs := by
  have hfront : (trimChars cs).dropWhile isBlank = trimChars cs := by
    refine dropWhile_of_head fun c r hc => ?_
    -- what is left at the end starts where the blanks at the front end
    have hsplit := congrArg List.reverse
      (List.takeWhile_append_dropWhile (p := isBlank) (l := (cs.dropWhile isBlank).reverse))
    rw [List.reverse_append, List.reverse_reverse] at hsplit
    have hhead : trimChars cs ++ _ = cs.dropWhile isBlank := hsplit
    rw [hc, List.cons_append] at hhead
    exact head_dropWhile hhead.symm
  have hback : (trimChars cs).reverse.dropWhile isBlank = (trimChars cs).reverse := by
    rw [trimChars, List.reverse_reverse]
    exact dropWhile_of_head fun c r hc => head_dropWhile hc
  rw [trimChars, hfront, hback, List.reverse_reverse]

theorem trim_trim (s : String) : trim (trim s) = trim s := by
  rw [trim, trim, String.toList_ofList, trimChars_trimChars]

/-- A text trims to nothing exactly when all of it is blank. -/
theorem trimChars_eq_nil_iff {cs : List Char} : trimChars cs = [] ↔ cs.all isBlank = true := by
  constructor
  · intro h
    have h' := all_of_dropWhile_eq_nil (List.reverse_eq_nil_iff.1 h)
    rcases hd : cs.dropWhile isBlank with _ | ⟨c, r⟩
    · exact all_of_dropWhile_eq_nil hd
    · have hc := head_dropWhile hd
      rw [hd, List.all_reverse] at h'
      simp [hc] at h'
  · intro h
    simp [trimChars, dropWhile_eq_nil_of_all h]

theorem allBlank_iff_trim_eq {s : String} : allBlank s = true ↔ trim s = "" := by
  rw [allBlank, ← trimChars_eq_nil_iff, trim]
  constructor
  · intro h
    rw [h]
  · intro h
    have h' := congrArg String.toList h
    simpa using h'

end WorkflowCompiler.Text
