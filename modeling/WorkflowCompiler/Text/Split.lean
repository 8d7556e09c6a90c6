/-!
# Splitting a text at a character

`splitOn` cuts a text at every occurrence of one character and keeps the empty parts, so a
text with `n` separators has `n + 1` parts, and joining the parts with the separator gives
the text back (`join_splitOn`). `cutAt?` cuts at the first occurrence only.
-/

namespace WorkflowCompiler.Text

/-- The parts of the text between the separators; there is always at least one. -/
def splitOn (sep : Char) : List Char → List (List Char)
  | [] => [[]]
  | c :: cs =>
    if c = sep then [] :: splitOn sep cs
    else
      match splitOn sep cs with
      | [] => [[c]]
      | part :: parts => (c :: part) :: parts

/-- The parts, written one after the other with the separator between them. -/
def joinWith (sep : Char) : List (List Char) → List Char
  | [] => []
  | [part] => part
  | part :: parts => part ++ sep :: joinWith sep parts

theorem splitOn_ne_nil (sep : Char) (cs : List Char) : splitOn sep cs ≠ [] := by
  cases cs with
  | nil => simp [splitOn]
  | cons c cs =>
    simp only [splitOn]
    split
    · simp
    · split <;> simp

/-- Splitting loses nothing but the separators. -/
theorem join_splitOn (sep : Char) (cs : List Char) : joinWith sep (splitOn sep cs) = cs := by
  induction cs with
  | nil => rfl
  | cons c cs ih =>
    rcases hs : splitOn sep cs with _ | ⟨part, parts⟩
    · exact absurd hs (splitOn_ne_nil sep cs)
    · rw [hs] at ih
      by_cases hc : c = sep
      · simp [splitOn, hc, hs, joinWith, ih]
      · cases parts with
        | nil => simpa [splitOn, hc, hs, joinWith] using ih
        | cons p ps => simpa [splitOn, hc, hs, joinWith] using ih

/-- No part holds a separator. -/
theorem not_mem_of_mem_splitOn {sep : Char} {cs part : List Char}
    (h : part ∈ splitOn sep cs) : sep ∉ part := by
  induction cs generalizing part with
  | nil => simp_all [splitOn]
  | cons c cs ih =>
    rcases hs : splitOn sep cs with _ | ⟨p, ps⟩
    · exact absurd hs (splitOn_ne_nil sep cs)
    · rw [hs] at ih
      by_cases hc : c = sep
      · simp only [splitOn, hc, if_true, hs, List.mem_cons] at h
        rcases h with rfl | h
        · simp
        · exact ih (by simpa using h)
      · simp only [splitOn, hc, if_false, hs, List.mem_cons] at h
        rcases h with rfl | h
        · have := @ih p (by simp)
          simp [this, Ne.symm hc]
        · exact ih (by simp [h])

/-- The parts of a string between the separators. -/
def split (sep : Char) (s : String) : List String :=
  (splitOn sep s.toList).map String.ofList

/-- What stands before and after the first separator, if there is one. -/
def cutAt? (sep : Char) (s : String) : Option (String × String) :=
  let cs := s.toList
  match cs.dropWhile (· ≠ sep) with
  | [] => none
  | _ :: rest => some (String.ofList (cs.takeWhile (· ≠ sep)), String.ofList rest)

/-- A text is cut into two parts exactly when the separator stands between them, and not in
the first one. -/
theorem cutAt?_eq_some_iff {sep : Char} {s before after : String} :
    cutAt? sep s = some (before, after) ↔
      s.toList = before.toList ++ sep :: after.toList ∧ sep ∉ before.toList := by
  rw [cutAt?]
  constructor
  · intro h
    rcases hdrop : s.toList.dropWhile (· ≠ sep) with _ | ⟨c, rest⟩
    · rw [hdrop] at h
      cases h
    · simp only [hdrop, Option.some.injEq, Prod.mk.injEq] at h
      obtain ⟨rfl, rfl⟩ := h
      have hhead := List.head?_dropWhile_not (· ≠ sep) s.toList
      rw [hdrop] at hhead
      have hc : c = sep := by simpa using hhead
      have hsplit := List.takeWhile_append_dropWhile (p := (· ≠ sep)) (l := s.toList)
      rw [hdrop, hc] at hsplit
      refine ⟨by simpa using hsplit.symm, fun hmem => ?_⟩
      rw [String.toList_ofList] at hmem
      simpa using List.all_eq_true.1 List.all_takeWhile sep hmem
  · rintro ⟨hs, hnot⟩
    have hne : ∀ c ∈ before.toList, (decide (c ≠ sep)) = true := by
      intro c hc
      rw [decide_eq_true_eq]
      rintro rfl
      exact hnot hc
    rw [hs, List.dropWhile_append_of_pos hne, List.takeWhile_append_of_pos hne]
    simp

/-- The texts with a separator text between them. -/
def joined (sep : String) (parts : List String) : String := String.intercalate sep parts

end WorkflowCompiler.Text
