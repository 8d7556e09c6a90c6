/-!
# Endings of texts

`withoutEnding` takes away an ending as often as the text has it, so that what is left does
not have it (`not_prefix_dropCopies`, on the characters from the last to the first).
-/

namespace WorkflowCompiler.Text

theorem length_sub_lt {pattern cs : List Char}
    (h : pattern ≠ [] ∧ pattern.isPrefixOf cs = true) :
    cs.length - pattern.length < cs.length := by
  have hp : 0 < pattern.length := List.length_pos_iff.2 h.1
  have hl : pattern.length ≤ cs.length := (List.isPrefixOf_iff_prefix.1 h.2).length_le
  omega

/-- The characters behind all copies of a pattern that stand at the start. -/
def dropCopies (pattern cs : List Char) : List Char :=
  if h : pattern ≠ [] ∧ pattern.isPrefixOf cs = true then
    have := length_sub_lt h
    dropCopies pattern (cs.drop pattern.length)
  else cs
termination_by cs.length

/-- What is left does not start with the pattern. -/
theorem not_prefix_dropCopies {pattern : List Char} (h : pattern ≠ []) (cs : List Char) :
    ¬ pattern <+: dropCopies pattern cs := by
  fun_induction dropCopies pattern cs with
  | case1 cs _ _ ih => exact ih
  | case2 cs hn =>
    intro hp
    exact hn ⟨h, List.isPrefixOf_iff_prefix.2 hp⟩

/-- The text without all copies of an ending. -/
def withoutEnding (ending s : String) : String :=
  String.ofList (dropCopies ending.toList.reverse s.toList.reverse).reverse

end WorkflowCompiler.Text
