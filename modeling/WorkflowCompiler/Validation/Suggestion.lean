/-!
# Suggestions for misspelt names

Two texts are as similar as their common prefix is long together with the common suffix of
what remains behind it, counted in characters. The suggestion for a name is the first of the
most similar candidates other than the name itself, if the similarity is more than half the
length of the name.
-/

namespace WorkflowCompiler.Suggestion

/-- The number of characters that two texts have in common at their start. -/
def commonPrefix : List Char → List Char → Nat
  | a :: as, b :: bs => if a = b then commonPrefix as bs + 1 else 0
  | _, _ => 0

/-- The number of characters that two texts have in common at their end. -/
def commonSuffix (as bs : List Char) : Nat := commonPrefix as.reverse bs.reverse

/-- How similar two texts are. -/
def similarity (as bs : List Char) : Nat :=
  let front := commonPrefix as bs
  front + commonSuffix (as.drop front) (bs.drop front)

/-- The first of the most similar candidates other than the target, with its similarity. -/
def best (target : String) (candidates : List String) : Option (String × Nat) :=
  candidates.foldl (fun found candidate =>
    if candidate = target then found
    else
      let score := similarity target.toList candidate.toList
      match found with
      | none => some (candidate, score)
      | some (_, top) => if top < score then some (candidate, score) else found) none

/-- The candidate that the target may have been meant to be. -/
def suggest (target : String) (candidates : List String) : Option String :=
  match best target candidates with
  | some (candidate, score) => if target.length < 2 * score then some candidate else none
  | none => none

end WorkflowCompiler.Suggestion
