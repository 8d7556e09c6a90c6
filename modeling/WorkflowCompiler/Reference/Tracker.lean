import WorkflowCompiler.Reference.Basic

/-!
# Following references

While references are followed, a tracker keeps the keys of the workflows that have been
entered and not left again, as a chain in their order and as a set in which to look them up.
A workflow that is entered a second time closes a circle, which is reported as the part of
the chain from its first entrance on, and its key once more.
-/

namespace WorkflowCompiler

/-- The workflows that have been entered and not left again. -/
structure Tracker where
  /-- their keys as a set -/
  inProgress : List String := []
  /-- their keys, the last one first -/
  stack : List String := []
deriving DecidableEq

namespace Tracker

/-- The keys in the order of their entrance. -/
def chain (t : Tracker) : List String := t.stack.reverse

/-- The number of workflows in progress. -/
def depth (t : Tracker) : Nat := t.stack.length

/-- The circle that a key closes: the chain from the key on, and the key. -/
def circle (t : Tracker) (key : String) : List String :=
  t.chain.dropWhile (· ≠ key) ++ [key]

/-- Enters a workflow of a file; it fails with the circle that the entrance would close. -/
def enter (t : Tracker) (file workflow : String) : Except (List String) Unit × Tracker :=
  let key := Reference.key file workflow
  if key ∈ t.inProgress then (.error (t.circle key), t)
  else (.ok (), { inProgress := key :: t.inProgress, stack := key :: t.stack })

/-- Leaves the workflow entered last, and gives its key. -/
def exit (t : Tracker) : Option String × Tracker :=
  match t.stack with
  | [] => (none, t)
  | key :: rest => (some key, { inProgress := t.inProgress.filter (· ≠ key), stack := rest })

/-- A circle in words. -/
def circleMessage (circle : List String) : String :=
  "circular workflow reference: " ++ Text.joined " → " circle

end Tracker

end WorkflowCompiler
