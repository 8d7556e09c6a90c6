import WorkflowCompiler.Needs.Graph
import WorkflowCompiler.Text.Split

/-!
# Finding cycles

A walk goes through the graph in depth, starting from each step it has not seen yet. The
steps between its start and where it stands are its *path*; with each of them it keeps the
needs it has not looked at. A need that stands on the path closes a cycle: the part of the
path from that step on, and the step once more. A need that was seen before and is not on
the path is passed over.
-/

namespace WorkflowCompiler.NeedsGraph

/-- A walk through a graph. -/
structure Walk where
  /-- the steps on the path, the last one first, with their needs not looked at yet -/
  path : List (String × List String) := []
  /-- the steps that have been on the path -/
  seen : List String := []
  /-- the cycles found so far, in order -/
  cycles : List (List String) := []

namespace Walk

/-- The steps on the path, the last one first. -/
def steps (w : Walk) : List String := w.path.map Prod.fst

/-- The walk that goes on from a step. -/
def enter (g : NeedsGraph) (id : String) (w : Walk) : Walk :=
  { w with path := (id, g.needsOf id) :: w.path, seen := id :: w.seen }

/-- The cycle that a need closes when it stands on the path: from there to the end of the
path, and back. The path is given with its last step first. -/
def closedBy (need : String) (steps : List String) : List String :=
  need :: (steps.takeWhile (· ≠ need)).reverse ++ [need]

/-- One step of a walk. -/
def step (g : NeedsGraph) (w : Walk) : Walk :=
  match w.path with
  | [] => w
  -- all needs of the last step on the path were looked at
  | (_, []) :: rest => { w with path := rest }
  | (node, need :: more) :: rest =>
    let moved := { w with path := (node, more) :: rest }
    if need ∈ w.steps then { moved with cycles := w.cycles ++ [closedBy need w.steps] }
    else if need ∈ w.seen then moved
    else enter g need moved

/-- So many steps of a walk. -/
def run (g : NeedsGraph) : Nat → Walk → Walk
  | 0, w => w
  | fuel + 1, w => run g fuel (step g w)

end Walk

/-- Enough steps for a walk through the whole graph: every step is entered and left once, and
every edge is looked at once. -/
def walkLength (g : NeedsGraph) : Nat :=
  g.nodes.foldr (fun node rest => node.2.length + 2 + rest) 0

/-- Walks on from a step, unless it was seen before. -/
def walkFrom (g : NeedsGraph) (w : Walk) (id : String) : Walk :=
  if id ∈ w.seen then w else Walk.run g g.walkLength (w.enter g id)

/-- The cycles that a walk through the whole graph finds, in order. Each is a list of steps
of which every one needs the next, and which ends with the step it starts with. -/
def findCycles (g : NeedsGraph) : List (List String) :=
  (g.ids.foldl g.walkFrom {}).cycles

/-- A cycle in words. -/
def cycleText (cycle : List String) : String := Text.joined " → " cycle

end WorkflowCompiler.NeedsGraph
