import WorkflowCompiler.Needs.Graph

/-!
# Ordering steps by their needs

Steps are placed one after the other, each after the steps it needs. A queue holds the steps
that are ready, at first those that need nothing, in the order of their declaration. Placing
a step lowers the count of open needs of every step that needs it, once for each time it
needs it, and a step whose count comes to zero joins the end of the queue. Steps on a cycle,
and those that need them, are never ready.
-/

namespace WorkflowCompiler.NeedsGraph

/-- The state of placing the steps of a graph. -/
structure Placing where
  /-- the steps that are ready, in order -/
  ready : List String
  /-- the steps that are placed, in order -/
  placed : List String
  /-- how many needs of a step are not placed yet -/
  openNeeds : Fields Nat

namespace Placing

/-- The number of needs of a step that are not placed yet. -/
def openCount (p : Placing) (id : String) : Nat := (p.openNeeds.get? id).getD 0

/-- Nothing is placed, and the steps that need nothing are ready. -/
def start (g : NeedsGraph) : Placing where
  ready := (g.nodes.filter fun node => node.2.isEmpty).map Prod.fst
  placed := []
  openNeeds := Fields.ofEntries (g.nodes.map fun node => (node.1, node.2.length))

/-- One need of a step has been placed. -/
def lower (p : Placing) (id : String) : Placing :=
  let count := p.openCount id - 1
  { p with
    openNeeds := p.openNeeds.set id count
    ready := if count = 0 then p.ready ++ [id] else p.ready }

/-- The steps that need a step, in the order of their declaration, each as often as it needs
it. -/
def dependents (g : NeedsGraph) (id : String) : List String :=
  g.nodes.flatMap fun node => (node.2.filter (· = id)).map fun _ => node.1

/-- Places the first step that is ready. -/
def step (g : NeedsGraph) (p : Placing) : Placing :=
  match p.ready with
  | [] => p
  | id :: rest =>
    (dependents g id).foldl lower { p with ready := rest, placed := p.placed ++ [id] }

/-- So many steps of placing. -/
def run (g : NeedsGraph) : Nat → Placing → Placing
  | 0, p => p
  | fuel + 1, p => run g fuel (step g p)

end Placing

/-- The state when no more step can be placed. -/
def placing (g : NeedsGraph) : Placing := Placing.run g g.nodes.length (.start g)

/-- The steps, each after the steps it needs; or else the steps that cannot be placed, in the
order of their declaration. -/
def order (g : NeedsGraph) : Except (List String) (List String) :=
  let placed := g.placing.placed
  if placed.length < g.ids.length then .error (g.ids.filter (· ∉ placed)) else .ok placed

end WorkflowCompiler.NeedsGraph
