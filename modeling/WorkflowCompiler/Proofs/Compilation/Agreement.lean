import WorkflowCompiler.Proofs.Attempts
import WorkflowCompiler.Proofs.Compilation.Ordering
import WorkflowCompiler.Proofs.Needs.CycleSearch
import WorkflowCompiler.Proofs.Needs.Progress

/-!
# Searching for cycles and ordering agree

Two algorithms look at the needs of a batch: one searches for cycles, in depth, and the other one
places the steps one after the other. They agree on every declaration, whatever ids and needs it
repeats: a cycle is found exactly when the steps have no order. So whenever compiled steps cannot be
put in order, there is a cycle with which to say why (`circuit_of_inOrder_eq_error`).
-/

namespace WorkflowCompiler

namespace NeedsGraph

/-- A cycle is found exactly when there is no order. -/
theorem findCycles_eq_nil_iff_exists_order {g : NeedsGraph} (hclosed : g.Closed) :
    g.findCycles = [] ↔ ∃ ids, g.order = .ok ids :=
  (findCycles_eq_nil_iff hclosed).trans (exists_order_iff_acyclic hclosed).symm

end NeedsGraph

open NeedsGraph

/-- The path in the error for steps that cannot be put in order is a circuit of their needs. -/
theorem circuit_of_inOrder_eq_error {steps : List CompiledStep} {e : CompileError}
    (h : inOrder steps = .error e) :
    ∃ path, e = .cycle path ∧ (compiledGraph steps).Circuit path := by
  have hclosed := closed_compiledGraph steps
  obtain ⟨hnone, rfl⟩ := inOrder_eq_error_iff.1 h
  rcases hcycles : (compiledGraph steps).findCycles with _ | ⟨path, paths⟩
  · exact absurd ((findCycles_eq_nil_iff_exists_order hclosed).1 hcycles) hnone
  · refine ⟨path, rfl, circuit_of_mem_findCycles hclosed ?_⟩
    rw [hcycles]
    exact List.mem_cons_self

/-- Of every cycle among declared needs an edge is found, as the one with which a path ends; none is
found exactly when there is an order; and when compiled steps cannot be put in order, this is said
with a path that is not empty, a circuit of their needs. -/
theorem NeedsGraph.search_agrees_with_order :
    (∀ declared : List (String × List String),
      (∀ a rest, (a :: rest ++ [a]).IsChain (ofDeclared declared).Needs →
        ∃ path ∈ (ofDeclared declared).findCycles, ∃ x y,
          [x, y] <:+ path ∧ [x, y] <:+: a :: rest ++ [a]) ∧
      ((ofDeclared declared).findCycles = [] ↔ ∃ ids, (ofDeclared declared).order = .ok ids)) ∧
    ∀ steps e, inOrder steps = .error e →
      ∃ path, e = .cycle path ∧ path ≠ [] ∧ (compiledGraph steps).Circuit path := by
  constructor
  · intro declared
    have hclosed := closed_ofDeclared declared
    refine ⟨fun a rest hchain => ?_, findCycles_eq_nil_iff_exists_order hclosed⟩
    obtain ⟨x, y, hedge, path, hpath, hend⟩ := exists_closes_of_isChain hclosed hchain
    exact ⟨path, hpath, x, y, hend, hedge⟩
  · intro steps e herror
    obtain ⟨path, he, hcircuit⟩ := circuit_of_inOrder_eq_error herror
    exact ⟨path, he, hcircuit.ne_nil, hcircuit⟩

/-- Needs with a step that is declared twice, and of which one needs itself, with repeated needs and
needs of steps that there are not. -/
def tangledNeeds : List (String × List String) :=
  [("build", ["fetch", "fetch", "sources"]), ("fetch", ["build", "fetch"]), ("test", ["build"]),
    ("build", ["test"])]

/-- Steps with such needs. -/
def tangledSteps : List CompiledStep :=
  tangledNeeds.map fun node =>
    { id := node.1, needs := node.2, config := .shell { command := "make" } }

/-- An edge of the cycle through the second declaration is found, so there is no order, and putting
the steps in order fails with a path. -/
theorem tangledNeeds_search :
    (∃ path ∈ (ofDeclared tangledNeeds).findCycles, ∃ x y,
      [x, y] <:+ path ∧ [x, y] <:+: ["build", "test", "build"]) ∧
    (¬ ∃ ids, (ofDeclared tangledNeeds).order = .ok ids) ∧
    ∃ path, inOrder tangledSteps = .error (.cycle path) ∧ path ≠ [] ∧
      (compiledGraph tangledSteps).Circuit path := by
  have hchain : ["build", "test", "build"].IsChain (ofDeclared tangledNeeds).Needs := by
    simp only [List.isChain_cons_cons, List.isChain_singleton, needs_ofDeclared]
    decide
  have herror : inOrder tangledSteps = .error (.cycle ["build", "fetch", "build"]) :=
    Attempt.eq_error_of_error?_eq_some (by decide +kernel)
  obtain ⟨hsearch, hagree⟩ := NeedsGraph.search_agrees_with_order.1 tangledNeeds
  refine ⟨hsearch "build" ["test"] hchain, fun horder => ?_, ?_⟩
  · exact absurd (hagree.2 horder) (by decide +kernel)
  · obtain ⟨path, hpath, hne, hcircuit⟩ :=
      NeedsGraph.search_agrees_with_order.2 tangledSteps _ herror
    exact ⟨path, hpath ▸ herror, hne, hcircuit⟩

end WorkflowCompiler
