import Mathlib.Data.List.Chain
import Mathlib.Logic.Relation
import WorkflowCompiler.Needs.Graph

/-!
# Needs as a relation

What the search for cycles and the ordering of steps are judged by: the relation `Needs`
between the steps of a graph, and whether it leads from a step back to itself.

* `Closed` — every id has one node, and every need is an id; graphs of declarations are
  closed (`closed_ofDeclared`);
* `Acyclic` — no step needs itself, directly or through other steps;
* `Circuit` — a list of steps of which each needs the next, which ends with the step it
  starts with and otherwise holds no step twice.
-/

namespace WorkflowCompiler.NeedsGraph

variable {g : NeedsGraph}

/-- One step needs another one. -/
def Needs (g : NeedsGraph) (a b : String) : Prop := b ∈ g.needsOf a

/-- No step needs itself, directly or through other steps. -/
def Acyclic (g : NeedsGraph) : Prop := ∀ a, ¬ Relation.TransGen g.Needs a a

/-- Every id has one node, and what is needed is an id. -/
structure Closed (g : NeedsGraph) : Prop where
  /-- no id has two nodes -/
  nodup : g.ids.Nodup
  /-- a need is an id of the graph -/
  mem_ids : ∀ {a b : String}, g.Needs a b → b ∈ g.ids

theorem needs_ofDeclared {declared : List (String × List String)} {a b : String} :
    (ofDeclared declared).Needs a b ↔
      (∃ node ∈ declared, node.1 = a ∧ b ∈ node.2) ∧ b ∈ declared.map Prod.fst :=
  mem_needsOf_ofDeclared

theorem closed_ofDeclared (declared : List (String × List String)) :
    (ofDeclared declared).Closed where
  nodup := nodup_ids_ofDeclared declared
  mem_ids := fun h => mem_ids_ofDeclared.2 (needs_ofDeclared.1 h).2

/-- A node holds the needs of its id, if no other node has that id. -/
theorem needsOf_of_mem_nodes {nodes : List (String × List String)}
    (hnodup : (nodes.map Prod.fst).Nodup) {node : String × List String} (h : node ∈ nodes) :
    needsOf ⟨nodes⟩ node.1 = node.2 := by
  induction nodes with
  | nil => cases h
  | cons head rest ih =>
    obtain ⟨id, needs⟩ := head
    rw [List.map_cons, List.nodup_cons] at hnodup
    rcases List.mem_cons.1 h with rfl | hrest
    · simp [needsOf]
    · have hne : (node.1 == id) = false := by
        rw [beq_eq_false_iff_ne]
        rintro rfl
        exact hnodup.1 (List.mem_map.2 ⟨node, hrest, rfl⟩)
      have := ih hnodup.2 hrest
      rw [needsOf] at this ⊢
      rw [List.lookup_cons, hne]
      exact this

theorem Closed.needsOf_of_mem (h : g.Closed) {node : String × List String}
    (hmem : node ∈ g.nodes) : g.needsOf node.1 = node.2 :=
  needsOf_of_mem_nodes h.nodup hmem

/-! ## Circuits -/

/-- A way along needs that ends where it starts and comes by no other step twice. -/
structure Circuit (g : NeedsGraph) (path : List String) : Prop where
  /-- each step needs the next -/
  chain : path.IsChain g.Needs
  /-- the last step is the first one -/
  closed : ∃ a rest, path = a :: rest ++ [a]
  /-- up to its end the way has every step once -/
  nodup : path.dropLast.Nodup

theorem Circuit.ne_nil {path : List String} (h : g.Circuit path) : path ≠ [] := by
  obtain ⟨a, rest, rfl⟩ := h.closed
  exact List.cons_ne_nil _ _

theorem Circuit.two_le_length {path : List String} (h : g.Circuit path) : 2 ≤ path.length := by
  obtain ⟨a, rest, rfl⟩ := h.closed
  rw [List.length_append, List.length_cons, List.length_singleton]
  omega

theorem Circuit.head?_eq_getLast? {path : List String} (h : g.Circuit path) :
    path.head? = path.getLast? := by
  obtain ⟨a, rest, rfl⟩ := h.closed
  rw [List.getLast?_concat]
  rfl

/-- Steps that stand next to each other in a circuit need each other. -/
theorem Circuit.needs {path : List String} (h : g.Circuit path) {a b : String}
    (hnext : [a, b] <:+: path) : g.Needs a b :=
  List.isChain_pair.1 <| List.IsChain.infix h.chain hnext

/-- The last step of a chain is needed by the first one, through those between. -/
theorem transGen_of_chain {r : String → String → Prop} {a b : String} {rest : List String}
    (h : (a :: rest ++ [b]).IsChain r) : Relation.TransGen r a b := by
  induction rest generalizing a with
  | nil => exact .single (List.isChain_pair.1 h)
  | cons c rest ih =>
    rw [List.cons_append, List.cons_append, List.isChain_cons_cons] at h
    exact .head h.1 (ih h.2)

/-- A graph with a circuit is not acyclic. -/
theorem Circuit.not_acyclic {path : List String} (h : g.Circuit path) : ¬ g.Acyclic := by
  obtain ⟨a, rest, rfl⟩ := h.closed
  intro hacyclic
  exact hacyclic a (transGen_of_chain h.chain)

end WorkflowCompiler.NeedsGraph
