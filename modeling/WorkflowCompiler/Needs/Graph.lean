import WorkflowCompiler.Workflow.Step

/-!
# The needs of a batch of steps

The graph of a batch has a node for every id that a step of the batch declares, in the order
of the first declaration, and an edge from a step to each step of the batch that it needs.
Needs that name nothing in the batch are no edges. Steps that share an id share a node, which
has the needs of all of them; an id that is needed twice is on the list twice.
-/

namespace WorkflowCompiler

/-- The members of a list, each at the place where it stands first. -/
def distinct : List String → List String
  | [] => []
  | a :: rest => a :: (distinct rest).filter (· ≠ a)

theorem mem_distinct {l : List String} {a : String} : a ∈ distinct l ↔ a ∈ l := by
  induction l with
  | nil => simp [distinct]
  | cons b l ih =>
    by_cases h : a = b
    · simp [distinct, h]
    · simp [distinct, h, ih]

theorem nodup_distinct (l : List String) : (distinct l).Nodup := by
  induction l with
  | nil => exact List.Pairwise.nil
  | cons b l ih =>
    rw [distinct, List.nodup_cons]
    exact ⟨by simp, ih.sublist List.filter_sublist⟩

/-- The graph of the needs of a batch: every id with the needs that are ids of the batch. -/
structure NeedsGraph where
  /-- the nodes in the order of their declaration, with what they need -/
  nodes : List (String × List String)

namespace NeedsGraph

/-- The ids of the graph. -/
def ids (g : NeedsGraph) : List String := g.nodes.map Prod.fst

/-- What a step needs within the batch. -/
def needsOf (g : NeedsGraph) (id : String) : List String := (g.nodes.lookup id).getD []

/-- The needs that are declared for an id, of all its declarations, in order. -/
def declaredNeeds (declared : List (String × List String)) (id : String) : List String :=
  (declared.filter fun node => node.1 = id).flatMap Prod.snd

/-- The graph of declared ids and needs. -/
def ofDeclared (declared : List (String × List String)) : NeedsGraph :=
  let known := declared.map Prod.fst
  ⟨(distinct known).map fun id => (id, (declaredNeeds declared id).filter (· ∈ known))⟩

/-- The graph of a batch of steps. -/
def ofSteps (steps : List Step) : NeedsGraph :=
  ofDeclared (steps.map fun s => (s.id, s.needs))

/-! ## What the graph of a declaration holds -/

theorem lookup_map_of_mem {f : String → List String} {l : List String} {id : String}
    (h : id ∈ l) : (l.map fun a => (a, f a)).lookup id = some (f id) := by
  induction l with
  | nil => cases h
  | cons a l ih =>
    by_cases ha : id = a
    · simp [ha]
    · have : (id == a) = false := by simpa using ha
      simp only [List.map_cons, List.lookup_cons, this]
      exact ih (by simpa [ha] using h)

theorem lookup_map_of_not_mem {f : String → List String} {l : List String} {id : String}
    (h : id ∉ l) : (l.map fun a => (a, f a)).lookup id = none := by
  induction l with
  | nil => rfl
  | cons a l ih =>
    simp only [List.mem_cons, not_or] at h
    have : (id == a) = false := by simpa using h.1
    simp only [List.map_cons, List.lookup_cons, this]
    exact ih h.2

theorem ids_ofDeclared (declared : List (String × List String)) :
    (ofDeclared declared).ids = distinct (declared.map Prod.fst) := by
  simp [ids, ofDeclared, Function.comp_def]

theorem mem_ids_ofDeclared {declared : List (String × List String)} {id : String} :
    id ∈ (ofDeclared declared).ids ↔ id ∈ declared.map Prod.fst := by
  rw [ids_ofDeclared, mem_distinct]

theorem nodup_ids_ofDeclared (declared : List (String × List String)) :
    (ofDeclared declared).ids.Nodup := by
  rw [ids_ofDeclared]
  exact nodup_distinct _

/-- A step needs, within the batch, what one of its declarations needs and the batch has. -/
theorem mem_needsOf_ofDeclared {declared : List (String × List String)} {id need : String} :
    need ∈ (ofDeclared declared).needsOf id ↔
      (∃ node ∈ declared, node.1 = id ∧ need ∈ node.2) ∧ need ∈ declared.map Prod.fst := by
  rw [needsOf, ofDeclared]
  by_cases h : id ∈ declared.map Prod.fst
  · rw [lookup_map_of_mem (mem_distinct.2 h)]
    simp only [Option.getD_some, List.mem_filter, declaredNeeds, List.mem_flatMap,
      decide_eq_true_eq]
    constructor
    · rintro ⟨⟨node, ⟨hn, hid⟩, hneed⟩, hk⟩
      exact ⟨⟨node, hn, hid, hneed⟩, hk⟩
    · rintro ⟨⟨node, hn, hid, hneed⟩, hk⟩
      exact ⟨⟨node, ⟨hn, hid⟩, hneed⟩, hk⟩
  · rw [lookup_map_of_not_mem (fun h' => h (mem_distinct.1 h'))]
    constructor
    · intro h'
      cases h'
    · rintro ⟨⟨node, hn, hid, _⟩, _⟩
      exact absurd (List.mem_map.2 ⟨node, hn, hid⟩) h

end NeedsGraph

end WorkflowCompiler
