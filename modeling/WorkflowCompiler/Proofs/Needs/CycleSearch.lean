import WorkflowCompiler.Proofs.Needs.Walk

/-!
# The search for cycles is sound and complete

The search walks on from every step of the graph, and so it has left all of them in the end
(`exists_settled`).

* `circuit_of_mem_findCycles` — what is found are circuits;
* `not_transGen_openNeeds`, `exists_closes_of_isChain` — every way from a step back to itself has
  an edge with which one of the found circuits ends;
* `findCycles_eq_nil_iff` — nothing is found exactly in graphs without cycles.
-/

namespace WorkflowCompiler.NeedsGraph

variable {g : NeedsGraph}

/-! ## The whole search -/

open Walk

/-- A walk that is over and has left all it saw. -/
def Over (g : NeedsGraph) (w : Walk) : Prop := w.path = [] ∧ ∃ left, Sound g left w

theorem over_start (g : NeedsGraph) : Over g {} :=
  ⟨rfl, [], List.nodup_nil, by simp [steps], by simp, trivial, trivial, by simp⟩

/-- A walk that is over can walk on from a step that it has not seen. -/
theorem Over.exists_sound_enter {w : Walk} (h : Over g w) {id : String} (hid : id ∈ g.ids)
    (hnew : id ∉ w.seen) : ∃ left, Sound g left (w.enter g id) := by
  obtain ⟨hpath, left, hsound⟩ := h
  have hstanding : Standing g w.cycles left (some id) w.path := by
    rw [hpath]
    trivial
  exact ⟨left, hsound.enter hid hnew rfl hstanding⟩

/-- Walking on from a step ends, and the step has been seen. -/
theorem Over.walkFrom {w : Walk} (h : Over g w) (hclosed : g.Closed) {id : String}
    (hid : id ∈ g.ids) : Over g (g.walkFrom w id) ∧ id ∈ (g.walkFrom w id).seen := by
  rw [NeedsGraph.walkFrom]
  by_cases hnew : id ∈ w.seen
  · rw [if_pos hnew]
    exact ⟨h, hnew⟩
  · rw [if_neg hnew]
    obtain ⟨left, hstart⟩ := h.exists_sound_enter hid hnew
    refine ⟨⟨?_, hstart.run hclosed _⟩, ?_⟩
    · exact hstart.run_path_eq_nil hclosed (cost_enter_le hclosed h.1 hid hnew)
    · exact mem_seen_run g _ List.mem_cons_self

theorem mem_seen_walkFrom {w : Walk} {a : String} (ha : a ∈ w.seen) (id : String) :
    a ∈ (g.walkFrom w id).seen := by
  rw [NeedsGraph.walkFrom]
  split
  · exact ha
  · exact mem_seen_run g _ (List.mem_cons_of_mem _ ha)

theorem mem_seen_foldl_walkFrom {w : Walk} {a : String} (ha : a ∈ w.seen) (ids : List String) :
    a ∈ (ids.foldl g.walkFrom w).seen := by
  induction ids generalizing w with
  | nil => exact ha
  | cons id ids ih => exact ih (mem_seen_walkFrom ha id)

/-- Walking on from each of some steps ends, and all of them have been seen. -/
theorem Over.foldl_walkFrom {w : Walk} (h : Over g w) (hclosed : g.Closed) {ids : List String}
    (hids : ids ⊆ g.ids) :
    Over g (ids.foldl g.walkFrom w) ∧ ∀ a ∈ ids, a ∈ (ids.foldl g.walkFrom w).seen := by
  induction ids generalizing w with
  | nil => exact ⟨h, by simp⟩
  | cons id ids ih =>
    rw [List.cons_subset] at hids
    obtain ⟨hover, hseen⟩ := h.walkFrom hclosed hids.1
    obtain ⟨hover', hseen'⟩ := ih hover hids.2
    refine ⟨hover', fun a ha => ?_⟩
    rcases List.mem_cons.1 ha with rfl | ha
    · exact mem_seen_foldl_walkFrom hseen ids
    · exact hseen' a ha

/-- What the search comes to: it has left every step of the graph, and each need of a step
leads to one that was left before or closes one of the circuits it found. -/
theorem exists_settled (hclosed : g.Closed) :
    ∃ left : List String, left.Nodup ∧ (∀ a ∈ g.ids, a ∈ left) ∧
      Settled g g.findCycles left ∧ ∀ path ∈ g.findCycles, g.Circuit path := by
  obtain ⟨⟨hpath, left, hsound⟩, hseen⟩ :=
    (over_start g).foldl_walkFrom hclosed (List.Subset.refl g.ids)
  have hsteps : (g.ids.foldl g.walkFrom {}).steps = [] := by rw [steps, hpath]; rfl
  refine ⟨left, (List.nodup_append.1 hsound.nodup).2.1, fun a ha => ?_, hsound.settled,
    hsound.circuits⟩
  have hmem := (hsound.mem_seen a).1 (hseen a ha)
  rw [hsteps] at hmem
  simpa using hmem

/-- What is found are circuits. -/
theorem circuit_of_mem_findCycles (hclosed : g.Closed) {path : List String}
    (h : path ∈ g.findCycles) : g.Circuit path := by
  obtain ⟨left, -, -, -, hcircuits⟩ := exists_settled hclosed
  exact hcircuits path h

/-! ## Ways that close no found circuit -/

/-- The needs that no found circuit ends with. -/
def OpenNeeds (g : NeedsGraph) (a b : String) : Prop := g.Needs a b ∧ ¬ Closes g.findCycles a b

theorem Walk.Settled.of_append {cycles : List (List String)} {later left : List String}
    (h : Settled g cycles (later ++ left)) : Settled g cycles left := by
  induction later with
  | nil => exact h
  | cons a later ih => exact ih h.2

/-- Open needs lead from steps that were left to steps that were left. -/
theorem Walk.Settled.mem_of_openNeeds {left : List String} (h : Settled g g.findCycles left)
    {a b : String} (ha : a ∈ left) (hopen : g.OpenNeeds a b) : b ∈ left := by
  induction left with
  | nil => cases ha
  | cons c earlier ih =>
    rcases List.mem_cons.1 ha with rfl | ha
    · exact List.mem_cons_of_mem _ ((h.1 b hopen.1).resolve_right hopen.2)
    · exact List.mem_cons_of_mem _ (ih h.2 ha)

/-- Open needs lead to steps that were left before. -/
theorem Walk.Settled.mem_of_transGen {a b : String} {earlier : List String}
    (h : Settled g g.findCycles (a :: earlier)) (hway : Relation.TransGen g.OpenNeeds a b) :
    b ∈ earlier := by
  induction hway with
  | single hopen => exact (h.1 _ hopen.1).resolve_right hopen.2
  | tail _ hopen ih => exact h.2.mem_of_openNeeds ih hopen

/-- Every way from a step back to itself has an edge with which a found circuit ends. -/
theorem not_transGen_openNeeds (hclosed : g.Closed) (a : String) :
    ¬ Relation.TransGen g.OpenNeeds a a := by
  intro hway
  obtain ⟨left, hnodup, hall, hsettled, -⟩ := exists_settled hclosed
  have hmem : a ∈ left := by
    obtain ⟨b, -, hlast⟩ := Relation.TransGen.tail'_iff.1 hway
    exact hall a (hclosed.mem_ids hlast.1)
  obtain ⟨later, earlier, hsplit⟩ := List.append_of_mem hmem
  rw [hsplit] at hnodup hsettled
  -- the way ends at a step that was left before its start, but nothing is left twice
  have hearlier : a ∈ earlier := hsettled.of_append.mem_of_transGen hway
  exact (List.nodup_cons.1 (List.nodup_append.1 hnodup).2.1).1 hearlier

/-- A way along needs that ends where it starts has among its edges one with which a found
circuit ends. -/
theorem exists_closes_of_isChain (hclosed : g.Closed) {a : String} {rest : List String}
    (h : (a :: rest ++ [a]).IsChain g.Needs) :
    ∃ x y, [x, y] <:+: a :: rest ++ [a] ∧ Closes g.findCycles x y := by
  by_contra hnone
  -- otherwise the whole way consists of needs that no found circuit ends with
  have hopen : (a :: rest ++ [a]).IsChain g.OpenNeeds := by
    rw [List.isChain_iff_forall_rel_of_append_cons_cons] at h ⊢
    intro x y before after hsplit
    refine ⟨h hsplit, fun hcloses => hnone ⟨x, y, ⟨before, after, ?_⟩, hcloses⟩⟩
    rw [hsplit]
    simp
  exact not_transGen_openNeeds hclosed a (transGen_of_chain hopen)

/-- Nothing is found exactly in the graphs in which no step needs itself. -/
theorem findCycles_eq_nil_iff (hclosed : g.Closed) : g.findCycles = [] ↔ g.Acyclic := by
  constructor
  · intro hnil a hway
    -- no circuit was found, so no need closes one
    have hopen : g.Needs ≤ g.OpenNeeds := by
      intro b c hneeds
      refine ⟨hneeds, ?_⟩
      rintro ⟨path, hpath, -⟩
      rw [hnil] at hpath
      cases hpath
    exact not_transGen_openNeeds hclosed a (Relation.TransGen.mono hopen a a hway)
  · intro hacyclic
    rw [List.eq_nil_iff_forall_not_mem]
    intro path hpath
    exact (circuit_of_mem_findCycles hclosed hpath).not_acyclic hacyclic

end WorkflowCompiler.NeedsGraph
