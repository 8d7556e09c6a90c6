import Mathlib.Data.List.Nodup
import Mathlib.Data.List.Perm.Subperm
import WorkflowCompiler.Needs.Order
import WorkflowCompiler.Proofs.Needs.Circuits

/-!
# Steps are placed behind what they need

While steps are placed, the count of open needs of every step is exact: it is the number of
its needs that are not placed, each counted as often as the step needs it. The steps without
open needs are those that are placed or ready, so what is placed next needs only what is
placed already.

* `Placing.Counted` — the invariant, with the steps whose counts are still to be lowered;
* `order_perm` — an order has every step of the graph once;
* `mem_of_order` — in an order a step stands behind each step it needs.
-/

namespace WorkflowCompiler.NeedsGraph

variable {g : NeedsGraph}

namespace Placing

/-- What holds while steps are placed, where the counts of some steps are still to be lowered,
once for each time a step is listed. -/
structure Counted (g : NeedsGraph) (p : Placing) (pending : List String) : Prop where
  /-- no step is placed or ready twice -/
  nodup : (p.placed ++ p.ready).Nodup
  /-- what is placed or ready are steps of the graph -/
  mem_ids : ∀ a ∈ p.placed ++ p.ready, a ∈ g.ids
  /-- a step has as many open needs as needs that are not placed -/
  openCount_eq : ∀ a ∈ g.ids,
    p.openCount a = (g.needsOf a).countP (· ∉ p.placed) + pending.count a
  /-- the steps without open needs are those that are placed or ready -/
  openCount_eq_zero_iff : ∀ a ∈ g.ids, p.openCount a = 0 ↔ a ∈ p.placed ++ p.ready
  /-- what a placed step needs is placed before it -/
  ordered : ∀ before a after, p.placed = before ++ a :: after → ∀ b, g.Needs a b → b ∈ before

/-! ## The start -/

theorem openCount_start (hclosed : g.Closed) {a : String} (ha : a ∈ g.ids) :
    (start g).openCount a = (g.needsOf a).length := by
  obtain ⟨node, hmem, rfl⟩ := List.mem_map.1 ha
  have hnames : ((g.nodes.map fun node => (node.1, node.2.length)).map Prod.fst).Nodup := by
    rw [List.map_map]
    exact hclosed.nodup
  have hentry := List.mem_map_of_mem (f := fun node : String × List String =>
    (node.1, node.2.length)) hmem
  rw [openCount, start, Fields.get?_ofEntries_of_mem hnames hentry, hclosed.needsOf_of_mem hmem]
  rfl

/-- At the start the steps that need nothing are ready. -/
theorem mem_ready_start (hclosed : g.Closed) {a : String} :
    a ∈ (start g).ready ↔ a ∈ g.ids ∧ g.needsOf a = [] := by
  rw [start]
  constructor
  · intro h
    obtain ⟨node, hmem, rfl⟩ := List.mem_map.1 h
    rw [List.mem_filter, List.isEmpty_iff] at hmem
    exact ⟨List.mem_map_of_mem hmem.1, (hclosed.needsOf_of_mem hmem.1).trans hmem.2⟩
  · rintro ⟨ha, hneeds⟩
    obtain ⟨node, hmem, rfl⟩ := List.mem_map.1 ha
    rw [hclosed.needsOf_of_mem hmem] at hneeds
    exact List.mem_map_of_mem (List.mem_filter.2 ⟨hmem, by rw [hneeds]; rfl⟩)

theorem counted_start (hclosed : g.Closed) : Counted g (start g) [] where
  nodup := hclosed.nodup.sublist (List.filter_sublist.map _)
  mem_ids := fun a ha => ((mem_ready_start hclosed).1 ha).1
  openCount_eq := fun a ha => by
    rw [openCount_start hclosed ha]
    simp [start]
  openCount_eq_zero_iff := fun a ha => by
    rw [openCount_start hclosed ha, List.length_eq_zero_iff]
    exact ⟨fun h => (mem_ready_start hclosed).2 ⟨ha, h⟩, fun h => ((mem_ready_start hclosed).1 h).2⟩
  ordered := fun before a after h => by
    cases before <;> cases h

/-! ## Placing one step -/

variable {p : Placing} {pending : List String}

theorem dependents_cons (node : String × List String) (nodes : List (String × List String))
    (id : String) :
    dependents ⟨node :: nodes⟩ id =
      List.replicate (node.2.count id) node.1 ++ dependents ⟨nodes⟩ id := by
  have hcopies : (node.2.filter (· = id)).map (fun _ => node.1) =
      List.replicate (node.2.count id) node.1 := by
    rw [List.map_const', List.count_eq_length_filter]
    rfl
  rw [dependents, List.flatMap_cons, hcopies]
  rfl

theorem not_mem_dependents {nodes : List (String × List String)} {a : String}
    (h : a ∉ nodes.map Prod.fst) (id : String) : a ∉ dependents ⟨nodes⟩ id := by
  rw [dependents, List.mem_flatMap]
  rintro ⟨node, hmem, hcopy⟩
  obtain ⟨-, -, rfl⟩ := List.mem_map.1 hcopy
  exact h (List.mem_map_of_mem hmem)

theorem count_dependents_nodes {nodes : List (String × List String)}
    (hnodup : (nodes.map Prod.fst).Nodup) {node : String × List String} (h : node ∈ nodes)
    (id : String) : (dependents ⟨nodes⟩ id).count node.1 = node.2.count id := by
  induction nodes with
  | nil => cases h
  | cons head nodes ih =>
    rw [List.map_cons, List.nodup_cons] at hnodup
    rw [dependents_cons, List.count_append, List.count_replicate]
    rcases List.mem_cons.1 h with rfl | h
    · rw [List.count_eq_zero_of_not_mem (not_mem_dependents hnodup.1 id)]
      simp
    · have hne : head.1 ≠ node.1 := by
        intro heq
        exact hnodup.1 (List.mem_map.2 ⟨node, h, heq.symm⟩)
      simp [hne, ih hnodup.2 h]

/-- A step is listed among the dependents of another one as often as it needs it. -/
theorem count_dependents (hclosed : g.Closed) {a : String} (ha : a ∈ g.ids) (id : String) :
    (dependents g id).count a = (g.needsOf a).count id := by
  obtain ⟨node, hmem, rfl⟩ := List.mem_map.1 ha
  rw [count_dependents_nodes hclosed.nodup hmem, hclosed.needsOf_of_mem hmem]

theorem mem_ids_of_mem_dependents {a id : String} (h : a ∈ dependents g id) : a ∈ g.ids := by
  by_contra ha
  exact not_mem_dependents ha id h

/-- Needs that are not placed are those of the step that is placed next, and those that are
not placed after it. -/
theorem countP_not_mem_append {needs placed : List String} {id : String} (h : id ∉ placed) :
    needs.countP (· ∉ placed) = needs.countP (· ∉ placed ++ [id]) + needs.count id := by
  induction needs with
  | nil => rfl
  | cons need needs ih =>
    have hhead : (if need ∉ placed then 1 else 0) =
        (if need ∉ placed ++ [id] then 1 else 0) + if need = id then 1 else 0 := by
      by_cases hid : need = id
      · subst hid
        simp [h]
      · simp [hid]
    rw [List.countP_cons, List.countP_cons, List.count_cons, ih]
    simp only [decide_eq_true_eq, beq_iff_eq, hhead]
    omega

/-- What is ready is not placed. -/
theorem Counted.not_mem_placed (h : Counted g p pending) {id : String} {rest : List String}
    (hready : p.ready = id :: rest) : id ∉ p.placed := by
  have hnodup := h.nodup
  rw [hready] at hnodup
  exact fun hmem => (List.nodup_append.1 hnodup).2.2 id hmem id List.mem_cons_self rfl

/-- The first step that is ready is placed, and its dependents are to be lowered. -/
theorem Counted.place (h : Counted g p []) (hclosed : g.Closed) {id : String}
    {rest : List String} (hready : p.ready = id :: rest) :
    Counted g { p with ready := rest, placed := p.placed ++ [id] } (dependents g id) := by
  have hnew := h.not_mem_placed hready
  obtain ⟨hnodup, hids, hcount, hzero, hordered⟩ := h
  rw [hready] at hnodup hids hzero
  have happend : p.placed ++ [id] ++ rest = p.placed ++ id :: rest := by simp
  refine ⟨?_, ?_, fun a ha => ?_, fun a ha => ?_, ?_⟩
  · rw [happend]
    exact hnodup
  · rw [happend]
    exact hids
  · rw [count_dependents hclosed ha]
    have := hcount a ha
    rw [List.count_nil, Nat.add_zero, countP_not_mem_append hnew] at this
    exact this
  · rw [happend]
    exact hzero a ha
  · intro before a after hsplit b hneeds
    rcases List.eq_nil_or_concat after with rfl | ⟨after, last, rfl⟩
    · -- the step itself: it was ready, so it has no open needs
      obtain ⟨rfl, hlast⟩ := List.append_inj' hsplit rfl
      rw [List.cons.injEq] at hlast
      obtain ⟨rfl, -⟩ := hlast
      have hid : id ∈ p.placed ++ id :: rest := List.mem_append_right _ List.mem_cons_self
      have hopen := hcount id (hids id hid)
      rw [(hzero id (hids id hid)).2 hid, List.count_nil] at hopen
      have hnone := List.countP_eq_zero.1 hopen.symm b hneeds
      simpa using hnone
    · have hsplit' : p.placed ++ [id] = (before ++ a :: after) ++ [last] := by
        simpa using hsplit
      obtain ⟨hplaced, -⟩ := List.append_inj' hsplit' rfl
      exact hordered before a after hplaced b hneeds

/-! ## Lowering counts -/

theorem openCount_lower (p : Placing) (id a : String) :
    (p.lower id).openCount a = if id = a then p.openCount id - 1 else p.openCount a := by
  rw [lower, openCount, Fields.get?_set]
  split <;> rfl

/-- A step whose last open need was placed joins the steps that are ready. -/
theorem Counted.lower {id : String} (h : Counted g p (id :: pending)) (hid : id ∈ g.ids) :
    Counted g (p.lower id) pending := by
  obtain ⟨hnodup, hids, hcount, hzero, hordered⟩ := h
  have hopen : p.openCount id ≠ 0 := by
    rw [hcount id hid, List.count_cons_self]
    omega
  have hnew : id ∉ p.placed ++ p.ready := fun hmem => hopen ((hzero id hid).2 hmem)
  have hplaced : (p.lower id).placed = p.placed := rfl
  have hready : (p.lower id).ready = if p.openCount id - 1 = 0 then p.ready ++ [id] else p.ready :=
    rfl
  have hmem : ∀ a, a ∈ (p.lower id).placed ++ (p.lower id).ready ↔
      a ∈ p.placed ++ p.ready ∨ a = id ∧ p.openCount id - 1 = 0 := by
    intro a
    rw [hplaced, hready]
    split <;> rename_i hlast <;> simp [hlast, or_assoc]
  -- only the count of `id` changes, and only `id` can become ready
  refine ⟨?_, fun a ha => ?_, fun a ha => ?_, fun a ha => ?_, hordered⟩
  · rw [hplaced, hready]
    split
    · rw [← List.append_assoc, List.nodup_append]
      refine ⟨hnodup, List.nodup_singleton id, ?_⟩
      rintro a ha b hb rfl
      rw [List.mem_singleton.1 hb] at ha
      exact hnew ha
    · exact hnodup
  · rcases (hmem a).1 ha with ha | ⟨rfl, -⟩
    · exact hids a ha
    · exact hid
  · rw [openCount_lower, hplaced]
    have hold := hcount a ha
    rw [List.count_cons] at hold
    by_cases heq : id = a
    · subst heq
      rw [if_pos rfl]
      simp only [beq_self_eq_true, if_true] at hold
      omega
    · rw [if_neg heq]
      simpa [heq] using hold
  · rw [openCount_lower, hmem a]
    by_cases heq : id = a
    · subst heq
      simp [hnew]
    · rw [if_neg heq, hzero a ha]
      simp [Ne.symm heq]

/-- The counts of the first of the pending steps can be lowered before those of the others. -/
theorem Counted.foldl_lower {first rest : List String} (h : Counted g p (first ++ rest))
    (hfirst : ∀ a ∈ first, a ∈ g.ids) : Counted g (first.foldl Placing.lower p) rest := by
  induction first generalizing p with
  | nil => exact h
  | cons id first ih =>
    rw [List.forall_mem_cons] at hfirst
    exact ih (h.lower hfirst.1) hfirst.2

/-! ## Placing all steps -/

/-- Placing a step keeps the counts exact. -/
theorem Counted.step (h : Counted g p []) (hclosed : g.Closed) :
    Counted g (Placing.step g p) [] := by
  rw [Placing.step]
  split
  · exact h
  · rename_i id rest hready
    have hplaced := h.place hclosed hready
    rw [← List.append_nil (dependents g id)] at hplaced
    exact hplaced.foldl_lower fun a ha => mem_ids_of_mem_dependents ha

theorem Counted.run (h : Counted g p []) (hclosed : g.Closed) (fuel : Nat) :
    Counted g (Placing.run g fuel p) [] := by
  induction fuel generalizing p with
  | zero => exact h
  | succ fuel ih => exact ih (h.step hclosed)

/-- What a placed step needs stands at an earlier place. -/
theorem Counted.idxOf_lt (h : Counted g p pending) {a b : String} (ha : a ∈ p.placed)
    (hneeds : g.Needs a b) : b ∈ p.placed ∧ p.placed.idxOf b < p.placed.idxOf a := by
  obtain ⟨before, after, hsplit, hnot⟩ := List.eq_append_cons_of_mem ha
  have hb : b ∈ before := h.ordered before a after hsplit b hneeds
  rw [hsplit, List.idxOf_append_of_mem hb, List.idxOf_append_of_notMem hnot, List.idxOf_cons_self]
  refine ⟨List.mem_append_left _ hb, ?_⟩
  exact Nat.lt_of_lt_of_le (List.idxOf_lt_length_of_mem hb) (Nat.le_add_right _ _)

end Placing

theorem counted_placing (hclosed : g.Closed) : Placing.Counted g g.placing [] :=
  (Placing.counted_start hclosed).run hclosed _

/-- An order is what was placed, and nothing is missing from it. -/
theorem order_eq_ok {ids : List String} (h : g.order = .ok ids) :
    g.placing.placed = ids ∧ g.ids.length ≤ ids.length := by
  rw [order] at h
  split at h
  · cases h
  · rename_i hlength
    cases h
    exact ⟨rfl, Nat.not_lt.1 hlength⟩

/-- An order has every step of the graph once. -/
theorem order_perm (hclosed : g.Closed) {ids : List String} (h : g.order = .ok ids) :
    ids.Perm g.ids := by
  obtain ⟨hplaced, hlength⟩ := order_eq_ok h
  have hcounted := counted_placing hclosed
  rw [← hplaced] at hlength ⊢
  have hnodup := (List.nodup_append.1 hcounted.nodup).1
  have hsubset : g.placing.placed ⊆ g.ids := fun a ha =>
    hcounted.mem_ids a (List.mem_append_left _ ha)
  exact (List.subperm_of_subset hnodup hsubset).perm_of_length_le hlength

/-- In an order a step stands behind each step it needs. -/
theorem mem_of_order (hclosed : g.Closed) {before after : List String} {a b : String}
    (h : g.order = .ok (before ++ a :: after)) (hneeds : g.Needs a b) : b ∈ before :=
  (counted_placing hclosed).ordered before a after (order_eq_ok h).1 b hneeds

/-- The same in terms of places: what a step needs stands at an earlier place. -/
theorem idxOf_lt_of_order (hclosed : g.Closed) {ids : List String} (h : g.order = .ok ids)
    {a b : String} (ha : a ∈ g.ids) (hneeds : g.Needs a b) : ids.idxOf b < ids.idxOf a := by
  have hmem : a ∈ ids := (order_perm hclosed h).mem_iff.2 ha
  rw [← (order_eq_ok h).1] at hmem ⊢
  exact ((counted_placing hclosed).idxOf_lt hmem hneeds).2

end WorkflowCompiler.NeedsGraph
