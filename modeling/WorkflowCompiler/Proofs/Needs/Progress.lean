import Mathlib.Data.Fintype.Card
import Mathlib.Data.Fintype.EquivFin
import Mathlib.Data.Fintype.Sets
import Mathlib.Order.WellFounded
import WorkflowCompiler.Proofs.Needs.Placing

/-!
# All steps can be placed exactly where there are no circles

Placing goes on until no step is ready. Among steps that are not placed, if there are no circles,
one needs none of the others, so it is ready: placing ends only when all steps are placed
(`exists_order_of_acyclic`). With circles there is no order (`exists_order_iff_acyclic`).
-/

namespace WorkflowCompiler.NeedsGraph

variable {g : NeedsGraph}

namespace Placing

theorem placed_foldl_lower (ids : List String) (p : Placing) :
    (ids.foldl lower p).placed = p.placed := by
  induction ids generalizing p with
  | nil => rfl
  | cons id ids ih => exact ih (p.lower id)

theorem step_of_ready_nil {p : Placing} (h : p.ready = []) : step g p = p := by
  rw [step, h]

theorem run_of_ready_nil {p : Placing} (h : p.ready = []) (fuel : Nat) : run g fuel p = p := by
  induction fuel with
  | zero => rfl
  | succ fuel ih => rw [run, step_of_ready_nil h, ih]

/-- As long as steps are ready, each step of placing places one. -/
theorem ready_run_eq_nil_or (fuel : Nat) (p : Placing) :
    (run g fuel p).ready = [] ∨ (run g fuel p).placed.length = p.placed.length + fuel := by
  induction fuel generalizing p with
  | zero => exact .inr rfl
  | succ fuel ih =>
    rw [run]
    rcases hready : p.ready with _ | ⟨id, rest⟩
    · rw [step_of_ready_nil hready, run_of_ready_nil hready]
      exact .inl hready
    · have hlength : (step g p).placed.length = p.placed.length + 1 := by
        rw [step, hready]
        simp only [placed_foldl_lower, List.length_append, List.length_singleton]
      refine (ih (step g p)).imp_right fun h => ?_
      rw [h, hlength]
      omega

/-- What a placed step needs, also through other steps, stands at an earlier place. -/
theorem Counted.idxOf_lt_of_transGen {p : Placing} {pending : List String}
    (h : Counted g p pending) {a b : String} (ha : a ∈ p.placed)
    (hway : Relation.TransGen g.Needs a b) :
    b ∈ p.placed ∧ p.placed.idxOf b < p.placed.idxOf a := by
  induction hway with
  | single hneeds => exact h.idxOf_lt ha hneeds
  | tail _ hneeds ih =>
    obtain ⟨hmem, hlt⟩ := h.idxOf_lt ih.1 hneeds
    exact ⟨hmem, hlt.trans ih.2⟩

end Placing

/-- Placing ends when no step is ready. -/
theorem ready_placing (hclosed : g.Closed) : g.placing.ready = [] := by
  rcases Placing.ready_run_eq_nil_or (g := g) g.nodes.length (.start g) with hready | hplaced
  · exact hready
  · -- as many steps were placed as there are, so none of them can be ready any more
    have hcounted := counted_placing hclosed
    have hlength := (List.subperm_of_subset hcounted.nodup hcounted.mem_ids).length_le
    have hids : g.ids.length = g.nodes.length := List.length_map _
    have hstart : (Placing.start g).placed.length = 0 := rfl
    rw [List.length_append, placing, hplaced, hstart, hids] at hlength
    exact List.length_eq_zero_iff.1 (by rw [placing]; omega)

/-- A step that was not placed needs one that was not placed. -/
theorem exists_unplaced_need (hclosed : g.Closed) {a : String} (ha : a ∈ g.ids)
    (hunplaced : a ∉ g.placing.placed) : ∃ b, g.Needs a b ∧ b ∉ g.placing.placed := by
  have hcounted := counted_placing hclosed
  have hopen : g.placing.openCount a ≠ 0 := by
    intro hzero
    have hmem := (hcounted.openCount_eq_zero_iff a ha).1 hzero
    rw [ready_placing hclosed, List.append_nil] at hmem
    exact hunplaced hmem
  rw [hcounted.openCount_eq a ha, List.count_nil, Nat.add_zero, ← Nat.pos_iff_ne_zero,
    List.countP_pos_iff] at hopen
  obtain ⟨b, hb, hnot⟩ := hopen
  exact ⟨b, hb, by simpa using hnot⟩

/-- Among finitely many steps of which none is on a circle, one needs none of the others. -/
theorem exists_needs_none {ids : List String} (hids : ids ≠ [])
    (h : ∀ a ∈ ids, ¬ Relation.TransGen g.Needs a a) : ∃ a ∈ ids, ∀ b ∈ ids, ¬ g.Needs a b := by
  have hwf : WellFounded fun b a : { a // a ∈ ids } => Relation.TransGen g.Needs a b := by
    have : IsTrans { a // a ∈ ids } fun b a => Relation.TransGen g.Needs a b :=
      ⟨fun _ _ _ hab hbc => hbc.trans hab⟩
    have : Std.Irrefl fun b a : { a // a ∈ ids } => Relation.TransGen g.Needs a b :=
      ⟨fun a hcircle => h a a.2 hcircle⟩
    exact Finite.wellFounded_of_trans_of_irrefl _
  obtain ⟨first, hfirst⟩ := List.exists_mem_of_ne_nil ids hids
  obtain ⟨a, -, hmin⟩ := hwf.has_min Set.univ ⟨⟨first, hfirst⟩, trivial⟩
  exact ⟨a, a.2, fun b hb hneeds => hmin ⟨b, hb⟩ trivial (.single hneeds)⟩

/-- An error lists the steps that were not placed, of which there are some. -/
theorem order_eq_error (hclosed : g.Closed) {stuck : List String}
    (h : g.order = .error stuck) :
    stuck = g.ids.filter (· ∉ g.placing.placed) ∧ stuck ≠ [] := by
  rw [order] at h
  split at h
  · rename_i hlength
    cases h
    refine ⟨rfl, fun hnil => ?_⟩
    have hsubset : g.ids ⊆ g.placing.placed := by
      intro a ha
      have hkept := List.filter_eq_nil_iff.1 hnil a ha
      simpa using hkept
    exact absurd (List.subperm_of_subset hclosed.nodup hsubset).length_le (Nat.not_le.2 hlength)
  · cases h

/-- Steps without circles have an order. -/
theorem exists_order_of_acyclic (hclosed : g.Closed) (h : g.Acyclic) :
    ∃ ids, g.order = .ok ids := by
  rcases horder : g.order with stuck | ids
  · obtain ⟨rfl, hne⟩ := order_eq_error hclosed horder
    -- one of the steps that are left needs none of them, but each of them needs one
    obtain ⟨a, ha, hneeds⟩ := exists_needs_none hne fun a _ => h a
    simp only [List.mem_filter, decide_eq_true_eq] at ha hneeds
    obtain ⟨b, hb, hunplaced⟩ := exists_unplaced_need hclosed ha.1 ha.2
    exact absurd hb (hneeds b ⟨hclosed.mem_ids hb, hunplaced⟩)
  · exact ⟨ids, rfl⟩

/-- Where there is an order there are no circles: the needs of a step lead to earlier places. -/
theorem acyclic_of_order (hclosed : g.Closed) {ids : List String} (h : g.order = .ok ids) :
    g.Acyclic := by
  intro a hcircle
  obtain ⟨b, -, hlast⟩ := Relation.TransGen.tail'_iff.1 hcircle
  have hmem : a ∈ ids := (order_perm hclosed h).mem_iff.2 (hclosed.mem_ids hlast)
  rw [← (order_eq_ok h).1] at hmem
  exact Nat.lt_irrefl _ ((counted_placing hclosed).idxOf_lt_of_transGen hmem hcircle).2

/-- Steps have an order exactly when there are no circles among them. -/
theorem exists_order_iff_acyclic (hclosed : g.Closed) : (∃ ids, g.order = .ok ids) ↔ g.Acyclic := by
  constructor
  · rintro ⟨ids, h⟩
    exact acyclic_of_order hclosed h
  · exact exists_order_of_acyclic hclosed

end WorkflowCompiler.NeedsGraph
