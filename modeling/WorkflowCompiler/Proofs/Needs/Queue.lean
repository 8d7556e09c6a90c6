import WorkflowCompiler.Proofs.Needs.Progress

/-!
# The order in which steps become ready

A step joins the queue when the last of its needs is placed, and steps that join it together stand
in the order of their declaration. So the steps that are placed or ready are sorted at any time,
first by how late the last of their needs was placed, and then by their declaration.

* `above` — one more than the greatest value among the needs of a step;
* `ComesFirst` — of two steps, the one of which the last need stands earlier;
* `Placing.Queued` — the invariant, kept by each step of placing (`Placing.Queued.step`);
* `pairwise_comesFirst_of_order` — an order is sorted.
-/

namespace WorkflowCompiler.NeedsGraph

variable {g : NeedsGraph}

/-! ## Above the needs of a step -/

/-- One more than the greatest value of the needs of a step, and zero if it needs nothing. -/
def above (g : NeedsGraph) (f : String → Nat) (a : String) : Nat :=
  (g.needsOf a).foldr (fun b value => max (f b + 1) value) 0

theorem foldr_max_le_iff {f : String → Nat} {needs : List String} {n : Nat} :
    needs.foldr (fun b value => max (f b + 1) value) 0 ≤ n ↔ ∀ b ∈ needs, f b < n := by
  induction needs with
  | nil => simp
  | cons b needs ih => rw [List.foldr_cons, Nat.max_le, ih, List.forall_mem_cons, Nat.succ_le_iff]

theorem above_le_iff {f : String → Nat} {a : String} {n : Nat} :
    g.above f a ≤ n ↔ ∀ b, g.Needs a b → f b < n :=
  foldr_max_le_iff

theorem lt_above {f : String → Nat} {a b : String} (h : g.Needs a b) : f b < g.above f a :=
  above_le_iff.1 (Nat.le_refl _) b h

/-- A value above needs is above one of them that has the greatest value. -/
theorem exists_above {f : String → Nat} {a : String} (h : g.above f a ≠ 0) :
    ∃ b, g.Needs a b ∧ g.above f a = f b + 1 := by
  by_contra hnone
  -- otherwise all needs stay below a smaller value
  have hle : g.above f a ≤ g.above f a - 1 := by
    refine above_le_iff.2 fun b hb => ?_
    have hlt : f b < g.above f a := lt_above hb
    have hne : g.above f a ≠ f b + 1 := fun heq => hnone ⟨b, hb, heq⟩
    omega
  omega

theorem above_eq_zero_iff {f : String → Nat} {a : String} :
    g.above f a = 0 ↔ g.needsOf a = [] := by
  rw [← Nat.le_zero, above_le_iff, List.eq_nil_iff_forall_not_mem]
  exact forall_congr' fun b => imp_congr_right fun _ => iff_false_intro (Nat.not_lt_zero _)

theorem above_congr {f f' : String → Nat} {a : String} (h : ∀ b, g.Needs a b → f b = f' b) :
    g.above f a = g.above f' a := by
  refine Nat.le_antisymm (above_le_iff.2 fun b hb => ?_) (above_le_iff.2 fun b hb => ?_)
  · rw [h b hb]
    exact lt_above hb
  · rw [← h b hb]
    exact lt_above hb

/-- The value above a need that no other need exceeds. -/
theorem above_eq_of_greatest {f : String → Nat} {a b : String} (hb : g.Needs a b)
    (h : ∀ c, g.Needs a c → f c ≤ f b) : g.above f a = f b + 1 :=
  Nat.le_antisymm (above_le_iff.2 fun c hc => Nat.lt_succ_of_le (h c hc)) (lt_above hb)

/-! ## Places in a list -/

theorem pairwise_idxOf_lt {l : List String} (h : l.Nodup) :
    l.Pairwise fun a b => l.idxOf a < l.idxOf b := by
  rw [List.pairwise_iff_getElem]
  intro i j hi hj hlt
  rw [h.idxOf_getElem, h.idxOf_getElem]
  exact hlt

/-- A sorted list has what stands first related to what stands behind it. -/
theorem rel_of_idxOf_lt {R : String → String → Prop} {l : List String} (hsorted : l.Pairwise R)
    {a b : String} (ha : a ∈ l) (hb : b ∈ l) (hlt : l.idxOf a < l.idxOf b) : R a b := by
  have hget := List.pairwise_iff_getElem.1 hsorted _ _ (List.idxOf_lt_length_of_mem ha)
    (List.idxOf_lt_length_of_mem hb) hlt
  rwa [List.getElem_idxOf, List.getElem_idxOf] at hget

/-- In a list that is sorted by a relation, the relation says which of two members stands first. -/
theorem idxOf_lt_iff_of_pairwise {R : String → String → Prop} {l : List String}
    (hsorted : l.Pairwise R) (hasymm : ∀ a b, R a b → ¬ R b a) {a b : String} (ha : a ∈ l)
    (hb : b ∈ l) : l.idxOf a < l.idxOf b ↔ R a b := by
  refine ⟨rel_of_idxOf_lt hsorted ha hb, fun hab => ?_⟩
  rcases Nat.lt_trichotomy (l.idxOf a) (l.idxOf b) with hlt | heq | hgt
  · exact hlt
  · rw [(List.idxOf_inj ha).1 heq] at hab
    exact absurd hab (hasymm b b hab)
  · exact absurd (rel_of_idxOf_lt hsorted hb ha hgt) (hasymm a b hab)

/-! ## Sorted by the last need -/

/-- The last of the needs of a step stands earlier in a list than that of another step, or it stands
at the same place and the step is declared earlier. A step that needs nothing counts as one of which
the last need stands before all others. -/
def ComesFirst (g : NeedsGraph) (ids : List String) (a b : String) : Prop :=
  g.above ids.idxOf a < g.above ids.idxOf b ∨
    g.above ids.idxOf a = g.above ids.idxOf b ∧ g.ids.idxOf a < g.ids.idxOf b

theorem ComesFirst.asymm {ids : List String} (a b : String) (h : g.ComesFirst ids a b) :
    ¬ g.ComesFirst ids b a := by
  rw [ComesFirst] at h ⊢
  omega

/-- What stands behind all needs of a step does not matter. -/
theorem above_append {ids : List String} {a : String} (h : ∀ b, g.Needs a b → b ∈ ids)
    (more : List String) : g.above (ids ++ more).idxOf a = g.above ids.idxOf a :=
  above_congr fun b hb => List.idxOf_append_of_mem (h b hb)

/-- Where a step completes the needs of another one, it is the last of them. -/
theorem above_append_singleton {ids : List String} {id a : String} (hnew : id ∉ ids)
    (h : ∀ b, g.Needs a b → b ∈ ids ++ [id]) (hopen : ¬ ∀ b, g.Needs a b → b ∈ ids) :
    g.above (ids ++ [id]).idxOf a = ids.length + 1 := by
  have hplace : (ids ++ [id]).idxOf id = ids.length := by
    rw [List.idxOf_append_of_notMem hnew, List.idxOf_cons_self, Nat.add_zero]
  have hneeds : g.Needs a id := by
    by_contra hnot
    refine hopen fun b hb => (List.mem_append.1 (h b hb)).resolve_right fun hid => hnot ?_
    rwa [← List.mem_singleton.1 hid]
  rw [above_eq_of_greatest hneeds fun c hc => ?_, hplace]
  have hlt := List.idxOf_lt_length_of_mem (h c hc)
  rw [List.length_append, List.length_singleton] at hlt
  rw [hplace]
  exact Nat.le_of_lt_succ hlt

namespace Placing

/-- What holds while steps are placed: the counts are exact, and the steps that are placed or ready
are sorted by how late their needs were placed. -/
structure Queued (g : NeedsGraph) (p : Placing) : Prop where
  /-- the counts of open needs are exact -/
  counted : Counted g p []
  /-- of the steps that are placed or ready, the one that comes first stands first -/
  sorted : (p.placed ++ p.ready).Pairwise (g.ComesFirst p.placed)

variable {p : Placing}

/-- The steps that are placed or ready are those of which all needs are placed. -/
theorem Counted.mem_queue_iff (h : Counted g p []) {a : String} (ha : a ∈ g.ids) :
    a ∈ p.placed ++ p.ready ↔ ∀ b, g.Needs a b → b ∈ p.placed := by
  rw [← h.openCount_eq_zero_iff a ha, h.openCount_eq a ha, List.count_nil, Nat.add_zero,
    List.countP_eq_zero]
  simp [Needs]

theorem queued_start (hclosed : g.Closed) : Queued g (start g) where
  counted := counted_start hclosed
  sorted := by
    have hready : (start g).ready.Sublist g.ids := List.filter_sublist.map _
    have hdeclared := (pairwise_idxOf_lt hclosed.nodup).sublist hready
    refine hdeclared.imp_of_mem fun {a b} ha hb hlt => .inr ⟨?_, hlt⟩
    rw [above_eq_zero_iff.2 ((mem_ready_start hclosed).1 ha).2,
      above_eq_zero_iff.2 ((mem_ready_start hclosed).1 hb).2]

/-- Lowering counts makes some of the steps ready that are listed, in this order. -/
theorem exists_ready_foldl_lower (pending : List String) (p : Placing) :
    ∃ joined, joined.Sublist pending ∧ (pending.foldl lower p).ready = p.ready ++ joined := by
  induction pending generalizing p with
  | nil => exact ⟨[], List.Sublist.refl _, (List.append_nil _).symm⟩
  | cons id pending ih =>
    obtain ⟨joined, hsub, hready⟩ := ih (p.lower id)
    by_cases hlast : p.openCount id - 1 = 0
    · refine ⟨id :: joined, hsub.cons_cons id, ?_⟩
      rw [List.foldl_cons, hready, lower, if_pos hlast, List.append_assoc]
      rfl
    · refine ⟨joined, hsub.cons id, ?_⟩
      rw [List.foldl_cons, hready, lower, if_neg hlast]

/-- The dependents of a step are listed in the order of their declaration. -/
theorem pairwise_dependents (hclosed : g.Closed) (id : String) :
    (dependents g id).Pairwise fun a b => g.ids.idxOf a ≤ g.ids.idxOf b := by
  have hcopy : ∀ {node : String × List String} {a : String},
      a ∈ ((node.2.filter (· = id)).map fun _ => node.1) → a = node.1 := by
    intro node a ha
    obtain ⟨-, -, rfl⟩ := List.mem_map.1 ha
    rfl
  rw [dependents, List.pairwise_flatMap]
  constructor
  · intro node _
    refine List.pairwise_of_forall_mem_list fun a ha b hb => ?_
    rw [hcopy ha, hcopy hb]
  · refine (List.pairwise_map.1 (pairwise_idxOf_lt hclosed.nodup)).imp fun hlt a ha b hb => ?_
    rw [hcopy ha, hcopy hb]
    exact Nat.le_of_lt hlt

/-- The first step that is ready is placed, and some of its dependents join the queue. -/
theorem exists_step_eq {id : String} {rest : List String} (hready : p.ready = id :: rest) :
    ∃ joined, joined.Sublist (dependents g id) ∧
      (Placing.step g p).placed = p.placed ++ [id] ∧
      (Placing.step g p).ready = rest ++ joined := by
  obtain ⟨joined, hsub, hjoined⟩ := exists_ready_foldl_lower (dependents g id)
    { p with ready := rest, placed := p.placed ++ [id] }
  rw [Placing.step, hready]
  exact ⟨joined, hsub, placed_foldl_lower _ _, hjoined⟩

/-- A step that joins the queue needs the one that was placed last: before, not all of its needs
were placed. -/
theorem Counted.above_eq_of_joins (h : Counted g p []) {p' : Placing} (h' : Counted g p' [])
    {id : String} {rest : List String} (hready : p.ready = id :: rest)
    (hplaced : p'.placed = p.placed ++ [id]) {a : String} (ha : a ∈ p'.placed ++ p'.ready)
    (hjoins : a ∉ p.placed ++ p.ready) :
    g.above (p.placed ++ [id]).idxOf a = p.placed.length + 1 := by
  have hid := h'.mem_ids a ha
  have hneeds := (h'.mem_queue_iff hid).1 ha
  rw [hplaced] at hneeds
  refine above_append_singleton (h.not_mem_placed hready) hneeds fun hall => ?_
  exact hjoins ((h.mem_queue_iff hid).2 hall)

/-- Placing a step keeps what is placed or ready sorted. -/
theorem Queued.step (h : Queued g p) (hclosed : g.Closed) : Queued g (Placing.step g p) := by
  have hcounted := h.counted.step hclosed
  rcases hready : p.ready with _ | ⟨id, rest⟩
  · rw [step_of_ready_nil hready]
    exact h
  obtain ⟨joined, hsub, hplaced, hjoined⟩ := exists_step_eq (g := g) hready
  have hqueue : (Placing.step g p).placed ++ (Placing.step g p).ready =
      (p.placed ++ p.ready) ++ joined := by
    rw [hplaced, hjoined, hready]
    simp
  have hids : ∀ a ∈ joined, a ∈ g.ids := fun a ha =>
    mem_ids_of_mem_dependents (hsub.subset ha)
  have hnodup := hcounted.nodup
  rw [hqueue, List.nodup_append] at hnodup
  have hold : ∀ a ∈ p.placed ++ p.ready, ∀ b, g.Needs a b → b ∈ p.placed := fun a ha =>
    (h.counted.mem_queue_iff (h.counted.mem_ids a ha)).1 ha
  have hlast : ∀ a ∈ joined, g.above (p.placed ++ [id]).idxOf a = p.placed.length + 1 := by
    intro a ha
    refine h.counted.above_eq_of_joins hcounted hready hplaced ?_ fun hbefore => ?_
    · exact hqueue ▸ List.mem_append_right _ ha
    · exact hnodup.2.2 a hbefore a ha rfl
  refine ⟨hcounted, ?_⟩
  rw [hqueue, hplaced, List.pairwise_append]
  refine ⟨?_, ?_, fun a ha b hb => .inl ?_⟩
  · refine h.sorted.imp_of_mem fun {a b} ha hb hfirst => ?_
    rw [ComesFirst, above_append (hold a ha), above_append (hold b hb)]
    exact hfirst
  · have hdeclared := ((pairwise_dependents hclosed id).sublist hsub).and hnodup.2.1
    refine hdeclared.imp_of_mem fun {a b} ha hb hle => .inr ⟨?_, ?_⟩
    · rw [hlast a ha, hlast b hb]
    · exact lt_of_le_of_ne hle.1 fun heq => hle.2 ((List.idxOf_inj (hids a ha)).1 heq)
  · rw [above_append (hold a ha), hlast b hb]
    refine Nat.lt_succ_of_le (above_le_iff.2 fun c hc => ?_)
    exact List.idxOf_lt_length_of_mem (hold a ha c hc)

theorem Queued.run (h : Queued g p) (hclosed : g.Closed) (fuel : Nat) :
    Queued g (Placing.run g fuel p) := by
  induction fuel generalizing p with
  | zero => exact h
  | succ fuel ih => exact ih (h.step hclosed)

end Placing

/-- An order is sorted by the last need of each step, and then by the declaration. -/
theorem pairwise_comesFirst_of_order (hclosed : g.Closed) {ids : List String}
    (h : g.order = .ok ids) : ids.Pairwise (g.ComesFirst ids) := by
  have hsorted := ((Placing.queued_start hclosed).run hclosed g.nodes.length).sorted
  have hready := ready_placing hclosed
  have hplaced := (order_eq_ok h).1
  rw [placing] at hready hplaced
  rwa [hready, List.append_nil, hplaced] at hsorted

end WorkflowCompiler.NeedsGraph
