import WorkflowCompiler.Proofs.Needs.Progress

/-!
# The steps that cannot be placed

Placing ends with all steps placed, or some are stuck. These are the steps from which a circle can
be reached along needs: what a placed step needs was placed before it, so that no way from it comes
back to itself, and a step that is stuck needs a stuck one, so that a way along stuck steps must
come by one of them twice.

* `reachesCircle_iff` — the stuck steps are those that reach a circle;
* `openCount_pos_of_lowersNext` — a count that is lowered is not zero;
* `order_eq_ok_or_error` — what an order is, and what an error says.
-/

namespace WorkflowCompiler.NeedsGraph

open Relation (ReflTransGen TransGen)

variable {g : NeedsGraph}

/-- From a step, a step can be reached along needs that needs itself, directly or not. -/
def ReachesCircle (g : NeedsGraph) (a : String) : Prop :=
  ∃ b, ReflTransGen g.Needs a b ∧ TransGen g.Needs b b

/-- No way from a placed step leads into a circle. -/
theorem not_reachesCircle_of_mem_placed (hclosed : g.Closed) {a : String}
    (ha : a ∈ g.placing.placed) : ¬ g.ReachesCircle a := by
  rintro ⟨b, hway, hcircle⟩
  have hcounted := counted_placing hclosed
  have hb : b ∈ g.placing.placed := by
    rcases Relation.reflTransGen_iff_eq_or_transGen.1 hway with rfl | hway
    · exact ha
    · exact (hcounted.idxOf_lt_of_transGen ha hway).1
  exact Nat.lt_irrefl _ (hcounted.idxOf_lt_of_transGen hb hcircle).2

/-- From a step that was not placed a circle is reached. -/
theorem reachesCircle_of_not_mem_placed (hclosed : g.Closed) {a : String} (ha : a ∈ g.ids)
    (hunplaced : a ∉ g.placing.placed) : g.ReachesCircle a := by
  classical
  by_contra hnone
  -- of the steps that are stuck and reached from `a`, one would need none of the others
  let stuck := g.ids.filter fun b => b ∉ g.placing.placed ∧ ReflTransGen g.Needs a b
  have hmem : ∀ b, b ∈ stuck ↔
      b ∈ g.ids ∧ b ∉ g.placing.placed ∧ ReflTransGen g.Needs a b := by
    intro b
    rw [List.mem_filter, decide_eq_true_eq]
  have hne : stuck ≠ [] := List.ne_nil_of_mem ((hmem a).2 ⟨ha, hunplaced, .refl⟩)
  obtain ⟨b, hb, hneeds⟩ := exists_needs_none hne fun b hb hcircle =>
    hnone ⟨b, ((hmem b).1 hb).2.2, hcircle⟩
  obtain ⟨hid, hstuck, hway⟩ := (hmem b).1 hb
  obtain ⟨c, hc, hstuck'⟩ := exists_unplaced_need hclosed hid hstuck
  exact hneeds c ((hmem c).2 ⟨hclosed.mem_ids hc, hstuck', hway.tail hc⟩) hc

/-- The steps that are not placed are those from which a circle is reached. -/
theorem reachesCircle_iff (hclosed : g.Closed) {a : String} (ha : a ∈ g.ids) :
    g.ReachesCircle a ↔ a ∉ g.placing.placed :=
  ⟨fun hcircle hplaced => not_reachesCircle_of_mem_placed hclosed hplaced hcircle,
    reachesCircle_of_not_mem_placed hclosed ha⟩

/-! ## Counts that are lowered -/

/-- The state in which the count of a step is lowered next: the first of the steps that were ready
has been placed, and the counts of its dependents were lowered as far as this one. -/
def Placing.LowersNext (g : NeedsGraph) (p : Placing) (id : String) : Prop :=
  ∃ n first rest before after,
    (run g n (start g)).ready = first :: rest ∧ dependents g first = before ++ id :: after ∧
      p = before.foldl lower
        { run g n (start g) with ready := rest, placed := (run g n (start g)).placed ++ [first] }

/-- A count that is lowered is not zero. -/
theorem openCount_pos_of_lowersNext (hclosed : g.Closed) {p : Placing} {id : String}
    (h : Placing.LowersNext g p id) : 0 < p.openCount id := by
  obtain ⟨n, first, rest, before, after, hready, hdependents, rfl⟩ := h
  have hplaced := ((Placing.counted_start hclosed).run hclosed n).place hclosed hready
  have hids : ∀ a ∈ before ++ id :: after, a ∈ g.ids := fun a ha =>
    Placing.mem_ids_of_mem_dependents (hdependents ▸ ha)
  rw [hdependents] at hplaced
  have hcounted := hplaced.foldl_lower fun a ha => hids a (List.mem_append_left _ ha)
  rw [hcounted.openCount_eq id (hids id (List.mem_append_right _ List.mem_cons_self)),
    List.count_cons_self]
  omega

/-- Whatever is declared, the steps are ordered, each declared id once and behind all it needs, or
the error lists, in the order of their declaration, just the steps from which a circle is reached;
and no count of open needs is lowered that is zero. -/
theorem order_eq_ok_or_error (declared : List (String × List String)) :
    ((∃ ids, (ofDeclared declared).order = .ok ids ∧
        ids.Perm (distinct (declared.map Prod.fst)) ∧
        ∀ before a after, ids = before ++ a :: after →
          ∀ node ∈ declared, node.1 = a → ∀ b ∈ node.2, b ∈ declared.map Prod.fst → b ∈ before) ∨
      ∃ stuck, (ofDeclared declared).order = .error stuck ∧ stuck ≠ [] ∧
        stuck.Sublist (distinct (declared.map Prod.fst)) ∧
        ∀ a, a ∈ stuck ↔ a ∈ declared.map Prod.fst ∧ (ofDeclared declared).ReachesCircle a) ∧
    ∀ p id, Placing.LowersNext (ofDeclared declared) p id → 0 < p.openCount id := by
  have hclosed := closed_ofDeclared declared
  refine ⟨?_, fun p id h => openCount_pos_of_lowersNext hclosed h⟩
  rw [← ids_ofDeclared]
  rcases horder : (ofDeclared declared).order with stuck | ids
  · obtain ⟨rfl, hne⟩ := order_eq_error hclosed horder
    refine .inr ⟨_, rfl, hne, List.filter_sublist, fun a => ?_⟩
    rw [List.mem_filter, decide_eq_true_eq, ← mem_ids_ofDeclared]
    exact and_congr_right fun ha => (reachesCircle_iff hclosed ha).symm
  · refine .inl ⟨ids, rfl, order_perm hclosed horder, ?_⟩
    rintro before a after rfl node hnode hid b hb hknown
    exact mem_of_order hclosed horder (needs_ofDeclared.2 ⟨⟨node, hnode, hid, hb⟩, hknown⟩)

end WorkflowCompiler.NeedsGraph
