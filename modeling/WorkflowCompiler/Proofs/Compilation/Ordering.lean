import WorkflowCompiler.Compilation.Step
import WorkflowCompiler.Proofs.Needs.Placing
import WorkflowCompiler.Proofs.Validation.Rules

/-!
# Ordered batches

Compiled steps with distinct ids that are put in order are the same steps (`inOrder_perm`),
each behind the steps it needs (`idxOf_lt_of_inOrder`). The ids of inline steps are looked at
before, so that they differ (`nodup_of_checkInline`).
-/

namespace WorkflowCompiler

/-- The graph of the needs of compiled steps. -/
def compiledGraph (steps : List CompiledStep) : NeedsGraph :=
  .ofDeclared (steps.map fun c => (c.id, c.needs))

theorem inOrder_eq (steps : List CompiledStep) :
    inOrder steps =
      match (compiledGraph steps).order with
      | .ok ids => .ok (ids.filterMap fun id => steps.find? fun c => c.id = id)
      | .error _ => .error (.cycle ((compiledGraph steps).findCycles.headD [])) := rfl

theorem closed_compiledGraph (steps : List CompiledStep) : (compiledGraph steps).Closed :=
  NeedsGraph.closed_ofDeclared _

theorem mem_ids_compiledGraph {steps : List CompiledStep} {id : String} :
    id ∈ (compiledGraph steps).ids ↔ id ∈ steps.map (·.id) := by
  rw [compiledGraph, NeedsGraph.mem_ids_ofDeclared, List.map_map]
  rfl

/-- What is put in order are the steps in the order of the graph of their needs. -/
theorem inOrder_eq_ok {steps out : List CompiledStep} (h : inOrder steps = .ok out) :
    ∃ ids, (compiledGraph steps).order = .ok ids ∧
      out = ids.filterMap fun id => steps.find? fun c => c.id = id := by
  rw [inOrder_eq] at h
  rcases horder : (compiledGraph steps).order with missing | ids
  · rw [horder] at h
    cases h
  · rw [horder] at h
    cases h
    exact ⟨ids, rfl, rfl⟩

theorem mem_of_inOrder {steps out : List CompiledStep} (h : inOrder steps = .ok out)
    {c : CompiledStep} (hc : c ∈ out) : c ∈ steps := by
  obtain ⟨ids, -, rfl⟩ := inOrder_eq_ok h
  obtain ⟨id, -, hfind⟩ := List.mem_filterMap.1 hc
  exact List.mem_of_find?_eq_some hfind

theorem ids_perm_of_order {steps : List CompiledStep} (hnodup : (steps.map (·.id)).Nodup)
    {ids : List String} (h : (compiledGraph steps).order = .ok ids) :
    ids.Perm (steps.map (·.id)) := by
  have hclosed := closed_compiledGraph steps
  refine (NeedsGraph.order_perm hclosed h).trans ?_
  exact (List.perm_ext_iff_of_nodup hclosed.nodup hnodup).2 fun id => mem_ids_compiledGraph

/-- No step is lost and none is there twice. -/
theorem inOrder_perm {steps out : List CompiledStep} (hnodup : (steps.map (·.id)).Nodup)
    (h : inOrder steps = .ok out) : out.Perm steps := by
  obtain ⟨ids, horder, rfl⟩ := inOrder_eq_ok h
  refine ((ids_perm_of_order hnodup horder).filterMap _).trans ?_
  have hfind : ∀ c ∈ steps, (steps.find? fun d => d.id = c.id) = some c := fun c hc =>
    (find?_eq_some_iff_of_nodup hnodup).2 ⟨hc, rfl⟩
  rw [List.filterMap_map, Function.comp_def, List.filterMap_congr (g := some) hfind,
    List.filterMap_some]

/-- The ids of the steps are the ids in the order of the graph. -/
theorem ids_of_inOrder {steps out : List CompiledStep} (hnodup : (steps.map (·.id)).Nodup)
    (h : inOrder steps = .ok out) :
    (compiledGraph steps).order = .ok (out.map (·.id)) := by
  obtain ⟨ids, horder, rfl⟩ := inOrder_eq_ok h
  rw [horder, List.map_filterMap]
  have hfind : ∀ id ∈ ids, ((steps.find? fun c => c.id = id).map (·.id)) = some id := by
    intro id hid
    obtain ⟨c, hc, rfl⟩ := List.mem_map.1 ((ids_perm_of_order hnodup horder).mem_iff.1 hid)
    rw [(find?_eq_some_iff_of_nodup hnodup).2 ⟨hc, rfl⟩]
    rfl
  rw [List.filterMap_congr (g := some) hfind, List.filterMap_some]

/-- What a step needs of the others stands before it. -/
theorem idxOf_lt_of_inOrder {steps out : List CompiledStep} (hnodup : (steps.map (·.id)).Nodup)
    (h : inOrder steps = .ok out) {c : CompiledStep} (hc : c ∈ steps) {need : String}
    (hneed : need ∈ c.needs) (hmem : need ∈ steps.map (·.id)) :
    (out.map (·.id)).idxOf need < (out.map (·.id)).idxOf c.id := by
  refine NeedsGraph.idxOf_lt_of_order (closed_compiledGraph steps) (ids_of_inOrder hnodup h)
    (mem_ids_compiledGraph.2 (List.mem_map_of_mem hc)) ?_
  rw [compiledGraph, NeedsGraph.needs_ofDeclared]
  refine ⟨⟨(c.id, c.needs), List.mem_map.2 ⟨c, hc, rfl⟩, rfl, hneed⟩, ?_⟩
  rw [List.map_map]
  exact hmem

/-- Putting steps in order fails when their graph has no order, with a cycle that is found. -/
theorem inOrder_eq_error_iff {steps : List CompiledStep} {e : CompileError} :
    inOrder steps = .error e ↔
      (¬ ∃ ids, (compiledGraph steps).order = .ok ids) ∧
        e = .cycle ((compiledGraph steps).findCycles.headD []) := by
  rw [inOrder_eq]
  rcases (compiledGraph steps).order with missing | ids <;> simp [eq_comm]

/-- Putting steps in order fails for circles only. -/
theorem inOrder_eq_error {steps : List CompiledStep} {e : CompileError}
    (h : inOrder steps = .error e) : ∃ path, e = .cycle path :=
  ⟨_, (inOrder_eq_error_iff.1 h).2⟩

/-! ## Ids of inline steps -/

theorem firstRepeated?_eq_none_iff {seen ids : List String} :
    firstRepeated? seen ids = none ↔ ids.Nodup ∧ ∀ id ∈ ids, id ∉ seen := by
  induction ids generalizing seen with
  | nil => simp [firstRepeated?]
  | cons id ids ih =>
    rw [firstRepeated?]
    by_cases hseen : id ∈ seen
    · simp [hseen]
    · rw [if_neg hseen, ih, List.nodup_cons, List.forall_mem_cons]
      simp only [List.mem_cons, not_or]
      constructor
      · rintro ⟨hnodup, hnew⟩
        exact ⟨⟨fun hid => (hnew id hid).1 rfl, hnodup⟩, hseen, fun a ha => (hnew a ha).2⟩
      · rintro ⟨⟨hid, hnodup⟩, -, hnew⟩
        refine ⟨hnodup, fun a ha => ⟨?_, hnew a ha⟩⟩
        rintro rfl
        exact hid ha

/-- The first id that is there again stands behind ids that differ. -/
theorem firstRepeated?_eq_some {seen ids : List String} {id : String}
    (h : firstRepeated? seen ids = some id) :
    ∃ before after, ids = before ++ id :: after ∧ (id ∈ seen ∨ id ∈ before) ∧ before.Nodup ∧
      ∀ other ∈ before, other ∉ seen := by
  induction ids generalizing seen with
  | nil => cases h
  | cons first ids ih =>
    rw [firstRepeated?] at h
    by_cases hseen : first ∈ seen
    · rw [if_pos hseen] at h
      cases h
      exact ⟨[], ids, rfl, .inl hseen, List.nodup_nil, fun _ h => absurd h List.not_mem_nil⟩
    · rw [if_neg hseen] at h
      obtain ⟨before, after, rfl, hagain, hnodup, hnew⟩ := ih h
      refine ⟨first :: before, after, rfl, ?_, ?_, ?_⟩
      · rcases hagain with hagain | hagain
        · rcases List.mem_cons.1 hagain with rfl | hagain
          · exact .inr List.mem_cons_self
          · exact .inl hagain
        · exact .inr (List.mem_cons_of_mem _ hagain)
      · exact List.nodup_cons.2 ⟨fun hfirst => hnew first hfirst List.mem_cons_self, hnodup⟩
      · refine List.forall_mem_cons.2 ⟨hseen, fun other hother hmem => ?_⟩
        exact hnew other hother (List.mem_cons_of_mem _ hmem)

/-- Inline steps that pass the check have distinct ids. -/
theorem nodup_of_checkInline {parent : String} {steps : List Step}
    (h : checkInline parent steps = .ok ()) : (steps.map (·.id)).Nodup := by
  rw [checkInline] at h
  rcases hfirst : firstRepeated? [] (steps.map (·.id)) with _ | id
  · exact (firstRepeated?_eq_none_iff.1 hfirst).1
  · rw [hfirst] at h
    cases h

/-- Inline steps with distinct ids fail the check for circles only. -/
theorem checkInline_eq_error {parent : String} {steps : List Step} {e : CompileError}
    (hnodup : (steps.map (·.id)).Nodup) (h : checkInline parent steps = .error e) :
    ∃ path, e = .cycle path := by
  rw [checkInline, firstRepeated?_eq_none_iff.2 ⟨hnodup, by simp⟩] at h
  rcases hcycles : (NeedsGraph.ofSteps steps).findCycles with _ | ⟨path, paths⟩
  · rw [hcycles] at h
    cases h
  · rw [hcycles] at h
    cases h
    exact ⟨path, rfl⟩

end WorkflowCompiler
