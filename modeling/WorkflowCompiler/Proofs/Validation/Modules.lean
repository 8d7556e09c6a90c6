import Mathlib.Data.List.Flatten
import Mathlib.Data.List.Forall2
import WorkflowCompiler.Proofs.Validation.Rules
import WorkflowCompiler.Proofs.Validation.Suggestions

/-!
# Workflows in their modules

A workflow that is validated in its module is known better: the references to other workflows of
the document can be followed, so that more children of steps are known. Everything that is found
in the workflow alone is found in the module as well, and in the same order: word for word if both
validations go through the ids around a batch in one order (`Scope.findings_sublist`). What is found
alone cannot be refuted by the module: where the children of a step are known alone, they come from
no other workflow, and where they are not, no child is missed.

No two validations need to have the same order. From one order to another the findings stay, one
for one, and only where a need names nothing another candidate may be suggested, which is as similar
to it (`Finding.Alike`, `Scope.findings_alike`). Both comparisons go through a workflow in the same
way, so this is done once, for any relation that puts together lists from their parts
(`Scope.Relates`).
-/

namespace WorkflowCompiler

open List (Forall₂ Sublist SublistForall₂)

/-! ## Comparing two validations of a workflow -/

section Relates

variable {P : List Finding → List Finding → Prop} {scope scope' : Scope}

/-- Two validations of one workflow find what is related in each batch and in each step, by a
relation of lists that goes from parts to the whole. -/
structure Scope.Relates (P : List Finding → List Finding → Prop) (scope scope' : Scope) :
    Prop where
  /-- the workflow is the same -/
  workflow_eq : scope'.workflow = scope.workflow
  /-- every list is related to itself -/
  refl : ∀ l, P l l
  /-- lists that are put together from related ones are related -/
  append : ∀ {l l' m m'}, P l l' → P m m' → P (l ++ m) (l' ++ m')
  /-- what is found about the siblings of a batch is related -/
  siblings : ∀ parent outer batch,
    P (siblingFindings scope parent outer batch) (siblingFindings scope' parent outer batch)
  /-- what is found in a step is related -/
  steps : ∀ id s, P (stepFindings scope id s) (stepFindings scope' id s)

namespace Scope.Relates

mutual

theorem nested (h : scope.Relates P scope') (parent : Option String) (outer : List String)
    (s : Step) : P (nestedFindings scope parent outer s) (nestedFindings scope' parent outer s) := by
  obtain ⟨d, onTrue, onFalse, onTimeout⟩ := s
  rw [nestedFindings, nestedFindings]
  exact h.append (h.append (h.append (h.steps _ _) (h.outcome _ outer onTrue))
    (h.outcome _ outer onFalse)) (h.outcome _ outer onTimeout)

theorem outcome (h : scope.Relates P scope') (id : String) (outer : List String)
    (target : Option (Target Step)) :
    P (outcomeFindings scope id outer target) (outcomeFindings scope' id outer target) := by
  cases target with
  | none => exact h.refl _
  | some t =>
    obtain ⟨template, vars, inline⟩ := t
    rw [outcomeFindings, outcomeFindings]
    exact h.append (h.siblings _ outer inline) (h.members _ _ inline)

theorem members (h : scope.Relates P scope') (parent : Option String) (outer : List String)
    (batch : List Step) :
    P (membersFindings scope parent outer batch) (membersFindings scope' parent outer batch) := by
  cases batch with
  | nil => exact h.refl _
  | cons s rest =>
    rw [membersFindings, membersFindings]
    exact h.append (h.nested parent outer s) (h.members parent outer rest)

end

/-- So all that is found is related. -/
theorem findings (h : scope.Relates P scope') : P scope.findings scope'.findings := by
  have hbatch : P (batchFindings scope none [] scope.workflow.steps)
      (batchFindings scope' none [] scope.workflow.steps) :=
    h.append (h.siblings none [] _) (h.members none _ _)
  have hname : scope'.finding "" "name" .noName = scope.finding "" "name" .noName := by
    rw [Scope.finding, Scope.finding, h.workflow_eq]
  have hsteps : scope'.finding "" "steps" .noSteps = scope.finding "" "steps" .noSteps := by
    rw [Scope.finding, Scope.finding, h.workflow_eq]
  rw [Scope.findings, Scope.findings, h.workflow_eq, hname, hsteps]
  refine h.append (h.refl _) ?_
  by_cases hempty : scope.workflow.steps.isEmpty = true
  · rw [if_pos hempty, if_pos hempty]
    exact h.refl _
  · rw [if_neg hempty, if_neg hempty]
    exact hbatch

end Scope.Relates

/-- The ids of a batch are looked at without its surroundings. -/
theorem idFindings_congr (h : scope'.workflow = scope.workflow) (parent : Option String)
    (seen : List String) (batch : List Step) :
    idFindings scope' parent seen batch = idFindings scope parent seen batch := by
  induction batch generalizing seen with
  | nil => rfl
  | cons s rest ih =>
    rw [idFindings, idFindings]
    simp only [ih, Scope.finding, h]

/-- The circles of a batch are looked at without its surroundings. -/
theorem cycleFindings_congr (h : scope'.workflow = scope.workflow) (parent : Option String)
    (batch : List Step) : cycleFindings scope' parent batch = cycleFindings scope parent batch := by
  rw [cycleFindings, cycleFindings]
  simp only [Scope.finding, h]

end Relates

/-! ## Alone and in the module -/

/-- The same workflow, where nothing is known of the module around it. -/
def Scope.alone (scope : Scope) : Scope := { scope with module := none }

section Alone

variable (scope : Scope)

/-- Alone, the children of a step are not known, or they are the same as in the module. -/
theorem childrenOf_alone (s : Step) :
    childrenOf scope.alone s = .unknown ∨ childrenOf scope.alone s = childrenOf scope s := by
  by_cases hchildren : s.HasChildren
  · have halone : childrenOf scope.alone s = _ := childrenOf_eq (w := scope.workflow) hchildren
    by_cases htemplates : s.template.toList ++ s.targets.filterMap (·.2.template) = []
    · -- no workflow is put in that the module could know
      obtain ⟨c, hclass, hproduces⟩ := Step.hasChildren_iff.1 hchildren
      have hmodule : childrenOf scope s =
          .known (s.targets.flatMap fun entry => entry.2.inline.map (·.id)) := by
        rw [childrenOf, hclass]
        simp only [hproduces, if_true, htemplates]
        rfl
      rw [if_pos htemplates] at halone
      exact .inr (halone.trans hmodule.symm)
    · rw [if_neg htemplates] at halone
      exact .inl halone
  · have hnone : ∀ scope, childrenOf scope s = .none := by
      intro scope
      rw [childrenOf]
      rcases hclass : s.classify? with _ | c
      · rfl
      · have hproduces : c.executor.producesChildren ≠ true := fun h =>
          hchildren (Step.hasChildren_iff.2 ⟨c, hclass, h⟩)
        simp [hproduces]
    rw [hnone, hnone]
    exact .inr rfl

/-- What is wrong with the name of a child alone is wrong with it in the module. -/
theorem childFault?_of_alone {need : String} {q : Step} {child : String}
    {fault : Fault × Option String} (h : childFault? scope.alone need q child = some fault) :
    childFault? scope need q child = some fault := by
  rw [childFault?] at h
  rcases childrenOf_alone scope q with hunknown | hsame
  · rw [hunknown] at h
    cases h
  · rw [hsame] at h
    exact h

theorem needFault?_of_alone {batch : List Step} {outer : List String} {need : String}
    {fault : Fault × Option String} (h : needFault? scope.alone batch outer need = some fault) :
    needFault? scope batch outer need = some fault := by
  rw [needFault?] at h ⊢
  by_cases hknown : ((usableIds batch).contains need || outer.contains need) = true
  · rw [if_pos hknown] at h
    cases h
  · rw [if_neg hknown] at h ⊢
    generalize (Text.cutAt? '.' need).bind _ = place at h ⊢
    rcases place with _ | ⟨parent, child⟩
    · exact h
    · exact childFault?_of_alone scope h

/-- What is there pointwise is there in order. -/
theorem filterMap_sublist {α β : Type} {f g : α → Option β} (h : ∀ a b, f a = some b → g a = some b)
    (l : List α) : Sublist (l.filterMap f) (l.filterMap g) := by
  rw [List.filterMap_eq_flatMap_toList, List.filterMap_eq_flatMap_toList]
  refine Sublist.flatMap_right l fun a _ => ?_
  rcases hf : f a with _ | b
  · exact List.nil_sublist _
  · rw [h a b hf]

theorem needFindings_sublist (parent : Option String) (outer : List String) (batch : List Step) :
    Sublist (needFindings scope.alone parent outer batch)
      (needFindings scope parent outer batch) :=
  Sublist.flatMap_right batch fun _ _ =>
    (filterMap_sublist (fun _ _ => needFault?_of_alone scope) _).map _

/-- The ids and the circles of a batch do not depend on the module. -/
theorem siblingFindings_sublist (parent : Option String) (outer : List String)
    (batch : List Step) :
    Sublist (siblingFindings scope.alone parent outer batch)
      (siblingFindings scope parent outer batch) := by
  have hworkflow : scope.alone.workflow = scope.workflow := rfl
  rw [siblingFindings, siblingFindings, idFindings_congr hworkflow, cycleFindings_congr hworkflow]
  exact ((Sublist.refl _).append (needFindings_sublist scope parent outer batch)).append
    (Sublist.refl _)

/-- Only references within the document are looked at in the module, and not alone. -/
theorem stepFindings_sublist (id : String) (s : Step) :
    Sublist (stepFindings scope.alone id s) (stepFindings scope id s) := by
  have hlocal : localFaults scope.alone s = [] := rfl
  have hfields : Sublist (fieldFaults s ++ localFaults scope.alone s)
      (fieldFaults s ++ localFaults scope s) := by
    rw [hlocal]
    exact (Sublist.refl _).append (List.nil_sublist _)
  exact (hfields.append (Sublist.refl (placeholderFaults scope s))).map _

/-- What is found in a workflow alone is found in its module, in the same order. -/
theorem Scope.findings_sublist : Sublist scope.alone.findings scope.findings :=
  Scope.Relates.findings
    { workflow_eq := rfl
      refl := Sublist.refl
      append := Sublist.append
      siblings := siblingFindings_sublist scope
      steps := stepFindings_sublist scope }

end Alone

/-! ## In another order -/

/-- Two findings of the same fault at the same place. Their suggestions are the same as well, or two
equally good ones for a need that names nothing. -/
structure Finding.Alike (f g : Finding) : Prop where
  /-- the workflow is the same -/
  workflow_eq : f.workflow = g.workflow
  /-- the step is the same -/
  step_eq : f.step = g.step
  /-- the field is the same -/
  field_eq : f.field = g.field
  /-- the fault is the same -/
  fault_eq : f.fault = g.fault
  /-- the suggestions are the same, or equally good -/
  suggestion : f.suggestion = g.suggestion ∨
    ∃ need, f.fault = .unknownNeed need ∧ Suggestion.EquallyGood need f.suggestion g.suggestion

instance : Std.Refl Finding.Alike := ⟨fun _ => ⟨rfl, rfl, rfl, rfl, .inl rfl⟩⟩

/-- The same place, where the validation has another order. -/
def Scope.reordered (scope : Scope) (order : SetOrder) : Scope := { scope with order }

section Reordered

variable (scope : Scope) (order : SetOrder)

/-- The candidates for a need are the same in every order. -/
theorem needFault?_alike (batch : List Step) (outer : List String) (id need : String) :
    Option.Rel
      (fun a b => (scope.finding id "needs" a.1 a.2).Alike (scope.finding id "needs" b.1 b.2))
      (needFault? scope batch outer need) (needFault? (scope.reordered order) batch outer need) := by
  rw [needFault?, needFault?]
  by_cases hknown : ((usableIds batch).contains need || outer.contains need) = true
  · rw [if_pos hknown, if_pos hknown]
    exact .none
  · rw [if_neg hknown, if_neg hknown]
    generalize (Text.cutAt? '.' need).bind _ = place
    rcases place with _ | ⟨parent, child⟩
    · refine .some ⟨rfl, rfl, rfl, rfl, .inr ⟨need, rfl, Suggestion.suggest_equallyGood ?_⟩⟩
      intro candidate
      rw [List.mem_append, List.mem_append, SetOrder.mem_list, SetOrder.mem_list]
    · -- children are looked for without the ids around the batch
      have hchild : childFault? (scope.reordered order) need parent child =
          childFault? scope need parent child := rfl
      simp only [hchild]
      cases childFault? scope need parent child with
      | none => exact .none
      | some fault => exact .some (Std.Refl.refl _)

theorem needFindings_alike (parent : Option String) (outer : List String) (batch : List Step) :
    Forall₂ Finding.Alike (needFindings scope parent outer batch)
      (needFindings (scope.reordered order) parent outer batch) := by
  rw [needFindings, needFindings]
  refine List.rel_flatMap (List.forall₂_same.2 fun _ _ => rfl) ?_
  rintro s _ rfl
  refine List.forall₂_map_left_iff.2 (List.forall₂_map_right_iff.2 ?_)
  refine List.rel_filterMap ?_ (List.forall₂_same.2 fun _ _ => rfl)
  rintro need _ rfl
  exact needFault?_alike scope order batch outer (fullId parent s.id) need

theorem siblingFindings_alike (parent : Option String) (outer : List String)
    (batch : List Step) :
    Forall₂ Finding.Alike (siblingFindings scope parent outer batch)
      (siblingFindings (scope.reordered order) parent outer batch) := by
  have hworkflow : (scope.reordered order).workflow = scope.workflow := rfl
  rw [siblingFindings, siblingFindings, idFindings_congr hworkflow, cycleFindings_congr hworkflow]
  exact List.rel_append (List.rel_append (List.forall₂_refl _)
    (needFindings_alike scope order parent outer batch)) (List.forall₂_refl _)

/-- What is found in a workflow in one order is found in every other one. -/
theorem Scope.findings_alike :
    Forall₂ Finding.Alike scope.findings (scope.reordered order).findings :=
  Scope.Relates.findings
    { workflow_eq := rfl
      refl := List.forall₂_refl
      append := fun h h' => List.rel_append h h'
      siblings := siblingFindings_alike scope order
      steps := fun _ _ => List.forall₂_refl _ }

end Reordered

/-! ## Modules -/

theorem Workflow.findings_sublist_findingsIn (m : Module) (w : Workflow) (order : SetOrder) :
    Sublist (w.findings order) (m.findingsIn w order) :=
  (Scope.findings_sublist { workflow := w, module := some m, order }).trans
    (List.sublist_append_left _ _)

/-- What one validation finds in a workflow alone, another one finds in its module. -/
theorem Workflow.findings_alike_findingsIn (m : Module) (w : Workflow) (order order' : SetOrder) :
    SublistForall₂ Finding.Alike (w.findings order) (m.findingsIn w order') :=
  List.sublistForall₂_iff.2
    ⟨w.findings order', Scope.findings_alike { workflow := w, order } order',
      w.findings_sublist_findingsIn m order'⟩

/-- The findings in a module are those in its workflows, one workflow after the other. -/
theorem Module.findings_eq_flatMap {m : Module} (h : m.workflows ≠ [])
    (order : String → SetOrder) :
    m.findings order = m.workflows.flatMap fun entry => m.findingsIn entry.2 (order entry.1) := by
  rw [Module.findings, if_neg (by simpa using h)]

/-- The workflows of a module without findings have none alone, and there is one. -/
theorem Module.findings_of_mem {m : Module} {order : String → SetOrder}
    (h : m.findings order = []) :
    m.workflows ≠ [] ∧ ∀ entry ∈ m.workflows, entry.2.findings = [] := by
  have hne : m.workflows ≠ [] := by
    intro hempty
    rw [Module.findings, hempty] at h
    cases h
  refine ⟨hne, fun entry hentry => ?_⟩
  rw [Module.findings_eq_flatMap hne, List.flatMap_eq_nil_iff] at h
  have hsub := entry.2.findings_sublist_findingsIn m (order entry.1)
  rw [h entry hentry] at hsub
  exact Workflow.findings_eq_nil_of_order (List.sublist_nil.1 hsub)

end WorkflowCompiler
