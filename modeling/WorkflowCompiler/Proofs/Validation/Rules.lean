import WorkflowCompiler.Proofs.Needs.CycleSearch
import WorkflowCompiler.Proofs.Validation.WellFormed

/-!
# Faults and rules

For each part of a validation, no fault is found exactly when the rules it looks at are kept:
the fields of a step (`fieldFaults_eq_nil_iff`), its placeholders
(`placeholderFaults_eq_nil_iff`), the ids of a batch (`idFindings_eq_nil_iff`), its needs
(`needFault?_eq_none_iff`) and its circles (`cycleFindings_eq_nil_iff`). So a workflow has no
findings exactly when it is well-formed (`Workflow.findings_eq_nil_iff_wellFormed`).
-/

namespace WorkflowCompiler

variable {order : SetOrder}

/-! ## Blank fields -/

theorem trim_ne_iff {text : String} : Text.trim text ≠ "" ↔ Text.allBlank text = false := by
  rw [ne_eq, ← Text.allBlank_iff_trim_eq, Bool.not_eq_true]

theorem given_iff {field : Option String} : Given field ↔ isBlankField field = false := by
  cases field with
  | none => simp [Given, isBlankField]
  | some text => simp [Given, isBlankField, trim_ne_iff]

/-! ## Fields of a step -/

theorem Step.targets_eq_nil_iff {s : Step} : s.targets = [] ↔ ∀ o, s.target? o = none := by
  rw [List.eq_nil_iff_forall_not_mem]
  constructor
  · intro h o
    rcases ht : s.target? o with _ | t
    · rfl
    · exact absurd (Step.mem_targets.2 ht) (h (o, t))
  · rintro h ⟨o, t⟩ hmem
    rw [Step.mem_targets, h o] at hmem
    cases hmem

/-- The fields that an executor asks for are there exactly when nothing is wrong with them. -/
theorem executorFaults_eq_nil_iff {s : Step} {c : Classification} :
    executorFaults s c = [] ↔ s.MeetsRules c := by
  rw [executorFaults, Step.MeetsRules]
  cases c.executor with
  | shell => cases hblank : isBlankField s.commandText <;> simp [given_iff, hblank]
  | spawn | kill =>
    cases hblank : isBlankField s.agentName
    · simp [given_iff, hblank]
    · -- an older type is told of the field in which it used to name the agent
      simp only [given_iff, hblank, if_true]
      split <;> simp
  | expand => cases hblank : isBlankField s.template <;> simp [given_iff, hblank]
  | foreach =>
    cases hblank : isBlankField s.template <;> cases s.items <;> cases s.itemsFile <;>
      simp [given_iff, hblank]
  | branch =>
    by_cases hgate : c.gate = true
    · cases hblank : isBlankField s.instructions <;> cases s.agentName <;>
        simp [given_iff, hblank, hgate]
    · by_cases htargets : s.targets = []
      · have hnone := Step.targets_eq_nil_iff.1 htargets
        simp [hgate, htargets, hnone]
      · have hsome : ∃ o, s.target? o ≠ none := by
          by_contra hnone
          push Not at hnone
          exact htargets (Step.targets_eq_nil_iff.2 hnone)
        cases hblank : isBlankField s.condition <;>
          simp [given_iff, hblank, hgate, htargets, hsome]
  | agent =>
    cases s.mode with
    | none => simp
    | some mode => by_cases hmode : hasPlaceholders mode = true <;> simp [hmode]

theorem targetFaults_eq_nil_iff {o : Outcome} {t : Target Step} :
    targetFaults o t = [] ↔ (t.template = none ↔ t.inline ≠ []) := by
  obtain ⟨template, vars, inline⟩ := t
  cases template <;> cases inline <;> simp [targetFaults]

/-- Nothing is wrong with the fields of a step that says how it is run, has the fields for it
and has proper targets. -/
theorem fieldFaults_eq_nil_iff {s : Step} :
    fieldFaults s = [] ↔
      (∃ c, s.classify? = some c ∧ s.MeetsRules c) ∧
        ∀ o t, s.target? o = some t → (t.template = none ↔ t.inline ≠ []) := by
  rw [fieldFaults]
  rcases hclass : s.classify? with _ | c
  · cases s.executor <;> simp
  · simp only [List.append_eq_nil_iff, executorFaults_eq_nil_iff, List.flatMap_eq_nil_iff,
      targetFaults_eq_nil_iff, Option.some.injEq, exists_eq_left']
    refine and_congr_right fun _ => ?_
    constructor
    · intro h o t ht
      exact h (o, t) (Step.mem_targets.2 ht)
    · rintro h ⟨o, t⟩ hmem
      exact h o t (Step.mem_targets.1 hmem)

/-! ## Placeholders of a step -/

/-- The roots that are known at a step are those it may use. -/
theorem mem_rootsAt_iff {w : Workflow} {s : Step} {root : String} :
    root ∈ rootsAt { workflow := w, order } s ↔ s.MayUse w root := by
  rw [rootsAt, Scope.knownRoots, List.append_assoc, List.mem_append, List.mem_append,
    Step.MayUse]
  refine or_congr_right (or_congr_right ?_)
  rcases hclass : s.classify? with _ | ⟨executor, gate, legacy⟩
  · simp
  · cases executor with
    | foreach => simp
    | _ => simp

theorem unknownRoots_eq_nil_iff {known : List String} {text : String} :
    unknownRoots known text = [] ↔
      ∀ p ∈ scan text, p.isOutputReference = true ∨ p.root ∈ known := by
  rw [unknownRoots, List.map_eq_nil_iff, List.filter_eq_nil_iff]
  refine forall₂_congr fun p _ => ?_
  cases p.isOutputReference <;> simp

/-- Nothing is wrong with the placeholders of a step that uses only what it may use. -/
theorem placeholderFaults_eq_nil_iff {w : Workflow} {s : Step} :
    placeholderFaults { workflow := w, order } s = [] ↔
      ∀ entry ∈ s.texts, ∀ p ∈ scan entry.2,
        p.isOutputReference = true ∨ s.MayUse w p.root := by
  rw [placeholderFaults, List.flatMap_eq_nil_iff]
  refine forall₂_congr fun entry _ => ?_
  rw [List.map_eq_nil_iff, unknownRoots_eq_nil_iff]
  simp only [mem_rootsAt_iff]

/-- Nothing is found in a step, alone, that keeps the rules for single steps. -/
theorem stepFindings_eq_nil_iff {w : Workflow} {id : String} {s : Step} :
    stepFindings { workflow := w, order } id s = [] ↔ s.WellFormed w := by
  have hlocal : localFaults { workflow := w, order } s = [] := rfl
  rw [stepFindings, List.map_eq_nil_iff, hlocal, List.append_nil, List.append_eq_nil_iff,
    fieldFaults_eq_nil_iff, placeholderFaults_eq_nil_iff]
  constructor
  · rintro ⟨⟨hrules, htargets⟩, hplaceholders⟩
    exact ⟨hrules, htargets, hplaceholders⟩
  · rintro ⟨hrules, htargets, hplaceholders⟩
    exact ⟨⟨hrules, htargets⟩, hplaceholders⟩

/-! ## Ids of a batch -/

/-- Nothing is wrong with ids that are not blank, differ, and were not seen before. -/
theorem idFindings_eq_nil_iff {scope : Scope} {parent : Option String} {seen : List String}
    {steps : List Step} :
    idFindings scope parent seen steps = [] ↔
      (∀ s ∈ steps, Text.allBlank s.id = false) ∧ (steps.map (·.id)).Nodup ∧
        ∀ s ∈ steps, s.id ∉ seen := by
  induction steps generalizing seen with
  | nil => simp [idFindings]
  | cons s steps ih =>
    rw [idFindings]
    by_cases hblank : Text.allBlank s.id = true
    · simp [hblank]
    · by_cases hseen : s.id ∈ seen
      · simp [hblank, hseen]
      · -- the later ids must differ from this one as well
        rw [if_neg hblank, if_neg hseen, ih]
        rw [List.forall_mem_cons, List.forall_mem_cons, List.map_cons, List.nodup_cons,
          List.mem_map]
        simp only [List.mem_cons, not_or]
        constructor
        · rintro ⟨hgiven, hnodup, hnew⟩
          refine ⟨⟨by simpa using hblank, hgiven⟩, ⟨?_, hnodup⟩, hseen, fun t ht => (hnew t ht).2⟩
          rintro ⟨t, ht, hid⟩
          exact (hnew t ht).1 hid
        · rintro ⟨⟨-, hgiven⟩, ⟨hother, hnodup⟩, -, hnew⟩
          exact ⟨hgiven, hnodup, fun t ht => ⟨fun hid => hother ⟨t, ht, hid⟩, hnew t ht⟩⟩

/-! ## Needs of a batch -/

theorem localWorkflow?_eq_none (w : Workflow) (reference : String) :
    Scope.localWorkflow? { workflow := w, order } reference = none := by
  rw [Scope.localWorkflow?]
  cases localName? reference with
  | none => rfl
  | some name => cases hasPlaceholders reference <;> rfl

/-- The templates of a step and of its targets. -/
theorem templates_eq_nil_iff {s : Step} :
    s.template.toList ++ s.targets.filterMap (·.2.template) = [] ↔
      s.template = none ∧ ∀ o t, s.target? o = some t → t.template = none := by
  rw [List.append_eq_nil_iff, Option.toList_eq_nil_iff, List.filterMap_eq_nil_iff]
  refine and_congr_right fun _ => ?_
  constructor
  · intro h o t ht
    exact h (o, t) (Step.mem_targets.2 ht)
  · rintro h ⟨o, t⟩ hmem
    exact h o t (Step.mem_targets.1 hmem)

theorem Step.hasChildren_iff {s : Step} :
    s.HasChildren ↔ ∃ c, s.classify? = some c ∧ c.executor.producesChildren = true := by
  refine exists_congr fun c => and_congr_right fun _ => ?_
  cases c.executor <;> simp [Executor.producesChildren]

/-- The ids of all inline steps of a step. -/
theorem mem_inlineIds_iff {s : Step} {child : String} :
    child ∈ (s.targets.flatMap fun entry => entry.2.inline.map (·.id)) ↔
      ∃ o t, s.target? o = some t ∧ ∃ i ∈ t.inline, i.id = child := by
  simp only [List.mem_flatMap, List.mem_map, Prod.exists, Step.mem_targets]

/-- The children of a step of a workflow on its own: none if it has none, the inline steps if
it refers to no other workflow, and else they are not known. -/
theorem childrenOf_eq {w : Workflow} {s : Step} (hchildren : s.HasChildren) :
    childrenOf { workflow := w, order } s =
      if s.template.toList ++ s.targets.filterMap (·.2.template) = [] then
        .known (s.targets.flatMap fun entry => entry.2.inline.map (·.id))
      else .unknown := by
  obtain ⟨c, hclass, hproduces⟩ := Step.hasChildren_iff.1 hchildren
  rw [childrenOf, hclass]
  simp only [hproduces, if_true]
  rcases s.template.toList ++ s.targets.filterMap (·.2.template) with _ | ⟨reference, rest⟩
  · rfl
  · rw [List.map_cons, localWorkflow?_eq_none]
    rfl

/-- Nothing is wrong with a need that names a child of a sibling which offers it. -/
theorem childFault?_eq_none_iff {w : Workflow} {need : String} {q : Step} {child : String} :
    childFault? { workflow := w, order } need q child = none ↔ q.OffersChild child := by
  rw [childFault?, Step.OffersChild]
  by_cases hchildren : q.HasChildren
  · rw [childrenOf_eq hchildren]
    by_cases htemplates : q.template.toList ++ q.targets.filterMap (·.2.template) = []
    · obtain ⟨htemplate, htargets⟩ := templates_eq_nil_iff.1 htemplates
      rw [if_pos htemplates]
      simp only [hchildren, true_and, htemplate, ne_eq, not_true_eq_false, false_or]
      rw [ite_eq_left_iff]
      simp only [reduceCtorEq, imp_false, not_not]
      rw [Bool.or_eq_true, decide_eq_true_eq, List.contains_iff_mem, mem_inlineIds_iff]
      refine or_congr_right (exists₂_congr fun o t => and_congr_right fun ht => ?_)
      simp [htargets o t ht]
    · -- a template may bring in a child of any name
      rw [if_neg htemplates]
      rw [templates_eq_nil_iff, Classical.not_and_iff_not_or_not] at htemplates
      simp only [hchildren, true_and, true_iff]
      right
      rcases htemplates with htemplate | htargets
      · exact .inl htemplate
      · push Not at htargets
        obtain ⟨o, t, ht, htemplate⟩ := htargets
        exact .inr ⟨o, t, ht, .inl htemplate⟩
  · have hnone : childrenOf { workflow := w, order } q = .none := by
      rw [childrenOf]
      rcases hclass : q.classify? with _ | c
      · rfl
      · have hproduces : c.executor.producesChildren ≠ true := fun h =>
          hchildren (Step.hasChildren_iff.2 ⟨c, hclass, h⟩)
        simp [hproduces]
    rw [hnone]
    simp [hchildren]

/-- In a text with a point, the part before the first point and the part after it. -/
theorem cutAt?_point_iff {need before after : String} :
    Text.cutAt? '.' need = some (before, after) ↔
      need = before ++ "." ++ after ∧ '.' ∉ before.toList := by
  rw [Text.cutAt?_eq_some_iff]
  refine and_congr_left fun _ => ?_
  rw [← String.toList_inj, String.toList_append, String.toList_append, List.append_assoc]
  rfl

/-- Among members with distinct ids, the one with an id is found by it. -/
theorem find?_eq_some_iff_of_nodup {α : Type} {idOf : α → String} {l : List α}
    (hnodup : (l.map idOf).Nodup) {id : String} {a : α} :
    (l.find? fun b => idOf b = id) = some a ↔ a ∈ l ∧ idOf a = id := by
  constructor
  · intro h
    exact ⟨List.mem_of_find?_eq_some h, by simpa using List.find?_some h⟩
  · rintro ⟨ha, hid⟩
    rcases hfind : l.find? fun b => idOf b = id with _ | b
    · have := List.find?_eq_none.1 hfind a ha
      simp [hid] at this
    · have hb : idOf b = id := by simpa using List.find?_some hfind
      have hmem := List.mem_of_find?_eq_some hfind
      exact congrArg some (List.inj_on_of_nodup_map hnodup hmem ha (hb.trans hid.symm))

/-- Nothing is wrong with a need that names something. -/
theorem needFault?_eq_none_iff {w : Workflow} {b : Batch} {need : String}
    (hgiven : ∀ s ∈ b.steps, Text.allBlank s.id = false) (hnodup : b.ids.Nodup) :
    needFault? { workflow := w, order } b.steps b.outer need = none ↔ b.Resolves need := by
  have husable : usableIds b.steps = b.ids := by
    refine List.filter_eq_self.2 fun id hid => ?_
    obtain ⟨s, hs, rfl⟩ := List.mem_map.1 hid
    simp [hgiven s hs]
  rw [needFault?, husable, Batch.Resolves]
  by_cases hids : need ∈ b.ids
  · simp [hids]
  by_cases houter : need ∈ b.outer
  · simp [houter]
  simp only [List.contains_iff_mem, hids, houter, Bool.or_eq_true, or_self, if_false, false_or]
  rcases hcut : Text.cutAt? '.' need with _ | ⟨before, after⟩
  · simp only [Option.bind_none, reduceCtorEq, false_iff]
    rintro ⟨q, -, child, hneed, hpoint, -⟩
    rw [cutAt?_point_iff.2 ⟨hneed, hpoint⟩] at hcut
    cases hcut
  -- the first point is at one place only
  have hplace : ∀ (q : Step) (child : String), need = q.id ++ "." ++ child →
      '.' ∉ q.id.toList → before = q.id ∧ after = child := by
    intro q child hneed hpoint
    have hboth := hcut.symm.trans (cutAt?_point_iff.2 ⟨hneed, hpoint⟩)
    simpa only [Option.some.injEq, Prod.mk.injEq] using hboth
  obtain ⟨hneed, hpoint⟩ := cutAt?_point_iff.1 hcut
  rcases hfind : b.steps.find? fun s => s.id = before with _ | q
  · simp only [Option.bind_some, hfind, Option.map_none, reduceCtorEq, false_iff]
    rintro ⟨q, hq, child, hneed', hpoint', -⟩
    obtain ⟨rfl, -⟩ := hplace q child hneed' hpoint'
    rw [(find?_eq_some_iff_of_nodup hnodup).2 ⟨hq, rfl⟩] at hfind
    cases hfind
  · simp only [Option.bind_some, hfind, Option.map_some, childFault?_eq_none_iff]
    obtain ⟨hq, hid⟩ := (find?_eq_some_iff_of_nodup hnodup).1 hfind
    rw [← hid] at hneed hpoint
    constructor
    · intro hoffers
      exact ⟨q, hq, after, hneed, hpoint, hoffers⟩
    · rintro ⟨r, hr, child, hneed', hpoint', hoffers⟩
      obtain ⟨hbefore, rfl⟩ := hplace r child hneed' hpoint'
      rw [List.inj_on_of_nodup_map hnodup hq hr (hid.trans hbefore)]
      exact hoffers

/-- Nothing is wrong with the needs of a batch that all name something. -/
theorem needFindings_eq_nil_iff {w : Workflow} {b : Batch}
    (hgiven : ∀ s ∈ b.steps, Text.allBlank s.id = false) (hnodup : b.ids.Nodup) :
    needFindings { workflow := w, order } b.parent b.outer b.steps = [] ↔
      ∀ s ∈ b.steps, ∀ need ∈ s.needs, b.Resolves need := by
  rw [needFindings, List.flatMap_eq_nil_iff]
  refine forall₂_congr fun s _ => ?_
  rw [List.map_eq_nil_iff, List.filterMap_eq_nil_iff]
  exact forall₂_congr fun need _ => needFault?_eq_none_iff hgiven hnodup

/-! ## Circles of a batch -/

/-- The graph of a batch has an edge for each need of a sibling. -/
theorem needs_ofSteps_iff {b : Batch} {x y : String} :
    (NeedsGraph.ofSteps b.steps).Needs x y ↔ b.Needs x y := by
  rw [NeedsGraph.ofSteps, NeedsGraph.needs_ofDeclared, List.map_map]
  constructor
  · rintro ⟨⟨node, hnode, hid, hneed⟩, hmem⟩
    obtain ⟨s, hs, rfl⟩ := List.mem_map.1 hnode
    exact ⟨s, hs, hid, hneed, hmem⟩
  · rintro ⟨s, hs, hid, hneed, hmem⟩
    exact ⟨⟨(s.id, s.needs), List.mem_map.2 ⟨s, hs, rfl⟩, hid, hneed⟩, hmem⟩

/-- No circle is found among siblings that do not need themselves. -/
theorem findCycles_ofSteps_eq_nil_iff {b : Batch} :
    (NeedsGraph.ofSteps b.steps).findCycles = [] ↔ ∀ id, ¬ Relation.TransGen b.Needs id id := by
  have hneeds : (NeedsGraph.ofSteps b.steps).Needs = b.Needs := by
    funext x y
    exact propext needs_ofSteps_iff
  rw [NeedsGraph.ofSteps, NeedsGraph.findCycles_eq_nil_iff (NeedsGraph.closed_ofDeclared _),
    ← NeedsGraph.ofSteps, NeedsGraph.Acyclic, hneeds]

theorem cycleFindings_eq_nil_iff {scope : Scope} {b : Batch} :
    cycleFindings scope b.parent b.steps = [] ↔ ∀ id, ¬ Relation.TransGen b.Needs id id := by
  rw [cycleFindings, List.map_eq_nil_iff, findCycles_ofSteps_eq_nil_iff]

/-! ## Batches -/

/-- A batch is clean exactly when it keeps the rules. -/
theorem Batch.clean_iff_wellFormed {w : Workflow} {b : Batch} :
    b.Clean { workflow := w, order } ↔ b.WellFormed w := by
  have hgiven : (∀ s ∈ b.steps, Text.allBlank s.id = false) ↔ ∀ id ∈ b.ids, Text.trim id ≠ "" := by
    simp only [Batch.ids, List.forall_mem_map, trim_ne_iff]
  rw [Batch.Clean, siblingFindings, List.append_eq_nil_iff, List.append_eq_nil_iff,
    idFindings_eq_nil_iff, cycleFindings_eq_nil_iff]
  constructor
  · rintro ⟨⟨⟨⟨hids, hnodup, -⟩, hneeds⟩, hcircles⟩, hsteps⟩
    exact ⟨hgiven.1 hids, hnodup, (needFindings_eq_nil_iff hids hnodup).1 hneeds, hcircles,
      fun s hs => stepFindings_eq_nil_iff.1 (hsteps s hs)⟩
  · rintro ⟨hids, hnodup, hresolves, hcircles, hsteps⟩
    exact ⟨⟨⟨⟨hgiven.2 hids, hnodup, by simp⟩,
      (needFindings_eq_nil_iff (hgiven.2 hids) hnodup).2 hresolves⟩, hcircles⟩,
      fun s hs => stepFindings_eq_nil_iff.2 (hsteps s hs)⟩

theorem Workflow.wellFormed_of_findings_eq_nil {w : Workflow} (h : w.findings order = []) :
    w.WellFormed := by
  obtain ⟨hname, hsteps, hclean⟩ := (Scope.findings_eq_nil_iff _).1 h
  exact ⟨trim_ne_iff.2 hname, hsteps, fun b hb => Batch.clean_iff_wellFormed.1 (hclean b hb)⟩

theorem Workflow.WellFormed.findings_eq_nil {w : Workflow} (h : w.WellFormed) (order : SetOrder) :
    w.findings order = [] :=
  (Scope.findings_eq_nil_iff _).2 ⟨trim_ne_iff.1 h.name_given, h.steps_ne_nil,
    fun b hb => Batch.clean_iff_wellFormed.2 (h.batches b hb)⟩

/-- Whether anything is found does not hang on the order of a validation. -/
theorem Workflow.findings_eq_nil_of_order {w : Workflow} {order' : SetOrder}
    (h : w.findings order = []) : w.findings order' = [] :=
  (wellFormed_of_findings_eq_nil h).findings_eq_nil order'

/-- The batches of a workflow without findings keep the rules. -/
theorem Workflow.wellFormed_of_hasBatch {w : Workflow} (h : w.findings order = []) {b : Batch}
    (hbatch : w.HasBatch b) : b.WellFormed w :=
  (wellFormed_of_findings_eq_nil h).batches b hbatch

/-- A workflow has no findings exactly when it is well-formed. -/
theorem Workflow.findings_eq_nil_iff_wellFormed (w : Workflow) (order : SetOrder) :
    w.findings order = [] ↔ w.WellFormed :=
  ⟨wellFormed_of_findings_eq_nil, fun h => h.findings_eq_nil order⟩

end WorkflowCompiler
