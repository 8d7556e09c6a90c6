import WorkflowCompiler.Proofs.Compilation.Tree

/-!
# What compiled needs name

A need of a compiled step should be the id of a step of the tree, or name a child of one that
puts in steps of its own (`Named`). For all needs that a batch itself resolves by an id this is
so: those of a workflow's own steps, and in inline steps those that are ids of siblings or of
steps around the branch. What an inline step needs of a child of a sibling stays as it was
written, without the id of the branch before it, and so has to name something by chance
(`Compiler.needs_named_iff`).
-/

namespace WorkflowCompiler

/-- A need is the id of a step of the tree, or one with a point and a child behind it, if the
step puts in steps of its own. -/
def Named (out : List CompiledStep) (need : String) : Prop :=
  ∃ c, InTree out c ∧
    (c.id = need ∨ c.executor.producesChildren = true ∧ ∃ child, need = c.id ++ "." ++ child)

/-- The same of the steps from which the tree is compiled. -/
def Workflow.Names (w : Workflow) (need : String) : Prop :=
  ∃ b, w.ReachedBatch b ∧ ∃ s ∈ b.steps,
    b.fullId s = need ∨ s.HasChildren ∧ ∃ child, need = b.fullId s ++ "." ++ child

theorem CompiledFrom.producesChildren_iff {settings : RunSettings} {id : String}
    {needs : List String} {s : Step} {c : CompiledStep} (h : CompiledFrom settings id needs s c) :
    c.executor.producesChildren = true ↔ s.HasChildren := by
  obtain ⟨cl, hclass, hconfig⟩ := h.config
  rw [CompiledStep.executor, executor_of_yields hconfig, Step.hasChildren_iff]
  constructor
  · intro hproduces
    exact ⟨cl, hclass, hproduces⟩
  · rintro ⟨cl', hclass', hproduces⟩
    rw [hclass, Option.some.injEq] at hclass'
    rw [hclass']
    exact hproduces

/-- The tree names what the workflow names. -/
theorem CompiledBatch.named_iff {settings : RunSettings} {w : Workflow} {out : List CompiledStep}
    (hout : CompiledBatch settings w.topBatch out) {need : String} :
    Named out need ↔ w.Names need := by
  constructor
  · rintro ⟨c, hc, hneed⟩
    obtain ⟨b, hreached, s, hs, hfrom⟩ := hout.exists_from hc
    rw [hfrom.id_eq, hfrom.producesChildren_iff] at hneed
    exact ⟨b, hreached, s, hs, hneed⟩
  · rintro ⟨b, hreached, s, hs, hneed⟩
    obtain ⟨c, hc, hfrom⟩ := hout.exists_inTree hreached hs
    rw [← hfrom.id_eq, ← hfrom.producesChildren_iff] at hneed
    exact ⟨c, hc, hneed⟩

/-! ## What is named in any case -/

section Names

variable {w : Workflow} {b : Batch}

theorem Workflow.names_fullId (hreached : w.ReachedBatch b) {s : Step} (hs : s ∈ b.steps) :
    w.Names (b.fullId s) :=
  ⟨b, hreached, s, hs, .inl rfl⟩

/-- The branch in which a batch stands is named by its id. -/
theorem Workflow.names_parent (hreached : w.ReachedBatch b) {parent : String}
    (hparent : b.parent = some parent) : w.Names parent := by
  cases hreached with
  | refl => cases hparent
  | tail hway hunder =>
    obtain ⟨s, hs, -, o, t, -, -, rfl⟩ := hunder
    cases hparent
    exact Workflow.names_fullId hway hs

/-- The steps of the enclosing batches are named by their full ids. -/
theorem Workflow.names_of_mem_outer (hreached : w.ReachedBatch b) {id : String}
    (hid : id ∈ b.outer) : w.Names id := by
  induction hreached with
  | refl => cases hid
  | tail hway hunder ih =>
    obtain ⟨s, hs, -, o, t, -, -, rfl⟩ := hunder
    rcases List.mem_append.1 hid with hid | hid
    · exact ih hid
    · obtain ⟨q, hq, rfl⟩ := List.mem_map.1 hid
      exact Workflow.names_fullId hway hq

theorem Batch.fullId_inside (b : Batch) (p : Step) (t : Target Step) (s : Step) :
    (b.inside p t).fullId s = b.fullId p ++ "." ++ s.id := rfl

/-- Full ids begin with the id of one of the workflow's own steps. -/
theorem Workflow.fullId_begins (hreached : w.ReachedBatch b) {s : Step} (hs : s ∈ b.steps) :
    ∃ r ∈ w.steps, r.id.toList <+: (b.fullId s).toList := by
  induction hreached generalizing s with
  | refl => exact ⟨s, hs, List.prefix_rfl⟩
  | tail _ hunder ih =>
    obtain ⟨p, hp, -, o, t, -, -, rfl⟩ := hunder
    obtain ⟨r, hr, hbegins⟩ := ih hp
    refine ⟨r, hr, hbegins.trans ?_⟩
    rw [Batch.fullId_inside, String.toList_append, String.toList_append, List.append_assoc]
    exact List.prefix_append _ _

/-- A text that begins with none of the ids of a workflow's own steps names nothing. -/
theorem Workflow.Names.begins {need : String} (h : w.Names need) :
    ∃ r ∈ w.steps, r.id.toList <+: need.toList := by
  obtain ⟨b, hreached, s, hs, hneed⟩ := h
  obtain ⟨r, hr, hbegins⟩ := Workflow.fullId_begins hreached hs
  rcases hneed with rfl | ⟨-, child, rfl⟩
  · exact ⟨r, hr, hbegins⟩
  · refine ⟨r, hr, hbegins.trans ?_⟩
    rw [String.toList_append, String.toList_append, List.append_assoc]
    exact List.prefix_append _ _

end Names

/-- The needs of a compiled inline step: full ids of siblings, others as they were declared,
and the branch if there is no sibling among them. -/
theorem mem_inlineNeeds_iff {parent need : String} {batch needs : List String} :
    need ∈ inlineNeeds parent batch needs ↔
      (∃ sibling ∈ needs, sibling ∈ batch ∧ need = fullId (some parent) sibling) ∨
        (need ∈ needs ∧ need ∉ batch) ∨ need = parent ∧ ∀ other ∈ needs, other ∉ batch := by
  rw [inlineNeeds, List.mem_append, List.mem_map, ← or_assoc]
  refine or_congr ⟨?_, ?_⟩ ?_
  · rintro ⟨other, hother, rfl⟩
    by_cases hbatch : other ∈ batch
    · rw [if_pos hbatch]
      exact .inl ⟨other, hother, hbatch, rfl⟩
    · rw [if_neg hbatch]
      exact .inr ⟨hother, hbatch⟩
  · rintro (⟨sibling, hsibling, hbatch, rfl⟩ | ⟨hneed, hbatch⟩)
    · exact ⟨sibling, hsibling, if_pos hbatch⟩
    · exact ⟨need, hneed, if_neg hbatch⟩
  · by_cases hany : needs.any (· ∈ batch) = true
    · rw [if_pos hany]
      obtain ⟨other, hother, hbatch⟩ := List.any_eq_true.1 hany
      simp only [List.not_mem_nil, false_iff, not_and]
      intro _ hnone
      exact hnone other hother (by simpa using hbatch)
    · rw [if_neg hany, List.mem_singleton]
      simp only [List.any_eq_true, decide_eq_true_eq, not_exists, not_and] at hany
      exact (and_iff_left hany).symm

/-- All needs of the compiled steps of a workflow name something if, and only if, this holds
of the needs of its inline steps that are no ids: of those that name a child of a sibling. -/
theorem Compiler.needs_named_iff {c : Compiler} {d : Disk} {w : Workflow} {inputs : Fields String}
    {out : List CompiledStep} (h : (c.compile d w inputs).1 = .ok out) :
    (∀ r, InTree out r → ∀ need ∈ r.needs, Named out need) ↔
      ∀ b, w.ReachedBatch b → b.parent ≠ none → ∀ s ∈ b.steps, ∀ need ∈ s.needs,
        need ∉ b.ids → need ∉ b.outer → w.Names need := by
  obtain ⟨hfindings, hout⟩ := CompiledBatch.of_workflow_yields (yields_of_compile h)
  constructor
  · intro hnamed b hreached hinline s hs need hneed hids _
    obtain ⟨parent, hparent⟩ := Option.ne_none_iff_exists'.1 hinline
    obtain ⟨r, hr, hfrom⟩ := hout.exists_inTree hreached hs
    refine hout.named_iff.1 (hnamed r hr need ?_)
    rw [hfrom.needs_eq, Batch.compiledNeeds, hparent]
    exact mem_inlineNeeds_iff.2 (.inr (.inl ⟨hneed, hids⟩))
  · intro hchildren r hr need hneed
    obtain ⟨b, hreached, s, hs, hfrom⟩ := hout.exists_from hr
    have hresolves := (Workflow.wellFormed_of_hasBatch hfindings hreached.hasBatch).resolves s hs
    rw [hout.named_iff]
    rw [hfrom.needs_eq, Batch.compiledNeeds] at hneed
    rcases hparent : b.parent with _ | parent
    · -- a step outside of all branches has its needs as they were declared
      rw [hparent] at hneed
      have hfull : ∀ q : Step, b.fullId q = q.id := by
        intro q
        rw [Batch.fullId, hparent]
        rfl
      rcases hresolves need hneed with hids | houter | ⟨q, hq, child, rfl, -, hoffers⟩
      · obtain ⟨q, hq, rfl⟩ := List.mem_map.1 hids
        exact ⟨b, hreached, q, hq, .inl (hfull q)⟩
      · exact Workflow.names_of_mem_outer hreached houter
      · refine ⟨b, hreached, q, hq, .inr ⟨hoffers.1, child, ?_⟩⟩
        rw [hfull q]
    · rw [hparent] at hneed
      rcases mem_inlineNeeds_iff.1 hneed with
        ⟨sibling, -, hsibling, rfl⟩ | ⟨hneed, hids⟩ | ⟨rfl, -⟩
      -- a sibling, a need that was not changed, or the branch
      · obtain ⟨q, hq, rfl⟩ := List.mem_map.1 hsibling
        rw [← hparent]
        exact Workflow.names_fullId hreached hq
      · by_cases houter : need ∈ b.outer
        · exact Workflow.names_of_mem_outer hreached houter
        · exact hchildren b hreached (by simp [hparent]) s hs need hneed hids houter
      · exact Workflow.names_parent hreached hparent

/-! ## A need that names nothing -/

/-- The inline steps of a branch: some steps that another workflow puts in, and a report that
needs something. -/
def reportSteps (need : String) : List Step :=
  [{ id := "prep", executor := some "expand", template := some "setup" },
    { id := "report", executor := some "shell", command := some "make report", needs := [need] }]

/-- A workflow with such a branch. -/
def reportWorkflow (need : String) : Workflow :=
  { name := "wf"
    steps :=
      [{ id := "check", executor := some "branch", condition := some "make test",
         onTrue := some { inline := reportSteps need } }] }

/-- The batch of the inline steps. -/
def reportBatch (need : String) : Batch where
  parent := some "check"
  outer := ["check"]
  steps := reportSteps need

theorem underBranch_reportBatch (need : String) :
    (reportWorkflow need).topBatch.UnderBranch (reportBatch need) :=
  ⟨_, List.mem_cons_self, ⟨⟨.branch, false, none⟩, rfl, rfl⟩, .onTrue, _, rfl,
    List.cons_ne_nil _ _, rfl⟩

/-- No other batch is reached. -/
theorem eq_of_reachedBatch {need : String} {b : Batch}
    (h : (reportWorkflow need).ReachedBatch b) :
    b = (reportWorkflow need).topBatch ∨ b = reportBatch need := by
  induction h with
  | refl => exact .inl rfl
  | tail _ hunder ih =>
    obtain ⟨s, hs, -, o, t, ht, -, rfl⟩ := hunder
    rcases ih with rfl | rfl
    · rw [List.mem_singleton.1 hs] at ht ⊢
      cases o with
      | onTrue =>
        cases ht
        exact .inr rfl
      | onFalse => cases ht
      | onTimeout => cases ht
    · have hnone : s.target? o = none := by
        simp only [reportBatch, reportSteps, List.mem_cons, List.not_mem_nil, or_false] at hs
        rcases hs with rfl | rfl <;> cases o <;> rfl
      rw [hnone] at ht
      cases ht

theorem exists_compile_reportWorkflow (need : String)
    (h : ((Compiler.mk { workflowId := "run" } {}).compile {} (reportWorkflow need)
      []).1.toOption.isSome = true) :
    ∃ out, ((Compiler.mk { workflowId := "run" } {}).compile {} (reportWorkflow need) []).1 =
      .ok out :=
  Attempt.exists_eq_ok_of_isSome h

/-- If the report needs the step itself, every compiled need names something. -/
theorem reportWorkflow_named :
    ∃ out, ((Compiler.mk { workflowId := "run" } {}).compile {} (reportWorkflow "prep") []).1 =
      .ok out ∧ ∀ r, InTree out r → ∀ need ∈ r.needs, Named out need := by
  obtain ⟨out, hout⟩ := exists_compile_reportWorkflow "prep" (by decide +kernel)
  refine ⟨out, hout, (Compiler.needs_named_iff hout).2 ?_⟩
  intro b hreached hinline s hs need hneed hids _
  rcases eq_of_reachedBatch hreached with rfl | rfl
  · exact absurd rfl hinline
  · simp only [reportBatch, reportSteps, List.mem_cons, List.not_mem_nil, or_false] at hs
    rcases hs with rfl | rfl
    · cases hneed
    · rw [List.mem_singleton.1 hneed] at hids
      exact absurd (by decide) hids

/-- If the report needs all that is put in, this names nothing once it is compiled: the step
that puts it in has then another id. -/
theorem reportWorkflow_not_named :
    ∃ out, ((Compiler.mk { workflowId := "run" } {}).compile {} (reportWorkflow "prep.*") []).1 =
      .ok out ∧ ¬ ∀ r, InTree out r → ∀ need ∈ r.needs, Named out need := by
  obtain ⟨out, hout⟩ := exists_compile_reportWorkflow "prep.*" (by decide +kernel)
  refine ⟨out, hout, fun hnamed => ?_⟩
  have hbatch := (CompiledBatch.of_workflow_yields (yields_of_compile hout)).2
  obtain ⟨r, hr, hfrom⟩ := hbatch.exists_inTree (.single (underBranch_reportBatch "prep.*"))
    (List.mem_cons_of_mem _ List.mem_cons_self)
  have hneed : "prep.*" ∈ r.needs := by
    rw [hfrom.needs_eq]
    decide
  obtain ⟨s, hs, hbegins⟩ := (hbatch.named_iff.1 (hnamed r hr _ hneed)).begins
  rw [List.mem_singleton.1 hs] at hbegins
  exact absurd hbegins (by decide)

end WorkflowCompiler
