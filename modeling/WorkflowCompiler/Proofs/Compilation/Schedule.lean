import WorkflowCompiler.Proofs.Compilation.Steps

/-!
# Schedules

What a workflow compiles to is a `Schedule` of it: its own steps, each once and as it was
declared, in an order in which every step stands behind those it needs.
-/

namespace WorkflowCompiler

/-- The compiled steps are those of the workflow, each behind the steps it needs. -/
structure Workflow.Schedule (w : Workflow) (out : List CompiledStep) : Prop where
  /-- the steps of the workflow are there, and no others -/
  ids_perm : (out.map (·.id)).Perm (w.steps.map (·.id))
  /-- none is there twice -/
  ids_nodup : (out.map (·.id)).Nodup
  /-- a compiled step has the needs and the executor of the step with its id, and was not run -/
  declared : ∀ c ∈ out, ∃ s ∈ w.steps, s.id = c.id ∧ c.needs = s.needs ∧ c.status = .pending ∧
    ∃ cl, s.classify? = some cl ∧ c.executor = cl.executor
  /-- a step of the workflow that another one needs stands before it -/
  needs_first : ∀ s ∈ w.steps, ∀ need ∈ s.needs, need ∈ w.steps.map (·.id) →
    (out.map (·.id)).idxOf need < (out.map (·.id)).idxOf s.id

/-- Compiled steps of the batch of a workflow's own steps are a schedule. -/
theorem CompiledBatch.schedule {settings : RunSettings} {w : Workflow} {out : List CompiledStep}
    (h : CompiledBatch settings w.topBatch out) : w.Schedule out where
  ids_perm := h.ids_perm
  ids_nodup := h.ids_nodup
  declared := by
    intro c hc
    obtain ⟨s, hs, hfrom⟩ := h.from_step c hc
    obtain ⟨cl, hclass, hconfig⟩ := hfrom.config
    exact ⟨s, hs, hfrom.id_eq.symm, hfrom.needs_eq, hfrom.status_eq, cl, hclass,
      executor_of_yields hconfig⟩
  needs_first := by
    intro s hs need hneed hmem
    obtain ⟨c, hc, hfrom⟩ := h.exists_compiled hs
    have hid : c.id = s.id := hfrom.id_eq
    have hneeds : need ∈ c.needs := by
      rw [hfrom.needs_eq]
      exact hneed
    rw [← hid]
    exact h.needs_first c hc need hneeds (h.ids_perm.mem_iff.2 hmem)

theorem yields_of_compile {c : Compiler} {d : Disk} {w : Workflow} {inputs : Fields String}
    {out : List CompiledStep} (h : (c.compile d w inputs).1 = .ok out) :
    (compileWorkflow c.settings d w inputs).Yields out := by
  rw [Compiler.compile, Attempt.ensuring_apply] at h
  exact Attempt.yields_of_fst_eq_ok h

/-- What a workflow compiles to is a schedule of it. -/
theorem Compiler.schedule_of_compile {c : Compiler} {d : Disk} {w : Workflow}
    {inputs : Fields String} {out : List CompiledStep}
    (h : (c.compile d w inputs).1 = .ok out) : w.Schedule out :=
  (CompiledBatch.of_workflow_yields (yields_of_compile h)).2.schedule

/-- A workflow that is declared in another order than it can be run in. -/
def releaseWorkflow : Workflow :=
  { name := "release"
    steps :=
      [{ id := "publish", executor := some "shell", command := some "make publish",
         needs := ["test", "build", "test"] },
        { id := "test", executor := some "shell", command := some "make test",
          needs := ["build"] },
        { id := "build", executor := some "shell", command := some "make" }] }

/-- It compiles to a schedule, in which it can be run. -/
theorem releaseWorkflow_schedule :
    ∃ out, ((Compiler.mk { workflowId := "run" } {}).compile {} releaseWorkflow []).1 = .ok out ∧
      releaseWorkflow.Schedule out ∧ out.map (·.id) = ["build", "test", "publish"] := by
  have hids : ((Compiler.mk { workflowId := "run" } {}).compile {} releaseWorkflow
      []).1.toOption.map (·.map (·.id)) = some ["build", "test", "publish"] := by
    decide +kernel
  obtain ⟨out, hout, hmap⟩ := Option.map_eq_some_iff.1 hids
  have hok := Attempt.eq_ok_of_toOption_eq_some hout
  exact ⟨out, hok, Compiler.schedule_of_compile hok, hmap⟩

end WorkflowCompiler
