import WorkflowCompiler.Proofs.Compilation.Errors

/-!
# Failures that a validation rules out

Some errors of a compilation blame the shape of a step or of a batch (`Structural`). They are
raised only where a batch breaks its rules: the steps of a batch that keeps the rules, at any
depth, compile without them (`avoids_compileStep`, `avoids_compileInline`). As a workflow is
compiled only if it has no findings, it never fails with one.
-/

namespace WorkflowCompiler

open Attempt

/-- The error blames the shape of a step or of a batch, or it is the general one for what
stands outside of the steps. -/
def CompileError.Structural : CompileError → Prop
  | invalidStep _ _ | unsupported _ _ | duplicateStep _ | unresolved _ => True
  | _ => False

open CompileError (Structural)

theorem CompileError.Structural.elsewhere {e : CompileError} (h : e.Structural) : e.Elsewhere := by
  cases e with
  | field | invalidValue => exact h.elim
  | _ => exact fun h => h

theorem CompileError.OfVariable.not_structural {e : CompileError} (h : e.OfVariable) :
    ¬ e.Structural := by
  cases e with
  | variableFile | missingVariables | invalidVariable => exact fun h => h
  | _ => exact h.elim

/-! ## Steps and batches -/

section Steps

variable {w : Workflow} {b : Batch}

/-- The steps of a batch are compiled if it and the batches inside it keep the rules. -/
theorem avoids_compileStep
    (hrules : ∀ inner, Relation.ReflTransGen Batch.Inside b inner → inner.WellFormed w) {s : Step}
    (hs : s ∈ b.steps) (settings : RunSettings) (id : String) :
    (compileStep settings id s).Avoids Structural :=
  (compilable_of_wellFormed (fun _ he => he.elsewhere) fun _ h => h).avoids_compileStep ⟨b, hrules, hs⟩

/-- A batch that keeps the rules, with the batches inside it, is compiled as inline steps. -/
theorem avoids_compileInline
    (hrules : ∀ inner, Relation.ReflTransGen Batch.Inside b inner → inner.WellFormed w)
    (settings : RunSettings) (parent : String) :
    (compileInline settings b.steps parent).Avoids Structural :=
  avoids_compile_batch (b := { parent := some parent, steps := b.steps })
    (fun _ hs => avoids_compileStep hrules hs settings _)
    (Batch.assembles_of_nodup (fun _ h => h) (hrules b .refl).ids_distinct)

end Steps

/-! ## Workflows -/

theorem avoids_compileWorkflow (settings : RunSettings) (d : Disk) (w : Workflow)
    (inputs : Fields String) : (compileWorkflow settings d w inputs).Avoids Structural := by
  refine avoids_compileWorkflow_of_batch (fun _ he => he.not_structural) (fun _ h => h)
    fun hfindings => ?_
  exact avoids_compile_of_wellFormed (fun _ he => he.elsewhere) (fun _ h => h)
    fun _ hway => Workflow.wellFormed_of_hasBatch hfindings hway

/-- The workflow has findings, and every compilation of it fails with them. -/
def Workflow.Rejected (w : Workflow) : Prop :=
  w.findings ≠ [] ∧ ∀ (c : Compiler) (d : Disk) (inputs : Fields String),
    (c.compile d w inputs).1 = .error (.invalid (w.findings c.settings.order))

/-- A workflow with findings is not compiled. -/
theorem Workflow.rejected_of_findings_ne_nil {w : Workflow} (h : w.findings ≠ []) :
    w.Rejected := by
  refine ⟨h, fun c d inputs => ?_⟩
  have hvalid : requireValid c.settings.order w =
      .error (.invalid (w.findings c.settings.order)) := by
    rw [requireValid]
    split
    · exact absurd (Workflow.findings_eq_nil_of_order ‹_›) h
    · rfl
  have hfails : compileWorkflow c.settings d w inputs c.session =
      (.error (.invalid (w.findings c.settings.order)), c.session) := by
    rw [compileWorkflow]
    exact bind_apply_of_error (by rw [ofExcept_apply, hvalid]) _
  rw [Compiler.compile, ensuring_apply, hfails]

/-- No workflow fails to compile because of the shape of a step or of a batch, and one of
which a step or a batch, at any depth, would fail to compile for such a reason is rejected
because of its findings. -/
theorem Workflow.structural_errors_ruled_out (w : Workflow) :
    (∀ (c : Compiler) (d : Disk) (inputs : Fields String) (e : CompileError),
      (c.compile d w inputs).1 = .error e → ¬ e.Structural) ∧
    ∀ b, w.HasBatch b → ∀ (settings : RunSettings) (session : Session) (e : CompileError),
      e.Structural →
      ((∃ s ∈ b.steps, ∃ id, (compileStep settings id s session).1 = .error e) ∨
        ∃ parent, (compileInline settings b.steps parent session).1 = .error e) →
      w.Rejected := by
  constructor
  · intro c d inputs e he
    rw [Compiler.compile, ensuring_apply] at he
    exact avoids_compileWorkflow c.settings d w inputs e (fails_of_fst_eq_error he)
  · intro b hbatch settings session e hstructural hfails
    -- without findings the batch would keep the rules, and compile without such an error
    refine Workflow.rejected_of_findings_ne_nil fun hfindings => ?_
    have hrules : ∀ inner, Relation.ReflTransGen Batch.Inside b inner → inner.WellFormed w :=
      fun inner hway => Workflow.wellFormed_of_hasBatch hfindings (hbatch.trans hway)
    rcases hfails with ⟨s, hs, id, he⟩ | ⟨parent, he⟩
    · exact avoids_compileStep hrules hs settings id e (fails_of_fst_eq_error he) hstructural
    · exact avoids_compileInline hrules settings parent e (fails_of_fst_eq_error he) hstructural

/-- A step that stands in its batch twice. -/
def twin : Step := { id := "twin", executor := some "shell", command := some "ls" }

/-- A branch with two inline steps of the same id. -/
def twinBranch : Step :=
  { id := "check", executor := some "branch", condition := some "true",
    onTrue := some { inline := [twin, twin] } }

/-- A workflow whose only step is such a branch. -/
def twinWorkflow : Workflow := { name := "twins", steps := [twinBranch] }

/-- The inline steps could not be compiled, and so the workflow is rejected. -/
theorem twinWorkflow_rejected :
    (compileInline { workflowId := "run" } [twin, twin] "check" {}).1 =
      .error (.duplicateStep "check.twin") ∧ twinWorkflow.Rejected := by
  have hfails : (compileInline { workflowId := "run" } [twin, twin] "check" {}).1 =
      .error (.duplicateStep "check.twin") := rfl
  have hinside : twinWorkflow.topBatch.Inside
      (twinWorkflow.topBatch.inside twinBranch { inline := [twin, twin] }) :=
    ⟨twinBranch, List.mem_cons_self, .onTrue, _, rfl, by simp, rfl⟩
  refine ⟨hfails, (Workflow.structural_errors_ruled_out twinWorkflow).2 _ (.single hinside) _ _
    (.duplicateStep "check.twin") trivial (.inr ⟨"check", hfails⟩)⟩

end WorkflowCompiler
