import WorkflowCompiler.CommandLine.Run
import WorkflowCompiler.Proofs.Compilation.Errors
import WorkflowCompiler.Proofs.Compilation.Schedule
import WorkflowCompiler.Proofs.Validation.Modules

/-!
# What the check of a template is good for

The program validates a template as a whole, and the compiler validates the workflow it is given
once more, alone. As nothing is found alone that was not found in the module, the second
validation finds nothing after the first one, whatever the orders are in which the two go through
sets: a run of the program fails with findings of the template or not because of findings at all
(`Module.check_covers_workflows`).
-/

namespace WorkflowCompiler

open List (Sublist SublistForall₂)

/-! ## Compiling without findings -/

/-- The error is that the workflow has findings. -/
def CompileError.OfFindings : CompileError → Prop
  | invalid _ => True
  | _ => False

open CompileError (OfFindings)

/-- A workflow without findings does not fail to compile because of findings. -/
theorem Workflow.compile_avoids_findings {w : Workflow} (h : w.findings = []) (c : Compiler)
    (d : Disk) (inputs : Fields String) {e : CompileError}
    (he : (c.compile d w inputs).1 = .error e) : ¬ e.OfFindings := by
  rw [Compiler.compile, Attempt.ensuring_apply] at he
  refine avoids_compileWorkflow_of_batch (fun e hvariable => ?_) (absurd h) (fun _ => ?_) e
    (Attempt.fails_of_fst_eq_error he)
  · cases e with
    | variableFile | missingVariables | invalidVariable => exact fun h => h
    | _ => exact hvariable.elim
  · refine avoids_compile_of_wellFormed (fun e hfindings => ?_) (fun _ h => h)
      fun _ hway => Workflow.wellFormed_of_hasBatch h hway
    cases e with
    | invalid => exact fun h => h
    | _ => exact hfindings.elim

namespace CommandLine

open Attempt

/-- The compiler refuses a workflow because of findings. -/
def RunError.OfFindings : RunError → Prop
  | compile e => e.OfFindings
  | _ => False

theorem mem_of_chooseWorkflow {m : Module} {name : String} {key : Option String} {w : Workflow}
    (h : chooseWorkflow m name key = .ok w) : ∃ entry ∈ m.workflows, entry.2 = w := by
  cases key with
  | some key =>
    rw [chooseWorkflow] at h
    rcases hget : m.get? key with _ | w'
    · rw [hget] at h
      cases h
    · simp only [hget] at h
      split at h
      · cases h
      · cases h
        exact ⟨(key, w), Fields.mem_of_get?_eq_some hget, rfl⟩
  | none =>
    rw [chooseWorkflow] at h
    rcases hentry : m.entry? with _ | w'
    · rw [hentry] at h
      cases h
    · rw [hentry] at h
      cases h
      rw [Module.entry?] at hentry
      split at hentry
      · cases hentry
        exact ⟨(Module.entryKey, w), Fields.mem_of_get?_eq_some ‹_›, rfl⟩
      · split at hentry
        · rename_i hone
          cases hentry
          exact ⟨_, by rw [hone]; exact List.mem_cons_self, rfl⟩
        · cases hentry

theorem chooseWorkflow_eq_error {m : Module} {name : String} {key : Option String} {e : RunError}
    (h : chooseWorkflow m name key = .error e) : ¬ e.OfFindings := by
  cases key with
  | some key =>
    rw [chooseWorkflow] at h
    split at h
    · split at h
      · cases h
        exact fun h => h
      · cases h
    · cases h
      exact fun h => h
  | none =>
    rw [chooseWorkflow] at h
    split at h
    · cases h
    · cases h
      exact fun h => h

theorem avoids_loadTemplate (l : Library) (t : Selection) :
    (loadTemplate l t).Avoids RunError.OfFindings := by
  refine (avoids_ask _).bind fun d _ => ?_
  cases t.load l d with
  | ok loaded => exact avoids_pure _
  | error e => exact (avoids_change _).bind fun _ _ => avoids_fail fun h => h

theorem avoids_compileChosen {w : Workflow} (h : w.findings = []) (s : Surroundings) (o : Options)
    (name : String) : (compileChosen s o name w).Avoids RunError.OfFindings := by
  refine (avoids_ask _).bind fun d _ => avoids_ofExcept fun e he => ?_
  rcases hresult : (Compiler.compile _ d w (Fields.ofEntries o.bindings)).1 with cause | steps
  · rw [hresult] at he
    cases he
    exact Workflow.compile_avoids_findings h _ d _ hresult
  · rw [hresult] at he
    cases he

theorem avoids_deliver (steps : List CompiledStep) (path : Option String) :
    (deliver steps path).Avoids RunError.OfFindings := by
  cases path with
  | none => exact avoids_change _
  | some path =>
    refine (avoids_ask _).bind fun d _ => (avoids_ofExcept fun e he => ?_).bind fun d _ =>
      (avoids_change _).bind fun _ _ => avoids_change _
    rcases hwrite : d.writeText path (Json.arr (compiledStepsToJson steps)).pretty with cause | d'
    · rw [hwrite] at he
      cases he
      exact fun h => h
    · rw [hwrite] at he
      cases he

/-- After the check of the template, the workflow that is chosen has no findings. -/
theorem avoids_compileTemplate (s : Surroundings) (template : String) (o : Options) :
    (compileTemplate s template o).Avoids RunError.OfFindings := by
  refine (avoids_change _).bind fun _ _ => (avoids_loadTemplate _ _).bind fun loaded _ => ?_
  obtain ⟨m, name⟩ := loaded
  refine (avoids_change _).bind fun _ _ => ?_
  by_cases hfindings : m.findings s.checkOrder = []
  · simp only [hfindings, ne_eq, not_true_eq_false, if_false]
    by_cases hvalidate : o.validateOnly = true
    · rw [if_pos hvalidate]
      exact avoids_pure _
    · rw [if_neg hvalidate]
      refine (avoids_ofExcept fun e he => chooseWorkflow_eq_error he).bind fun w hw => ?_
      obtain ⟨entry, hentry, rfl⟩ := mem_of_chooseWorkflow hw.eq_of_ofExcept
      have hnone := (Module.findings_of_mem hfindings).2 entry hentry
      exact (avoids_compileChosen hnone s o name).bind fun steps _ => avoids_deliver steps o.output
  · simp only [ne_eq, hfindings, not_false_eq_true, if_true]
    exact avoids_fail fun h => h

theorem avoids_program (s : Surroundings) : (program s).Avoids RunError.OfFindings := by
  rw [program]
  rcases Request.read s.arguments with e | request
  · exact (avoids_change _).bind fun _ _ => (avoids_change _).bind fun _ _ => avoids_fail fun h => h
  · cases request with
    | help => exact avoids_change _
    | version => exact avoids_change _
    | compile template o => exact avoids_compileTemplate s template o

end CommandLine

/-- A workflow with a misspelt need, to which two steps of the enclosing batch are equally similar,
and with a reference that its document lacks. -/
def draftWorkflow : Workflow :=
  { name := "draft"
    steps :=
      [{ id := "test1", executor := some "shell", command := some "make test" },
        { id := "test2", executor := some "shell", command := some "make test" },
        { id := "report", executor := some "branch", condition := some "true",
          onTrue := some
            { inline :=
                [{ id := "send", executor := some "expand", template := some ".mails",
                   needs := ["tests"] }] } }] }

end WorkflowCompiler
