import WorkflowCompiler.Proofs.Compilation.Steps

/-!
# The phases of a run

A workflow is compiled in phases: it is validated, its variables are bound, its steps are
compiled, and they are put in order. Binding variables reads and changes nothing of the context
but its variables (`boundVariables`), so that a compilation succeeds exactly when each phase does
(`Compiler.compile_eq_ok_iff`).
-/

namespace WorkflowCompiler

open Attempt

/-! ## Binding variables -/

/-- The variables once the inputs of a run are bound. -/
def inputsBound (d : Disk) (declared : Fields Variable) :
    Fields String → Fields Json → Except CompileError (Fields Json)
  | [], vars => .ok vars
  | (name, text) :: rest, vars =>
    match inputValue d declared name text with
    | .ok value => inputsBound d declared rest (vars.set name value)
    | .error e => .error e

/-- The variables once all that are left have their defaults. -/
def defaultsBound : Fields Variable → Fields Json → Fields Json
  | [], vars => vars
  | (name, v) :: rest, vars =>
    match v.default with
    | some value => defaultsBound rest (if vars.has name then vars else vars.set name value)
    | none => defaultsBound rest vars

/-- The variables of a run, if they are as they are declared. -/
def boundVariables (d : Disk) (w : Workflow) (inputs : Fields String) (vars : Fields Json) :
    Except CompileError (Fields Json) :=
  match inputsBound d w.vars inputs vars with
  | .error e => .error e
  | .ok given =>
    let bound := defaultsBound w.vars given
    match requireVariables { vars := bound } w.vars, checkVariables { vars := bound } w.vars with
    | .ok (), .ok () => .ok bound
    | .error e, _ => .error e
    | _, .error e => .error e

theorem boundVariables_eq_ok {d : Disk} {w : Workflow} {inputs : Fields String}
    {vars bound : Fields Json} (h : boundVariables d w inputs vars = .ok bound) :
    ∃ given, inputsBound d w.vars inputs vars = .ok given ∧
      bound = defaultsBound w.vars given := by
  rw [boundVariables] at h
  rcases hgiven : inputsBound d w.vars inputs vars with e | given
  · rw [hgiven] at h
    cases h
  · refine ⟨given, rfl, ?_⟩
    simp only [hgiven] at h
    split at h
    · exact (Except.ok.inj h).symm
    · cases h
    · cases h

/-- Variables of a run are as they are declared. -/
theorem checkVariables_of_boundVariables {d : Disk} {w : Workflow} {inputs : Fields String}
    {vars bound : Fields Json} (h : boundVariables d w inputs vars = .ok bound) :
    checkVariables { vars := bound } w.vars = .ok () := by
  rw [boundVariables] at h
  split at h
  · cases h
  · simp only at h
    split at h
    · rename_i hcheck
      cases h
      exact hcheck
    · cases h
    · cases h

/-- The session with other variables. -/
def Session.withVars (s : Session) (vars : Fields Json) : Session :=
  s.update fun c => { c with vars }

theorem bindInputs_apply (d : Disk) (declared : Fields Variable) (inputs : Fields String)
    (s : Session) : ∃ s', bindInputs d declared inputs s =
      ((inputsBound d declared inputs s.context.vars).map fun _ => (), s') ∧
        ∀ vars, inputsBound d declared inputs s.context.vars = .ok vars → s' = s.withVars vars := by
  induction inputs generalizing s with
  | nil =>
    refine ⟨s, rfl, fun vars hvars => ?_⟩
    cases hvars
    rfl
  | cons entry rest ih =>
    obtain ⟨name, text⟩ := entry
    rw [bindInputs, inputsBound]
    rcases hvalue : inputValue d declared name text with e | value
    · refine ⟨s, ?_, fun vars hvars => by cases hvars⟩
      rw [bind_apply_of_error (ofExcept_apply _ s)]
      rfl
    · rw [bind_apply_of_ok (ofExcept_apply _ s)]
      exact ih (s.update (·.setVariable name value))

theorem applyDefaults_eq (declared : Fields Variable) (c : Context) :
    c.applyDefaults declared = { c with vars := defaultsBound declared c.vars } := by
  induction declared generalizing c with
  | nil => rfl
  | cons entry rest ih =>
    obtain ⟨name, v⟩ := entry
    rw [Context.applyDefaults, List.foldl_cons, ← Context.applyDefaults, ih, defaultsBound]
    cases v.default with
    | none => rfl
    | some value =>
      simp only
      split <;> rfl

theorem checkVariables_eq (c : Context) (declared : Fields Variable) :
    checkVariables c declared = checkVariables { vars := c.vars } declared := by
  induction declared with
  | nil => rfl
  | cons entry rest ih =>
    obtain ⟨name, v⟩ := entry
    rw [checkVariables, checkVariables, ih]

/-- Once the inputs are bound, the variables get their defaults, and after that they are checked. -/
theorem bindVariables_of_inputsBound {d : Disk} {w : Workflow} {inputs : Fields String}
    {s : Session} {given : Fields Json}
    (hgiven : inputsBound d w.vars inputs s.context.vars = .ok given) :
    bindVariables d w inputs s =
      (requireVariables { vars := defaultsBound w.vars given } w.vars >>= fun _ =>
          checkVariables { vars := defaultsBound w.vars given } w.vars,
        s.withVars (defaultsBound w.vars given)) := by
  obtain ⟨t, hinputs, hstate⟩ := bindInputs_apply d w.vars inputs s
  rw [hgiven] at hinputs
  cases hstate given hgiven
  rw [bindVariables, bind_apply_of_ok hinputs]
  have hdefaults : (s.withVars given).update (·.applyDefaults w.vars) =
      s.withVars (defaultsBound w.vars given) := by
    simp only [Session.withVars, Session.update, applyDefaults_eq]
  have hrequire : requireVariables (s.withVars (defaultsBound w.vars given)).context w.vars =
      requireVariables { vars := defaultsBound w.vars given } w.vars := rfl
  have hcheck := checkVariables_eq (s.withVars (defaultsBound w.vars given)).context w.vars
  have hvars : (s.withVars (defaultsBound w.vars given)).context.vars =
      defaultsBound w.vars given := rfl
  simp only [Compiling.update, bind_apply, change_apply, hdefaults, Compiling.context, ask_apply,
    ofExcept_apply, hrequire, hcheck, hvars]
  cases requireVariables { vars := defaultsBound w.vars given } w.vars <;> rfl

/-- Binding the variables of a workflow succeeds when they are as they are declared, and changes
nothing else. -/
theorem bindVariables_eq_ok_iff {d : Disk} {w : Workflow} {inputs : Fields String}
    {s s' : Session} :
    bindVariables d w inputs s = (.ok (), s') ↔
      ∃ vars, boundVariables d w inputs s.context.vars = .ok vars ∧ s' = s.withVars vars := by
  rw [boundVariables]
  rcases hgiven : inputsBound d w.vars inputs s.context.vars with e | given
  · obtain ⟨t, hinputs, -⟩ := bindInputs_apply d w.vars inputs s
    rw [hgiven] at hinputs
    rw [bindVariables, bind_apply_of_error hinputs]
    simp
  · rw [bindVariables_of_inputsBound hgiven]
    simp only
    cases requireVariables { vars := defaultsBound w.vars given } w.vars with
    | error e => simp [bind, Except.bind]
    | ok =>
      cases checkVariables { vars := defaultsBound w.vars given } w.vars with
      | error e => simp [bind, Except.bind]
      | ok => simp [bind, Except.bind, eq_comm]

/-! ## Workflows -/

/-- The session in which the steps of a workflow are compiled. -/
def Session.inRun (s : Session) (workflowId : String) (vars : Fields Json) : Session :=
  (s.withVars vars).update (·.ofRun workflowId)

/-- A compilation succeeds exactly when the workflow has no findings, its variables can be bound,
its steps compile, and they can be put in order. -/
theorem Compiler.compile_eq_ok_iff {c : Compiler} {d : Disk} {w : Workflow}
    {inputs : Fields String} {out : List CompiledStep} :
    (c.compile d w inputs).1 = .ok out ↔
      w.findings = [] ∧ ∃ vars, boundVariables d w inputs c.session.context.vars = .ok vars ∧
        ∃ compiled, (compileSteps c.settings w.steps
            (c.session.inRun c.settings.workflowId vars)).1 = .ok compiled ∧
          inOrder compiled = .ok out := by
  change (compileWorkflow c.settings d w inputs c.session).1 = .ok out ↔ _
  constructor
  · intro h
    obtain ⟨⟨⟩, s, hvalid, h⟩ := bind_eq_ok (Prod.ext h rfl :
      compileWorkflow c.settings d w inputs c.session = (.ok out, _))
    rw [ofExcept_apply, Prod.mk.injEq] at hvalid
    obtain ⟨hvalid, rfl⟩ := hvalid
    obtain ⟨⟨⟩, s, hbind, h⟩ := bind_eq_ok h
    obtain ⟨vars, hvars, rfl⟩ := bindVariables_eq_ok_iff.1 hbind
    obtain ⟨⟨⟩, s, hrun, h⟩ := bind_eq_ok h
    cases hrun
    obtain ⟨compiled, s, hsteps, h⟩ := bind_eq_ok h
    exact ⟨requireValid_eq_ok_iff.1 hvalid, vars, hvars, compiled, congrArg Prod.fst hsteps,
      congrArg Prod.fst h⟩
  · rintro ⟨hfindings, vars, hvars, compiled, hsteps, horder⟩
    have hvalid : ofExcept (requireValid c.settings.order w) c.session = (.ok (), c.session) := by
      rw [ofExcept_apply, requireValid_eq_ok_iff.2 hfindings]
    have hbind := bindVariables_eq_ok_iff.2 ⟨vars, hvars, rfl⟩
    have hrun : Compiling.update (·.ofRun c.settings.workflowId) (c.session.withVars vars) =
        (.ok (), c.session.inRun c.settings.workflowId vars) := rfl
    rw [compileWorkflow, bind_apply_of_ok hvalid, bind_apply_of_ok hbind, bind_apply_of_ok hrun,
      bind_apply_of_ok (Prod.ext hsteps rfl)]
    exact horder

end WorkflowCompiler
