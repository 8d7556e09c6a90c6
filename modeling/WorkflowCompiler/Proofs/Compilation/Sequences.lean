import WorkflowCompiler.Proofs.Compilation.Deferral
import WorkflowCompiler.Proofs.Compilation.Isolation

/-!
# One workflow after another

A compiler is used for one workflow after another, and keeps its session. A compilation changes
neither deferral nor look-up nor clock (`Context.SameMode`), whether it ends with steps or with an
error, and what it binds and what it comes to know is dropped at its end. Which steps the look-up
was asked for is kept, but makes no difference to what compiles, or to why something does not
(`Compiler.compile_congr`). So all workflows but the first one compile as they do for a fresh
compiler (`Compiler.compileAll_fresh`); the first one also sees what was bound before.
-/

namespace WorkflowCompiler

open Attempt

/-! ## What a compilation never changes -/

/-- The contexts have the same deferral, the same look-up and the same clock. -/
structure Context.SameMode (c c' : Context) : Prop where
  /-- the same deferral -/
  deferred_eq : c'.deferred = c.deferred
  /-- the same look-up -/
  lookup_eq : c'.lookup = c.lookup
  /-- the same moment -/
  clock_eq : c'.clock = c.clock

namespace Context

variable {c c' c'' : Context}

theorem SameMode.refl (c : Context) : c.SameMode c := ⟨rfl, rfl, rfl⟩

theorem SameMode.trans (h : c.SameMode c') (h' : c'.SameMode c'') : c.SameMode c'' :=
  ⟨h'.deferred_eq.trans h.deferred_eq, h'.lookup_eq.trans h.lookup_eq,
    h'.clock_eq.trans h.clock_eq⟩

theorem Kept.sameMode (h : c.Kept c') : c.SameMode c' := ⟨h.deferred_eq, h.lookup_eq, h.clock_eq⟩

theorem sameMode_setVariable (c : Context) (name : String) (value : Json) :
    c.SameMode (c.setVariable name value) := ⟨rfl, rfl, rfl⟩

theorem sameMode_applyDefaults (c : Context) (declared : Fields Variable) :
    c.SameMode (c.applyDefaults declared) := by
  rw [applyDefaults_eq]
  exact ⟨rfl, rfl, rfl⟩

theorem sameMode_ofRun (c : Context) (workflowId : String) : c.SameMode (c.ofRun workflowId) :=
  ⟨rfl, rfl, rfl⟩

/-- What is left after a reset is the mode. -/
theorem SameMode.reset_eq (h : c.SameMode c') : c'.reset = c.reset := by
  obtain ⟨hdeferred, hlookup, hclock⟩ := h
  rw [reset, reset, hdeferred, hlookup, hclock]

end Context

section Mode

variable {c : Context}

theorem preserves_update {f : Context → Context} (h : ∀ c : Context, c.SameMode (f c)) :
    (Compiling.update f).Preserves (Session.Where c.SameMode) :=
  fun s hs => Context.SameMode.trans hs (h s.context)

theorem preserves_bindInputs (d : Disk) (declared : Fields Variable) (inputs : Fields String) :
    (bindInputs d declared inputs).Preserves (Session.Where c.SameMode) := by
  induction inputs with
  | nil => exact fun s hs => hs
  | cons entry rest ih =>
    obtain ⟨name, text⟩ := entry
    rw [bindInputs]
    exact (preserves_ofExcept _).bind fun value =>
      (preserves_update fun c => c.sameMode_setVariable name value).bind fun _ => ih

theorem preserves_bindVariables (d : Disk) (w : Workflow) (inputs : Fields String) :
    (bindVariables d w inputs).Preserves (Session.Where c.SameMode) :=
  (preserves_bindInputs d w.vars inputs).bind fun _ =>
    (preserves_update fun c => c.sameMode_applyDefaults w.vars).bind fun _ =>
      Preserves.bind (fun _ hs => hs) fun _ =>
        (preserves_ofExcept _).bind fun _ => preserves_ofExcept _

/-- Steps, however they end, change nothing of it. -/
theorem preserves_compileSteps (settings : RunSettings) (steps : List Step) :
    (compileSteps settings steps).Preserves (Session.Where c.SameMode) :=
  fun s hs =>
    Context.SameMode.trans hs ((composed_compileSteps settings steps).keeps s).sameMode

theorem preserves_compileWorkflow (settings : RunSettings) (d : Disk) (w : Workflow)
    (inputs : Fields String) :
    (compileWorkflow settings d w inputs).Preserves (Session.Where c.SameMode) :=
  (preserves_ofExcept _).bind fun _ => (preserves_bindVariables d w inputs).bind fun _ =>
    (preserves_update fun c => c.sameMode_ofRun settings.workflowId).bind fun _ =>
      (preserves_compileSteps settings w.steps).bind fun _ => preserves_ofExcept _

end Mode

/-- After a compilation, whether it had a result or not, the context is the one before, reset. -/
theorem Compiler.context_compile (c : Compiler) (d : Disk) (w : Workflow)
    (inputs : Fields String) :
    (c.compile d w inputs).2.session.context = c.session.context.reset := by
  have hmode : c.session.context.SameMode
      (compileWorkflow c.settings d w inputs c.session).2.context :=
    preserves_compileWorkflow c.settings d w inputs c.session (.refl _)
  rw [Compiler.compile, ensuring_apply]
  exact hmode.reset_eq

/-! ## What does not matter to a compilation -/

/-- The sessions have contexts that agree; they may have asked for other steps. -/
def Session.Alike (s t : Session) : Prop := s.context.Alike t.context

section Matches

variable {α : Type}

theorem matches_text (step field value : String) :
    Matches Session.Alike (Compiling.text step field value) (Compiling.text step field value) :=
  (reads_text step field value).matches_of_eq coupling_alike.remembers fun c c' h => by
    rw [h.substituteIn_eq]

theorem matches_command (quoted : Bool) (step field value : String) :
    Matches Session.Alike (Compiling.command quoted step field value)
      (Compiling.command quoted step field value) := by
  cases quoted with
  | false => exact matches_text step field value
  | true =>
    refine ((reads_substituteShell value).mapError _).matches_of_eq coupling_alike.remembers
      fun c c' h => ?_
    rw [h.substituteShellIn_eq]

theorem matches_update {f : Context → Context}
    (h : ∀ c c' : Context, c.Alike c' → (f c).Alike (f c')) :
    Matches Session.Alike (Compiling.update f) (Compiling.update f) :=
  matches_change fun s t hst => h s.context t.context hst

theorem matches_nameAgent (settings : RunSettings) (id : String) (d : Declaration) :
    Matches Session.Alike (nameAgent settings id d) (nameAgent settings id d) := by
  refine Matches.bind ?_ fun agent => ?_
  · rw [agentOf]
    cases d.agentName with
    | none => exact matches_pure _
    | some raw => exact (matches_text id _ raw).bind fun _ => matches_pure _
  · cases agent with
    | none => exact matches_pure _
    | some agent => exact matches_update fun c c' => coupling_alike.withAgent agent

/-- What is composed ends alike in contexts that agree. -/
theorem Composed.matches_self {A : Allowance} {late : List String} {x : Compiling α}
    (h : Composed A late x) : Matches Session.Alike x x := by
  induction h with
  | pure a => exact matches_pure a
  | ofExcept _ => exact matches_ofExcept _
  | text _ => exact matches_text _ _ _
  | command _ => exact matches_command _ _ _ _
  | enter _ => exact matches_update fun c c' => coupling_alike.enter _
  | nameAgent _ _ => exact matches_nameAgent _ _ _
  | repeating _ _ ih =>
    refine (matches_update fun c c' => coupling_alike.bindAll _).bind fun _ =>
      ih.ensuring fun s t => ?_
    exact coupling_alike.unbindAll _
  | bind _ _ ihx ihf => exact ihx.bind ihf

end Matches

namespace Context.Alike

variable {c c' : Context}

/-- Contexts that agree go on to do so if their variables are changed alike. -/
theorem of_vars (h : c.Alike c') (f : Fields Json → Fields Json) :
    { c with vars := f c.vars }.Alike { c' with vars := f c'.vars } where
  vars_eq := congrArg f h.vars_eq
  known_eq := h.known_eq
  lookup_eq := h.lookup_eq
  clock_eq := h.clock_eq
  builtins_eq := h.builtins_eq
  late_iff := h.late_iff
  deferred_eq := h.deferred_eq

theorem setBuiltin (h : c.Alike c') (name : String) (value : Json) :
    (c.setBuiltin name value).Alike (c'.setBuiltin name value) where
  vars_eq := h.vars_eq
  known_eq := h.known_eq
  lookup_eq := h.lookup_eq
  clock_eq := h.clock_eq
  builtins_eq := fun other => by
    rw [Context.setBuiltin, Context.setBuiltin, Fields.get?_set, Fields.get?_set, h.builtins_eq]
  late_iff := h.late_iff
  deferred_eq := h.deferred_eq

end Context.Alike

theorem matches_bindInputs (d : Disk) (declared : Fields Variable) (inputs : Fields String) :
    Matches Session.Alike (bindInputs d declared inputs) (bindInputs d declared inputs) := by
  induction inputs with
  | nil => exact matches_pure _
  | cons entry rest ih =>
    obtain ⟨name, text⟩ := entry
    rw [bindInputs]
    exact (matches_ofExcept _).bind fun value =>
      (matches_update fun c c' h => h.of_vars (·.set name value)).bind fun _ => ih

theorem matches_bindVariables (d : Disk) (w : Workflow) (inputs : Fields String) :
    Matches Session.Alike (bindVariables d w inputs) (bindVariables d w inputs) := by
  refine (matches_bindInputs d w.vars inputs).bind fun _ => Matches.bind ?_ fun _ => ?_
  · refine matches_update fun c c' h => ?_
    rw [applyDefaults_eq, applyDefaults_eq]
    exact h.of_vars (defaultsBound w.vars)
  · -- the checks read the variables only
    intro s t hst
    have hvars : t.context.vars = s.context.vars := hst.vars_eq
    have hrequire : requireVariables t.context w.vars = requireVariables s.context w.vars := by
      simp only [requireVariables, Context.checkRequired, Context.missing, hvars]
    have hcheck : checkVariables t.context w.vars = checkVariables s.context w.vars := by
      rw [checkVariables_eq, hvars, ← checkVariables_eq]
    simp only [Compiling.context, bind_apply, ask_apply, hrequire, hcheck]
    exact (matches_ofExcept _).bind (fun _ => matches_ofExcept _) s t hst

theorem matches_compileWorkflow (settings : RunSettings) (d : Disk) (w : Workflow)
    (inputs : Fields String) :
    Matches Session.Alike (compileWorkflow settings d w inputs)
      (compileWorkflow settings d w inputs) := by
  refine (matches_ofExcept _).bind fun _ => (matches_bindVariables d w inputs).bind fun _ =>
    (matches_update fun c c' h => ?_).bind fun _ =>
      (composed_compileSteps settings w.steps).matches_self.bind fun _ => matches_ofExcept _
  exact (h.setBuiltin _ _).setBuiltin _ _

/-- Compilers with the same settings and contexts that agree compile a workflow to the same, or
fail with the same error. -/
theorem Compiler.compile_congr {c c' : Compiler} (hsettings : c'.settings = c.settings)
    (halike : c.session.Alike c'.session) (d : Disk) (w : Workflow) (inputs : Fields String) :
    (c'.compile d w inputs).1 = (c.compile d w inputs).1 := by
  rw [Compiler.compile, Compiler.compile, ensuring_apply, ensuring_apply, hsettings]
  exact (matches_compileWorkflow c.settings d w inputs _ _ halike).1.symm

/-! ## Sequences -/

/-- A workflow that is to be compiled, with the files at that time and the inputs of the run. -/
structure Job where
  /-- the files -/
  disk : Disk
  /-- the workflow -/
  workflow : Workflow
  /-- the inputs -/
  inputs : Fields String

namespace Compiler

/-- Compiles the workflow of a job. -/
def compileJob (c : Compiler) (j : Job) : Except CompileError (List CompiledStep) × Compiler :=
  c.compile j.disk j.workflow j.inputs

/-- Does one job after another, whether they fail or not. -/
def compileAll : Compiler → List Job →
    List (Except CompileError (List CompiledStep)) × Compiler
  | c, [] => ([], c)
  | c, j :: rest =>
    let (result, next) := c.compileJob j
    let (results, last) := next.compileAll rest
    (result :: results, last)

/-- A compiler with the same settings, deferral, look-up and clock for which nothing was bound. -/
def fresh (c : Compiler) : Compiler where
  settings := c.settings
  session :=
    { context :=
        { deferred := c.session.context.deferred
          lookup := c.session.context.lookup
          clock := c.session.context.clock } }

/-- The compiler has the settings of another one, and a context with nothing in it but the
deferral, the look-up and the clock of the other one. -/
structure ResetFrom (c c' : Compiler) : Prop where
  /-- the settings are the same -/
  settings_eq : c'.settings = c.settings
  /-- nothing is bound, known or bound late, and the mode is the same -/
  context_eq : c'.session.context =
    { deferred := c.session.context.deferred
      lookup := c.session.context.lookup
      clock := c.session.context.clock }

variable {c c' : Compiler}

theorem resetFrom_compileJob (c : Compiler) (j : Job) : c.ResetFrom (c.compileJob j).2 :=
  ⟨rfl, c.context_compile j.disk j.workflow j.inputs⟩

theorem ResetFrom.trans {c'' : Compiler} (h : c.ResetFrom c') (h' : c'.ResetFrom c'') :
    c.ResetFrom c'' := by
  refine ⟨h'.settings_eq.trans h.settings_eq, ?_⟩
  rw [h'.context_eq, h.context_eq]

/-- From then on it compiles like a fresh one. -/
theorem ResetFrom.compileJob_eq (h : c.ResetFrom c') (j : Job) :
    (c'.compileJob j).1 = (c.fresh.compileJob j).1 := by
  refine Compiler.compile_congr (c := c.fresh) h.settings_eq ?_ j.disk j.workflow j.inputs
  rw [Session.Alike, h.context_eq]
  exact ⟨⟨rfl, fun _ => rfl, rfl, rfl⟩, fun _ => rfl, fun _ => .rfl, rfl⟩

/-- So it does for all jobs to come. -/
theorem ResetFrom.compileAll (h : c.ResetFrom c') (jobs : List Job) :
    (c'.compileAll jobs).1 = jobs.map (fun j => (c.fresh.compileJob j).1) ∧
      c.ResetFrom (c'.compileAll jobs).2 := by
  induction jobs generalizing c' with
  | nil => exact ⟨rfl, h⟩
  | cons j rest ih =>
    obtain ⟨hresults, hlast⟩ := ih (h.trans (c'.resetFrom_compileJob j))
    rw [Compiler.compileAll, List.map_cons, ← h.compileJob_eq]
    exact ⟨congrArg _ hresults, hlast⟩

/-- Compilations do not influence each other. After any of them, successful or not, nothing is
bound, known or bound late, and deferral, look-up and clock are those from before; and all jobs but
the first one end as they do for a fresh compiler. -/
theorem compileAll_fresh (c : Compiler) (j : Job) (rest : List Job) :
    c.ResetFrom (c.compileAll (j :: rest)).2 ∧
      (c.compileAll (j :: rest)).1 =
        (c.compileJob j).1 :: rest.map fun j => (c.fresh.compileJob j).1 := by
  obtain ⟨hresults, hlast⟩ := (c.resetFrom_compileJob j).compileAll rest
  rw [compileAll]
  exact ⟨hlast, congrArg _ hresults⟩

end Compiler

end WorkflowCompiler
