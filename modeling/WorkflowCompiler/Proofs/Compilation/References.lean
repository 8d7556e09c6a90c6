import WorkflowCompiler.Proofs.Compilation.CheckedTexts
import WorkflowCompiler.Proofs.Compilation.Failures
import WorkflowCompiler.Proofs.Compilation.Runs
import WorkflowCompiler.Proofs.Context.Values
import WorkflowCompiler.Proofs.Simulations

/-!
# References that are validated

What the placeholders of a workflow refer to is checked when the workflow is validated. If all
that is bound in a run is plain, and the check covers the steps, then nothing is undefined when
the workflow is compiled (`Compiler.not_undefined_of_covered`).

The context is followed through a compilation with two invariants. Between steps it is *prepared*:
the variables and the builtins of the run are bound. Inside a step it is *entered*: the builtins of
the step are bound as well, or its agent is bound late.
-/

namespace WorkflowCompiler

open Attempt

/-- The error is about a placeholder whose root is bound to nothing. -/
def CompileError.Undefined : CompileError → Prop
  | field _ _ (.undefined _) | unresolved (.undefined _) => True
  | _ => False

/-- The text has no placeholders, and its braces do not join with others to one. -/
def PlainText (text : String) : Prop := hasPlaceholders text = false ∧ TidyText text

instance (text : String) : Decidable (PlainText text) :=
  inferInstanceAs (Decidable (hasPlaceholders text = false ∧ TidyText text))

section Undefined

variable {e : CompileError}

theorem CompileError.Undefined.ofText (h : e.Undefined) : e.OfText := by
  cases e with
  | field | unresolved => trivial
  | _ => exact h

theorem CompileError.OfVariable.not_undefined (h : e.OfVariable) : ¬ e.Undefined := by
  cases e with
  | variableFile | missingVariables | invalidVariable => exact fun h => h
  | _ => exact h.elim

/-- A field fails with something undefined only if its text does. -/
theorem not_undefined_of_mapError {step field : String} {r : Except ResolutionError String}
    (h : ∀ path, r ≠ .error (.undefined path))
    (he : r.mapError (CompileError.field step field) = .error e) : ¬ e.Undefined := by
  cases r with
  | ok text => cases he
  | error cause =>
    cases he
    cases cause with
    | undefined path => exact absurd rfl (h path)
    | _ => exact fun h => h

end Undefined

theorem PlainText.fine {text : String} (h : PlainText text) (names : List String) :
    Fine names text := by
  refine ⟨h.2, fun path hpath => ?_⟩
  have hscan : scan text = [] := by
    have hplain := h.1
    rwa [hasPlaceholders_eq, Bool.not_eq_false', List.isEmpty_iff] at hplain
  rw [← scan_map_path, hscan] at hpath
  cases hpath

/-! ## Contexts between steps and inside of steps -/

/-- The context is ready for a step: the variables and the builtins of the run are bound, and what
is bound is fine. -/
structure Context.Prepared (c : Context) (w : Workflow) : Prop where
  /-- what cannot be resolved yet is left for later -/
  deferred : c.deferred = true
  /-- the declared variables are bound -/
  vars : ∀ name ∈ w.vars.names, c.vars.has name = true
  /-- the builtins of the run are bound -/
  run : ∀ name ∈ ["workflow_id", "molecule_id"], (c.binding? name).isSome = true
  /-- values bring in no placeholders but those of bound names -/
  values : c.Holds (Fine w.boundNames)

/-- The context is inside of a step, where names are bound late. -/
structure Context.Entered (c : Context) (w : Workflow) (late : List String) : Prop
    extends c.Prepared w where
  /-- the id of the step is bound -/
  step : ∀ name ∈ ["step_id", "bead_id"], (c.binding? name).isSome = true
  /-- its agent is bound, now or late -/
  agent : agentRoot ∈ c.late ∨ (c.binding? agentRoot).isSome = true
  /-- the names are bound late -/
  late_subset : late ⊆ c.late

namespace Context

variable {c c' : Context} {w : Workflow} {late names : List String} {id agent : String}

theorem binding?_isSome_of_has {name : String} (h : c.vars.has name = true) :
    (c.binding? name).isSome = true := by
  rw [Fields.has, Option.isSome_iff_exists] at h
  obtain ⟨value, hvalue⟩ := h
  rw [binding?, hvalue]
  rfl

theorem binding?_isSome_of_builtin {name : String} (h : (c.builtins.get? name).isSome = true) :
    (c.binding? name).isSome = true := by
  rw [binding?]
  cases c.vars.get? name with
  | some value => rfl
  | none => exact h

/-- A root that is bound stays bound, if its builtin does. -/
theorem binding?_isSome_of_builtins {name : String} (hvars : c'.vars = c.vars)
    (hbuiltins : (c.builtins.get? name).isSome = true → (c'.builtins.get? name).isSome = true)
    (h : (c.binding? name).isSome = true) : (c'.binding? name).isSome = true := by
  rw [binding?] at h
  cases hvar : c.vars.get? name with
  | some value =>
    refine binding?_isSome_of_has ?_
    rw [Fields.has, hvars, hvar]
    rfl
  | none =>
    rw [hvar] at h
    exact binding?_isSome_of_builtin (hbuiltins h)

namespace Prepared

theorem of_alike (h : c.Prepared w) (halike : c.Alike c') : c'.Prepared w where
  deferred := halike.deferred_eq.trans h.deferred
  vars := fun name hname => by
    rw [halike.vars_eq]
    exact h.vars name hname
  run := fun name hname => by
    rw [halike.binding_eq]
    exact h.run name hname
  values := h.values.of_alike halike

/-- A step can be entered. -/
theorem enter (h : c.Prepared w) (hid : PlainText id) : (c.enter id).Entered w [] where
  deferred := (c.deferred_enter id).trans h.deferred
  vars := fun name hname => by
    rw [(c.sameGround_enter id).vars_eq]
    exact h.vars name hname
  run := fun name hname => by
    refine binding?_isSome_of_builtins (c.sameGround_enter id).vars_eq (fun hbuiltin => ?_)
      (h.run name hname)
    have hother : name ≠ agentRoot ∧ ¬ (name = "step_id" ∨ name = "bead_id") := by
      simp only [List.mem_cons, List.not_mem_nil, or_false] at hname
      rcases hname with rfl | rfl <;> decide
    rw [builtins_enter, if_neg hother.1, if_neg hother.2]
    exact hbuiltin
  values := h.values.enter (hid.fine _)
  step := fun name hname => by
    have hown : name ≠ agentRoot ∧ (name = "step_id" ∨ name = "bead_id") := by
      simp only [List.mem_cons, List.not_mem_nil, or_false] at hname
      rcases hname with rfl | rfl <;> decide
    refine binding?_isSome_of_builtin ?_
    rw [builtins_enter, if_neg hown.1, if_pos hown.2]
    rfl
  agent := by
    rw [mem_late_enter, if_pos rfl]
    cases hagent : c.vars.has agentRoot with
    | false => exact .inl ⟨h.deferred, rfl⟩
    | true =>
      refine .inr (binding?_isSome_of_has ?_)
      rw [(c.sameGround_enter id).vars_eq]
      exact hagent
  late_subset := List.nil_subset _

end Prepared

namespace Entered

theorem of_alike (h : c.Entered w late) (halike : c.Alike c') : c'.Entered w late where
  toPrepared := h.toPrepared.of_alike halike
  step := fun name hname => by
    rw [halike.binding_eq]
    exact h.step name hname
  agent := by
    rw [halike.late_iff, halike.binding_eq]
    exact h.agent
  late_subset := fun name hname => (halike.late_iff name).2 (h.late_subset hname)

/-- Inside of a step, everything that the workflow may refer to is bound. -/
theorem serves (h : c.Entered w late) : c.Serves (late ++ w.boundNames) := by
  refine serves_of_bound (fun root hroot => ?_) (h.values.mono fun text htext => ?_)
  · rw [List.mem_append, Workflow.boundNames, List.mem_append] at hroot
    rcases hroot with hlate | hvar | hrun
    · exact .inl (h.late_subset hlate)
    · exact .inr (binding?_isSome_of_has (h.vars root hvar))
    · simp only [runRoots, List.mem_cons, List.not_mem_nil, or_false] at hrun
      rcases hrun with rfl | rfl | rfl | rfl | rfl
      · exact h.agent
      · exact .inr (h.step _ (by decide))
      · exact .inr (h.step _ (by decide))
      · exact .inr (h.run _ (by decide))
      · exact .inr (h.run _ (by decide))
  · exact htext.mono (List.subset_append_right _ _)

/-- The agent may be bound to a fine text. -/
theorem withAgent (h : c.Entered w []) (hagent : Fine w.boundNames agent) :
    (c.withAgent agent).Entered w [] := by
  have hbound : ∀ name, (c.binding? name).isSome = true →
      ((c.withAgent agent).binding? name).isSome = true := by
    refine fun name => binding?_isSome_of_builtins (c.sameGround_withAgent agent).vars_eq ?_
    intro hbuiltin
    rw [builtins_withAgent]
    split
    · rfl
    · exact hbuiltin
  refine ⟨⟨h.deferred, h.vars, fun name hname => hbound name (h.run name hname),
    h.values.withAgent hagent⟩, fun name hname => hbound name (h.step name hname), .inr ?_,
    List.nil_subset _⟩
  refine binding?_isSome_of_builtin ?_
  rw [builtins_withAgent, if_pos rfl]
  rfl

/-- Other roots may be bound late, as long as the agent stays bound. -/
theorem of_late_only (h : c.Entered w late) (hlate : ∃ late, c' = { c with late })
    (hagent : agentRoot ∈ c'.late ∨ (c.binding? agentRoot).isSome = true)
    (hnames : names ⊆ c'.late) : c'.Entered w names := by
  have hvalues := h.values.of_late_only hlate
  obtain ⟨late', rfl⟩ := hlate
  exact ⟨⟨h.deferred, h.vars, h.run, hvalues⟩, h.step, hagent, hnames⟩

theorem bindAll (h : c.Entered w []) (names : List String) :
    (c.bindAll names).Entered w names := by
  refine h.of_late_only (c.exists_bindAll names) ?_ fun name hname => ?_
  · exact h.agent.imp_left fun hlate => mem_late_bindAll.2 (.inr hlate)
  · exact mem_late_bindAll.2 (.inl hname)

/-- The agent stays bound, if it is none of the names or a variable as well. -/
theorem unbindAll (h : c.Entered w names) (hnames : agentRoot ∈ names → agentRoot ∈ w.vars.names) :
    (c.unbindAll names).Entered w [] := by
  refine h.of_late_only (c.exists_unbindAll names) ?_ (List.nil_subset _)
  by_cases hagent : agentRoot ∈ names
  · exact .inr (binding?_isSome_of_has (h.vars _ (hnames hagent)))
  · exact h.agent.imp_left fun hlate => mem_late_unbindAll.2 ⟨hlate, hagent⟩

end Entered

end Context

/-! ## Compiling steps -/

section Secures

variable {w : Workflow} {late : List String} {α : Type}

/-- What a computation reads off the context is secured, if the context has no bad error. -/
theorem Reads.secures {I : Context → Prop} {Q : α → Prop} (bad : CompileError → Prop)
    (hI : ∀ c c' : Context, c.Alike c' → I c → I c') {x : Compiling α}
    {f : Context → Except CompileError α} (hx : Reads x f)
    (hf : ∀ c, I c → (∀ a, f c = .ok a → Q a) ∧ ∀ e, f c = .error e → ¬ bad e) :
    Secures (fun s => I s.context) bad x fun a s => Q a ∧ I s.context := by
  intro s hs
  obtain ⟨s', hreads, hremembers⟩ := hx s
  constructor
  · intro a t ht
    rw [hreads, Prod.mk.injEq] at ht
    obtain ⟨hresult, rfl⟩ := ht
    exact ⟨(hf _ hs).1 a hresult, hI _ _ hremembers.alike hs⟩
  · intro e t ht
    rw [hreads, Prod.mk.injEq] at ht
    exact (hf _ hs).2 e ht.1

theorem secures_text {step field value : String} (h : Fine (late ++ w.boundNames) value) :
    Secures (fun s => s.context.Entered w late) CompileError.Undefined
      (Compiling.text step field value)
      fun out s => Fine (late ++ w.boundNames) out ∧ s.context.Entered w late := by
  refine Reads.secures (I := fun c => c.Entered w late) _ (fun c c' halike hc => hc.of_alike halike)
    ((reads_substitute value).mapError _) fun c hc => ⟨fun out hout => ?_, fun e he => ?_⟩
  · exact hc.serves.fine_of_substituteIn h (eq_ok_of_mapError_eq_ok hout)
  · exact not_undefined_of_mapError (hc.serves.substituteIn_ne_undefined h) he

theorem secures_command {quoted : Bool} {step field value : String}
    (h : Fine (late ++ w.boundNames) value) :
    Secures (fun s => s.context.Entered w late) CompileError.Undefined
      (Compiling.command quoted step field value) fun _ s => s.context.Entered w late := by
  cases quoted with
  | false => exact (secures_text h).imp fun _ _ hs => hs.2
  | true =>
    have hreads := Reads.secures (I := fun c => c.Entered w late) (Q := fun _ => True)
      CompileError.Undefined (fun c c' halike hc => hc.of_alike halike)
      ((reads_substituteShell value).mapError (.field step field)) fun c hc => ⟨fun _ _ => trivial,
        fun e he => not_undefined_of_mapError (hc.serves.substituteShellIn_ne_undefined h) he⟩
    exact hreads.imp fun _ _ hs => hs.2

theorem secures_nameAgent {settings : RunSettings} {id : String} {d : Declaration}
    (htext : ∀ v ∈ d.agentName.toList, Fine w.boundNames v)
    (hvalue : ∀ v ∈ settings.defaultAssignee.toList, PlainText v) :
    Secures (fun s => s.context.Entered w []) CompileError.Undefined (nameAgent settings id d)
      fun _ s => s.context.Entered w [] := by
  have hagent : Secures (fun s => s.context.Entered w []) CompileError.Undefined
      (agentOf settings id d) fun agent s =>
        (∀ v ∈ agent.toList, Fine w.boundNames v) ∧ s.context.Entered w [] := by
    rw [agentOf]
    cases hname : d.agentName with
    | none =>
      refine secures_pure fun s hs => ⟨fun v hv => ?_, hs⟩
      exact (hvalue v hv).fine _
    | some raw =>
      refine (secures_text (htext raw (by simp [hname]))).bind fun agent => ?_
      refine secures_pure fun s hs => ⟨fun v hv => ?_, hs.2⟩
      rw [Option.toList_some, List.mem_singleton] at hv
      exact hv ▸ hs.1
  refine hagent.bind fun agent => ?_
  cases agent with
  | none => exact secures_pure fun s hs => hs.2
  | some agent => exact secures_change fun s hs => hs.2.withAgent (hs.1 agent (by simp))

/-- What may be compiled without coming upon something undefined. -/
def Workflow.references (w : Workflow) : Allowance where
  text := fun late text => Fine (late ++ w.boundNames) text
  value := PlainText
  names := fun names => agentRoot ∈ names → agentRoot ∈ w.vars.names

/-- Inside of a step, nothing that is composed of such texts comes upon something undefined. -/
theorem Composed.secures {x : Compiling α} (h : Composed w.references late x) :
    Secures (fun s => s.context.Entered w late) CompileError.Undefined x
      fun _ s => s.context.Entered w late := by
  induction h with
  | pure a => exact secures_pure fun _ hs => hs
  | ofExcept h =>
    refine secures_ofExcept (fun e he hundefined => h e he ?_) fun _ _ hs => hs
    exact CompileError.Undefined.ofText hundefined
  | text h => exact (secures_text h).imp fun _ _ hs => hs.2
  | command h => exact secures_command h
  | enter h => exact secures_change fun s hs => hs.toPrepared.enter h
  | nameAgent htext hvalue => exact secures_nameAgent htext hvalue
  | repeating hnames _ ih =>
    refine (secures_change fun s hs => hs.bindAll _).bind fun _ => ih.ensuring fun _ s hs => ?_
    exact hs.unbindAll hnames
  | bind _ _ ihx ihf => exact ihx.bind ihf

end Secures

/-! ## Compiling workflows -/

/-- The steps of a workflow are covered by the check, at any depth that is compiled. -/
def Workflow.Covered (w : Workflow) : Prop :=
  ∀ b, w.ReachedBatch b → ∀ s ∈ b.steps, s.Covered w

/-- In a run with these variables, every declared variable is bound, and all that is bound is
plain. -/
structure Compiler.BindsPlainly (c : Compiler) (w : Workflow) (vars : Fields Json) : Prop where
  /-- the declared variables are bound -/
  declared : ∀ name ∈ w.vars.names, vars.has name = true
  /-- variables, builtins and known outputs -/
  values : (c.session.inRun c.settings.workflowId vars).context.Holds PlainText
  /-- the agent of steps that name none -/
  assignee : ∀ agent ∈ c.settings.defaultAssignee.toList, PlainText agent
  /-- the builtins that are the id of a step -/
  ids : ∀ b, w.ReachedBatch b → ∀ s ∈ b.steps, PlainText (b.fullId s)

section Workflows

variable {c : Compiler} {d : Disk} {w : Workflow} {inputs : Fields String} {vars : Fields Json}

theorem Compiler.BindsPlainly.within (h : c.BindsPlainly w vars) (hfindings : w.findings = [])
    (hcovered : w.Covered) : w.topBatch.Within w.references := by
  intro b hreached s hs
  have hrules : s.WellFormed w :=
    (Workflow.wellFormed_of_hasBatch hfindings (Workflow.ReachedBatch.hasBatch hreached)).steps s hs
  refine ⟨⟨(hcovered b hreached s hs).fine hrules, fun cl hclass hexecutor => ?_⟩,
    h.ids b hreached s hs⟩
  exact (hcovered b hreached s hs).agent_free ⟨cl, hclass, hexecutor⟩

theorem Compiler.BindsPlainly.prepared (h : c.BindsPlainly w vars)
    (hdeferred : c.session.context.deferred = true) :
    (c.session.inRun c.settings.workflowId vars).context.Prepared w where
  deferred := hdeferred
  vars := h.declared
  run := fun name hname => by
    refine Context.binding?_isSome_of_builtin ?_
    simp only [List.mem_cons, List.not_mem_nil, or_false] at hname
    simp only [Session.inRun, Session.context_update, Context.ofRun, Context.setBuiltin,
      Fields.get?_set]
    rcases hname with rfl | rfl <;> rfl
  values := h.values.mono fun _ htext => htext.fine _

/-- The steps of a workflow compile without coming upon something undefined. -/
theorem secures_compileSteps (h : c.BindsPlainly w vars) (hfindings : w.findings = [])
    (hcovered : w.Covered) :
    Secures (fun s => s.context.Prepared w) CompileError.Undefined
      (compileSteps c.settings w.steps) fun _ s => s.context.Prepared w := by
  have hwithin := h.within hfindings hcovered
  refine secures_each fun s hs => ?_
  rw [compileStep_eq_entered]
  have hentered := (composed_compileEntered hwithin h.assignee hs).secures
  refine Secures.bind (secures_change fun t ht => ?_) fun _ => hentered.imp fun _ _ ht => ht.1
  exact ht.enter (h.ids w.topBatch .refl s hs)

/-- If everything that is bound is plain, and the check covers the steps, a compilation that
defers fails with nothing undefined. -/
theorem Compiler.not_undefined_of_covered (hdeferred : c.session.context.deferred = true)
    (hplain : ∀ vars, boundVariables d w inputs c.session.context.vars = .ok vars →
      c.BindsPlainly w vars)
    (hcovered : w.Covered) {e : CompileError} (h : (c.compile d w inputs).1 = .error e) :
    ¬ e.Undefined := by
  have hcompile : compileWorkflow c.settings d w inputs c.session = (.error e, _) := Prod.ext h rfl
  rcases bind_eq_error hcompile with hvalid | ⟨⟨⟩, s, hvalid, hrest⟩
  · rw [requireValid_eq_error (congrArg Prod.fst hvalid)]
    exact fun h => h
  · rw [ofExcept_apply, Prod.mk.injEq] at hvalid
    obtain ⟨hvalid, rfl⟩ := hvalid
    have hfindings := requireValid_eq_ok_iff.1 hvalid
    rcases bind_eq_error hrest with hbind | ⟨⟨⟩, s, hbind, hrest⟩
    · exact avoids_bindVariables (fun _ he => he.not_undefined) d w inputs e ⟨_, _, hbind⟩
    · obtain ⟨vars, hvars, rfl⟩ := bindVariables_eq_ok_iff.1 hbind
      have hbinds := hplain vars hvars
      rcases bind_eq_error hrest with hrun | ⟨⟨⟩, s, hrun, hrest⟩
      · cases hrun
      · cases hrun
        rcases bind_eq_error hrest with hsteps | ⟨compiled, s, -, horder⟩
        · exact (secures_compileSteps hbinds hfindings hcovered _
            (hbinds.prepared hdeferred)).2 e _ hsteps
        · obtain ⟨path, rfl⟩ := inOrder_eq_error (congrArg Prod.fst horder)
          exact fun h => h

end Workflows

/-! ## The mode of an agent -/

/-- A step that asks an agent. -/
def askStep (prompt mode : String) : Step where
  id := "ask"
  executor := some "agent"
  agent := some "bob"
  prompt := some prompt
  mode := some mode

/-- A workflow that asks an agent about a person. -/
def askWorkflow (prompt mode : String) : Workflow where
  name := "ask"
  vars :=
    [("name", { default := some (.str "ada") }),
      ("pace", { default := some (.str "interactive") })]
  steps := [askStep prompt mode]

/-- A compiler for a run that defers. -/
def askCompiler : Compiler := { settings := { workflowId := "run" } }

section Ask

variable {prompt mode : String}

theorem eq_topBatch_of_reached_ask {b : Batch} (h : (askWorkflow prompt mode).ReachedBatch b) :
    b = (askWorkflow prompt mode).topBatch := by
  refine h.eq_topBatch fun s hs o => ?_
  rw [List.mem_singleton.1 hs]
  cases o <;> rfl

theorem bindsPlainly_ask {vars : Fields Json}
    (h : boundVariables {} (askWorkflow prompt mode) [] [] = .ok vars) :
    askCompiler.BindsPlainly (askWorkflow prompt mode) vars := by
  obtain ⟨given, hgiven, rfl⟩ := boundVariables_eq_ok h
  cases hgiven
  refine ⟨fun name hname => ?_, ?_, nofun, fun b hreached s hs => ?_⟩
  · have hnames : name ∈ ["name", "pace"] := hname
    simp only [List.mem_cons, List.not_mem_nil, or_false] at hnames
    rcases hnames with rfl | rfl <;> rfl
  · have hmoment : ∀ name text, clockText? 0 name = some text → PlainText text :=
      of_clockText? (by decide +kernel) (by decide +kernel) (by decide +kernel)
    refine Context.holds_of_strings (fun entry hentry => ?_) rfl rfl hmoment
    have hentries : entry ∈ [("name", Json.str "ada"), ("pace", .str "interactive"),
      ("molecule_id", .str "run"), ("workflow_id", .str "run")] := hentry
    simp only [List.mem_cons, List.not_mem_nil, or_false] at hentries
    rcases hentries with rfl | rfl | rfl | rfl
    · exact ⟨"ada", by decide +kernel, rfl⟩
    · exact ⟨"interactive", by decide +kernel, rfl⟩
    · exact ⟨"run", by decide +kernel, rfl⟩
    · exact ⟨"run", by decide +kernel, rfl⟩
  · rw [eq_topBatch_of_reached_ask hreached] at hs ⊢
    rw [List.mem_singleton.1 hs]
    change PlainText "ask"
    decide +kernel

end Ask

/-- If the mode is a variable, nothing is undefined: the name has no parts, but it is bound. -/
theorem askWorkflow_not_undefined :
    ∃ e, (askCompiler.compile {} (askWorkflow "Greet \x7b\x7bname.first\x7d\x7d"
      "\x7b\x7bpace\x7d\x7d") []).1 = .error e ∧ ¬ e.Undefined := by
  have hcompile : (askCompiler.compile {} (askWorkflow "Greet \x7b\x7bname.first\x7d\x7d"
      "\x7b\x7bpace\x7d\x7d") []).1 =
        .error (.field "ask" "prompt" (.unknownField "name.first" "first")) :=
    eq_error_of_error?_eq_some (by decide +kernel)
  refine ⟨_, hcompile, Compiler.not_undefined_of_covered rfl
    (fun vars hvars => bindsPlainly_ask hvars) (fun b hreached s hs => ?_) hcompile⟩
  rw [eq_topBatch_of_reached_ask hreached] at hs
  rw [List.mem_singleton.1 hs]
  refine ⟨by decide +kernel, by decide +kernel, fun text htext p hp => .inr (.inl ?_),
    by decide +kernel, fun _ hagent => absurd hagent (by decide)⟩
  rw [List.mem_singleton.1 htext] at hp
  have hscan : ∀ p ∈ scan "\x7b\x7bpace\x7d\x7d", p.root ∈ ["name", "pace"] := by decide +kernel
  exact hscan p hp

/-- If the mode is a name that is not declared, the workflow is valid all the same, and everything
that is declared is bound and plain, but the name is undefined when the mode is compiled. -/
theorem askWorkflow_undefined :
    (askWorkflow "Greet \x7b\x7bname\x7d\x7d" "\x7b\x7bspeed\x7d\x7d").findings = [] ∧
      askCompiler.session.context.deferred = true ∧ askCompiler.session.context.late = [] ∧
      (∀ vars, boundVariables {} (askWorkflow "Greet \x7b\x7bname\x7d\x7d"
          "\x7b\x7bspeed\x7d\x7d") [] [] = .ok vars →
        askCompiler.BindsPlainly (askWorkflow "Greet \x7b\x7bname\x7d\x7d"
          "\x7b\x7bspeed\x7d\x7d") vars) ∧
      ∃ e, (askCompiler.compile {} (askWorkflow "Greet \x7b\x7bname\x7d\x7d"
        "\x7b\x7bspeed\x7d\x7d") []).1 = .error e ∧ e.Undefined :=
  ⟨by decide +kernel, rfl, rfl, fun vars hvars => bindsPlainly_ask hvars,
    .field "ask" "mode" (.undefined "speed"), eq_error_of_error?_eq_some (by decide +kernel),
    trivial⟩

end WorkflowCompiler
