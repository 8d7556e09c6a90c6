import Mathlib.Data.List.Perm.Basic
import WorkflowCompiler.Proofs.Compilation.Coupled
import WorkflowCompiler.Proofs.Compilation.Lasting
import WorkflowCompiler.Proofs.Compilation.Runs
import WorkflowCompiler.Proofs.Needs.Progress
import WorkflowCompiler.Proofs.Validation.Rearranged

/-!
# Steps are compiled in isolation

All steps of a workflow are compiled in one session, one after the other. What a step leaves
behind in the context (`Context.Kept`) is bound anew when the next step is entered, so that every
step compiles to what it would compile to as the first one
(`Context.Kept.compileStep_eq_ok_iff`).

So the order in which steps are declared does not matter: in any order a workflow compiles to the
same steps (`Compiler.compile_rearranged`).
-/

namespace WorkflowCompiler

open Attempt

/-! ## What a step leaves behind -/

namespace Context

/-- Compiling steps makes the first context into the second one at most: it differs in what each
step binds for itself. -/
structure Kept (c c' : Context) : Prop extends SameGround c c' where
  /-- the same deferral -/
  deferred_eq : c'.deferred = c.deferred
  /-- the same builtins, but for those of a step -/
  builtins_eq : ∀ name ∉ stepRoots, c'.builtins.get? name = c.builtins.get? name
  /-- no other root is bound late, but for the agent, unless a variable has its name -/
  late_sub : ∀ name ∈ c'.late,
    name ∈ c.late ∨ name = agentRoot ∧ c.vars.has agentRoot = false

variable {c c' c'' : Context}

namespace Kept

theorem refl (c : Context) : c.Kept c :=
  ⟨.refl c, rfl, fun _ _ => rfl, fun _ h => .inl h⟩

theorem trans (h : c.Kept c') (h' : c'.Kept c'') : c.Kept c'' where
  toSameGround := h.toSameGround.trans h'.toSameGround
  deferred_eq := h'.deferred_eq.trans h.deferred_eq
  builtins_eq := fun name hname => (h'.builtins_eq name hname).trans (h.builtins_eq name hname)
  late_sub := fun name hname => by
    rcases h'.late_sub name hname with hname | hagent
    · exact h.late_sub name hname
    · rw [h.vars_eq] at hagent
      exact .inr hagent

end Kept

theorem Alike.kept (h : c.Alike c') : c.Kept c' :=
  ⟨h.toSameGround, h.deferred_eq, fun name _ => h.builtins_eq name,
    fun name hname => .inl ((h.late_iff name).1 hname)⟩

theorem kept_enter (c : Context) (id : String) : c.Kept (c.enter id) := by
  refine ⟨c.sameGround_enter id, c.deferred_enter id, fun name hname => ?_, fun name hname => ?_⟩
  · rw [stepRoots, List.mem_cons, List.mem_cons, List.mem_singleton, not_or, not_or] at hname
    rw [builtins_enter, if_neg hname.2.2, if_neg (not_or.2 ⟨hname.1, hname.2.1⟩)]
  · rw [mem_late_enter] at hname
    by_cases hagent : name = agentRoot
    · rw [if_pos hagent] at hname
      exact .inr ⟨hagent, hname.2⟩
    · rw [if_neg hagent] at hname
      exact .inl hname

theorem kept_withAgent (c : Context) (agent : String) : c.Kept (c.withAgent agent) := by
  refine ⟨c.sameGround_withAgent agent, rfl, fun name hname => ?_, fun name hname => ?_⟩
  · rw [stepRoots, List.mem_cons, List.mem_cons, List.mem_singleton, not_or, not_or] at hname
    rw [builtins_withAgent, if_neg hname.2.2]
  · exact .inl (mem_late_withAgent.1 hname).1

/-- Names that were bound late for a while are not bound late any more. -/
theorem Kept.repeating {names : List String} (h : (c.bindAll names).Kept c') :
    c.Kept (c'.unbindAll names) := by
  obtain ⟨hground, hdeferred, hbuiltins⟩ := eq_of_late_only (c.exists_bindAll names)
  obtain ⟨hground', hdeferred', hbuiltins'⟩ := eq_of_late_only (c'.exists_unbindAll names)
  refine ⟨(hground.trans h.toSameGround).trans hground', ?_, fun name hname => ?_,
    fun name hname => ?_⟩
  · rw [hdeferred', h.deferred_eq, hdeferred]
  · rw [hbuiltins', h.builtins_eq name hname, hbuiltins]
  · rw [mem_late_unbindAll] at hname
    obtain ⟨hlate, hnames⟩ := hname
    have hlate := h.late_sub name hlate
    rw [hground.vars_eq] at hlate
    exact hlate.imp_left fun hlate => (mem_late_bindAll.1 hlate).resolve_left hnames

/-- When a step is entered, nothing of what other steps left behind is left. -/
theorem Kept.alike_enter {d d' : Context} (hd : c.Kept d) (hd' : c.Kept d')
    (hlate : ∀ name ∈ c.late, name = agentRoot) (id : String) :
    (d.enter id).Alike (d'.enter id) := by
  have hground := hd.toSameGround.symm.trans hd'.toSameGround
  have hdeferred : d'.deferred = d.deferred := hd'.deferred_eq.trans hd.deferred_eq.symm
  -- in both, no root but the agent is bound late
  have hnone : ∀ {e : Context}, c.Kept e → ∀ name ≠ agentRoot, name ∉ e.late := by
    intro e he name hname hmem
    rcases he.late_sub name hmem with hmem | ⟨hagent, -⟩
    · exact hname (hlate name hmem)
    · exact hname hagent
  refine ⟨((d.sameGround_enter id).symm.trans hground).trans (d'.sameGround_enter id),
    fun name => ?_, fun name => ?_, ?_⟩
  · rw [builtins_enter, builtins_enter]
    by_cases hagent : name = agentRoot
    · rw [if_pos hagent, if_pos hagent]
    · by_cases hid : name = "step_id" ∨ name = "bead_id"
      · rw [if_neg hagent, if_neg hagent, if_pos hid, if_pos hid]
      · have hname : name ∉ stepRoots := by
          rw [not_or] at hid
          simp [stepRoots, hid, hagent]
        rw [if_neg hagent, if_neg hagent, if_neg hid, if_neg hid, hd'.builtins_eq name hname,
          hd.builtins_eq name hname]
  · rw [mem_late_enter, mem_late_enter, hdeferred, hground.vars_eq]
    by_cases hagent : name = agentRoot
    · rw [if_pos hagent, if_pos hagent]
    · rw [if_neg hagent, if_neg hagent]
      exact ⟨fun h => absurd h (hnone hd' name hagent), fun h => absurd h (hnone hd name hagent)⟩
  · rw [deferred_enter, deferred_enter, hdeferred]

end Context

/-! ## Keeping -/

theorem Context.Kept.bindAll {c c' : Context} (h : c.Kept c') (names : List String) :
    (c.bindAll names).Kept (c'.bindAll names) := by
  obtain ⟨hground, hdeferred, hbuiltins⟩ := eq_of_late_only (c.exists_bindAll names)
  obtain ⟨hground', hdeferred', hbuiltins'⟩ := eq_of_late_only (c'.exists_bindAll names)
  refine ⟨(hground.symm.trans h.toSameGround).trans hground', ?_, fun name hname => ?_,
    fun name hname => ?_⟩
  · rw [hdeferred', h.deferred_eq, hdeferred]
  · rw [hbuiltins', h.builtins_eq name hname, hbuiltins]
  · rw [mem_late_bindAll] at hname ⊢
    rw [hground.vars_eq]
    rcases hname with hname | hname
    · exact .inl (.inl hname)
    · exact (h.late_sub name hname).imp_left .inr

/-- What steps make of a context, they go on to make of it. -/
theorem lasting_kept (c : Context) : Lasting fun names c' => (c.bindAll names).Kept c' where
  remembers := fun h hremembers => h.trans hremembers.alike.kept
  enter := fun id h => h.trans (Context.kept_enter _ id)
  withAgent := fun agent h => h.trans (Context.kept_withAgent _ agent)
  bindAll := fun names h => Context.Kept.bindAll h names
  unbindAll := fun _ h => h.repeating

/-- What is composed keeps the context, however it ends. -/
theorem Composed.keeps {A : Allowance} {α : Type} {x : Compiling α} (h : Composed A [] x)
    (s : Session) : s.context.Kept (x s).2.context :=
  (lasting_kept s.context).preserves h s (.refl s.context)

/-! ## Isolation -/

section Isolation

variable {settings : RunSettings} {id : String} {st : Step} {c : Context} {s t : Session}

theorem Context.Kept.compileStep_eq_ok (hs : c.Kept s.context) (ht : c.Kept t.context)
    (hlate : ∀ name ∈ c.late, name = agentRoot) {out : CompiledStep}
    (h : (compileStep settings id st s).1 = .ok out) :
    (compileStep settings id st t).1 = .ok out := by
  rw [compileStep_eq_entered] at h ⊢
  obtain ⟨t', hentered, -⟩ := (composed_any_entered settings id st).simulates coupling_alike
    (s.update (·.enter id)) (t.update (·.enter id)) (hs.alike_enter ht hlate id) out _
    (Prod.ext h rfl)
  exact congrArg Prod.fst hentered

/-- A step compiles to the same whatever steps were compiled before it. -/
theorem Context.Kept.compileStep_eq_ok_iff (hs : c.Kept s.context) (ht : c.Kept t.context)
    (hlate : ∀ name ∈ c.late, name = agentRoot) {out : CompiledStep} :
    (compileStep settings id st s).1 = .ok out ↔ (compileStep settings id st t).1 = .ok out :=
  ⟨hs.compileStep_eq_ok ht hlate, ht.compileStep_eq_ok hs hlate⟩

/-- The steps of a workflow compile as each of them would compile alone. -/
theorem compileSteps_eq_ok_iff (hlate : ∀ name ∈ s.context.late, name = agentRoot)
    {steps : List Step} {compiled : List CompiledStep} :
    (compileSteps settings steps s).1 = .ok compiled ↔
      List.Forall₂ (fun st out => (compileStep settings st.id st s).1 = .ok out) steps
        compiled := by
  refine each_eq_ok_iff (I := fun t => s.context.Kept t.context) (fun st _ t ht => ?_)
    (fun st _ t ht out => ?_) (.refl _)
  · exact ht.trans ((composed_any_step settings st.id st).keeps t)
  · exact ht.compileStep_eq_ok_iff (.refl _) hlate

end Isolation

/-! ## The order of declaration -/

/-- The compiled steps of a workflow without findings can be put in order. -/
theorem exists_inOrder {settings : RunSettings} {w : Workflow} (hfindings : w.findings = [])
    {compiled : List CompiledStep} (hfrom : List.Forall₂
      (fun s c => CompiledFrom settings s.id s.needs s c) w.steps compiled) :
    ∃ out, inOrder compiled = .ok out ∧ out.Perm compiled := by
  have hbatch := Workflow.wellFormed_of_hasBatch hfindings .refl
  have hdeclared : w.steps.map (fun s => (s.id, s.needs)) =
      compiled.map fun c => (c.id, c.needs) := by
    rw [← List.forall₂_eq_eq_eq, List.forall₂_map_left_iff, List.forall₂_map_right_iff]
    exact hfrom.imp fun s c hc => Prod.ext hc.id_eq.symm hc.needs_eq.symm
  have hgraph : compiledGraph compiled = NeedsGraph.ofSteps w.steps := by
    rw [compiledGraph, NeedsGraph.ofSteps, hdeclared]
  have hneeds : (compiledGraph compiled).Needs = w.topBatch.Needs := by
    funext x y
    rw [hgraph]
    exact propext (needs_ofSteps_iff (b := w.topBatch))
  have hacyclic : (compiledGraph compiled).Acyclic := by
    rw [NeedsGraph.Acyclic, hneeds]
    exact hbatch.acyclic
  have hnodup : (compiled.map (·.id)).Nodup := by
    have hids := congrArg (List.map Prod.fst) hdeclared
    rw [List.map_map, List.map_map] at hids
    exact hids ▸ hbatch.ids_distinct
  obtain ⟨ids, horder⟩ :=
    NeedsGraph.exists_order_of_acyclic (closed_compiledGraph compiled) hacyclic
  have hok : inOrder compiled =
      .ok (ids.filterMap fun id => compiled.find? fun c => c.id = id) := by
    rw [inOrder_eq, horder]
  exact ⟨_, hok, inOrder_perm hnodup hok⟩

/-- What compiles compiles with its steps declared in another order, to the same steps. -/
theorem Compiler.exists_compile_of_perm {c : Compiler} {d : Disk} {w : Workflow}
    {inputs : Fields String} {steps : List Step} (hlate : c.session.context.late = [])
    (hperm : steps.Perm w.steps) {out : List CompiledStep}
    (h : (c.compile d w inputs).1 = .ok out) :
    ∃ out', (c.compile d { w with steps } inputs).1 = .ok out' ∧ out'.Perm out := by
  obtain ⟨hfindings, vars, hvars, compiled, hsteps, horder⟩ := Compiler.compile_eq_ok_iff.1 h
  have hlate' : ∀ name ∈ (c.session.inRun c.settings.workflowId vars).context.late,
      name = agentRoot := by
    have hrun : (c.session.inRun c.settings.workflowId vars).context.late =
        c.session.context.late := rfl
    rw [hrun, hlate]
    exact fun name hname => absurd hname List.not_mem_nil
  have hfrom : ∀ {steps : List Step} {compiled : List CompiledStep},
      List.Forall₂ (fun st out => (compileStep c.settings st.id st
        (c.session.inRun c.settings.workflowId vars)).1 = .ok out) steps compiled →
      List.Forall₂ (fun s c' => CompiledFrom c.settings s.id s.needs s c') steps compiled :=
    fun hall => hall.imp fun s c' hc => compiledFrom_of_yields (yields_of_fst_eq_ok hc)
  rw [compileSteps_eq_ok_iff hlate'] at hsteps
  -- each step compiles to what it compiled to before
  obtain ⟨compiled', hsteps', hcompiled⟩ := List.perm_comp_forall₂ hperm hsteps
  have hfindings' : { w with steps }.findings = [] :=
    (Workflow.findings_rearranged hperm).2 hfindings
  obtain ⟨out', horder', hout'⟩ := exists_inOrder (w := { w with steps }) hfindings' (hfrom hsteps')
  obtain ⟨out'', horder'', hout⟩ := exists_inOrder hfindings (hfrom hsteps)
  rw [horder, Except.ok.injEq] at horder''
  subst horder''
  refine ⟨out', Compiler.compile_eq_ok_iff.2
    ⟨hfindings', vars, hvars, compiled', (compileSteps_eq_ok_iff hlate').2 hsteps', horder'⟩, ?_⟩
  exact (hout'.trans hcompiled).trans hout.symm

/-- The order in which steps are declared does not matter: with it changed, a workflow compiles
exactly when it compiled before, and to the same steps. -/
theorem Compiler.compile_rearranged {c : Compiler} {d : Disk} {w : Workflow}
    {inputs : Fields String} {steps : List Step} (hlate : c.session.context.late = [])
    (hperm : steps.Perm w.steps) :
    ((∃ out, (c.compile d w inputs).1 = .ok out) ↔
      ∃ out', (c.compile d { w with steps } inputs).1 = .ok out') ∧
    ∀ out out', (c.compile d w inputs).1 = .ok out →
      (c.compile d { w with steps } inputs).1 = .ok out' → out'.Perm out := by
  refine ⟨⟨?_, ?_⟩, fun out out' hout hout' => ?_⟩
  · rintro ⟨out, hout⟩
    obtain ⟨out', hout', -⟩ := Compiler.exists_compile_of_perm hlate hperm hout
    exact ⟨out', hout'⟩
  · rintro ⟨out', hout'⟩
    obtain ⟨out, hout, -⟩ :=
      Compiler.exists_compile_of_perm (w := { w with steps }) hlate hperm.symm hout'
    exact ⟨out, hout⟩
  · obtain ⟨out'', hout'', hsame⟩ := Compiler.exists_compile_of_perm hlate hperm hout
    rw [hout', Except.ok.injEq] at hout''
    subst hout''
    exact hsame

/-- A workflow in which one step names its agent, and the other one does not. -/
def reviewWorkflow : Workflow :=
  { name := "review"
    steps :=
      [{ id := "write", executor := some "agent", agent := some "ada",
         prompt := some "Write as \x7b\x7bagent\x7d\x7d" },
        { id := "read", executor := some "agent",
          prompt := some "Read as \x7b\x7bagent\x7d\x7d" }] }

/-- A compiler with no agent for steps that name none. -/
def reviewCompiler : Compiler := { settings := { workflowId := "run" } }

/-- The agent of the one step is not taken for that of the other one, whichever comes first. -/
theorem reviewWorkflow_rearranged :
    ∃ out out', (reviewCompiler.compile {} reviewWorkflow []).1 = .ok out ∧
      (reviewCompiler.compile {}
        { reviewWorkflow with steps := reviewWorkflow.steps.reverse } []).1 = .ok out' ∧
      out'.Perm out := by
  have hcompiles : (reviewCompiler.compile {} reviewWorkflow []).1.toOption.isSome = true := by
    decide +kernel
  obtain ⟨out, hok⟩ := exists_eq_ok_of_isSome hcompiles
  obtain ⟨hiff, hperm⟩ := Compiler.compile_rearranged (c := reviewCompiler) (d := {})
    (w := reviewWorkflow) rfl (List.reverse_perm reviewWorkflow.steps)
  obtain ⟨out', hok'⟩ := hiff.1 ⟨out, hok⟩
  exact ⟨out, out', hok, hok', hperm out out' hok hok'⟩

end WorkflowCompiler
