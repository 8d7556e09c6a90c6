import WorkflowCompiler.Proofs.Compilation.Coupled
import WorkflowCompiler.Proofs.Compilation.Runs

/-!
# Deferral is conservative

A compiler that defers leaves references as they stand for which one that does not defer fails.
Where that one does not fail, both compile to the same (`Compiler.compile_deferring`): the two
run in contexts that differ in deferral, and in the reference to the agent, which the deferring
one leaves for later where the other one has nothing for it (`Context.DefersMore`).
-/

namespace WorkflowCompiler

open Attempt

namespace Context

/-- The first context does not defer, and the second one is like it, but defers. It may leave the
agent for later, if the first one has none. -/
structure DefersMore (c c' : Context) : Prop extends SameGround c c' where
  /-- the same builtins -/
  builtins_eq : ∀ name, c'.builtins.get? name = c.builtins.get? name
  /-- the first one does not defer -/
  strict : c.deferred = false
  /-- the second one does -/
  deferring : c'.deferred = true
  /-- what is bound late in the first one is so in the second one -/
  late_of_late : ∀ name ∈ c.late, name ∈ c'.late
  /-- only an agent that is missing in the first one is bound late in the second one alone -/
  agent_of_late : ∀ name ∈ c'.late, name ∉ c.late →
    name = agentRoot ∧ c.binding? agentRoot = none

namespace DefersMore

variable {c c' : Context}

theorem binding_eq (h : c.DefersMore c') (root : String) : c'.binding? root = c.binding? root := by
  rw [binding?, binding?, h.vars_eq, h.builtins_eq]

/-- What the first context resolves at all, it resolves without leaving anything for later that
the second one would not leave. -/
theorem resolveIn_eq (h : c.DefersMore c') {path : String} {r : Resolution}
    (hr : c.resolveIn path = .ok r) : c'.resolveIn path = .ok r := by
  rw [resolveIn] at hr ⊢
  cases hpath : Referent.ofPath path with
  | output step fields =>
    simp only [hpath, outputsIn, h.known_eq] at hr ⊢
    rcases hknown : c.known? step with _ | outputs
    · rw [hknown, h.strict] at hr
      cases hr
    · rw [hknown] at hr
      exact hr
  | binding root fields =>
    simp only [hpath, resolveBinding, h.binding_eq, h.clock_eq] at hr ⊢
    by_cases hlate : root ∈ c.late
    · rw [if_pos hlate] at hr
      rw [if_pos (h.late_of_late root hlate)]
      exact hr
    · rw [if_neg hlate] at hr
      by_cases hlate' : root ∈ c'.late
      · -- the agent, which the first context cannot resolve
        obtain ⟨rfl, hnone⟩ := h.agent_of_late root hlate' hlate
        have hclock : clockText? c.clock agentRoot = none := rfl
        rw [hnone, hclock] at hr
        cases fields <;> cases hr
      · rw [if_neg hlate']
        exact hr

theorem refines (h : c.DefersMore c') : c.Refines c' where
  resolveIn_eq := h.resolveIn_eq
  deferred := fun _ => h.deferring

theorem of_alike {d d' : Context} (h : c.DefersMore c') (hd : c.Alike d) (hd' : c'.Alike d') :
    d.DefersMore d' where
  toSameGround := (hd.toSameGround.symm.trans h.toSameGround).trans hd'.toSameGround
  builtins_eq := fun name => by rw [hd'.builtins_eq, h.builtins_eq, hd.builtins_eq]
  strict := hd.deferred_eq.trans h.strict
  deferring := hd'.deferred_eq.trans h.deferring
  late_of_late := fun name hname =>
    (hd'.late_iff name).2 (h.late_of_late name ((hd.late_iff name).1 hname))
  agent_of_late := fun name hname hnot => by
    rw [hd'.late_iff] at hname
    rw [hd.late_iff] at hnot
    rw [hd.binding_eq]
    exact h.agent_of_late name hname hnot

theorem enter (h : c.DefersMore c') (id : String) : (c.enter id).DefersMore (c'.enter id) where
  toSameGround :=
    ((c.sameGround_enter id).symm.trans h.toSameGround).trans (c'.sameGround_enter id)
  builtins_eq := fun name => by rw [builtins_enter, builtins_enter, h.builtins_eq]
  strict := (c.deferred_enter id).trans h.strict
  deferring := (c'.deferred_enter id).trans h.deferring
  late_of_late := fun name hname => by
    rw [mem_late_enter, h.strict] at hname
    rw [mem_late_enter]
    by_cases hagent : name = agentRoot
    · rw [if_pos hagent] at hname
      exact absurd hname.1 Bool.false_ne_true
    · rw [if_neg hagent] at hname ⊢
      exact h.late_of_late name hname
  agent_of_late := fun name hname hnot => by
    rw [mem_late_enter] at hname hnot
    by_cases hagent : name = agentRoot
    · rw [if_pos hagent, h.vars_eq, Fields.has, Option.isSome_eq_false_iff,
        Option.isNone_iff_eq_none] at hname
      rw [binding?, (c.sameGround_enter id).vars_eq, hname.2, builtins_enter, if_pos rfl]
      exact ⟨hagent, rfl⟩
    · rw [if_neg hagent] at hname hnot
      exact absurd (h.agent_of_late name hname hnot).1 hagent

theorem withAgent (h : c.DefersMore c') (agent : String) :
    (c.withAgent agent).DefersMore (c'.withAgent agent) where
  vars_eq := h.vars_eq
  known_eq := h.known_eq
  lookup_eq := h.lookup_eq
  clock_eq := h.clock_eq
  builtins_eq := fun name => by rw [builtins_withAgent, builtins_withAgent, h.builtins_eq]
  strict := h.strict
  deferring := h.deferring
  late_of_late := fun name hname => by
    rw [mem_late_withAgent] at hname ⊢
    exact ⟨h.late_of_late name hname.1, hname.2⟩
  agent_of_late := fun name hname hnot => by
    rw [mem_late_withAgent] at hname hnot
    exact absurd (h.agent_of_late name hname.1 fun hlate => hnot ⟨hlate, hname.2⟩).1 hname.2

/-- Other roots may be bound late, as long as the agent alone makes a difference. -/
theorem of_late (h : c.DefersMore c') {d d' : Context} (hd : ∃ late, d = { c with late })
    (hd' : ∃ late, d' = { c' with late })
    (hlate : ∀ name, name ∈ d.late ∨ name ∉ d'.late ∨ name ∈ c'.late ∧ name ∉ c.late)
    (hlate' : ∀ name ∈ d.late, name ∈ d'.late) : d.DefersMore d' := by
  obtain ⟨hground, hdeferred, hbuiltins⟩ := eq_of_late_only hd
  obtain ⟨hground', hdeferred', hbuiltins'⟩ := eq_of_late_only hd'
  refine ⟨(hground.symm.trans h.toSameGround).trans hground', fun name => ?_,
    hdeferred.trans h.strict, hdeferred'.trans h.deferring, hlate', fun name hname hnot => ?_⟩
  · rw [hbuiltins', hbuiltins, h.builtins_eq]
  · rcases hlate name with hin | hout | ⟨hin, hout⟩
    · exact absurd hin hnot
    · exact absurd hname hout
    · rw [binding?, hground.vars_eq, hbuiltins]
      exact h.agent_of_late name hin hout

end DefersMore

end Context

theorem coupling_defersMore : Coupling Context.DefersMore where
  refines := Context.DefersMore.refines
  remembers := fun h hd hd' => h.of_alike hd.alike hd'.alike
  enter := fun id h => h.enter id
  withAgent := fun agent h => h.withAgent agent
  bindAll := fun {c c'} names h => by
    refine h.of_late (c.exists_bindAll names) (c'.exists_bindAll names) (fun name => ?_)
      fun name hname => ?_
    · rw [Context.mem_late_bindAll, Context.mem_late_bindAll]
      by_cases hnames : name ∈ names
      · exact .inl (.inl hnames)
      · by_cases hlate : name ∈ c.late
        · exact .inl (.inr hlate)
        · by_cases hlate' : name ∈ c'.late
          · exact .inr (.inr ⟨hlate', hlate⟩)
          · exact .inr (.inl (not_or.2 ⟨hnames, hlate'⟩))
    · rw [Context.mem_late_bindAll] at hname ⊢
      exact hname.imp_right (h.late_of_late name)
  unbindAll := fun {c c'} names h => by
    refine h.of_late (c.exists_unbindAll names) (c'.exists_unbindAll names) (fun name => ?_)
      fun name hname => ?_
    · rw [Context.mem_late_unbindAll, Context.mem_late_unbindAll]
      by_cases hlate' : name ∈ c'.late ∧ name ∉ names
      · by_cases hlate : name ∈ c.late
        · exact .inl ⟨hlate, hlate'.2⟩
        · exact .inr (.inr ⟨hlate'.1, hlate⟩)
      · exact .inr (.inl hlate')
    · rw [Context.mem_late_unbindAll] at hname ⊢
      exact ⟨h.late_of_late name hname.1, hname.2⟩

/-! ## Compilers -/

/-- The steps of a workflow are composed, whatever they are like. -/
theorem composed_compileSteps (settings : RunSettings) (steps : List Step) :
    Composed .any [] (compileSteps settings steps) :=
  .each fun s _ => composed_any_step settings s.id s

/-- The compiler with or without deferral. -/
def Compiler.deferring (c : Compiler) (deferred : Bool) : Compiler :=
  { c with session := c.session.update fun context => { context with deferred } }

/-- What compiles without deferral compiles to the same with deferral. -/
theorem Compiler.compile_deferring {c : Compiler} {d : Disk} {w : Workflow}
    {inputs : Fields String} {out : List CompiledStep}
    (h : ((c.deferring false).compile d w inputs).1 = .ok out) :
    ((c.deferring true).compile d w inputs).1 = .ok out := by
  obtain ⟨hfindings, vars, hvars, compiled, hsteps, horder⟩ := Compiler.compile_eq_ok_iff.1 h
  refine Compiler.compile_eq_ok_iff.2 ⟨hfindings, vars, hvars, compiled, ?_, horder⟩
  -- the two runs start with the same roots bound late
  have hstart : Context.DefersMore
      ((c.deferring false).session.inRun c.settings.workflowId vars).context
      ((c.deferring true).session.inRun c.settings.workflowId vars).context :=
    ⟨⟨rfl, fun _ => rfl, rfl, rfl⟩, fun _ => rfl, rfl, rfl, fun _ hname => hname,
      fun _ hname hnot => absurd hname hnot⟩
  obtain ⟨s, hdeferring, -⟩ := (composed_compileSteps c.settings w.steps).simulates
    coupling_defersMore _ _ hstart compiled _ (Prod.ext hsteps rfl)
  exact congrArg Prod.fst hdeferring

/-- A workflow that refers to the outputs of another run's step and to its own agent. -/
def summaryWorkflow : Workflow :=
  { name := "summary"
    steps :=
      [{ id := "sum", executor := some "agent", agent := some "ada",
         prompt := some "Sum up \x7b\x7bbuild.outputs.log\x7d\x7d as \x7b\x7bagent\x7d\x7d" }] }

/-- A compiler that finds the step referred to, and that it is done. -/
def summaryCompiler : Compiler where
  settings := { workflowId := "run" }
  session :=
    { context := { lookup := some fun step =>
        if step = "build" then some ⟨.done, [("log", .str "no errors")]⟩ else none } }

/-- It compiles without deferral, and so with deferral to the same. -/
theorem summaryWorkflow_deferring :
    ∃ out, ((summaryCompiler.deferring false).compile {} summaryWorkflow []).1 = .ok out ∧
      ((summaryCompiler.deferring true).compile {} summaryWorkflow []).1 = .ok out := by
  have hcompiles : ((summaryCompiler.deferring false).compile {} summaryWorkflow
      []).1.toOption.isSome = true := by
    decide +kernel
  obtain ⟨out, hok⟩ := exists_eq_ok_of_isSome hcompiles
  exact ⟨out, hok, Compiler.compile_deferring hok⟩

end WorkflowCompiler
