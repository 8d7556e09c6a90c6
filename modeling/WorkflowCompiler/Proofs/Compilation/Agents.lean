import WorkflowCompiler.Proofs.Compilation.Outcomes
import WorkflowCompiler.Proofs.Context.Mentions

/-!
# The agent of a step

A step that names its agent has the name compiled twice: first when it is entered, and the text that
comes out is what `agent` stands for from then on, and then for its configuration, where `agent`
stands for that text. Both times the same comes out if the agent of the configuration is settled,
that is if no placeholder of it is left that resolves (`Context.BindsAgent.eq_of_settledIn`). Then
the agent of the configuration is what a reference to `agent` comes to in the prompt
(`Compiler.agentFrom_of_compile`). Without deferral no other agent compiles.
-/

namespace WorkflowCompiler

open Attempt

/-! ## One name, compiled twice -/

namespace Context

variable {c c' : Context} {bound raw out : String}

/-- Binding the agent changes what is rooted in it, and nothing else. -/
theorem agreesBut_withAgent (c : Context) (agent : String) :
    c.AgreesBut [agentRoot] (c.withAgent agent) where
  resolveIn_eq := by
    intro path hpath
    rw [resolveIn, resolveIn]
    cases hreferent : Referent.ofPath path with
    | output step fields => rfl
    | binding root fields =>
      have hne : root ≠ agentRoot := by
        rintro rfl
        exact hpath (rootedIn_singleton.2 ⟨fields, hreferent⟩)
      have hlate : root ∈ (c.withAgent agent).late ↔ root ∈ c.late := by
        rw [mem_late_withAgent, and_iff_left hne]
      have hbinding : (c.withAgent agent).binding? root = c.binding? root := by
        rw [binding?, builtins_withAgent, if_neg hne]
        rfl
      have hclock : (c.withAgent agent).clock = c.clock := rfl
      simp only [resolveBinding, hlate, hbinding, hclock]
  deferred_eq := rfl

/-- Where no agent is bound, a reference to it has to wait or is undefined. -/
theorem recurs_of_unbound (hvar : c.vars.get? agentRoot = none)
    (hbuiltin : c.builtins.get? agentRoot = none) : c.Recurs agentRoot := by
  intro path value hpath hvalue
  obtain ⟨fields, hreferent⟩ := rootedIn_singleton.1 hpath
  have hbinding : c.binding? agentRoot = none := by
    rw [binding?, hvar, hbuiltin]
    rfl
  have hclock : clockText? c.clock agentRoot = none := rfl
  simp only [resolveIn, hreferent, resolveBinding, hbinding, hclock] at hvalue
  split at hvalue
  · cases hvalue
  · cases fields <;> cases hvalue

/-- Where the agent is bound to a text that mentions the agent, it is mentioned ever after. -/
theorem recurs_of_bound (hvar : c.vars.get? agentRoot = none)
    (hbuiltin : c.builtins.get? agentRoot = some (.str bound))
    (hbound : Mentions agentRoot bound.toList) : c.Recurs agentRoot := by
  intro path value hpath hvalue
  obtain ⟨fields, hreferent⟩ := rootedIn_singleton.1 hpath
  have hbinding : c.binding? agentRoot = some (.str bound) := by
    rw [binding?, hvar, hbuiltin]
    rfl
  simp only [resolveIn, hreferent, resolveBinding, hbinding] at hvalue
  split at hvalue
  · cases hvalue
  · cases fields with
    | nil =>
      cases hvalue
      exact hbound
    | cons field rest => cases hvalue

theorem agentSlot_eq : "{{agent}}" = String.ofList (Piece.slot "agent".toList).chars := by
  decide +kernel

theorem agentSlot_braceFree : "agent".toList.all isBraceFree = true := by decide +kernel

theorem agentSlot_path : (Piece.slot "agent".toList).path? = some agentRoot := by decide +kernel

/-- A context and the one in which a step's agent is bound, to a text. -/
structure BindsAgent (c c' : Context) (bound : String) : Prop where
  /-- nothing else is different -/
  agrees : c.AgreesBut [agentRoot] c'
  /-- at first no agent is bound -/
  recurs : c.Recurs agentRoot
  /-- no variable stands before the builtin -/
  var : c'.vars.get? agentRoot = none
  /-- the text is what the builtin is bound to -/
  builtin : c'.builtins.get? agentRoot = some (.str bound)
  /-- the agent does not have to wait -/
  not_late : agentRoot ∉ c'.late

namespace BindsAgent

theorem denotes (h : c.BindsAgent c' bound) :
    c'.resolveIn agentRoot = .ok (.value (.str bound)) := by
  have hpath : Referent.ofPath agentRoot = .binding agentRoot [] := by decide +kernel
  exact denotes_of_builtin hpath h.not_late h.builtin h.var

/-- A name that comes to one text where no agent is bound, and to a settled one where the first text
is bound, comes to the same both times. -/
theorem eq_of_settledIn (h : c.BindsAgent c' bound) (hbound : c.substituteIn raw = .ok bound)
    (hout : c'.substituteIn raw = .ok out) (hsettled : c'.SettledIn out.toList) : out = bound := by
  rw [substituteIn_eq_ok_iff] at hbound hout
  rcases h.agrees.roundsIn_eq_or_mentions hbound hout with
    hsame | ⟨rounds, text, hmentions, hfirst, hsecond⟩
  · exact String.toList_inj.1 hsame
  · -- then the bound text mentions the agent, and so does what comes of it
    have hrecurs : c'.Recurs agentRoot :=
      recurs_of_bound h.var h.builtin (h.recurs.mentions_of_roundsIn hfirst hmentions)
    exact absurd (hrecurs.mentions_of_roundsIn hsecond hmentions)
      (hsettled.not_mentions h.not_late)

/-- A reference takes one pass to come to the text that is bound. -/
theorem substituteIn_reference_iff (h : c.BindsAgent c' bound) :
    c'.substituteIn "{{agent}}" = .ok out ↔
      c'.roundsIn (maxRounds - 1) bound.toList = .ok out.toList := by
  rw [agentSlot_eq, substituteIn_slot_eq_ok_iff agentSlot_braceFree agentSlot_path h.denotes,
    Json.text]

/-- A reference comes to the text that is bound, if that is settled. -/
theorem substituteIn_reference (h : c.BindsAgent c' bound) (hsettled : c'.SettledIn bound.toList)
    {before after : String} (hbefore : before.toList.all isBraceFree = true)
    (hafter : after.toList.all isBraceFree = true) :
    c'.substituteIn (before ++ "{{agent}}" ++ after) = .ok (before ++ bound ++ after) := by
  rw [agentSlot_eq]
  exact substituteIn_between agentSlot_braceFree agentSlot_path h.denotes hsettled hbefore hafter

end BindsAgent

end Context

/-! ## Agents and prompts of configurations -/

/-- The agent of a configuration that starts an agent or gives a prompt to one. -/
def Config.agent? {σ : Type} : Config σ → Option String
  | .spawn config => some config.agent
  | .agent config => config.agent
  | _ => none

/-- The prompt of a configuration that starts an agent or gives a prompt to one. -/
def Config.prompt? {σ : Type} : Config σ → Option String
  | .spawn config => config.prompt
  | .agent config => some config.prompt
  | _ => none

section Fields

variable {settings : RunSettings} {id field value raw out : String} {d : Declaration}
  {c : Context} {s s' : Session}

theorem substituteIn_of_text (halike : c.Alike s.context)
    (h : Compiling.text id field value s = (.ok out, s')) :
    c.substituteIn value = .ok out := by
  obtain ⟨_, hreads, -⟩ := reads_text id field value s
  have hresult := congrArg Prod.fst (hreads.symm.trans h)
  rw [← halike.substituteIn_eq]
  exact eq_ok_of_mapError_eq_ok hresult

theorem substituteIn_of_optional {result : Option String} (halike : c.Alike s.context)
    (h : Compiling.optional id field (some value) s = (.ok result, s')) :
    ∃ out, result = some out ∧ c.substituteIn value = .ok out := by
  obtain ⟨out, t, htext, h⟩ := bind_eq_ok h
  cases h
  exact ⟨out, rfl, substituteIn_of_text halike htext⟩

theorem substituteIn_of_required (halike : c.Alike s.context)
    (h : Compiling.required id field (some value) s = (.ok out, s')) :
    c.substituteIn value = .ok out := by
  rw [Compiling.required] at h
  rcases hfilter : (some value).filter fun v => !Text.allBlank v with _ | v
  · rw [hfilter] at h
    cases h
  · rw [hfilter] at h
    rw [Option.filter_eq_some_iff, Option.some.injEq] at hfilter
    rw [hfilter.1]
    exact substituteIn_of_text halike h

/-- Where the agent and the prompt of a step are compiled, its builtins are its own. -/
theorem substituteIn_of_spawnConfig {config : SpawnConfig} (halike : c.Alike s.context)
    (hraw : d.agentName = some raw) (h : spawnConfig id d s = (.ok config, s')) :
    c.substituteIn raw = .ok config.agent ∧
      ∀ prompt, d.promptText = some prompt →
        ∃ out, config.prompt = some out ∧ c.substituteIn prompt = .ok out := by
  have hfields : ∀ {α : Type} {x : Compiling α} {a : α} {t t' : Session},
      c.Alike t.context → (∀ late, Composed .any late x) → x t = (.ok a, t') →
        c.Alike t'.context :=
    fun halike hx h => halike.trans (alike_of_fields hx h)
  obtain ⟨agent, s₁, hagent, h⟩ := bind_eq_ok h
  obtain ⟨args, s₂, hargs, h⟩ := bind_eq_ok h
  obtain ⟨adapter, s₃, hadapter, h⟩ := bind_eq_ok h
  obtain ⟨workdir, s₄, hworkdir, h⟩ := bind_eq_ok h
  obtain ⟨env, s₅, henv, h⟩ := bind_eq_ok h
  obtain ⟨prompt, s₆, hprompt, h⟩ := bind_eq_ok h
  cases h
  constructor
  · rw [hraw] at hagent
    exact substituteIn_of_required halike hagent
  · intro text htext
    rw [htext] at hprompt
    refine substituteIn_of_optional ?_ hprompt
    have h₁ := hfields halike (fun _ => .required fun _ _ => trivial) hagent
    have h₂ := hfields h₁ (fun _ => .numbered fun _ _ => trivial) hargs
    have h₃ := hfields h₂ (fun _ => .optional fun _ _ => trivial) hadapter
    have h₄ := hfields h₃ (fun _ => .optional fun _ _ => trivial) hworkdir
    exact hfields h₄ (fun _ => .texts fun _ _ => trivial) henv

theorem substituteIn_of_agentConfig {config : AgentConfig} (halike : c.Alike s.context)
    (hraw : d.agentName = some raw) (h : agentConfig settings id d s = (.ok config, s')) :
    (∃ agent, config.agent = some agent ∧ c.substituteIn raw = .ok agent) ∧
      ∀ prompt, d.promptText = some prompt → c.substituteIn prompt = .ok config.prompt := by
  rw [agentConfig_eq, agentOf, hraw] at h
  obtain ⟨named, s₁, hnamed, h⟩ := bind_eq_ok h
  obtain ⟨mode, s₂, hmode, h⟩ := bind_eq_ok h
  obtain ⟨prompt, s₃, hprompt, h⟩ := bind_eq_ok h
  cases h
  obtain ⟨agent, t, hagent, hdone⟩ := bind_eq_ok hnamed
  cases hdone
  refine ⟨⟨agent, rfl, substituteIn_of_text halike hagent⟩, fun text htext => ?_⟩
  rw [htext] at hprompt
  have h₁ := halike.trans (alike_of_fields (fun _ => .text trivial) hagent)
  have h₂ := h₁.trans (alike_of_fields
    (fun _ => .elim (.pure _) fun _ _ => .text trivial) hmode)
  exact substituteIn_of_text h₂ hprompt

theorem substituteIn_of_compileConfig {st : Step} {cl : Classification}
    {config : Config CompiledStep} (halike : c.Alike s.context)
    (hraw : st.agentName = some raw) (h : compileConfig settings id st cl s = (.ok config, s'))
    (hexecutor : config.executor = .spawn ∨ config.executor = .agent) :
    ∃ agent, config.agent? = some agent ∧ c.substituteIn raw = .ok agent ∧
      ∀ prompt, st.promptText = some prompt →
        ∃ out, config.prompt? = some out ∧ c.substituteIn prompt = .ok out := by
  rw [executor_of_yields ⟨s, s', h⟩] at hexecutor
  rw [compileConfig] at h
  rcases hexecutor with hspawn | hagent
  · rw [hspawn] at h
    obtain ⟨fields, t, hfields, h⟩ := bind_eq_ok h
    cases h
    obtain ⟨hagent, hprompt⟩ := substituteIn_of_spawnConfig halike hraw hfields
    exact ⟨fields.agent, rfl, hagent, hprompt⟩
  · rw [hagent] at h
    obtain ⟨fields, t, hfields, h⟩ := bind_eq_ok h
    cases h
    obtain ⟨⟨agent, hagent, hout⟩, hprompt⟩ := substituteIn_of_agentConfig halike hraw hfields
    exact ⟨agent, hagent, hout, fun prompt htext => ⟨fields.prompt, rfl, hprompt prompt htext⟩⟩

end Fields

/-! ## Where a step is compiled -/

/-- The configuration of a step that names its agent, seen from the session in which it is compiled.
There `agent` stands for one text, and the name comes to the agent of the configuration. -/
structure AgentFrom (d : Declaration) (own : Session) (config : Config CompiledStep)
    (raw bound agent : String) : Prop where
  /-- what `agent` stands for -/
  denotes : own.context.resolveIn agentRoot = .ok (.value (.str bound))
  /-- the configuration has the agent -/
  agent_eq : config.agent? = some agent
  /-- it is what the name comes to -/
  compiled : own.context.substituteIn raw = .ok agent
  /-- a reference comes to it exactly if what `agent` stands for does so in one pass less -/
  reference_iff : own.context.substituteIn "{{agent}}" = .ok agent ↔
    own.context.roundsIn (maxRounds - 1) bound.toList = .ok agent.toList
  /-- if it is settled, `agent` stands for it, and a reference comes to it, in a prompt as well -/
  settled : own.context.SettledIn agent.toList →
    bound = agent ∧ own.context.substituteIn "{{agent}}" = .ok agent ∧
      ∀ before after : String, before.toList.all isBraceFree = true →
        after.toList.all isBraceFree = true →
          d.promptText = some (before ++ "{{agent}}" ++ after) →
            config.prompt? = some (before ++ agent ++ after)
  /-- without deferral it is settled -/
  strict : own.context.deferred = false → own.context.SettledIn agent.toList

/-- When a step that names its agent is started, the agent is bound to what the name comes to when
the step is entered. -/
theorem bindsAgent_of_startStep {settings : RunSettings} {id raw : String} {d : Declaration}
    {s own : Session} (h : startStep settings id d s = (.ok (), own))
    (hraw : d.agentName = some raw) (hvar : s.context.vars.get? agentRoot = none) :
    ∃ bound, (s.context.enter id).substituteIn raw = .ok bound ∧
      (s.context.enter id).BindsAgent own.context bound := by
  obtain ⟨named?, named, hnamed, hentered, hcontext⟩ := exists_named_of_startStep h
  rw [agentOf, hraw] at hnamed
  obtain ⟨bound, t, hbound, hdone⟩ := bind_eq_ok (Prod.ext hnamed rfl)
  cases hdone
  rw [Option.elim_some] at hcontext
  have hground := (s.context.sameGround_enter id).trans hentered.toSameGround
  have hwith := named.agreesBut_withAgent bound
  refine ⟨bound, substituteIn_of_text (Context.Remembers.refl _).alike hbound, ?_⟩
  rw [hcontext]
  refine ⟨⟨fun path hpath => ?_, ?_⟩, Context.recurs_of_unbound ?_ ?_, ?_, ?_, fun hmem => ?_⟩
  · exact (hwith.resolveIn_eq path hpath).trans (hentered.resolveIn_eq path)
  · exact hwith.deferred_eq.trans hentered.deferred_eq
  · rw [(s.context.sameGround_enter id).vars_eq]
    exact hvar
  · rw [Context.builtins_enter, if_pos rfl]
  · rw [(named.sameGround_withAgent bound).vars_eq, hground.vars_eq]
    exact hvar
  · rw [Context.builtins_withAgent, if_pos rfl]
  · exact (Context.mem_late_withAgent.1 hmem).2 rfl

theorem agentFrom_of_compileStep {settings : RunSettings} {id raw : String} {st : Step}
    {c : CompiledStep} {s s' : Session} (h : compileStep settings id st s = (.ok c, s'))
    (hraw : st.agentName = some raw) (hvar : s.context.vars.get? agentRoot = none)
    (hexecutor : c.config.executor = .spawn ∨ c.config.executor = .agent) :
    ∃ own bound agent, StartedIn settings id st.toDeclaration s own ∧
      own.context.deferred = s.context.deferred ∧
      AgentFrom st.toDeclaration own c.config raw bound agent := by
  obtain ⟨own, cl, t, t', hown, -, halike, hconfig⟩ := exists_started_of_compileStep h
  obtain ⟨agent, hagent, hcompiled, hprompt⟩ :=
    substituteIn_of_compileConfig halike hraw hconfig hexecutor
  obtain ⟨bound, hbound, hbinds⟩ := bindsAgent_of_startStep hown hraw hvar
  have hsame : own.context.SettledIn agent.toList → bound = agent :=
    fun hsettled => (hbinds.eq_of_settledIn hbound hcompiled hsettled).symm
  refine ⟨own, bound, agent, startedIn_of_startStep hown, ?_, hbinds.denotes, hagent, hcompiled,
    hbinds.substituteIn_reference_iff, fun hsettled => ?_, fun hstrict => ?_⟩
  · rw [hbinds.agrees.deferred_eq, Context.deferred_enter]
  · obtain rfl := hsame hsettled
    refine ⟨rfl, ?_, fun before after hbefore hafter htext => ?_⟩
    · have hreference : own.context.substituteIn ("" ++ "{{agent}}" ++ "") =
          .ok ("" ++ bound ++ "") :=
        hbinds.substituteIn_reference hsettled List.all_nil List.all_nil
      rwa [String.empty_append, String.append_empty, String.empty_append, String.append_empty]
        at hreference
    · obtain ⟨out, hout, hin⟩ := hprompt _ htext
      rw [hbinds.substituteIn_reference hsettled hbefore hafter, Except.ok.injEq] at hin
      rw [hout, hin]
  · exact Context.Strict.settledIn_of_substituteIn ⟨hstrict, fun _ hname => hname⟩ hcompiled

/-- Every step of the tree that starts an agent or gives a prompt to one, and names the agent, is
compiled where `agent` stands for the name as it comes out when the step is entered. If the agent of
its configuration is settled, and always without deferral, it is that text, and what a reference to
`agent` comes to in the prompt. -/
theorem Compiler.agentFrom_of_compile {c : Compiler} {d : Disk} {w : Workflow}
    {inputs : Fields String} {out : List CompiledStep} (h : (c.compile d w inputs).1 = .ok out)
    {cs : CompiledStep} (hcs : InTree out cs)
    (hexecutor : cs.config.executor = .spawn ∨ cs.config.executor = .agent) :
    ∃ vars, boundVariables d w inputs c.session.context.vars = .ok vars ∧
      ∃ b, w.ReachedBatch b ∧ ∃ s ∈ b.steps,
        CompiledFrom c.settings (b.fullId s) (b.compiledNeeds s) s cs ∧
        ∀ raw, s.agentName = some raw → vars.get? agentRoot = none →
          ∃ before own bound agent,
            (c.session.inRun c.settings.workflowId vars).context.Kept before.context ∧
            StartedIn c.settings (b.fullId s) s.toDeclaration before own ∧
            own.context.deferred = c.session.context.deferred ∧
            AgentFrom s.toDeclaration own cs.config raw bound agent := by
  obtain ⟨-, vars, hvars, compiled, hsteps, horder⟩ := Compiler.compile_eq_ok_iff.1 h
  obtain ⟨b, hreached, s, hs, hfrom, before, after, c', hkept, -, hcompiled, hsame⟩ :=
    exists_compileStep_before hsteps horder hcs
  refine ⟨vars, hvars, b, hreached, s, hs, hfrom, fun raw hraw hvar => ?_⟩
  rw [← hsame] at hexecutor ⊢
  have hunbound : before.context.vars.get? agentRoot = none := by
    rw [hkept.vars_eq]
    exact hvar
  obtain ⟨own, bound, agent, hstarted, hdeferred, hagent⟩ :=
    agentFrom_of_compileStep hcompiled hraw hunbound hexecutor
  exact ⟨before, own, bound, agent, hkept, hstarted, hdeferred.trans hkept.deferred_eq, hagent⟩

/-- A workflow with one step, which starts an agent. -/
def echoWorkflow (agent prompt : String) : Workflow :=
  { name := "echo"
    steps :=
      [{ id := "start", executor := some "spawn", agent := some agent, prompt := some prompt }] }

/-- A compiler that defers what is not known. -/
def echoCompiler : Compiler := { settings := { workflowId := "run" } }

section Echo

variable {agent prompt : String}

theorem eq_topBatch_of_reached_echo {b : Batch} (h : (echoWorkflow agent prompt).ReachedBatch b) :
    b = (echoWorkflow agent prompt).topBatch := by
  refine h.eq_topBatch fun s hs o => ?_
  rw [List.mem_singleton.1 hs]
  cases o <;> rfl

theorem boundVariables_echo : boundVariables {} (echoWorkflow agent prompt) [] [] = .ok [] := rfl

end Echo

/-- An agent that is put together with the id of the step is the one that the prompt speaks of. -/
theorem echoWorkflow_agentFrom :
    ∃ out cs, (echoCompiler.compile {} (echoWorkflow "{{step_id}}-coder" "You are {{agent}}.")
        []).1 = .ok out ∧ InTree out cs ∧ cs.config.agent? = some "start-coder" ∧
      cs.config.prompt? = some "You are start-coder." := by
  have hcompiles : (echoCompiler.compile {} (echoWorkflow "{{step_id}}-coder" "You are {{agent}}.")
      []).1.toOption.map (·.map fun cs => (cs.config.executor, cs.config.agent?)) =
        some [(.spawn, some "start-coder")] := by
    decide +kernel
  obtain ⟨out, hout, hconfigs⟩ := Option.map_eq_some_iff.1 hcompiles
  obtain ⟨cs, hcs, hconfig⟩ :=
    List.mem_map.1 (hconfigs ▸ List.mem_singleton_self (Executor.spawn, some "start-coder"))
  obtain ⟨hspawn, hagent⟩ := Prod.mk.inj hconfig
  have hok := eq_ok_of_toOption_eq_some hout
  have htree : InTree out cs := ⟨cs, hcs, .refl⟩
  obtain ⟨vars, hvars, b, hreached, s, hs, -, hfrom⟩ :=
    Compiler.agentFrom_of_compile hok htree (.inl hspawn)
  cases hvars.symm.trans boundVariables_echo
  rw [eq_topBatch_of_reached_echo hreached] at hs
  obtain rfl := List.mem_singleton.1 hs
  obtain ⟨before, own, bound, agent, -, -, -, hnamed⟩ := hfrom "{{step_id}}-coder" rfl rfl
  obtain rfl : agent = "start-coder" := Option.some.inj (hnamed.agent_eq.symm.trans hagent)
  have hsettled : own.context.SettledIn "start-coder".toList := by
    have hplain : placeholderPaths "start-coder" = [] := by decide +kernel
    intro path hpath
    rw [placeholderPaths] at hplain
    rw [hplain] at hpath
    cases hpath
  obtain ⟨-, -, hprompt⟩ := hnamed.settled hsettled
  exact ⟨out, cs, hok, htree, hagent, hprompt "You are " "." (by decide) (by decide) rfl⟩

/-- An agent that mentions itself gets longer with every pass, and the name is one mark ahead of the
reference in the prompt. -/
theorem echoWorkflow_differs :
    boundVariables {} (echoWorkflow "{{agent}}!" "{{agent}}") [] [] = .ok [] ∧
      (echoCompiler.compile {} (echoWorkflow "{{agent}}!" "{{agent}}") []).1.toOption.map
          (·.map fun cs => (cs.config.agent?, cs.config.prompt?)) =
        some [(some "{{agent}}!!!!!!!!!!!", some "{{agent}}!!!!!!!!!!")] :=
  ⟨boundVariables_echo, by decide +kernel⟩

end WorkflowCompiler
