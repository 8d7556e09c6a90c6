import WorkflowCompiler.Proofs.Compilation.Isolation
import WorkflowCompiler.Proofs.Context.Steady

/-!
# Where the outcomes of a branch are compiled

The template and the variables of an outcome are compiled behind its inline steps, and behind those
of the outcomes before it. Each of these steps binds `step_id`, `bead_id` and `agent` to what they
are for itself, and nothing binds them back. These roots may have *shifted* by then, unless a
variable has their name, and so may roots that are bound late (`Context.Kept.agreesBut`).

So the fields of an outcome are compiled in the session that the inline steps leave behind. They
come out as where the branch itself is compiled if they are steady for the roots that may shift, in
particular if neither the fields nor the values of the context mention one of these, and also if
there are no inline steps before them (`Compiler.outcomeFrom_of_compile`).
-/

namespace WorkflowCompiler

open Attempt

/-! ## Roots that may shift -/

namespace Context

variable {c c' : Context}

/-- The roots that may stand for something else behind inline steps: those that each step binds for
itself, unless a variable has the name, and those that are bound late. -/
def shifting (c : Context) : List String :=
  (stepRoots.filter fun root => !c.vars.has root) ++ c.late

theorem mem_shifting {root : String} :
    root ∈ c.shifting ↔ root ∈ stepRoots ∧ c.vars.has root = false ∨ root ∈ c.late := by
  rw [shifting, List.mem_append, List.mem_filter, Bool.not_eq_true']

/-- What each step binds for itself, and names bound late, make no difference to other roots. -/
theorem Kept.agreesBut (h : c.Kept c') : c.AgreesBut c.shifting c' where
  resolveIn_eq := by
    intro path hpath
    rw [resolveIn, resolveIn]
    cases hreferent : Referent.ofPath path with
    | output step fields =>
      simp only [outputsIn, whyUnknown, h.known_eq, h.deferred_eq, h.lookup_eq]
    | binding root fields =>
      have hroot : root ∉ c.shifting := fun hmem => hpath ⟨root, fields, hreferent, hmem⟩
      rw [mem_shifting, not_or] at hroot
      obtain ⟨hown, hlate⟩ := hroot
      have hlate' : root ∉ c'.late := by
        intro hmem
        rcases h.late_sub root hmem with hmem | ⟨rfl, hvar⟩
        · exact hlate hmem
        · exact hown ⟨by decide, hvar⟩
      have hbinding : c'.binding? root = c.binding? root := by
        rw [binding?, binding?, h.vars_eq]
        rcases hvar : c.vars.get? root with _ | value
        · have hhas : c.vars.has root = false := by rw [Fields.has, hvar]; rfl
          rw [h.builtins_eq root fun hmem => hown ⟨hmem, hhas⟩]
        · rfl
      simp only [resolveBinding, if_neg hlate, if_neg hlate', hbinding, h.clock_eq]
  deferred_eq := h.deferred_eq

end Context

/-! ## Parts of a branch -/

/-- Enters a step and binds its agent. -/
def startStep (settings : RunSettings) (id : String) (d : Declaration) : Compiling Unit := do
  Compiling.update (·.atStep id)
  bindAgent settings id d

/-- The fields of the target of an outcome, its inline steps apart. -/
def Target.compileFields (id name : String) (t : Target Step) :
    Compiling (Option String × Fields Json) := do
  let template ← Compiling.optional id (name ++ ".template") t.template
  let vars ← Compiling.values id (name ++ ".variables") t.vars
  pure (template, vars)

/-- What the fields of a target come out as in a session. -/
def Target.fieldsIn (id name : String) (t : Target Step) (s : Session) :
    Except CompileError (Option String × Fields Json) :=
  (t.compileFields id name s).1

/-- The compiled fields of a target. -/
def CompiledTarget.fields {σ : Type} (t : CompiledTarget σ) : Option String × Fields Json :=
  (t.template, t.vars)

/-- The inline steps of an outcome. -/
def Step.inlineOf (s : Step) (o : Outcome) : List Step := (s.target? o).elim [] Target.inline

/-- The inline steps that are compiled before the fields of an outcome. -/
def Step.inlineUpTo (s : Step) : Outcome → List Step
  | .onTrue => s.inlineOf .onTrue
  | .onFalse => s.inlineOf .onTrue ++ s.inlineOf .onFalse
  | .onTimeout => s.inlineOf .onTrue ++ s.inlineOf .onFalse ++ s.inlineOf .onTimeout

/-- Compiles steps one after the other under the id of a branch. -/
def compileUnder (settings : RunSettings) (id : String) (steps : List Step) :
    Compiling (List CompiledStep) :=
  each (fun i => compileStep settings (fullId (some id) i.id) i) steps

/-- The session that the inline steps before the fields of an outcome leave behind, from the one in
which the branch itself is compiled. -/
def Step.sessionAt (settings : RunSettings) (id : String) (s : Step) (o : Outcome) (own : Session) :
    Session :=
  (compileUnder settings id (s.inlineUpTo o) own).2

/-- A compiled outcome, seen from the session in which the branch itself is compiled. -/
structure OutcomeFrom (settings : RunSettings) (id : String) (s : Step) (own : Session)
    (o : Outcome) (t : Target Step) (ct : CompiledTarget CompiledStep) : Prop where
  /-- it has a target -/
  target_eq : s.target? o = some t
  /-- inline steps change what each step binds for itself, and nothing else -/
  kept : own.context.Kept (s.sessionAt settings id o own).context
  /-- its fields come out as in the session that the inline steps leave behind -/
  compiled : t.fieldsIn id o.name (s.sessionAt settings id o own) = .ok ct.fields
  /-- they come out as in the first session if they are steady for the roots that may shift -/
  steady : (∀ v ∈ t.compiledTexts, own.context.Steady own.context.shifting v.toList) →
    t.fieldsIn id o.name own = .ok ct.fields
  /-- in particular if these are mentioned neither there nor in a value -/
  clear : own.context.Holds (Clear own.context.shifting) →
    (∀ v ∈ t.compiledTexts, Clear own.context.shifting v) →
      t.fieldsIn id o.name own = .ok ct.fields
  /-- so they do if there are no inline steps before them -/
  fields_eq : s.inlineUpTo o = [] → t.fieldsIn id o.name own = .ok ct.fields

theorem startStep_eq (settings : RunSettings) (id : String) (d : Declaration) :
    startStep settings id d = (do
      Compiling.update (·.enter id)
      nameAgent settings id d) := by
  rw [startStep, bindAgent_eq]
  rfl

theorem compileStep_eq_started (settings : RunSettings) (id : String) (s : Step) :
    compileStep settings id s = (do
      startStep settings id s.toDeclaration
      match s.classify? with
      | none => fail (unsupportedStep id s.toDeclaration)
      | some c => do
        let title ← Compiling.optional id "title" s.title
        let config ← compileConfig settings id s c
        pure { id, title, needs := s.needs, config }) := by
  rw [startStep]
  exact (compileStep_eq settings id s).trans (bind_assoc _ _ _).symm

theorem compileOutcome_eq_fields (settings : RunSettings) (id name : String) (t : Target Step) :
    compileOutcome settings id name (some t) = (do
      let steps ← (if t.inline = [] then pure [] else compileInline settings t.inline id)
      let fields ← t.compileFields id name
      pure (some { template := fields.1, vars := fields.2, steps })) := by
  simp only [compileOutcome_some, Target.compileFields, bind_assoc, pure_bind]

/-! ## What the parts do to a session -/

section Parts

variable {settings : RunSettings} {id name : String} {own s s' : Session}

/-- A computation of fields, which is composed whatever is bound late, leaves the context alike. -/
theorem alike_of_fields {α : Type} {x : Compiling α} {a : α}
    (hx : ∀ late, Composed .any late x) (h : x s = (.ok a, s')) :
    s.context.Alike s'.context := by
  have halike : (x s).2.context.Alike s.context :=
    (hx [agentRoot]).preserves_of_late (P := fun c => c.Alike s.context)
      (fun hc hremembers => hremembers.alike.symm.trans hc) (List.cons_ne_nil _ _) s
      (Context.Remembers.refl s.context).alike
  rw [h] at halike
  exact halike.symm

theorem composed_compileFields {A : Allowance} {late : List String} {t : Target Step}
    (h : ∀ v ∈ t.compiledTexts, A.text late v) : Composed A late (t.compileFields id name) := by
  rw [Target.compiledTexts, List.forall_mem_append] at h
  exact .bind (.optional h.1) fun _ => .bind (.values h.2) fun _ => .pure _

/-- The fields of a target come out alike in sessions that make the same of its texts. -/
theorem fieldsIn_eq {t : Target Step}
    (h : ∀ v ∈ t.compiledTexts, s'.context.substituteIn v = s.context.substituteIn v ∧
      s'.context.substituteShellIn v = s.context.substituteShellIn v) :
    t.fieldsIn id name s' = t.fieldsIn id name s := by
  have hcomposed : Composed ⟨fun _ v => v ∈ t.compiledTexts, fun _ => True, fun _ => True⟩
      [agentRoot] (t.compileFields id name) := composed_compileFields fun _ hv => hv
  -- all that happens to the sessions meanwhile is that outputs are kept
  have hmatches := hcomposed.matches_of_texts
    (R := fun c c' => s.context.Alike c ∧ s'.context.Alike c')
    (fun hR hremembers hremembers' =>
      ⟨hR.1.trans hremembers.alike, hR.2.trans hremembers'.alike⟩)
    (fun _ v hv c c' hR => by
      rw [hR.1.substituteIn_eq, hR.2.substituteIn_eq, hR.1.substituteShellIn_eq,
        hR.2.substituteShellIn_eq]
      exact h v hv)
    (List.cons_ne_nil _ _)
  exact (hmatches s s' ⟨(Context.Remembers.refl _).alike, (Context.Remembers.refl _).alike⟩).1.symm

theorem fieldsIn_eq_of_alike {t : Target Step} (halike : s.context.Alike s'.context) :
    t.fieldsIn id name s' = t.fieldsIn id name s :=
  fieldsIn_eq fun v _ => ⟨halike.substituteIn_eq v, halike.substituteShellIn_eq v⟩

/-- So they do where the context is kept, if the texts are steady for the roots that may shift. -/
theorem fieldsIn_eq_of_steady {t : Target Step} (hkept : s.context.Kept s'.context)
    (h : ∀ v ∈ t.compiledTexts, s.context.Steady s.context.shifting v.toList) :
    t.fieldsIn id name s' = t.fieldsIn id name s :=
  fieldsIn_eq fun v hv =>
    ⟨(h v hv).substituteIn_eq hkept.agreesBut, (h v hv).substituteShellIn_eq hkept.agreesBut⟩

theorem composed_compileUnder (settings : RunSettings) (id : String) (steps : List Step) :
    Composed .any [] (compileUnder settings id steps) :=
  .each fun i _ => composed_any_step settings _ i

/-- Inline steps leave behind what they leave behind one after the other. -/
theorem compileUnder_of_compileInline {steps : List Step} {out : List CompiledStep}
    (h : compileInline settings steps id s = (.ok out, s')) :
    ∃ compiled, compileUnder settings id steps s = (.ok compiled, s') := by
  obtain ⟨⟨⟩, s₁, hcheck, h⟩ := bind_eq_ok h
  rw [ofExcept_apply, Prod.mk.injEq] at hcheck
  obtain ⟨-, rfl⟩ := hcheck
  obtain ⟨members, s₂, hmembers, h⟩ := bind_eq_ok h
  rw [ofExcept_apply, Prod.mk.injEq] at h
  obtain ⟨-, rfl⟩ := h
  rw [compileMembers_eq_each] at hmembers
  exact each_of_map hmembers

/-- The fields of an outcome are compiled in the session that its inline steps leave behind. -/
theorem compileOutcome_left {target : Option (Target Step)}
    {out : Option (CompiledTarget CompiledStep)} (halike : own.context.Alike s.context)
    (h : compileOutcome settings id name target s = (.ok out, s')) :
    ∃ compiled left, compileUnder settings id (target.elim [] Target.inline) own =
        (.ok compiled, left) ∧ left.context.Alike s'.context ∧
      ∀ ct, out = some ct → ∃ t, target = some t ∧ t.fieldsIn id name left = .ok ct.fields := by
  cases target with
  | none =>
    rw [compileOutcome] at h
    cases h
    exact ⟨[], own, rfl, halike, fun ct hct => by cases hct⟩
  | some t =>
    rw [compileOutcome_eq_fields] at h
    obtain ⟨steps, s₁, hsteps, h⟩ := bind_eq_ok h
    obtain ⟨fields, s₂, hfields, h⟩ := bind_eq_ok h
    cases h
    have hunder : ∃ compiled, compileUnder settings id t.inline s = (.ok compiled, s₁) := by
      by_cases hinline : t.inline = []
      · rw [if_pos hinline] at hsteps
        cases hsteps
        rw [hinline]
        exact ⟨[], rfl⟩
      · rw [if_neg hinline] at hsteps
        exact compileUnder_of_compileInline hsteps
    obtain ⟨compiled, hunder⟩ := hunder
    obtain ⟨left, hleft, hagree⟩ := (composed_compileUnder settings id t.inline).simulates
      coupling_alike s own halike.symm compiled s₁ hunder
    refine ⟨compiled, left, hleft, ?_, fun ct hct => ⟨t, rfl, ?_⟩⟩
    · exact hagree.symm.trans
        (alike_of_fields (fun late => composed_compileFields fun _ _ => trivial) hfields)
    · cases hct
      exact (fieldsIn_eq_of_alike hagree).trans (congrArg Prod.fst hfields)

/-- From where the branch itself is compiled, the inline steps of the outcomes up to an outcome lead
to where its fields are compiled. -/
theorem fieldsIn_of_compileConfig {st : Step} {cl : Classification}
    {config : BranchConfig CompiledStep} (halike : own.context.Alike s.context)
    (h : compileConfig settings id st cl s = (.ok (.branch config), s')) {o : Outcome}
    {ct : CompiledTarget CompiledStep} (hct : config.target? o = some ct) :
    ∃ t, st.target? o = some t ∧
      t.fieldsIn id o.name (st.sessionAt settings id o own) = .ok ct.fields := by
  have hexecutor : cl.executor = .branch := (executor_of_yields ⟨s, s', h⟩).symm
  rw [compileConfig, hexecutor] at h
  obtain ⟨fields, s₀, hfields, h⟩ := bind_eq_ok h
  obtain ⟨onTrue, s₁, htrue, h⟩ := bind_eq_ok h
  obtain ⟨onFalse, s₂, hfalse, h⟩ := bind_eq_ok h
  obtain ⟨onTimeout, s₃, htimeout, h⟩ := bind_eq_ok h
  cases h
  have hstart := halike.trans
    (alike_of_fields (fun late => composed_branchFields fun _ _ => trivial) hfields)
  obtain ⟨c₁, l₁, hunder₁, halike₁, hgives₁⟩ := compileOutcome_left hstart htrue
  obtain ⟨c₂, l₂, hunder₂, halike₂, hgives₂⟩ := compileOutcome_left halike₁ hfalse
  obtain ⟨c₃, l₃, hunder₃, -, hgives₃⟩ := compileOutcome_left halike₂ htimeout
  have hbefore := each_append hunder₁ hunder₂
  cases o with
  | onTrue =>
    have hat : st.sessionAt settings id .onTrue own = l₁ := congrArg Prod.snd hunder₁
    rw [hat]
    exact hgives₁ ct hct
  | onFalse =>
    have hat : st.sessionAt settings id .onFalse own = l₂ := congrArg Prod.snd hbefore
    rw [hat]
    exact hgives₂ ct hct
  | onTimeout =>
    have hat : st.sessionAt settings id .onTimeout own = l₃ :=
      congrArg Prod.snd (each_append hbefore hunder₃)
    rw [hat]
    exact hgives₃ ct hct

/-- A step that compiles is started, and its configuration is compiled where its builtins are its
own. -/
theorem exists_started_of_compileStep {st : Step} {c : CompiledStep}
    (h : compileStep settings id st s = (.ok c, s')) :
    ∃ own cl t t', startStep settings id st.toDeclaration s = (.ok (), own) ∧
      st.classify? = some cl ∧ own.context.Alike t.context ∧
      compileConfig settings id st cl t = (.ok c.config, t') := by
  rw [compileStep_eq_started] at h
  obtain ⟨⟨⟩, own, hown, h⟩ := bind_eq_ok h
  rcases hclass : st.classify? with _ | cl
  · rw [hclass] at h
    cases h
  · rw [hclass] at h
    obtain ⟨title, t, htitle, h⟩ := bind_eq_ok h
    obtain ⟨config, t', hconfig, h⟩ := bind_eq_ok h
    cases h
    exact ⟨own, cl, t, _, hown, rfl,
      alike_of_fields (fun late => .optional fun _ _ => trivial) htitle, hconfig⟩

theorem fieldsIn_of_compileStep {st : Step} {c : CompiledStep}
    {config : BranchConfig CompiledStep} (h : compileStep settings id st s = (.ok c, s'))
    (hconfig : c.config = .branch config) :
    ∃ own, startStep settings id st.toDeclaration s = (.ok (), own) ∧
      ∀ o ct, config.target? o = some ct → ∃ t, st.target? o = some t ∧
        t.fieldsIn id o.name (st.sessionAt settings id o own) = .ok ct.fields := by
  obtain ⟨own, cl, t, t', hown, -, halike, hcompiled⟩ := exists_started_of_compileStep h
  rw [hconfig] at hcompiled
  exact ⟨own, hown, fun o ct hct => fieldsIn_of_compileConfig halike hcompiled hct⟩

end Parts

/-! ## Where a branch itself is compiled -/

namespace Context

/-- The name stands for the text, unless a variable has the name. -/
def Denotes (c : Context) (name text : String) : Prop :=
  c.vars.get? name = none → c.resolveIn name = .ok (.value (.str text))

theorem denotes_of_builtin {c : Context} {name text : String}
    (hpath : Referent.ofPath name = .binding name []) (hlate : name ∉ c.late)
    (hbuiltin : c.builtins.get? name = some (.str text)) : c.Denotes name text := by
  intro hvar
  have hbound : c.binding? name = some (.str text) := by
    rw [binding?, hvar, hbuiltin]
    rfl
  rw [resolveIn, hpath]
  simp only [resolveBinding, if_neg hlate, hbound]
  rfl

end Context

/-- From the first session, a step is started and its agent is bound in the second one. There its
builtins are its own. -/
structure StartedIn (settings : RunSettings) (id : String) (d : Declaration)
    (before own : Session) : Prop where
  /-- the step is started -/
  started : startStep settings id d before = (.ok (), own)
  /-- this changes what each step binds for itself, and nothing else -/
  kept : before.context.Kept own.context
  /-- the ids are its own -/
  ids : ∀ name ∈ ["step_id", "bead_id"], name ∉ before.context.late → own.context.Denotes name id
  /-- the agent is its own, if it has one -/
  agent : ∃ agent, (agentOf settings id d (before.update (·.enter id))).1 = .ok agent ∧
    ∀ a, agent = some a → own.context.Denotes agentRoot a

/-- A step is started by entering it and binding its agent, if it has one. -/
theorem exists_named_of_startStep {settings : RunSettings} {id : String} {d : Declaration}
    {before own : Session} (h : startStep settings id d before = (.ok (), own)) :
    ∃ agent named, (agentOf settings id d (before.update (·.enter id))).1 = .ok agent ∧
      (before.context.enter id).Alike named ∧ own.context = agent.elim named named.withAgent := by
  rw [startStep_eq] at h
  obtain ⟨⟨⟩, entered, henter, h⟩ := bind_eq_ok h
  cases henter
  obtain ⟨agent, named, hagent, h⟩ := bind_eq_ok h
  have halike : (before.context.enter id).Alike named.context :=
    alike_of_fields (fun late => composed_agentOf fun _ _ => trivial) hagent
  refine ⟨agent, named.context, congrArg Prod.fst hagent, halike, ?_⟩
  cases agent <;> cases h <;> rfl

theorem startedIn_of_startStep {settings : RunSettings} {id : String} {d : Declaration}
    {before own : Session} (h : startStep settings id d before = (.ok (), own)) :
    StartedIn settings id d before own := by
  obtain ⟨agent, named, hagent, halike, hown⟩ := exists_named_of_startStep h
  -- binding the agent leaves the ids alone
  have hothers : ∀ name ≠ agentRoot, own.context.builtins.get? name =
        (before.context.enter id).builtins.get? name ∧
      (name ∈ own.context.late → name ∈ (before.context.enter id).late) := by
    intro name hname
    rw [hown, ← halike.builtins_eq name, ← halike.late_iff name]
    cases agent with
    | none => exact ⟨rfl, fun hlate => hlate⟩
    | some a =>
      refine ⟨?_, fun hlate => (Context.mem_late_withAgent.1 hlate).1⟩
      rw [Option.elim_some, Context.builtins_withAgent, if_neg hname]
  have hkept : before.context.Kept own.context := by
    rw [hown]
    have hnamed := (before.context.kept_enter id).trans halike.kept
    cases agent with
    | none => exact hnamed
    | some a => exact hnamed.trans (named.kept_withAgent a)
  refine ⟨h, hkept, fun name hname hlate => ?_, agent, hagent, fun a ha => ?_⟩
  · have hids : name ≠ agentRoot ∧ (name = "step_id" ∨ name = "bead_id") ∧
        Referent.ofPath name = .binding name [] := by
      simp only [List.mem_cons, List.not_mem_nil, or_false] at hname
      rcases hname with rfl | rfl <;> decide +kernel
    obtain ⟨hne, hid, hpath⟩ := hids
    obtain ⟨hbuiltin, hlateOnly⟩ := hothers name hne
    rw [Context.builtins_enter, if_neg hne, if_pos hid] at hbuiltin
    refine Context.denotes_of_builtin hpath (fun hmem => hlate ?_) hbuiltin
    have hentered := hlateOnly hmem
    rw [Context.mem_late_enter, if_neg hne] at hentered
    exact hentered
  · rw [hown, ha, Option.elim_some]
    have hpath : Referent.ofPath agentRoot = .binding agentRoot [] := by decide +kernel
    refine Context.denotes_of_builtin hpath (fun hmem => ?_) ?_
    · exact (Context.mem_late_withAgent.1 hmem).2 rfl
    · rw [Context.builtins_withAgent, if_pos rfl]

/-- What holds of all values still does when the step is started, if it holds of its id and its
agent. -/
theorem StartedIn.holds {settings : RunSettings} {id : String} {d : Declaration}
    {before own : Session} (h : StartedIn settings id d before own) {P : String → Prop}
    (hbefore : before.context.Holds P) (hid : P id)
    (hagent : ∀ a, (agentOf settings id d (before.update (·.enter id))).1 = .ok (some a) → P a) :
    own.context.Holds P := by
  obtain ⟨agent, named, hnamed, halike, hown⟩ := exists_named_of_startStep h.started
  have hentered : named.Holds P := (hbefore.enter hid).of_alike halike
  rw [hown]
  cases agent with
  | none => exact hentered
  | some a => exact hentered.withAgent (hagent a hnamed)

/-! ## Workflows -/

/-- A branch of the tree was started in a session that has kept that of the run, and if nothing but
the agent is bound late, it compiles to the same at the start of the run. -/
theorem exists_compileStep_before {settings : RunSettings} {w : Workflow} {run : Session}
    {compiled out : List CompiledStep}
    (hsteps : (compileSteps settings w.steps run).1 = .ok compiled)
    (horder : inOrder compiled = .ok out) {cs : CompiledStep} (hcs : InTree out cs) :
    ∃ b, w.ReachedBatch b ∧ ∃ s ∈ b.steps,
      CompiledFrom settings (b.fullId s) (b.compiledNeeds s) s cs ∧
      ∃ before after c', run.context.Kept before.context ∧
        ((∀ name ∈ run.context.late, name = agentRoot) → before = run) ∧
        compileStep settings (b.fullId s) s before = (.ok c', after) ∧ c'.config = cs.config := by
  obtain ⟨b, hreached, s, hs, hwhere⟩ :=
    (lasting_kept run.context).exists_compiledWhere (.refl run.context) hsteps horder hcs
  have hfrom := hwhere.compiledFrom
  obtain ⟨c', ⟨before, after, hkept, hcompiled⟩, rfl⟩ := hwhere
  refine ⟨b, hreached, s, hs, hfrom, ?_⟩
  by_cases hlate : ∀ name ∈ run.context.late, name = agentRoot
  · have hsame := Context.Kept.compileStep_eq_ok hkept (.refl run.context) hlate
      (congrArg Prod.fst hcompiled)
    exact ⟨run, _, c', .refl _, fun _ => rfl, Prod.ext hsame rfl, rfl⟩
  · exact ⟨before, after, c', hkept, fun h => absurd h hlate, hcompiled, rfl⟩

/-- The fields of an outcome are compiled in the session that the inline steps before them leave
behind. They come out as where the branch itself is compiled, where its builtins are its own, if
they are steady for the roots that may shift, or if there are no such steps. -/
theorem Compiler.outcomeFrom_of_compile {c : Compiler} {d : Disk} {w : Workflow}
    {inputs : Fields String} {out : List CompiledStep} (h : (c.compile d w inputs).1 = .ok out)
    {cs : CompiledStep} (hcs : InTree out cs) {config : BranchConfig CompiledStep}
    (hconfig : cs.config = .branch config) :
    ∃ vars, boundVariables d w inputs c.session.context.vars = .ok vars ∧
      ∃ b, w.ReachedBatch b ∧ ∃ s ∈ b.steps,
        CompiledFrom c.settings (b.fullId s) (b.compiledNeeds s) s cs ∧
        ∃ before own, StartedIn c.settings (b.fullId s) s.toDeclaration before own ∧
          (c.session.inRun c.settings.workflowId vars).context.Kept before.context ∧
          ((∀ name ∈ c.session.context.late, name = agentRoot) →
            before = c.session.inRun c.settings.workflowId vars) ∧
          ∀ o ct, config.target? o = some ct →
            ∃ t, OutcomeFrom c.settings (b.fullId s) s own o t ct := by
  obtain ⟨-, vars, hvars, compiled, hsteps, horder⟩ := Compiler.compile_eq_ok_iff.1 h
  obtain ⟨b, hreached, s, hs, hfrom, before, after, c', hkept, hbefore, hcompiled, hsame⟩ :=
    exists_compileStep_before hsteps horder hcs
  obtain ⟨own, hstarted, houtcomes⟩ := fieldsIn_of_compileStep hcompiled (hsame.trans hconfig)
  refine ⟨vars, hvars, b, hreached, s, hs, hfrom, before, own, startedIn_of_startStep hstarted,
    hkept, hbefore, fun o ct hct => ?_⟩
  obtain ⟨t, ht, hfields⟩ := houtcomes o ct hct
  have hkeeps : own.context.Kept (s.sessionAt c.settings (b.fullId s) o own).context :=
    (composed_compileUnder c.settings (b.fullId s) (s.inlineUpTo o)).keeps own
  have hsteady : (∀ v ∈ t.compiledTexts, own.context.Steady own.context.shifting v.toList) →
      t.fieldsIn (b.fullId s) o.name own = .ok ct.fields :=
    fun hsteady => (fieldsIn_eq_of_steady hkeeps hsteady).symm.trans hfields
  refine ⟨t, ht, hkeeps, hfields, hsteady, fun hvalues hclear => ?_, fun hnone => ?_⟩
  · exact hsteady fun v hv => Context.steady_of_clear hvalues (hclear v hv)
  · have hown : s.sessionAt c.settings (b.fullId s) o own = own := by
      rw [Step.sessionAt, hnone]
      rfl
    rw [hown] at hfields
    exact hfields

/-- A check in a release. The release goes on with something in case the check holds, and reports
on it in case it does not. -/
def checkWith (target : Target Step) (failed : String) : Step :=
  { id := "check", executor := some "branch", condition := some "make test"
    onTrue := some target
    onFalse := some { template := some "report", vars := [("failed", .str failed)] } }

/-- A release with one check. -/
def releaseWith (target : Target Step) (failed : String) : Workflow :=
  { name := "release"
    vars :=
      [("kind", { default := some (.str "nightly") }),
        ("release", { default := some (.str "{{kind}} release") })]
    steps := [checkWith target failed] }

/-- Goes on with another workflow. -/
def shipElsewhere : Target Step := { template := some "ship" }

/-- Goes on with an inline step. -/
def shipInline : Target Step :=
  { inline := [{ id := "ship", executor := some "shell", command := some "make ship" }] }

/-- A compiler for one run. -/
def releaseCompiler : Compiler := { settings := { workflowId := "run" } }

/-- What a compiled branch reports in case it does not hold. -/
def reportsOf (cs : CompiledStep) : List String :=
  match cs.config with
  | .branch config => config.onFalse.elim [] fun ct => valueStrings ct.vars
  | _ => []

section Release

variable {failed : String}

theorem exists_of_mem_reportsOf {cs : CompiledStep} (h : failed ∈ reportsOf cs) :
    ∃ config ct, cs.config = .branch config ∧ config.target? .onFalse = some ct ∧
      failed ∈ valueStrings ct.vars := by
  rw [reportsOf] at h
  split at h
  · rename_i config hconfig
    rcases honFalse : config.onFalse with _ | ct
    · rw [honFalse] at h
      cases h
    · rw [honFalse] at h
      exact ⟨config, ct, hconfig, honFalse, h⟩
  · cases h

/-- The check is the only branch. -/
theorem eq_of_reached_release {b : Batch} (h : (releaseWith shipInline failed).ReachedBatch b)
    {s : Step} (hs : s ∈ b.steps) (hbranch : s.IsBranch) :
    b = (releaseWith shipInline failed).topBatch ∧ s = checkWith shipInline failed := by
  induction h generalizing s with
  | refl => exact ⟨rfl, List.mem_singleton.1 hs⟩
  | tail _ hunder ih =>
    exfalso
    obtain ⟨outer, houter, hbranch', o, t, ht, hinline, rfl⟩ := hunder
    rw [(ih houter hbranch').2] at ht
    cases o with
    | onTrue =>
      cases ht
      obtain rfl := List.mem_singleton.1 hs
      obtain ⟨cl, hclass, hexecutor⟩ := hbranch
      cases hclass
      cases hexecutor
    | onFalse =>
      cases ht
      exact hinline rfl
    | onTimeout => cases ht

/-- Where the check is started, no value mentions what may shift. -/
theorem clear_of_startedIn_release {own : Session} {vars : Fields Json}
    (hvars : boundVariables {} (releaseWith shipInline failed) [] [] = .ok vars)
    (h : StartedIn releaseCompiler.settings "check" (checkWith shipInline failed).toDeclaration
      (releaseCompiler.session.inRun "run" vars) own) :
    own.context.shifting ⊆ stepRoots ∧ own.context.Holds (Clear own.context.shifting) := by
  have hshifting : own.context.shifting ⊆ stepRoots := by
    intro root hroot
    rcases Context.mem_shifting.1 hroot with ⟨hown, -⟩ | hlate
    · exact hown
    · rcases h.kept.late_sub root hlate with hlate | ⟨rfl, -⟩
      · cases hlate
      · decide
  have hmoment : ∀ name text, clockText? 0 name = some text → Clear stepRoots text :=
    of_clockText? (by decide +kernel) (by decide +kernel) (by decide +kernel)
  have hrun : (releaseCompiler.session.inRun "run" vars).context.Holds (Clear stepRoots) := by
    obtain ⟨given, hgiven, rfl⟩ := boundVariables_eq_ok hvars
    cases hgiven
    refine Context.holds_of_strings (fun entry hentry => ?_) rfl rfl hmoment
    have hentries : entry ∈ [("kind", Json.str "nightly"), ("release", .str "{{kind}} release"),
      ("molecule_id", .str "run"), ("workflow_id", .str "run")] := hentry
    simp only [List.mem_cons, List.not_mem_nil, or_false] at hentries
    rcases hentries with rfl | rfl | rfl | rfl
    · exact ⟨_, by decide +kernel, rfl⟩
    · exact ⟨_, by decide +kernel, rfl⟩
    · exact ⟨_, by decide +kernel, rfl⟩
    · exact ⟨_, by decide +kernel, rfl⟩
  have hown := h.holds hrun (by decide +kernel) fun a ha => by cases ha
  exact ⟨hshifting, hown.mono fun _ htext => htext.mono hshifting⟩

end Release

/-- What is said of a release that failed. -/
def failureText : String := "The {{release}} has failed."

/-- Behind an inline step the report comes out as where the branch is compiled, since it is clear of
what may shift. -/
theorem releaseWith_outcomes :
    ∃ out cs config ct own t,
      (releaseCompiler.compile {} (releaseWith shipInline failureText) []).1 = .ok out ∧
        InTree out cs ∧ cs.config = .branch config ∧ config.target? .onFalse = some ct ∧
        (checkWith shipInline failureText).inlineUpTo .onFalse ≠ [] ∧
        (checkWith shipInline failureText).target? .onFalse = some t ∧
        (∃ vars, StartedIn releaseCompiler.settings "check"
          (checkWith shipInline failureText).toDeclaration
          (releaseCompiler.session.inRun "run" vars) own) ∧
        t.fieldsIn "check" Outcome.onFalse.name own = .ok ct.fields := by
  have hcompiles : (releaseCompiler.compile {} (releaseWith shipInline failureText)
      []).1.toOption.map (·.flatMap reportsOf) = some ["The nightly release has failed."] := by
    decide +kernel
  obtain ⟨out, hout, hreports⟩ := Option.map_eq_some_iff.1 hcompiles
  obtain ⟨cs, hcs, hreport⟩ := List.mem_flatMap.1 (hreports ▸ List.mem_singleton_self _)
  obtain ⟨config, ct, hconfig, hct, -⟩ := exists_of_mem_reportsOf hreport
  have hok := eq_ok_of_toOption_eq_some hout
  have htree : InTree out cs := ⟨cs, hcs, .refl⟩
  obtain ⟨vars, hvars, b, hreached, s, hs, hfrom, before, own, hstarted, -, hbefore, houtcomes⟩ :=
    Compiler.outcomeFrom_of_compile hok htree hconfig
  obtain ⟨t, houtcome⟩ := houtcomes .onFalse ct hct
  rw [hbefore (List.forall_mem_nil _)] at hstarted
  obtain ⟨rfl, rfl⟩ := eq_of_reached_release hreached hs (hfrom.isBranch hconfig)
  obtain ⟨hshifting, hvalues⟩ := clear_of_startedIn_release hvars hstarted
  have hclear : ∀ v ∈ t.compiledTexts, Clear stepRoots v := by
    obtain rfl : { template := some "report", vars := [("failed", .str failureText)] } = t :=
      Option.some.inj houtcome.target_eq
    decide +kernel
  exact ⟨out, cs, config, ct, own, t, hok, htree, hconfig, hct, List.cons_ne_nil _ _,
    houtcome.target_eq, ⟨vars, hstarted⟩,
    houtcome.clear hvalues fun v hv => (hclear v hv).mono hshifting⟩

/-- The report is on the branch if the other outcome has no inline step. If it has one, it is on
that. -/
theorem releaseWith_reports :
    (releaseCompiler.compile {} (releaseWith shipElsewhere "{{step_id}}") []).1.toOption.map
        (·.flatMap reportsOf) = some ["check"] ∧
      (releaseCompiler.compile {} (releaseWith shipInline "{{step_id}}") []).1.toOption.map
        (·.flatMap reportsOf) = some ["check.ship"] := by
  decide +kernel

end WorkflowCompiler
