import WorkflowCompiler.Proofs.Compilation.Positions
import WorkflowCompiler.Proofs.Compilation.Sequences

/-!
# Quoting changes nothing but commands

With quoting, the values in the command of a shell step and in the condition of a branch that is no
gate are quoted for the shell. Then these are substituted in another way, and other outputs may come
to be known meanwhile; but to what is compiled later that makes no difference, as contexts agree
whichever of the outputs that the look-up reports they know already. So where a workflow compiles
with quoting and without it, the compiled steps are alike at every position of the two trees, but
for these commands (`Compiler.alike_but_commands`).
-/

namespace WorkflowCompiler

open Attempt

/-! ## What is compared -/

/-- The settings with quoting or without it. -/
def RunSettings.quoting (settings : RunSettings) (quoted : Bool) : RunSettings :=
  { settings with shellQuoting := quoted }

/-- The compiler with quoting or without it. -/
def Compiler.quoting (c : Compiler) (quoted : Bool) : Compiler :=
  { c with settings := c.settings.quoting quoted }

/-- A target without its inline steps, which have configurations of their own. -/
def CompiledTarget.ownFields {σ : Type} (t : CompiledTarget σ) : CompiledTarget Empty :=
  { template := t.template, vars := t.vars }

/-- A configuration without the command of a shell step, without the condition of a branch that is
no gate, and without the inline steps of its targets. -/
def Config.butCommand {σ : Type} (gate : Bool) : Config σ → Config Empty
  | .shell c => .shell { c with command := "" }
  | .spawn c => .spawn c
  | .kill c => .kill c
  | .expand c => .expand c
  | .branch c =>
    .branch
      { condition := if gate then c.condition else ""
        prompt := c.prompt
        workdir := c.workdir
        env := c.env
        outputs := c.outputs
        timeout := c.timeout
        onTrue := c.onTrue.map CompiledTarget.ownFields
        onFalse := c.onFalse.map CompiledTarget.ownFields
        onTimeout := c.onTimeout.map CompiledTarget.ownFields }
  | .foreach c => .foreach c
  | .agent c => .agent c

/-- Two compiled steps come from the same step of a batch, the one with quoting and the other one
without it, and all their fields are the same but for the command. -/
structure AlikeFrom (settings : RunSettings) (b : Batch) (s : Step) (x y : CompiledStep) :
    Prop where
  /-- the first one is compiled with quoting -/
  quoted : CompiledFrom (settings.quoting true) (b.fullId s) x.needs s x
  /-- the second one without it -/
  plain : CompiledFrom (settings.quoting false) (b.fullId s) y.needs s y
  /-- they have the same id -/
  id_eq : y.id = x.id
  /-- the same title -/
  title_eq : y.title = x.title
  /-- the same status -/
  status_eq : y.status = x.status
  /-- the same needs -/
  needs_eq : y.needs = x.needs
  /-- configurations that are the same but for the command -/
  config_eq : ∃ cl, s.classify? = some cl ∧
    y.config.butCommand cl.gate = x.config.butCommand cl.gate

/-- Two compiled steps come from the same step of a workflow, at any depth, and are the same but for
the command. -/
def Workflow.AlikeSteps (w : Workflow) (settings : RunSettings) (x y : CompiledStep) : Prop :=
  ∃ b, w.ReachedBatch b ∧ ∃ s ∈ b.steps, AlikeFrom settings b s x y

/-- At each position of two trees there are such steps, or in both of them there is none. -/
def Workflow.AlikeTrees (w : Workflow) (settings : RunSettings) (out out' : List CompiledStep) :
    Prop :=
  ∀ p : Position, Option.Rel (w.AlikeSteps settings) (p.step? out) (p.step? out')

/-- Two compiled targets are the same but for commands inside of them. -/
structure Workflow.AlikeTargets (w : Workflow) (settings : RunSettings)
    (t t' : Option (CompiledTarget CompiledStep)) : Prop where
  /-- the targets themselves -/
  fields_eq : t'.map CompiledTarget.ownFields = t.map CompiledTarget.ownFields
  /-- their inline steps -/
  inline : w.AlikeTrees settings (t.elim [] CompiledTarget.steps) (t'.elim [] CompiledTarget.steps)

/-- Two configurations are the same but for the command, and so are their inline steps. -/
structure Workflow.AlikeConfigs (w : Workflow) (settings : RunSettings) (gate : Bool)
    (c c' : Config CompiledStep) : Prop where
  /-- the configurations themselves -/
  config_eq : c'.butCommand gate = c.butCommand gate
  /-- the inline steps of each outcome of a branch -/
  inline : ∀ b b', c = .branch b → c' = .branch b' → ∀ o,
    w.AlikeTrees settings ((b.target? o).elim [] CompiledTarget.steps)
      ((b'.target? o).elim [] CompiledTarget.steps)

/-- Two compiled steps are alike, and so is what stands inside of them. -/
structure Workflow.AlikeThroughout (w : Workflow) (settings : RunSettings) (x y : CompiledStep) :
    Prop where
  /-- the steps themselves -/
  step : w.AlikeSteps settings x y
  /-- their inline steps -/
  inline : ∀ o, w.AlikeTrees settings (x.inlineSteps o) (y.inlineSteps o)

/-! ## Trees -/

section Trees

variable {w : Workflow} {settings : RunSettings}

theorem forall₂_getElem? {α β : Type} {R : α → β → Prop} {l : List α} {m : List β}
    (h : List.Forall₂ R l m) (n : Nat) : Option.Rel R l[n]? m[n]? := by
  induction h generalizing n with
  | nil => exact .none
  | cons hhead _ ih =>
    cases n with
    | zero => exact .some hhead
    | succ n => exact ih n

/-- Trees are alike if their outermost steps are so throughout. -/
theorem Workflow.alikeTrees_of_forall₂ {out out' : List CompiledStep}
    (h : List.Forall₂ (w.AlikeThroughout settings) out out') : w.AlikeTrees settings out out' := by
  intro p
  cases p with
  | here n =>
    have hn := forall₂_getElem? h n
    rw [Position.step?, Position.step?]
    generalize out[n]? = x, out'[n]? = y at hn ⊢
    cases hn with
    | none => exact .none
    | some hxy => exact .some hxy.step
  | inside n o p =>
    have hn := forall₂_getElem? h n
    rw [Position.step?, Position.step?]
    generalize out[n]? = x, out'[n]? = y at hn ⊢
    cases hn with
    | none => exact .none
    | some hxy => exact hxy.inline o p

theorem Workflow.alikeTrees_nil : w.AlikeTrees settings [] [] := alikeTrees_of_forall₂ .nil

theorem Config.executor_butCommand {σ : Type} (gate : Bool) (c : Config σ) :
    (c.butCommand gate).executor = c.executor := by
  cases c <;> rfl

/-- Steps with configurations that are alike have inline steps that are. -/
theorem Workflow.AlikeConfigs.inlineSteps {gate : Bool} {x y : CompiledStep}
    (h : w.AlikeConfigs settings gate x.config y.config) (o : Outcome) :
    w.AlikeTrees settings (x.inlineSteps o) (y.inlineSteps o) := by
  have hexecutor : y.config.executor = x.config.executor := by
    rw [← Config.executor_butCommand gate, h.config_eq, Config.executor_butCommand]
  rw [CompiledStep.inlineSteps, CompiledStep.inlineSteps]
  cases hx : x.config with
  | branch b =>
    rw [hx] at hexecutor
    obtain ⟨b', hy⟩ := Config.exists_of_executor_eq_branch hexecutor
    rw [hy]
    exact h.inline b b' hx hy o
  | _ =>
    rw [hx] at hexecutor
    cases hy : y.config with
    | branch b' =>
      rw [hy] at hexecutor
      cases hexecutor
    | _ => exact alikeTrees_nil

end Trees

/-! ## Order -/

section Order

variable {R : CompiledStep → CompiledStep → Prop} {l l' out out' : List CompiledStep}

theorem rel_find?_id (hR : ∀ x y, R x y → y.id = x.id) (h : List.Forall₂ R l l') (id : String) :
    Option.Rel R (l.find? fun c => c.id = id) (l'.find? fun c => c.id = id) := by
  induction h with
  | nil => exact .none
  | @cons x y l l' hxy _ ih =>
    by_cases hid : x.id = id
    · simp only [List.find?_cons, hR x y hxy, hid, decide_true]
      exact .some hxy
    · simp only [List.find?_cons, hR x y hxy, hid, decide_false]
      exact ih

/-- Compiled steps with the same ids and the same needs are put in the same order. -/
theorem forall₂_inOrder (hid : ∀ x y, R x y → y.id = x.id)
    (hneeds : ∀ x y, R x y → y.needs = x.needs) (h : List.Forall₂ R l l')
    (hout : inOrder l = .ok out) (hout' : inOrder l' = .ok out') : List.Forall₂ R out out' := by
  have hnodes : l'.map (fun c => (c.id, c.needs)) = l.map fun c => (c.id, c.needs) := by
    rw [eq_comm, ← List.forall₂_eq_eq_eq, List.forall₂_map_left_iff, List.forall₂_map_right_iff]
    exact h.imp fun x y hxy => Prod.ext (hid x y hxy).symm (hneeds x y hxy).symm
  obtain ⟨ids, horder, rfl⟩ := inOrder_eq_ok hout
  obtain ⟨ids', horder', rfl⟩ := inOrder_eq_ok hout'
  rw [compiledGraph, hnodes, ← compiledGraph, horder, Except.ok.injEq] at horder'
  subst horder'
  refine List.rel_filterMap (R := Eq) ?_ (List.forall₂_refl ids)
  rintro id - rfl
  exact rel_find?_id hid h id

end Order

/-! ## Fields -/

section Fields

variable {settings : RunSettings} {id : String} {d : Declaration}

theorem agentConfig_quoting (settings : RunSettings) (quoted : Bool) (id : String)
    (d : Declaration) : agentConfig (settings.quoting quoted) id d = agentConfig settings id d := rfl

theorem nameAgent_quoting (settings : RunSettings) (quoted : Bool) (id : String) (d : Declaration) :
    nameAgent (settings.quoting quoted) id d = nameAgent settings id d := rfl

theorem exists_reads_command (quoted : Bool) (id field value : String) :
    ∃ f, Reads (Compiling.command quoted id field value) f := by
  cases quoted with
  | false => exact ⟨_, reads_text id field value⟩
  | true => exact ⟨_, (reads_substituteShell value).mapError _⟩

/-- What is the same with quoting and without it has the same result. -/
theorem Composed.bind_relates {α β γ : Type} {S : β → γ → Prop} {x : Compiling α}
    {f : α → Compiling β} {g : α → Compiling γ} (hx : Composed .any [] x)
    (hf : ∀ a, Relates Session.Alike S (f a) (g a)) :
    Relates Session.Alike S (x >>= f) (x >>= g) :=
  hx.matches_self.bind_relates hf

/-- Whatever becomes of a command, only outputs are kept. -/
theorem relates_command (quoted quoted' : Bool) (id field value : String) :
    Relates Session.Alike (fun _ _ => True) (Compiling.command quoted id field value)
      (Compiling.command quoted' id field value) := by
  obtain ⟨f, hf⟩ := exists_reads_command quoted id field value
  obtain ⟨g, hg⟩ := exists_reads_command quoted' id field value
  intro s t hst a s' b t' hs ht
  obtain ⟨s'', hreads, hremembers⟩ := hf s
  obtain ⟨t'', hreads', hremembers'⟩ := hg t
  rw [hs, Prod.mk.injEq] at hreads
  rw [ht, Prod.mk.injEq] at hreads'
  obtain ⟨-, rfl⟩ := hreads
  obtain ⟨-, rfl⟩ := hreads'
  exact ⟨trivial, (hremembers.alike.symm.trans hst).trans hremembers'.alike⟩

theorem relates_shellConfig :
    Relates Session.Alike (fun c c' => { c' with command := c.command } = c)
      (shellConfig (settings.quoting true) id d) (shellConfig (settings.quoting false) id d) := by
  refine (relates_command true false id _ _).bind fun command command' _ => ?_
  refine Composed.bind_relates (.optional fun _ _ => trivial) fun workdir => ?_
  refine Composed.bind_relates (.texts fun _ _ => trivial) fun env => ?_
  exact relates_pure rfl

/-- The condition of a gate is no command. -/
theorem relates_branchCondition (gate : Bool) :
    Relates Session.Alike (fun c c' => gate = true → c' = c)
      (branchCondition (settings.quoting true) id d gate)
      (branchCondition (settings.quoting false) id d gate) := by
  rw [branchCondition, branchCondition]
  cases gate with
  | true => exact relates_pure fun _ => rfl
  | false =>
    simp only [Bool.false_eq_true, false_implies, if_false]
    cases d.condition.filter fun c => !Text.allBlank c with
    | none => exact relates_fail _ _
    | some condition => exact relates_command _ _ _ _ _

theorem relates_branchFields (gate : Bool) :
    Relates Session.Alike
      (fun c c' => (gate = true → c'.condition = c.condition) ∧
        { c' with condition := c.condition } = c)
      (branchFields (settings.quoting true) id d gate)
      (branchFields (settings.quoting false) id d gate) := by
  refine (relates_branchCondition gate).bind fun condition condition' hcondition => ?_
  refine Composed.bind_relates (.optional fun _ _ => trivial) fun prompt => ?_
  refine Composed.bind_relates (.optional fun _ _ => trivial) fun workdir => ?_
  refine Composed.bind_relates (.texts fun _ _ => trivial) fun env => ?_
  refine Composed.bind_relates (.optional fun _ _ => trivial) fun timeout => ?_
  exact relates_pure ⟨hcondition, rfl⟩

end Fields

/-! ## Steps -/

section Steps

variable {settings : RunSettings} {id : String} {w : Workflow} {s : Step}

/-- A configuration is the same but for a command if the outcomes of a branch are. -/
theorem relates_compileConfig {cl : Classification}
    (houtcomes : cl.executor = .branch → ∀ o, Relates Session.Alike (w.AlikeTargets settings)
      (compileOutcome (settings.quoting true) id o.name (s.target? o))
      (compileOutcome (settings.quoting false) id o.name (s.target? o))) :
    Relates Session.Alike (w.AlikeConfigs settings cl.gate)
      (compileConfig (settings.quoting true) id s cl)
      (compileConfig (settings.quoting false) id s cl) := by
  have hplain : ∀ {α : Type} {x : Compiling α} {f : α → Config CompiledStep},
      Composed .any [] x → (∀ a b, f a ≠ .branch b) →
      Relates Session.Alike (w.AlikeConfigs settings cl.gate) (x >>= fun a => pure (f a))
        (x >>= fun a => pure (f a)) := fun hx hbranch =>
    hx.bind_relates fun a => relates_pure ⟨rfl, fun _ _ h => absurd h (hbranch a _)⟩
  rw [compileConfig, compileConfig]
  cases hexecutor : cl.executor with
  | shell =>
    refine relates_shellConfig.bind fun c c' hc => relates_pure ⟨?_, fun _ _ h => by cases h⟩
    rw [← hc]
    rfl
  | spawn =>
    refine hplain (f := .spawn) (composed_spawnConfig (fun _ _ => trivial) fun _ _ => trivial) ?_
    rintro _ _ ⟨⟩
  | kill =>
    refine hplain (f := .kill) (composed_killConfig (fun _ _ => trivial) fun _ _ => trivial) ?_
    rintro _ _ ⟨⟩
  | expand =>
    refine hplain (f := .expand) (composed_expandConfig fun _ _ => trivial) ?_
    rintro _ _ ⟨⟩
  | foreach =>
    refine hplain (f := .foreach) (composed_foreachConfig trivial fun _ _ => trivial) ?_
    rintro _ _ ⟨⟩
  | agent =>
    simp only [agentConfig_quoting]
    refine hplain (f := .agent) (composed_agentConfig (fun _ _ => trivial) fun _ _ => trivial) ?_
    rintro _ _ ⟨⟩
  | branch =>
    have ho := houtcomes hexecutor
    refine (relates_branchFields cl.gate).bind fun c c' hc => (ho .onTrue).bind fun t t' ht =>
      (ho .onFalse).bind fun f f' hf => (ho .onTimeout).bind fun e e' he => relates_pure ⟨?_, ?_⟩
    · obtain ⟨hcondition, hc⟩ := hc
      rw [Config.butCommand, Config.butCommand, ht.fields_eq, hf.fields_eq, he.fields_eq, ← hc]
      cases hgate : cl.gate with
      | true => simp [hcondition hgate]
      | false => simp
    · rintro b b' h h' o
      cases h
      cases h'
      cases o with
      | onTrue => exact ht.inline
      | onFalse => exact hf.inline
      | onTimeout => exact he.inline

theorem relates_compileOutcome {name : String} {target : Option (Target Step)}
    (hinline : ∀ t, target = some t → t.inline ≠ [] →
      Relates Session.Alike (List.Forall₂ (w.AlikeThroughout settings))
        (compileInline (settings.quoting true) t.inline id)
        (compileInline (settings.quoting false) t.inline id)) :
    Relates Session.Alike (w.AlikeTargets settings)
      (compileOutcome (settings.quoting true) id name target)
      (compileOutcome (settings.quoting false) id name target) := by
  cases target with
  | none =>
    rw [compileOutcome, compileOutcome]
    exact relates_pure ⟨rfl, Workflow.alikeTrees_nil⟩
  | some t =>
    have hsteps : Relates Session.Alike (List.Forall₂ (w.AlikeThroughout settings))
        (if t.inline = [] then pure []
          else compileInline (settings.quoting true) t.inline id : Compiling (List CompiledStep))
        (if t.inline = [] then pure []
          else compileInline (settings.quoting false) t.inline id) := by
      by_cases hnil : t.inline = []
      · rw [if_pos hnil, if_pos hnil]
        exact relates_pure .nil
      · rw [if_neg hnil, if_neg hnil]
        exact hinline t rfl hnil
    rw [compileOutcome_some, compileOutcome_some]
    refine hsteps.bind fun steps steps' hall => ?_
    refine Composed.bind_relates (.optional fun _ _ => trivial) fun template => ?_
    refine Composed.bind_relates (.values fun _ _ => trivial) fun vars => ?_
    exact relates_pure ⟨rfl, Workflow.alikeTrees_of_forall₂ hall⟩

/-- A step of a batch is alike throughout if the inline steps of a branch are. -/
theorem relates_compileStep_of_inline {b : Batch} (hreached : w.ReachedBatch b) (hs : s ∈ b.steps)
    (hinline : s.IsBranch → ∀ o t, s.target? o = some t → t.inline ≠ [] →
      Relates Session.Alike (List.Forall₂ (w.AlikeThroughout settings))
        (compileInline (settings.quoting true) t.inline (b.fullId s))
        (compileInline (settings.quoting false) t.inline (b.fullId s))) :
    Relates Session.Alike (w.AlikeThroughout settings)
      (compileStep (settings.quoting true) (b.fullId s) s)
      (compileStep (settings.quoting false) (b.fullId s) s) := by
  rw [compileStep_eq_entered, compileStep_eq_entered]
  refine Composed.bind_relates (.enter trivial) fun _ => ?_
  rw [compileEntered, compileEntered, nameAgent_quoting, nameAgent_quoting]
  refine Composed.bind_relates (.nameAgent (fun _ _ => trivial) fun _ _ => trivial) fun _ => ?_
  cases hclass : s.classify? with
  | none => exact relates_fail _ _
  | some cl =>
    refine Composed.bind_relates (.optional fun _ _ => trivial) fun title => ?_
    have hconfigs := relates_compileConfig (w := w) fun hbranch o =>
      relates_compileOutcome (hinline ⟨cl, hclass, hbranch⟩ o)
    refine hconfigs.yields.bind fun config config' ⟨hconfig, hquoted, hplain⟩ =>
      relates_pure ⟨⟨b, hreached, s, hs, ?_⟩, hconfig.inlineSteps⟩
    exact ⟨⟨rfl, rfl, rfl, cl, hclass, hquoted⟩, ⟨rfl, rfl, rfl, cl, hclass, hplain⟩, rfl, rfl, rfl,
      rfl, cl, hclass, hconfig.config_eq⟩

/-- Other needs for both of two steps leave them alike. -/
theorem Workflow.AlikeThroughout.withNeeds {x y : CompiledStep} (h : w.AlikeThroughout settings x y)
    (needs : List String) :
    w.AlikeThroughout settings { x with needs } { y with needs } := by
  obtain ⟨⟨b, hreached, s, hs, hquoted, hplain, hid, htitle, hstatus, -, hconfig⟩, hinline⟩ := h
  refine ⟨⟨b, hreached, s, hs, ?_, ?_, hid, htitle, hstatus, rfl, hconfig⟩, hinline⟩
  · exact ⟨hquoted.id_eq, hquoted.status_eq, rfl, hquoted.config⟩
  · exact ⟨hplain.id_eq, hplain.status_eq, rfl, hplain.config⟩

theorem Workflow.AlikeThroughout.id_eq {x y : CompiledStep} (h : w.AlikeThroughout settings x y) :
    y.id = x.id := by
  obtain ⟨⟨b, -, s, -, hfrom⟩, -⟩ := h
  exact hfrom.id_eq

theorem Workflow.AlikeThroughout.needs_eq {x y : CompiledStep}
    (h : w.AlikeThroughout settings x y) : y.needs = x.needs := by
  obtain ⟨⟨b, -, s, -, hfrom⟩, -⟩ := h
  exact hfrom.needs_eq

/-- What is alike is so in order. -/
theorem relates_inOrder {compiled compiled' : List CompiledStep}
    (h : List.Forall₂ (w.AlikeThroughout settings) compiled compiled') :
    Relates Session.Alike (List.Forall₂ (w.AlikeThroughout settings))
      (ofExcept (inOrder compiled) : Compiling (List CompiledStep))
      (ofExcept (inOrder compiled')) :=
  relates_ofExcept fun _ _ =>
    forall₂_inOrder (fun _ _ hxy => hxy.id_eq) (fun _ _ hxy => hxy.needs_eq) h

theorem relates_compileInline_of_members {steps : List Step} {parent : String}
    (h : ∀ i ∈ steps, Relates Session.Alike (w.AlikeThroughout settings)
      (compileStep (settings.quoting true) (fullId (some parent) i.id) i)
      (compileStep (settings.quoting false) (fullId (some parent) i.id) i)) :
    Relates Session.Alike (List.Forall₂ (w.AlikeThroughout settings))
      (compileInline (settings.quoting true) steps parent)
      (compileInline (settings.quoting false) steps parent) := by
  rw [compileInline, compileInline, inlineBatch, inlineBatch, compileMembers_eq_each,
    compileMembers_eq_each]
  refine (matches_ofExcept _).bind_relates fun _ => (relates_each fun i hi => ?_).bind
    fun _ _ hall => relates_inOrder hall
  exact (h i hi).bind fun x y hxy => relates_pure (hxy.withNeeds _)

/-- The steps of a batch are alike throughout. -/
theorem relates_compileStep {b : Batch} (hreached : w.ReachedBatch b) (hs : s ∈ b.steps) :
    Relates Session.Alike (w.AlikeThroughout settings)
      (compileStep (settings.quoting true) (b.fullId s) s)
      (compileStep (settings.quoting false) (b.fullId s) s) := by
  -- the batches inside are smaller
  induction hsize : sizeOf b.steps using Nat.strongRecOn generalizing b s with
  | ind size ih =>
    refine relates_compileStep_of_inline hreached hs fun hbranch o t ht hinline => ?_
    have hunder : b.UnderBranch (b.inside s t) := ⟨s, hs, hbranch, o, t, ht, hinline, rfl⟩
    have hlt := hunder.inside.sizeOf_lt
    rw [hsize] at hlt
    exact relates_compileInline_of_members fun i hi => ih _ hlt (hreached.tail hunder) hi rfl

end Steps

/-- Where a workflow compiles with quoting and without it, there are the same steps at the same
positions, and all their fields are the same but for the commands of shell steps and the conditions
of branches that are no gates. -/
theorem Compiler.alike_but_commands {c : Compiler} {d : Disk} {w : Workflow} {inputs : Fields String}
    {out out' : List CompiledStep} (h : ((c.quoting true).compile d w inputs).1 = .ok out)
    (h' : ((c.quoting false).compile d w inputs).1 = .ok out') : w.AlikeTrees c.settings out out' := by
  obtain ⟨-, vars, hvars, compiled, hsteps, horder⟩ := Compiler.compile_eq_ok_iff.1 h
  obtain ⟨-, vars', hvars', compiled', hsteps', horder'⟩ := Compiler.compile_eq_ok_iff.1 h'
  cases hvars.symm.trans hvars'
  have hrelates : Relates Session.Alike (List.Forall₂ (w.AlikeThroughout c.settings))
      (compileSteps (c.settings.quoting true) w.steps)
      (compileSteps (c.settings.quoting false) w.steps) :=
    relates_each fun s hs => relates_compileStep (b := w.topBatch) .refl hs
  have hall := (hrelates _ _ (Context.Remembers.refl _).alike _ _ _ _ (Prod.ext hsteps rfl)
    (Prod.ext hsteps' rfl)).1
  exact Workflow.alikeTrees_of_forall₂ (forall₂_inOrder (fun _ _ hxy => hxy.id_eq)
    (fun _ _ hxy => hxy.needs_eq) hall horder horder')

/-- A branch with an inline step, both with a value that is quoted in their commands. -/
def copyWorkflow : Workflow :=
  { name := "copy"
    vars := [("target", { default := some (.str "my files") })]
    steps :=
      [{ id := "check", executor := some "branch", condition := some "test -d {{target}}"
         prompt := some "copy to {{target}}?"
         onTrue := some
           { inline :=
               [{ id := "run", executor := some "shell", command := some "cp a {{target}}"
                  title := some "to {{target}}" }] } }] }

/-- A compiler for it. -/
def copyCompiler : Compiler := { settings := { workflowId := "run" }, session := {} }

/-- It compiles with quoting and without it, and but for commands to the same. -/
theorem copyWorkflow_alike :
    ∃ out out', ((copyCompiler.quoting true).compile {} copyWorkflow []).1 = .ok out ∧
      ((copyCompiler.quoting false).compile {} copyWorkflow []).1 = .ok out' ∧
      copyWorkflow.AlikeTrees copyCompiler.settings out out' := by
  have hcompiles : ∀ quoted,
      ((copyCompiler.quoting quoted).compile {} copyWorkflow []).1.toOption.isSome = true := by
    decide +kernel
  obtain ⟨out, hout⟩ := Option.isSome_iff_exists.1 (hcompiles true)
  obtain ⟨out', hout'⟩ := Option.isSome_iff_exists.1 (hcompiles false)
  have hok := eq_ok_of_toOption_eq_some hout
  have hok' := eq_ok_of_toOption_eq_some hout'
  exact ⟨out, out', hok, hok', Compiler.alike_but_commands hok hok'⟩

end WorkflowCompiler
