import WorkflowCompiler.Compilation.Workflow
import WorkflowCompiler.Proofs.Attempts
import WorkflowCompiler.Proofs.Compilation.Ordering

/-!
# What compiled steps come from

The recursive functions that compile steps are taken apart here: an equation for each of them
(`compileStep_eq`, `compileOutcome_some`, `compileMembers_eq_each`), and what is known of a
step, a target and a batch that were compiled.

* `CompiledFrom` — a compiled step, seen from the step it comes from;
* `CompiledBatch` — compiled siblings, seen from the batch they come from.
-/

namespace WorkflowCompiler

open Attempt

/-! ## Equations -/

/-- The configuration of a step whose classification is known. -/
def compileConfig (settings : RunSettings) (id : String) (s : Step) (c : Classification) :
    Compiling (Config CompiledStep) :=
  match c.executor with
  | .shell => shellConfig settings id s.toDeclaration >>= fun config => pure (.shell config)
  | .spawn => spawnConfig id s.toDeclaration >>= fun config => pure (.spawn config)
  | .kill => killConfig id s.toDeclaration >>= fun config => pure (.kill config)
  | .expand => expandConfig id s.toDeclaration >>= fun config => pure (.expand config)
  | .foreach => foreachConfig id s.toDeclaration >>= fun config => pure (.foreach config)
  | .agent => agentConfig settings id s.toDeclaration >>= fun config => pure (.agent config)
  | .branch => do
    let config ← branchFields settings id s.toDeclaration c.gate
    let onTrue ← compileOutcome settings id Outcome.onTrue.name s.onTrue
    let onFalse ← compileOutcome settings id Outcome.onFalse.name s.onFalse
    let onTimeout ← compileOutcome settings id Outcome.onTimeout.name s.onTimeout
    pure (.branch { config with onTrue, onFalse, onTimeout })

theorem compileStep_eq (settings : RunSettings) (id : String) (s : Step) :
    compileStep settings id s = (do
      Compiling.update (·.atStep id)
      bindAgent settings id s.toDeclaration
      match s.classify? with
      | none => fail (unsupportedStep id s.toDeclaration)
      | some c => do
        let title ← Compiling.optional id "title" s.title
        let config ← compileConfig settings id s c
        pure { id, title, needs := s.needs, config }) := by
  obtain ⟨d, onTrue, onFalse, onTimeout⟩ := s
  rw [compileStep]
  rfl

/-- A target is compiled by compiling its inline steps, if there are any, and its fields. -/
theorem compileOutcome_some (settings : RunSettings) (id name : String) (t : Target Step) :
    compileOutcome settings id name (some t) = (do
      let steps ← (if t.inline = [] then pure [] else compileInline settings t.inline id)
      let template ← Compiling.optional id (name ++ ".template") t.template
      let vars ← Compiling.values id (name ++ ".variables") t.vars
      pure (some { template, vars, steps })) := by
  obtain ⟨template, vars, inline⟩ := t
  rw [compileOutcome]
  cases inline with
  | nil => rfl
  | cons => rfl

/-- Compiles an inline step. -/
def compileMember (settings : RunSettings) (parent : String) (batch : List String) (s : Step) :
    Compiling CompiledStep := do
  let compiled ← compileStep settings (fullId (some parent) s.id) s
  pure { compiled with needs := inlineNeeds parent batch s.needs }

theorem compileMembers_eq_each (settings : RunSettings) (parent : String)
    (batch : List String) (steps : List Step) :
    compileMembers settings parent batch steps =
      each (compileMember settings parent batch) steps := by
  induction steps with
  | nil => rw [compileMembers, each_nil]
  | cons s steps ih =>
    rw [compileMembers, each_cons, ih, compileMember, bind_assoc]
    rfl

/-! ## Steps -/

/-- A compiled step, seen from the step it comes from. -/
structure CompiledFrom (settings : RunSettings) (id : String) (needs : List String) (s : Step)
    (c : CompiledStep) : Prop where
  /-- it has the id under which it was compiled -/
  id_eq : c.id = id
  /-- it was not run yet -/
  status_eq : c.status = .pending
  /-- it has the needs it was given -/
  needs_eq : c.needs = needs
  /-- its configuration is one of its classification -/
  config : ∃ cl, s.classify? = some cl ∧ (compileConfig settings id s cl).Yields c.config

theorem compiledFrom_of_yields {settings : RunSettings} {id : String} {s : Step}
    {c : CompiledStep} (h : (compileStep settings id s).Yields c) :
    CompiledFrom settings id s.needs s c := by
  rw [compileStep_eq] at h
  obtain ⟨-, -, h⟩ := h.of_bind
  obtain ⟨-, -, h⟩ := h.of_bind
  rcases hclass : s.classify? with _ | cl
  · rw [hclass] at h
    exact absurd h not_yields_fail
  · rw [hclass] at h
    obtain ⟨title, -, h⟩ := h.of_bind
    obtain ⟨config, hconfig, h⟩ := h.of_bind
    cases h.eq_of_pure
    exact ⟨rfl, rfl, rfl, cl, hclass, hconfig⟩

/-- An inline step is compiled like any other, but for its id and its needs. -/
theorem compiledFrom_of_member_yields {settings : RunSettings} {parent : String}
    {batch : List String} {s : Step} {c : CompiledStep}
    (h : (compileMember settings parent batch s).Yields c) :
    CompiledFrom settings (fullId (some parent) s.id) (inlineNeeds parent batch s.needs) s c := by
  obtain ⟨compiled, hcompiled, h⟩ := h.of_bind
  cases h.eq_of_pure
  obtain ⟨hid, hstatus, -, hconfig⟩ := compiledFrom_of_yields hcompiled
  exact ⟨hid, hstatus, rfl, hconfig⟩

/-- A configuration is one for the executor of the step. -/
theorem executor_of_yields {settings : RunSettings} {id : String} {s : Step}
    {cl : Classification} {config : Config CompiledStep}
    (h : (compileConfig settings id s cl).Yields config) : config.executor = cl.executor := by
  rw [compileConfig] at h
  cases hexecutor : cl.executor with
  | branch =>
    simp only [hexecutor] at h
    obtain ⟨fields, -, h⟩ := h.of_bind
    obtain ⟨onTrue, -, h⟩ := h.of_bind
    obtain ⟨onFalse, -, h⟩ := h.of_bind
    obtain ⟨onTimeout, -, h⟩ := h.of_bind
    cases h.eq_of_pure
    rfl
  | _ =>
    simp only [hexecutor] at h
    obtain ⟨fields, -, h⟩ := h.of_bind
    cases h.eq_of_pure
    rfl

/-- A compiled branch has the compiled targets of the outcomes of its step. -/
theorem outcome_of_yields {settings : RunSettings} {id : String} {s : Step}
    {cl : Classification} {config : BranchConfig CompiledStep}
    (h : (compileConfig settings id s cl).Yields (.branch config)) (o : Outcome) :
    (compileOutcome settings id o.name (s.target? o)).Yields (config.target? o) := by
  have hexecutor : cl.executor = .branch := (executor_of_yields h).symm
  rw [compileConfig, hexecutor] at h
  obtain ⟨fields, -, h⟩ := h.of_bind
  obtain ⟨onTrue, htrue, h⟩ := h.of_bind
  obtain ⟨onFalse, hfalse, h⟩ := h.of_bind
  obtain ⟨onTimeout, htimeout, h⟩ := h.of_bind
  cases h.eq_of_pure
  cases o with
  | onTrue => exact htrue
  | onFalse => exact hfalse
  | onTimeout => exact htimeout

/-- A target is not lost. -/
theorem exists_target_of_yields {settings : RunSettings} {id name : String} {t : Target Step}
    {target : Option (CompiledTarget CompiledStep)}
    (h : (compileOutcome settings id name (some t)).Yields target) : ∃ ct, target = some ct := by
  rw [compileOutcome_some] at h
  obtain ⟨steps, -, h⟩ := h.of_bind
  obtain ⟨template, -, h⟩ := h.of_bind
  obtain ⟨vars, -, h⟩ := h.of_bind
  exact ⟨_, h.eq_of_pure⟩

/-- A compiled target holds the compiled inline steps of its target. -/
theorem steps_of_outcome_yields {settings : RunSettings} {id name : String}
    {target : Option (Target Step)} {ct : CompiledTarget CompiledStep}
    (h : (compileOutcome settings id name target).Yields (some ct)) :
    ∃ t, target = some t ∧
      if t.inline = [] then ct.steps = []
      else (compileInline settings t.inline id).Yields ct.steps := by
  cases target with
  | none =>
    rw [compileOutcome] at h
    cases h.eq_of_pure
  | some t =>
    rw [compileOutcome_some] at h
    obtain ⟨steps, hsteps, h⟩ := h.of_bind
    obtain ⟨template, -, h⟩ := h.of_bind
    obtain ⟨vars, -, h⟩ := h.of_bind
    cases h.eq_of_pure
    refine ⟨t, rfl, ?_⟩
    by_cases hinline : t.inline = []
    · rw [if_pos hinline]
      rw [if_pos hinline] at hsteps
      exact hsteps.eq_of_pure
    · rw [if_neg hinline]
      rw [if_neg hinline] at hsteps
      exact hsteps

/-! ## Batches -/

theorem fullId_injective (parent : Option String) : Function.Injective (fullId parent) := by
  intro a b h
  cases parent with
  | none => exact h
  | some parent =>
    have hlists := congrArg String.toList h
    simp only [fullId, String.toList_append] at hlists
    exact String.toList_inj.1 (List.append_cancel_left hlists)

/-- Inline steps are not compiled under the id of their branch. -/
theorem fullId_ne_parent (parent id : String) : fullId (some parent) id ≠ parent := by
  intro h
  have hlength := congrArg String.length h
  simp only [fullId, String.length_append] at hlength
  have hpoint : ".".length = 1 := rfl
  omega

namespace Batch

/-- The needs of a compiled sibling. -/
def compiledNeeds (b : Batch) (s : Step) : List String :=
  match b.parent with
  | none => s.needs
  | some parent => inlineNeeds parent b.ids s.needs

theorem map_fullId (b : Batch) :
    b.steps.map b.fullId = b.ids.map (WorkflowCompiler.fullId b.parent) := by
  rw [ids, List.map_map]
  rfl

/-- Compiles the steps of a batch, in the order in which they are declared. -/
def compileMembers (settings : RunSettings) (b : Batch) : Compiling (List CompiledStep) :=
  match b.parent with
  | none => compileSteps settings b.steps
  | some parent => WorkflowCompiler.compileMembers settings parent b.ids b.steps

/-- Compiles a batch: the steps of a workflow, or inline steps under the id of their branch. -/
def compile (settings : RunSettings) (b : Batch) : Compiling (List CompiledStep) :=
  match b.parent with
  | none => b.compileMembers settings >>= fun compiled => ofExcept (inOrder compiled)
  | some parent => inlineBatch parent b.steps (b.compileMembers settings)

/-- Each compiled step comes from the step in its place. -/
theorem compiledFrom_of_members_yields {settings : RunSettings} {b : Batch}
    {compiled : List CompiledStep} (h : (b.compileMembers settings).Yields compiled) :
    List.Forall₂ (fun s c => CompiledFrom settings (b.fullId s) (b.compiledNeeds s) s c)
      b.steps compiled := by
  obtain ⟨parent, outer, steps⟩ := b
  cases parent with
  | none => exact h.of_each.imp fun s c hc => compiledFrom_of_yields hc
  | some parent =>
    have heach : (each (compileMember settings parent (steps.map (·.id))) steps).Yields
        compiled := by
      rw [← compileMembers_eq_each]
      exact h
    exact heach.of_each.imp fun s c hc => compiledFrom_of_member_yields hc

theorem map_id_eq_of_forall₂ {settings : RunSettings} {b : Batch} {compiled : List CompiledStep}
    (h : List.Forall₂ (fun s c => CompiledFrom settings (b.fullId s) (b.compiledNeeds s) s c)
      b.steps compiled) : compiled.map (·.id) = b.steps.map b.fullId := by
  rw [eq_comm, ← List.forall₂_eq_eq_eq, List.forall₂_map_left_iff, List.forall₂_map_right_iff]
  exact h.imp fun s c hc => hc.id_eq.symm

end Batch

theorem exists_of_mem_forall₂ {α β : Type} {R : α → β → Prop} {l : List α} {m : List β}
    (h : List.Forall₂ R l m) {b : β} (hb : b ∈ m) : ∃ a ∈ l, R a b := by
  induction h with
  | nil => cases hb
  | cons hhead _ ih =>
    rcases List.mem_cons.1 hb with rfl | hb
    · exact ⟨_, List.mem_cons_self, hhead⟩
    · obtain ⟨a, ha, hR⟩ := ih hb
      exact ⟨a, List.mem_cons_of_mem _ ha, hR⟩

theorem requireValid_eq_ok_iff {order : SetOrder} {w : Workflow} :
    requireValid order w = .ok () ↔ w.findings = [] := by
  have hnone : w.findings order = [] ↔ w.findings = [] :=
    ⟨Workflow.findings_eq_nil_of_order, Workflow.findings_eq_nil_of_order⟩
  rw [← hnone, requireValid]
  cases w.findings order <;> simp

/-- Compiled siblings, seen from the batch they come from. -/
structure CompiledBatch (settings : RunSettings) (b : Batch) (out : List CompiledStep) :
    Prop where
  /-- there is one for every step of the batch -/
  ids_perm : (out.map (·.id)).Perm (b.steps.map b.fullId)
  /-- there is not more than one -/
  ids_nodup : (out.map (·.id)).Nodup
  /-- each comes from a step -/
  from_step : ∀ c ∈ out, ∃ s ∈ b.steps,
    CompiledFrom settings (b.fullId s) (b.compiledNeeds s) s c
  /-- what a step needs of its siblings stands before it -/
  needs_first : ∀ c ∈ out, ∀ need ∈ c.needs, need ∈ out.map (·.id) →
    (out.map (·.id)).idxOf need < (out.map (·.id)).idxOf c.id

namespace CompiledBatch

variable {settings : RunSettings} {b : Batch} {out : List CompiledStep}

theorem of_forall₂ {compiled : List CompiledStep} (hnodup : b.ids.Nodup)
    (hfrom : List.Forall₂ (fun s c => CompiledFrom settings (b.fullId s) (b.compiledNeeds s) s c)
      b.steps compiled) (h : inOrder compiled = .ok out) : CompiledBatch settings b out := by
  have hids := Batch.map_id_eq_of_forall₂ hfrom
  have hdistinct : (compiled.map (·.id)).Nodup := by
    rw [hids, Batch.map_fullId]
    exact hnodup.map (fullId_injective b.parent)
  have hperm := inOrder_perm hdistinct h
  have hidsPerm := hperm.map (·.id)
  refine ⟨hids ▸ hidsPerm, hidsPerm.nodup_iff.2 hdistinct, fun c hc => ?_, ?_⟩
  · exact exists_of_mem_forall₂ hfrom (hperm.mem_iff.1 hc)
  · intro c hc need hneed hmem
    exact idxOf_lt_of_inOrder hdistinct h (hperm.mem_iff.1 hc) hneed (hidsPerm.mem_iff.1 hmem)

/-- The ids of the steps that were compiled differ. -/
theorem nodup_fullIds (h : CompiledBatch settings b out) : (b.steps.map b.fullId).Nodup :=
  h.ids_perm.nodup_iff.1 h.ids_nodup

/-- Every step of the batch is there. -/
theorem exists_compiled (h : CompiledBatch settings b out) {s : Step} (hs : s ∈ b.steps) :
    ∃ c ∈ out, CompiledFrom settings (b.fullId s) (b.compiledNeeds s) s c := by
  have hid := h.ids_perm.mem_iff.2 (List.mem_map_of_mem hs)
  obtain ⟨c, hc, hcid⟩ := List.mem_map.1 hid
  obtain ⟨t, ht, hfrom⟩ := h.from_step c hc
  -- it comes from the step itself, as no other step of the batch has its id
  have hts : t = s :=
    List.inj_on_of_nodup_map h.nodup_fullIds ht hs (hfrom.id_eq.symm.trans hcid)
  exact ⟨c, hc, hts ▸ hfrom⟩

/-- Inline steps are compiled as the batch they are under their branch. -/
theorem of_inline_yields {steps : List Step} {parent : String}
    (h : (compileInline settings steps parent).Yields out) (outer : List String) :
    CompiledBatch settings { parent := some parent, outer, steps } out := by
  obtain ⟨⟨⟩, hcheck, h⟩ := h.of_bind
  obtain ⟨compiled, hcompiled, h⟩ := h.of_bind
  exact of_forall₂ (nodup_of_checkInline hcheck.eq_of_ofExcept)
    (Batch.compiledFrom_of_members_yields (b := { parent := some parent, outer, steps }) hcompiled)
    h.eq_of_ofExcept

/-- The steps of a workflow that compiles are compiled as the batch they are. -/
theorem of_workflow_yields {d : Disk} {w : Workflow} {inputs : Fields String}
    (h : (compileWorkflow settings d w inputs).Yields out) :
    w.findings = [] ∧ CompiledBatch settings w.topBatch out := by
  obtain ⟨⟨⟩, hvalid, h⟩ := h.of_bind
  have hfindings : w.findings = [] := requireValid_eq_ok_iff.1 hvalid.eq_of_ofExcept
  obtain ⟨-, -, h⟩ := h.of_bind
  obtain ⟨-, -, h⟩ := h.of_bind
  obtain ⟨compiled, hcompiled, h⟩ := h.of_bind
  have hnodup := (Workflow.wellFormed_of_hasBatch hfindings .refl).ids_distinct
  exact ⟨hfindings, of_forall₂ hnodup
    (Batch.compiledFrom_of_members_yields (b := w.topBatch) hcompiled) h.eq_of_ofExcept⟩

end CompiledBatch

end WorkflowCompiler
