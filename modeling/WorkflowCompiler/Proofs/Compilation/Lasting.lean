import WorkflowCompiler.Proofs.Compilation.Composed
import WorkflowCompiler.Proofs.Context.Substitution

/-!
# What lasts through a compilation

A property of contexts *lasts* if everything that a compilation does to a context keeps it up
(`Lasting`). It may depend on the names that a repetition binds late at the moment. If it holds when
the steps of a workflow are begun, every step of the compiled tree was compiled where it holds
(`Lasting.exists_compiledWhere`).
-/

namespace WorkflowCompiler

open Attempt

/-- The property is kept up by everything a compilation does to a context. -/
structure Lasting (P : List String → Context → Prop) : Prop where
  /-- resolving keeps outputs -/
  remembers : ∀ {late : List String} {c c' : Context}, P late c → c.Remembers c' → P late c'
  /-- a step is entered -/
  enter : ∀ {c : Context} (id : String), P [] c → P [] (c.enter id)
  /-- the agent of a step is bound -/
  withAgent : ∀ {c : Context} (agent : String), P [] c → P [] (c.withAgent agent)
  /-- names are bound late -/
  bindAll : ∀ {c : Context} (names : List String), P [] c → P names (c.bindAll names)
  /-- names are no longer bound late -/
  unbindAll : ∀ {c : Context} (names : List String), P names c → P [] (c.unbindAll names)

/-- The context of the session has the property. -/
def Session.Where (P : Context → Prop) (s : Session) : Prop := P s.context

/-! ## Preservation -/

section Reads

variable {P : Context → Prop} {α : Type}

/-- A computation that reads the context preserves what outputs that are kept do not end. -/
theorem Reads.preserves (hP : ∀ {c c' : Context}, P c → c.Remembers c' → P c') {x : Compiling α}
    {f : Context → Except CompileError α} (h : Reads x f) : x.Preserves (Session.Where P) := by
  intro s hs
  obtain ⟨s', hx, hremembers⟩ := h s
  rw [hx]
  exact hP hs hremembers

theorem reads_text (step field value : String) :
    Reads (Compiling.text step field value) fun c =>
      (c.substituteIn value).mapError (.field step field) :=
  (reads_substitute value).mapError _

theorem preserves_command (hP : ∀ {c c' : Context}, P c → c.Remembers c' → P c') (quoted : Bool)
    (step field value : String) :
    (Compiling.command quoted step field value).Preserves (Session.Where P) := by
  cases quoted with
  | false => exact (reads_text step field value).preserves hP
  | true => exact ((reads_substituteShell value).mapError _).preserves hP

theorem preserves_nameAgent (hP : ∀ {c c' : Context}, P c → c.Remembers c' → P c')
    (hagent : ∀ {c : Context} (agent : String), P c → P (c.withAgent agent))
    (settings : RunSettings) (id : String) (d : Declaration) :
    (nameAgent settings id d).Preserves (Session.Where P) := by
  refine Preserves.bind ?_ fun agent => ?_
  · rw [agentOf]
    cases d.agentName with
    | none => exact fun s hs => hs
    | some raw => exact ((reads_text id _ raw).preserves hP).bind fun _ s hs => hs
  · cases agent with
    | none => exact fun s hs => hs
    | some agent => exact fun s hs => hagent agent hs

/-- While names are bound late, only outputs are kept. -/
theorem Composed.preserves_of_late (hP : ∀ {c c' : Context}, P c → c.Remembers c' → P c')
    {A : Allowance} {late : List String} {x : Compiling α} (h : Composed A late x)
    (hlate : late ≠ []) : x.Preserves (Session.Where P) := by
  induction h with
  | pure _ => exact fun s hs => hs
  | ofExcept _ => exact fun s hs => hs
  | text _ => exact (reads_text _ _ _).preserves hP
  | command _ => exact preserves_command hP _ _ _ _
  | enter _ => exact absurd rfl hlate
  | nameAgent _ _ => exact absurd rfl hlate
  | repeating _ _ _ => exact absurd rfl hlate
  | bind _ _ ihx ihf => exact (ihx hlate).bind fun a => ihf a hlate

end Reads

section Preserves

variable {P : List String → Context → Prop} {late : List String} {α : Type}

theorem Lasting.preserves_nameAgent (hP : Lasting P) (settings : RunSettings) (id : String)
    (d : Declaration) : (nameAgent settings id d).Preserves (Session.Where (P [])) :=
  WorkflowCompiler.preserves_nameAgent hP.remembers hP.withAgent settings id d

/-- What is composed preserves what lasts, however it ends. -/
theorem Lasting.preserves (hP : Lasting P) {A : Allowance} {x : Compiling α}
    (h : Composed A late x) : x.Preserves (Session.Where (P late)) := by
  induction h with
  | pure _ => exact fun s hs => hs
  | ofExcept _ => exact fun s hs => hs
  | text _ => exact (reads_text _ _ _).preserves hP.remembers
  | command _ => exact preserves_command hP.remembers _ _ _ _
  | enter _ => exact fun s hs => hP.enter _ hs
  | nameAgent _ _ => exact hP.preserves_nameAgent _ _ _
  | repeating _ _ ih => exact fun s hs => hP.unbindAll _ (ih _ (hP.bindAll _ hs))
  | bind _ _ ihx ihf => exact ihx.bind ihf

end Preserves

/-! ## Inside of steps -/

section Steps

variable {P : List String → Context → Prop} {settings : RunSettings} {id name : String} {s : Step}

/-- A step that is compiled where the property holds has its fields compiled where it holds. -/
theorem Lasting.config_yieldsFrom (hP : Lasting P) {c : CompiledStep}
    (h : (compileStep settings id s).YieldsFrom (Session.Where (P [])) c) :
    ∃ cl, s.classify? = some cl ∧
      (Compiling.optional id "title" s.title).YieldsFrom (Session.Where (P [])) c.title ∧
      (compileConfig settings id s cl).YieldsFrom (Session.Where (P [])) c.config := by
  rw [compileStep_eq_entered] at h
  obtain ⟨-, -, h⟩ := h.of_bind (hP.preserves (.enter (A := .any) trivial))
  obtain ⟨-, -, h⟩ := h.of_bind (hP.preserves_nameAgent settings id s.toDeclaration)
  rcases hclass : s.classify? with _ | cl
  · rw [hclass] at h
    exact absurd h.yields not_yields_fail
  · rw [hclass] at h
    have htitle : Composed .any [] (Compiling.optional id "title" s.title) :=
      .optional fun _ _ => trivial
    obtain ⟨title, htitle, h⟩ := h.of_bind (hP.preserves htitle)
    obtain ⟨config, hconfig, rfl⟩ := h.of_map
    exact ⟨cl, rfl, htitle, hconfig⟩

/-- So has a branch its outcomes. -/
theorem Lasting.outcome_yieldsFrom (hP : Lasting P) {cl : Classification}
    {config : BranchConfig CompiledStep}
    (h : (compileConfig settings id s cl).YieldsFrom (Session.Where (P [])) (.branch config))
    (o : Outcome) :
    (compileOutcome settings id o.name (s.target? o)).YieldsFrom (Session.Where (P []))
      (config.target? o) := by
  have hexecutor : cl.executor = .branch := (executor_of_yields h.yields).symm
  have hfields : Composed .any [] (branchFields settings id s.toDeclaration cl.gate) :=
    composed_branchFields fun _ _ => trivial
  have houtcome := fun name target => hP.preserves (composed_any_outcome settings id name target)
  rw [compileConfig, hexecutor] at h
  obtain ⟨fields, -, h⟩ := h.of_bind (hP.preserves hfields)
  obtain ⟨onTrue, htrue, h⟩ := h.of_bind (houtcome _ _)
  obtain ⟨onFalse, hfalse, h⟩ := h.of_bind (houtcome _ _)
  obtain ⟨onTimeout, htimeout, h⟩ := h.of_bind (houtcome _ _)
  cases h.yields.eq_of_pure
  cases o with
  | onTrue => exact htrue
  | onFalse => exact hfalse
  | onTimeout => exact htimeout

/-- And a target its inline steps. -/
theorem Lasting.inline_yieldsFrom (hP : Lasting P) {t : Target Step}
    {ct : CompiledTarget CompiledStep}
    (h : (compileOutcome settings id name (some t)).YieldsFrom (Session.Where (P [])) (some ct))
    (hinline : t.inline ≠ []) :
    (compileInline settings t.inline id).YieldsFrom (Session.Where (P [])) ct.steps := by
  rw [compileOutcome_some, if_neg hinline] at h
  obtain ⟨steps, hsteps, h⟩ := h.of_bind (hP.preserves (composed_any_inline settings t.inline id))
  obtain ⟨template, -, h⟩ := h.yields.of_bind
  obtain ⟨vars, -, h⟩ := h.of_bind
  cases h.eq_of_pure
  exact hsteps

/-- The compiled step is what a step of a batch compiles to where the property holds, but for the
needs of an inline step. -/
def CompiledWhere (P : Context → Prop) (settings : RunSettings) (b : Batch) (s : Step)
    (c : CompiledStep) : Prop :=
  ∃ c', (compileStep settings (b.fullId s) s).YieldsFrom (Session.Where P) c' ∧
    c = { c' with needs := b.compiledNeeds s }

theorem CompiledWhere.compiledFrom {Q : Context → Prop} {b : Batch} {c : CompiledStep}
    (h : CompiledWhere Q settings b s c) :
    CompiledFrom settings (b.fullId s) (b.compiledNeeds s) s c := by
  obtain ⟨c', hyields, rfl⟩ := h
  obtain ⟨hid, hstatus, -, hconfig⟩ := compiledFrom_of_yields hyields.yields
  exact ⟨hid, hstatus, rfl, hconfig⟩

/-- Inline steps are compiled where the property holds, one by one. -/
theorem Lasting.member_compiledWhere (hP : Lasting P) {steps : List Step} {parent : String}
    {out : List CompiledStep}
    (h : (compileInline settings steps parent).YieldsFrom (Session.Where (P [])) out)
    (outer : List String) {c : CompiledStep} (hc : c ∈ out) :
    ∃ i ∈ steps, CompiledWhere (P []) settings { parent := some parent, outer, steps } i c := by
  have hmember := fun batch i => hP.preserves (composed_any_member settings parent batch i)
  obtain ⟨⟨⟩, -, h⟩ := h.of_bind fun _ hs => hs
  rw [compileMembers_eq_each] at h
  obtain ⟨compiled, hcompiled, h⟩ := h.of_bind (Preserves.each fun i _ => hmember _ i)
  obtain ⟨i, hi, hfrom⟩ := exists_of_mem_forall₂ (hcompiled.of_each fun i _ => hmember _ i)
    (mem_of_inOrder h.yields.eq_of_ofExcept hc)
  obtain ⟨c', hc', rfl⟩ := hfrom.of_map
  exact ⟨i, hi, c', hc', rfl⟩

end Steps

/-! ## The tree -/

section Tree

variable {P : List String → Context → Prop} {settings : RunSettings} {w : Workflow}

/-- A child of a compiled step was compiled where the property holds, if the step was. -/
theorem Lasting.child_compiledWhere (hP : Lasting P) {b : Batch} {s : Step} (hs : s ∈ b.steps)
    {c child : CompiledStep} (h : CompiledWhere (P []) settings b s c) (hchild : c.Child child) :
    ∃ inner, b.UnderBranch inner ∧
      ∃ i ∈ inner.steps, CompiledWhere (P []) settings inner i child := by
  obtain ⟨config, o, ct, hc, hct, hmem⟩ := hchild
  obtain ⟨c', hyields, rfl⟩ := h
  obtain ⟨cl, hclass, -, hconfig⟩ := hP.config_yieldsFrom hyields
  simp only at hc
  rw [hc] at hconfig
  have hbranch : s.IsBranch := ⟨cl, hclass, (executor_of_yields hconfig.yields).symm⟩
  have houtcome := hP.outcome_yieldsFrom hconfig o
  rw [hct] at houtcome
  obtain ⟨t, ht, hsteps⟩ := steps_of_outcome_yields houtcome.yields
  rw [ht] at houtcome
  have hinline : t.inline ≠ [] := by
    intro hnil
    rw [if_pos hnil] at hsteps
    rw [hsteps] at hmem
    cases hmem
  obtain ⟨i, hi, hwhere⟩ :=
    hP.member_compiledWhere (hP.inline_yieldsFrom houtcome hinline) (b.inside s t).outer hmem
  exact ⟨b.inside s t, ⟨s, hs, hbranch, o, t, ht, hinline, rfl⟩, i, hi, hwhere⟩

theorem CompiledStep.eq_of_needs_eq (c : CompiledStep) {needs : List String}
    (h : c.needs = needs) : c = { c with needs } := by
  cases c
  cases h
  rfl

/-- Every step of the tree was compiled where the property holds, if it held when the steps of the
workflow were begun. -/
theorem Lasting.exists_compiledWhere (hP : Lasting P) {run : Session} (hrun : P [] run.context)
    {compiled out : List CompiledStep}
    (hsteps : (compileSteps settings w.steps run).1 = .ok compiled)
    (horder : inOrder compiled = .ok out) {c : CompiledStep} (hc : InTree out c) :
    ∃ b, w.ReachedBatch b ∧ ∃ s ∈ b.steps, CompiledWhere (P []) settings b s c := by
  obtain ⟨root, hroot, hway⟩ := hc
  induction hway with
  | refl =>
    have hyields : (compileSteps settings w.steps).YieldsFrom (Session.Where (P [])) compiled :=
      yieldsFrom_of_fst_eq_ok hrun hsteps
    obtain ⟨s, hs, hstep⟩ := exists_of_mem_forall₂
      (hyields.of_each fun s _ => hP.preserves (composed_any_step settings s.id s))
      (mem_of_inOrder horder hroot)
    obtain ⟨-, -, hneeds, -⟩ := compiledFrom_of_yields hstep.yields
    exact ⟨w.topBatch, .refl, s, hs, root, hstep, root.eq_of_needs_eq hneeds⟩
  | tail _ hchild ih =>
    obtain ⟨b, hreached, s, hs, hwhere⟩ := ih
    obtain ⟨inner, hinner, i, hi, hwhere⟩ := hP.child_compiledWhere hs hwhere hchild
    exact ⟨inner, hreached.tail hinner, i, hi, hwhere⟩

end Tree

end WorkflowCompiler
