import WorkflowCompiler.Proofs.Compilation.Schedule

/-!
# The tree of compiled steps

The inline steps of a compiled branch are compiled steps again, so that a workflow compiles to
a tree. Its steps come from the batches that are reached through branches (`ReachedBatch`):
each step of such a batch has a compiled one (`exists_inTree`), and every compiled step comes
from one (`InTree.exists_from`).
-/

namespace WorkflowCompiler

/-- A compiled step is one of the inline steps of a compiled branch. -/
def CompiledStep.Child (c child : CompiledStep) : Prop :=
  ∃ config o ct, c.config = .branch config ∧ config.target? o = some ct ∧ child ∈ ct.steps

/-- A compiled step is one of these or stands inside of one, at any depth. -/
def InTree (out : List CompiledStep) (c : CompiledStep) : Prop :=
  ∃ root ∈ out, Relation.ReflTransGen CompiledStep.Child root c

/-- The step is a branch. -/
def Step.IsBranch (s : Step) : Prop := ∃ cl, s.classify? = some cl ∧ cl.executor = .branch

/-- A batch stands directly in another one, as inline steps of a branch. Those of other steps
are not compiled. -/
def Batch.UnderBranch (b inner : Batch) : Prop :=
  ∃ s ∈ b.steps, s.IsBranch ∧ ∃ o t, s.target? o = some t ∧ t.inline ≠ [] ∧ inner = b.inside s t

/-- A batch of a workflow that is reached through branches. -/
def Workflow.ReachedBatch (w : Workflow) (b : Batch) : Prop :=
  Relation.ReflTransGen Batch.UnderBranch w.topBatch b

theorem Batch.UnderBranch.inside {b inner : Batch} (h : b.UnderBranch inner) : b.Inside inner := by
  obtain ⟨s, hs, -, o, t, ht, hinline, hinner⟩ := h
  exact ⟨s, hs, o, t, ht, hinline, hinner⟩

theorem Workflow.ReachedBatch.hasBatch {w : Workflow} {b : Batch} (h : w.ReachedBatch b) :
    w.HasBatch b :=
  Relation.ReflTransGen.mono (fun _ _ => Batch.UnderBranch.inside) _ _ h

/-- Where no step has a target, no other batch is reached. -/
theorem Workflow.ReachedBatch.eq_topBatch {w : Workflow} {b : Batch} (h : w.ReachedBatch b)
    (htargets : ∀ s ∈ w.steps, ∀ o, s.target? o = none) : b = w.topBatch := by
  induction h with
  | refl => rfl
  | tail _ hunder ih =>
    obtain ⟨s, hs, -, o, t, ht, -, -⟩ := hunder
    rw [ih] at hs
    rw [htargets s hs o] at ht
    cases ht

theorem Config.exists_of_executor_eq_branch {σ : Type} {config : Config σ}
    (h : config.executor = .branch) : ∃ c, config = .branch c := by
  cases config with
  | branch c => exact ⟨c, rfl⟩
  | _ => cases h

section Tree

variable {settings : RunSettings} {w : Workflow} {out : List CompiledStep}

theorem CompiledFrom.isBranch {id : String} {s : Step} {needs : List String} {c : CompiledStep}
    (h : CompiledFrom settings id needs s c) {config : BranchConfig CompiledStep}
    (hc : c.config = .branch config) : s.IsBranch := by
  obtain ⟨cl, hclass, hconfig⟩ := h.config
  rw [hc] at hconfig
  exact ⟨cl, hclass, (executor_of_yields hconfig).symm⟩

/-- The inline steps of a target of a branch are the steps of a compiled target. -/
theorem CompiledFrom.exists_target {b : Batch} {s : Step} {needs : List String} {c : CompiledStep}
    (h : CompiledFrom settings (b.fullId s) needs s c) (hbranch : s.IsBranch) {o : Outcome}
    {t : Target Step} (ht : s.target? o = some t) (hinline : t.inline ≠ []) :
    ∃ config ct, c.config = .branch config ∧ config.target? o = some ct ∧
      CompiledBatch settings (b.inside s t) ct.steps := by
  obtain ⟨cl, hclass, hconfig⟩ := h.config
  obtain ⟨cl', hclass', hexecutor⟩ := hbranch
  rw [hclass, Option.some.injEq] at hclass'
  subst hclass'
  obtain ⟨config, hc⟩ :=
    Config.exists_of_executor_eq_branch ((executor_of_yields hconfig).trans hexecutor)
  rw [hc] at hconfig
  have hyields := outcome_of_yields hconfig o
  rw [ht] at hyields
  obtain ⟨ct, hct⟩ := exists_target_of_yields hyields
  rw [hct] at hyields
  obtain ⟨t', ht', hsteps⟩ := steps_of_outcome_yields hyields
  rw [Option.some.injEq] at ht'
  subst ht'
  rw [if_neg hinline] at hsteps
  exact ⟨config, ct, hc, hct, .of_inline_yields hsteps _⟩

/-- The compiled steps of a target are those of a target of a branch. -/
theorem CompiledFrom.exists_batch {b : Batch} {s : Step} {needs : List String} {c : CompiledStep}
    (h : CompiledFrom settings (b.fullId s) needs s c) {config : BranchConfig CompiledStep}
    {o : Outcome} {ct : CompiledTarget CompiledStep} (hc : c.config = .branch config)
    (hct : config.target? o = some ct) (hsteps : ct.steps ≠ []) :
    s.IsBranch ∧ ∃ t, s.target? o = some t ∧ t.inline ≠ [] ∧
      CompiledBatch settings (b.inside s t) ct.steps := by
  have hbranch := h.isBranch hc
  obtain ⟨cl, hclass, hconfig⟩ := h.config
  rw [hc] at hconfig
  have hyields := outcome_of_yields hconfig o
  rw [hct] at hyields
  obtain ⟨t, ht, hcompiled⟩ := steps_of_outcome_yields hyields
  refine ⟨hbranch, t, ht, ?_⟩
  by_cases hinline : t.inline = []
  · rw [if_pos hinline] at hcompiled
    exact absurd hcompiled hsteps
  · rw [if_neg hinline] at hcompiled
    exact ⟨hinline, .of_inline_yields hcompiled _⟩

/-- A child of a compiled step comes from an inline step. -/
theorem CompiledFrom.exists_inside {b : Batch} {s : Step} {needs : List String}
    {c child : CompiledStep} (h : CompiledFrom settings (b.fullId s) needs s c)
    (hs : s ∈ b.steps) (hchild : c.Child child) :
    ∃ inner, b.UnderBranch inner ∧ ∃ i ∈ inner.steps,
      CompiledFrom settings (inner.fullId i) (inner.compiledNeeds i) i child := by
  obtain ⟨config, o, ct, hc, hct, hmem⟩ := hchild
  obtain ⟨hbranch, t, ht, hinline, hbatch⟩ := h.exists_batch hc hct (List.ne_nil_of_mem hmem)
  exact ⟨b.inside s t, ⟨s, hs, hbranch, o, t, ht, hinline, rfl⟩, hbatch.from_step child hmem⟩

/-- A step of a batch that is reached is in the tree. -/
theorem CompiledBatch.exists_inTree (hout : CompiledBatch settings w.topBatch out) {b : Batch}
    (hreached : w.ReachedBatch b) {s : Step} (hs : s ∈ b.steps) :
    ∃ c, InTree out c ∧ CompiledFrom settings (b.fullId s) (b.compiledNeeds s) s c := by
  induction hreached generalizing s with
  | refl =>
    obtain ⟨c, hc, hfrom⟩ := hout.exists_compiled hs
    exact ⟨c, ⟨c, hc, .refl⟩, hfrom⟩
  | tail _ hunder ih =>
    -- the branch around the batch is in the tree, and the batch was compiled for its target
    obtain ⟨p, hp, hbranch, o, t, ht, hinline, rfl⟩ := hunder
    obtain ⟨c, ⟨root, hroot, hway⟩, hfrom⟩ := ih hp
    obtain ⟨config, ct, hc, hct, hbatch⟩ := hfrom.exists_target hbranch ht hinline
    obtain ⟨child, hchild, hchildFrom⟩ := hbatch.exists_compiled hs
    exact ⟨child, ⟨root, hroot, hway.tail ⟨config, o, ct, hc, hct, hchild⟩⟩, hchildFrom⟩

/-- A step of the tree comes from a step of a batch that stands in the outermost one. -/
theorem CompiledBatch.exists_below {top : Batch} (hout : CompiledBatch settings top out)
    {c : CompiledStep} (hc : InTree out c) :
    ∃ b, Relation.ReflTransGen Batch.UnderBranch top b ∧ ∃ s ∈ b.steps,
      CompiledFrom settings (b.fullId s) (b.compiledNeeds s) s c := by
  obtain ⟨root, hroot, hway⟩ := hc
  induction hway with
  | refl =>
    obtain ⟨s, hs, hfrom⟩ := hout.from_step root hroot
    exact ⟨top, .refl, s, hs, hfrom⟩
  | tail _ hchild ih =>
    obtain ⟨b, hreached, s, hs, hfrom⟩ := ih
    obtain ⟨inner, hunder, i, hi, hinner⟩ := hfrom.exists_inside hs hchild
    exact ⟨inner, hreached.tail hunder, i, hi, hinner⟩

/-- In a workflow, it comes from a step of a batch that is reached. -/
theorem CompiledBatch.exists_from (hout : CompiledBatch settings w.topBatch out)
    {c : CompiledStep} (hc : InTree out c) :
    ∃ b, w.ReachedBatch b ∧ ∃ s ∈ b.steps,
      CompiledFrom settings (b.fullId s) (b.compiledNeeds s) s c :=
  hout.exists_below hc

end Tree

end WorkflowCompiler
