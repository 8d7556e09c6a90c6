import Mathlib.Data.List.Perm.Basic
import WorkflowCompiler.Proofs.Validation.Rules

/-!
# The order of declaration does not matter to a validation

A batch is *rearranged* if its steps stand in another order, or if those of the batches around it
do. The rules for a batch do not look at the order, and the batches inside a rearranged batch are
those inside the original one, rearranged. So a workflow whose steps stand in another order has no
findings exactly when it had none before (`Workflow.findings_rearranged`).
-/

namespace WorkflowCompiler

namespace Batch

/-- The second batch is the first one with its steps, or those around it, in another order. -/
structure Rearranged (b b' : Batch) : Prop where
  /-- they stand in the same step -/
  parent_eq : b'.parent = b.parent
  /-- the same steps are around them -/
  outer_iff : ∀ id, id ∈ b'.outer ↔ id ∈ b.outer
  /-- they have the same steps -/
  steps_perm : b'.steps.Perm b.steps

namespace Rearranged

variable {b b' : Batch} {w : Workflow} {steps : List Step}

theorem fullId_eq (h : b.Rearranged b') (s : Step) : b'.fullId s = b.fullId s := by
  rw [fullId, fullId, h.parent_eq]

theorem ids_perm (h : b.Rearranged b') : b'.ids.Perm b.ids := h.steps_perm.map _

theorem resolves_iff (h : b.Rearranged b') (need : String) :
    b'.Resolves need ↔ b.Resolves need := by
  rw [Resolves, Resolves, h.ids_perm.mem_iff, h.outer_iff]
  simp only [h.steps_perm.mem_iff]

theorem needs_eq (h : b.Rearranged b') : b'.Needs = b.Needs := by
  funext x y
  rw [Needs, Needs, h.ids_perm.mem_iff]
  simp only [h.steps_perm.mem_iff]

/-- A rearranged batch keeps the rules that it kept before. -/
theorem wellFormed (h : b.Rearranged b') (hb : b.WellFormed w) :
    b'.WellFormed { w with steps } where
  ids_given := fun id hid => hb.ids_given id (h.ids_perm.mem_iff.1 hid)
  ids_distinct := h.ids_perm.nodup_iff.2 hb.ids_distinct
  resolves := fun s hs need hneed =>
    (h.resolves_iff need).2 (hb.resolves s (h.steps_perm.mem_iff.1 hs) need hneed)
  acyclic := h.needs_eq ▸ hb.acyclic
  steps := fun s hs => by
    -- the rules for a step look at the variables of the workflow alone
    obtain ⟨hrules, htargets, hmay⟩ := hb.steps s (h.steps_perm.mem_iff.1 hs)
    exact ⟨hrules, htargets, hmay⟩

/-- The batches inside are the same ones, rearranged. -/
theorem exists_inside (h : b.Rearranged b') {inner' : Batch} (hinside : b'.Inside inner') :
    ∃ inner, b.Inside inner ∧ inner.Rearranged inner' := by
  obtain ⟨s, hs, o, t, ht, hinline, rfl⟩ := hinside
  refine ⟨b.inside s t, ⟨s, h.steps_perm.mem_iff.1 hs, o, t, ht, hinline, rfl⟩, ?_, ?_, .refl _⟩
  · exact congrArg some (h.fullId_eq s)
  · intro id
    have houter : ∀ c : Batch, id ∈ (c.inside s t).outer ↔
        id ∈ c.outer ∨ ∃ s ∈ c.steps, c.fullId s = id := by
      intro c
      rw [inside, outerIds, List.mem_append, List.mem_map]
      rfl
    rw [houter, houter, h.outer_iff]
    simp only [h.steps_perm.mem_iff, h.fullId_eq]

theorem exists_within (h : b.Rearranged b') {inner' : Batch}
    (hway : Relation.ReflTransGen Inside b' inner') :
    ∃ inner, Relation.ReflTransGen Inside b inner ∧ inner.Rearranged inner' := by
  induction hway with
  | refl => exact ⟨b, .refl, h⟩
  | tail _ hinside ih =>
    obtain ⟨inner, hway, hinner⟩ := ih
    obtain ⟨deeper, hinside', hdeeper⟩ := hinner.exists_inside hinside
    exact ⟨deeper, hway.tail hinside', hdeeper⟩

end Rearranged

end Batch

/-! ## Workflows -/

theorem Workflow.topBatch_rearranged {w : Workflow} {steps : List Step}
    (h : steps.Perm w.steps) : w.topBatch.Rearranged { w with steps }.topBatch :=
  ⟨rfl, fun _ => .rfl, h⟩

theorem Workflow.WellFormed.rearranged {w : Workflow} {steps : List Step}
    (hw : w.WellFormed) (h : steps.Perm w.steps) : { w with steps }.WellFormed where
  name_given := hw.name_given
  steps_ne_nil := fun hnil => hw.steps_ne_nil (List.Perm.nil_eq (hnil ▸ h)).symm
  batches := fun b' hb' => by
    obtain ⟨b, hb, hrearranged⟩ := (Workflow.topBatch_rearranged h).exists_within hb'
    exact hrearranged.wellFormed (hw.batches b hb)

/-- A workflow whose steps are declared in another order has findings exactly when it had some. -/
theorem Workflow.findings_rearranged {w : Workflow} {steps : List Step} (h : steps.Perm w.steps) :
    { w with steps }.findings = [] ↔ w.findings = [] := by
  constructor
  · intro hnone
    exact ((wellFormed_of_findings_eq_nil hnone).rearranged h.symm).findings_eq_nil _
  · intro hnone
    exact ((wellFormed_of_findings_eq_nil hnone).rearranged h).findings_eq_nil _

end WorkflowCompiler
