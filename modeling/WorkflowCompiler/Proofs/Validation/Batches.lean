import Mathlib.Logic.Relation
import WorkflowCompiler.Validation.Batch

/-!
# The batches of a workflow

A `Batch` is a list of siblings together with its place: the full id of the step it stands in
and the full ids of the steps of the enclosing batches. The batches of a workflow are its own
steps and, at any depth, the inline steps of every target.

What is found in a batch is found in it alone or in a batch inside it, so a workflow has no
findings exactly when none of its batches has findings of its own
(`Scope.findings_eq_nil_iff`).
-/

namespace WorkflowCompiler

/-- Siblings and where they stand. -/
structure Batch where
  /-- the full id of the step they stand in, if they are inline steps -/
  parent : Option String := none
  /-- the full ids of the steps of the enclosing batches -/
  outer : List String := []
  /-- the siblings -/
  steps : List Step

namespace Batch

/-- The ids of the siblings. -/
def ids (b : Batch) : List String := b.steps.map (·.id)

/-- The full id of one of the siblings. -/
def fullId (b : Batch) (s : Step) : String := WorkflowCompiler.fullId b.parent s.id

/-- The batch of the inline steps of a target of one of the siblings. -/
def inside (b : Batch) (s : Step) (t : Target Step) : Batch where
  parent := some (b.fullId s)
  outer := outerIds b.parent b.outer b.steps
  steps := t.inline

/-- A batch stands directly in another one. -/
def Inside (b inner : Batch) : Prop :=
  ∃ s ∈ b.steps, ∃ o t, s.target? o = some t ∧ t.inline ≠ [] ∧ inner = b.inside s t

end Batch

/-- The batch of a workflow's own steps. -/
def Workflow.topBatch (w : Workflow) : Batch := { steps := w.steps }

/-- A batch of the workflow, at any depth. -/
def Workflow.HasBatch (w : Workflow) (b : Batch) : Prop :=
  Relation.ReflTransGen Batch.Inside w.topBatch b

theorem Step.sizeOf_inline_lt {s : Step} {o : Outcome} {t : Target Step}
    (h : s.target? o = some t) : sizeOf t.inline < sizeOf s := by
  obtain ⟨d, onTrue, onFalse, onTimeout⟩ := s
  obtain ⟨template, vars, inline⟩ := t
  cases o <;>
  · dsimp only [Step.target?] at h
    subst h
    simp only [Step.mk.sizeOf_spec, Option.some.sizeOf_spec, Target.mk.sizeOf_spec]
    omega

/-- A batch inside another one is smaller. -/
theorem Batch.Inside.sizeOf_lt {b inner : Batch} (h : b.Inside inner) :
    sizeOf inner.steps < sizeOf b.steps := by
  obtain ⟨s, hs, o, t, ht, -, rfl⟩ := h
  exact Nat.lt_trans (Step.sizeOf_inline_lt ht) (List.sizeOf_lt_of_mem hs)

/-! ## Findings, batch by batch -/

namespace Batch

/-- All findings in a batch and in the batches inside it. -/
def findings (scope : Scope) (b : Batch) : List Finding :=
  batchFindings scope b.parent b.outer b.steps

/-- Nothing is wrong with a batch itself, whatever stands inside it. -/
def Clean (scope : Scope) (b : Batch) : Prop :=
  siblingFindings scope b.parent b.outer b.steps = [] ∧
    ∀ s ∈ b.steps, stepFindings scope (b.fullId s) s = []

theorem outcomeFindings_some (scope : Scope) (id : String) (outer : List String)
    (t : Target Step) :
    outcomeFindings scope id outer (some t) = batchFindings scope (some id) outer t.inline := by
  obtain ⟨template, vars, inline⟩ := t
  rw [outcomeFindings]
  rfl

theorem batchFindings_nil (scope : Scope) (parent : Option String) (outer : List String) :
    batchFindings scope parent outer [] = [] := rfl

/-- Nothing is found in an outcome if nothing is found in the inline steps of its target. -/
theorem outcomeFindings_eq_nil_iff (scope : Scope) (id : String) (outer : List String)
    (target : Option (Target Step)) :
    outcomeFindings scope id outer target = [] ↔
      ∀ t, target = some t → t.inline ≠ [] → batchFindings scope (some id) outer t.inline = [] := by
  cases target with
  | none => simp [outcomeFindings]
  | some t =>
    rw [outcomeFindings_some]
    constructor
    · rintro h t' ht' -
      rw [Option.some.injEq] at ht'
      rw [← ht']
      exact h
    · intro h
      by_cases hinline : t.inline = []
      · rw [hinline, batchFindings_nil]
      · exact h t rfl hinline

theorem nestedFindings_eq_nil_iff (scope : Scope) (parent : Option String) (outer : List String)
    (s : Step) :
    nestedFindings scope parent outer s = [] ↔
      stepFindings scope (WorkflowCompiler.fullId parent s.id) s = [] ∧
        ∀ o t, s.target? o = some t → t.inline ≠ [] →
          batchFindings scope (some (WorkflowCompiler.fullId parent s.id)) outer t.inline = [] := by
  obtain ⟨d, onTrue, onFalse, onTimeout⟩ := s
  rw [nestedFindings]
  simp only [List.append_eq_nil_iff, outcomeFindings_eq_nil_iff]
  constructor
  · rintro ⟨⟨⟨hstep, htrue⟩, hfalse⟩, htimeout⟩
    refine ⟨hstep, fun o t ht => ?_⟩
    cases o with
    | onTrue => exact htrue t ht
    | onFalse => exact hfalse t ht
    | onTimeout => exact htimeout t ht
  · rintro ⟨hstep, htargets⟩
    exact ⟨⟨⟨hstep, htargets .onTrue⟩, htargets .onFalse⟩, htargets .onTimeout⟩

theorem membersFindings_eq_nil_iff (scope : Scope) (parent : Option String) (outer : List String)
    (steps : List Step) :
    membersFindings scope parent outer steps = [] ↔
      ∀ s ∈ steps, nestedFindings scope parent outer s = [] := by
  induction steps with
  | nil => simp [membersFindings]
  | cons s steps ih => rw [membersFindings, List.append_eq_nil_iff, ih, List.forall_mem_cons]

/-- A batch has no findings if it is clean and the batches directly in it have none. -/
theorem findings_eq_nil_iff (scope : Scope) (b : Batch) :
    b.findings scope = [] ↔
      b.Clean scope ∧ ∀ inner, b.Inside inner → inner.findings scope = [] := by
  rw [findings, batchFindings, List.append_eq_nil_iff, membersFindings_eq_nil_iff]
  simp only [nestedFindings_eq_nil_iff]
  constructor
  · rintro ⟨hsiblings, hnested⟩
    refine ⟨⟨hsiblings, fun s hs => (hnested s hs).1⟩, ?_⟩
    rintro inner ⟨s, hs, o, t, ht, hinline, rfl⟩
    exact (hnested s hs).2 o t ht hinline
  · rintro ⟨⟨hsiblings, hsteps⟩, hinside⟩
    refine ⟨hsiblings, fun s hs => ⟨hsteps s hs, fun o t ht hinline => ?_⟩⟩
    exact hinside _ ⟨s, hs, o, t, ht, hinline, rfl⟩

/-- A batch has no findings exactly when it and all batches inside it are clean. -/
theorem findings_eq_nil_iff_forall_clean (scope : Scope) (b : Batch) :
    b.findings scope = [] ↔
      ∀ inner, Relation.ReflTransGen Batch.Inside b inner → inner.Clean scope := by
  constructor
  · intro h inner hway
    have hnone : inner.findings scope = [] := by
      induction hway with
      | refl => exact h
      | tail _ hinside ih => exact ((findings_eq_nil_iff scope _).1 ih).2 _ hinside
    exact ((findings_eq_nil_iff scope inner).1 hnone).1
  · intro h
    -- the batches inside are smaller
    induction hsize : sizeOf b.steps using Nat.strongRecOn generalizing b with
    | ind size ih =>
      refine (findings_eq_nil_iff scope b).2 ⟨h b .refl, fun inner hinside => ?_⟩
      have hlt := hinside.sizeOf_lt
      rw [hsize] at hlt
      exact ih _ hlt inner (fun deeper hway => h deeper (hway.head hinside)) rfl

end Batch

/-- A workflow has no findings exactly when it has a name and steps, and all its batches are
clean. -/
theorem Scope.findings_eq_nil_iff (scope : Scope) :
    scope.findings = [] ↔
      Text.allBlank scope.workflow.name = false ∧ scope.workflow.steps ≠ [] ∧
        ∀ b, scope.workflow.HasBatch b → b.Clean scope := by
  have htop : batchFindings scope none [] scope.workflow.steps =
      scope.workflow.topBatch.findings scope := rfl
  rw [Scope.findings, List.append_eq_nil_iff, htop]
  by_cases hname : Text.allBlank scope.workflow.name = true
  · simp [hname]
  · by_cases hsteps : scope.workflow.steps = []
    · simp [hsteps]
    · rw [if_neg hname, if_neg (by simpa using hsteps),
        Batch.findings_eq_nil_iff_forall_clean]
      exact ⟨fun h => ⟨by simpa using hname, hsteps, h.2⟩, fun h => ⟨rfl, h.2.2⟩⟩

end WorkflowCompiler
