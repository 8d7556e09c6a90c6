import WorkflowCompiler.Proofs.Validation.Batches

/-!
# Well-formed workflows

What a workflow has to be like, said without looking for faults: a predicate on workflows, on
their batches and on their steps. The rules of a batch hold of the batches of inline steps as
well, at any depth.
-/

namespace WorkflowCompiler

/-- A field holds a text that is not blank. -/
def Given (field : Option String) : Prop := ∃ text, field = some text ∧ Text.trim text ≠ ""

namespace Step

/-- What an executor asks of the fields of a step. -/
def MeetsRules (s : Step) (c : Classification) : Prop :=
  match c.executor with
  | .shell => Given s.commandText
  | .spawn | .kill => Given s.agentName
  | .expand => Given s.template
  | .foreach => Given s.template ∧ s.items.isSome ≠ s.itemsFile.isSome
  | .branch =>
    if c.gate then Given s.instructions ∧ s.agentName = none
    else Given s.condition ∧ ∃ o, s.target? o ≠ none
  | .agent => ∀ mode, s.mode = some mode → hasPlaceholders mode = true ∨ mode ∈ agentModes

/-- A root that placeholders in the texts of a step may have: a variable, a builtin, and in a
repetition what it binds for each item. -/
def MayUse (w : Workflow) (s : Step) (root : String) : Prop :=
  root ∈ w.vars.names ∨ root ∈ builtinNames ∨
    (∃ c, s.classify? = some c ∧ c.executor = .foreach) ∧
      (root = s.itemName ∨ s.indexVar = some root)

/-- The rules for a step that its siblings do not matter for. -/
structure WellFormed (w : Workflow) (s : Step) : Prop where
  /-- it says how it is run, and has the fields that this asks for -/
  meetsRules : ∃ c, s.classify? = some c ∧ s.MeetsRules c
  /-- a target has either a template or inline steps -/
  target_exclusive : ∀ o t, s.target? o = some t → (t.template = none ↔ t.inline ≠ [])
  /-- a placeholder refers to outputs, or something binds its root -/
  mayUse : ∀ entry ∈ s.texts, ∀ p ∈ scan entry.2,
    p.isOutputReference = true ∨ s.MayUse w p.root

/-- The step puts steps of its own into the run. -/
def HasChildren (s : Step) : Prop :=
  ∃ c, s.classify? = some c ∧
    (c.executor = .expand ∨ c.executor = .foreach ∨ c.executor = .branch)

/-- A child that a need may name: any one if all are meant or the step puts in a workflow that
is not known, and else an inline step. -/
def OffersChild (s : Step) (child : String) : Prop :=
  s.HasChildren ∧
    (child = "*" ∨ s.template ≠ none ∨
      ∃ o t, s.target? o = some t ∧ (t.template ≠ none ∨ ∃ i ∈ t.inline, i.id = child))

end Step

namespace Batch

/-- A need names a sibling, a step of an enclosing batch by its full id, or a child of a
sibling, whose id comes before the first point. -/
def Resolves (b : Batch) (need : String) : Prop :=
  need ∈ b.ids ∨ need ∈ b.outer ∨
    ∃ q ∈ b.steps, ∃ child, need = q.id ++ "." ++ child ∧ '.' ∉ q.id.toList ∧ q.OffersChild child

/-- One sibling needs another one. -/
def Needs (b : Batch) (x y : String) : Prop :=
  ∃ s ∈ b.steps, s.id = x ∧ y ∈ s.needs ∧ y ∈ b.ids

/-- The rules for a batch, without the batches inside it. -/
structure WellFormed (w : Workflow) (b : Batch) : Prop where
  /-- no id is blank -/
  ids_given : ∀ id ∈ b.ids, Text.trim id ≠ ""
  /-- no two siblings have the same id -/
  ids_distinct : b.ids.Nodup
  /-- every need names something -/
  resolves : ∀ s ∈ b.steps, ∀ need ∈ s.needs, b.Resolves need
  /-- no sibling needs itself, directly or through other siblings -/
  acyclic : ∀ id, ¬ Relation.TransGen b.Needs id id
  /-- the siblings keep the rules for single steps -/
  steps : ∀ s ∈ b.steps, s.WellFormed w

end Batch

/-- A workflow has a name and steps, and its batches keep the rules, at any depth. -/
structure Workflow.WellFormed (w : Workflow) : Prop where
  /-- the name is not blank -/
  name_given : Text.trim w.name ≠ ""
  /-- there is a step -/
  steps_ne_nil : w.steps ≠ []
  /-- the batches keep the rules -/
  batches : ∀ b, w.HasBatch b → b.WellFormed w

end WorkflowCompiler
