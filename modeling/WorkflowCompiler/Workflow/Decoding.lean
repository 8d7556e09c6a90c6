import WorkflowCompiler.Datum.Basic
import WorkflowCompiler.Numeric.Integer
import WorkflowCompiler.Workflow.Basic

/-!
# Reading workflows from data

A variable, an output, a target, a step or a workflow is a record: its fields are given by
name, where unknown names do not count, or by position in the order of the `fieldNames` of
its type. A field that may be absent may also be `null`. The steps that a step needs are a
list of ids or a single id, and an empty text needs nothing.

A datum of another shape is read as nothing at all.
-/

namespace WorkflowCompiler

open Datum (optional? orDefault? required?)

/-! ## Variables -/

/-- The fields of a variable. -/
def Variable.fieldNames : List String := ["required", "default", "type", "enum", "description"]

/-- Reads a variable from a datum of a format. -/
def Variable.ofDatum? (f : Datum.Format) (d : Datum) : Option Variable := do
  let fields ← d.record? Variable.fieldNames
  let required ← orDefault? fields "required" false Datum.bool?
  let default ← optional? fields "default" fun d => some d.toJson
  let type ← optional? fields "type" (Datum.choice? f VariableType.read?)
  let allowed ← optional? fields "enum" Datum.texts?
  let description ← optional? fields "description" Datum.text?
  pure { required, default, type, allowed, description }

/-! ## Settings, outputs and needs -/

/-- Reads a setting. An integer beyond 64 bits is a floating point number. -/
def Setting.ofDatum? : Datum → Option Setting
  | .bool b => some (.flag b)
  | .int i =>
    if Integer.fitsSigned i then some (.count (Int64.ofInt i)) else some (.number (.ofInt i))
  | .float x => some (.number x)
  | .text s => some (.text s)
  | _ => none

/-- The fields of an output. -/
def OutputDeclaration.fieldNames : List String := ["source", "type", "required", "description"]

/-- Reads an output. -/
def OutputDeclaration.ofDatum? (d : Datum) : Option OutputDeclaration := do
  let fields ← d.record? OutputDeclaration.fieldNames
  let source ← optional? fields "source" Datum.text?
  let type ← optional? fields "type" Datum.text?
  let required ← orDefault? fields "required" false Datum.bool?
  let description ← optional? fields "description" Datum.text?
  pure { source, type, required, description }

/-- Reads the ids of needed steps. A number that is not finite counts as `null`. -/
def needsOfDatum? (d : Datum) : Option (List String) :=
  match d.toJson with
  | .null => some []
  | .str "" => some []
  | .str id => some [id]
  | .arr items => items.mapM fun item =>
    match item with
    | .str id => some id
    | _ => none
  | _ => none

/-! ## Steps -/

/-- The fields of a step. -/
def Step.fieldNames : List String :=
  ["id", "executor", "type", "title", "needs", "command", "code", "workdir", "env", "on_error",
   "outputs", "agent", "assignee", "adapter", "resume_session", "spawn_args", "prompt",
   "instructions", "mode", "graceful", "timeout", "template", "variables", "items", "items_file",
   "item_var", "index_var", "parallel", "max_concurrent", "condition", "on_true", "on_false",
   "on_timeout"]

/-- Reads the fields of a step other than its outcomes. -/
def Declaration.ofFields? (fields : Fields Datum) : Option Declaration := do
  let id ← required? fields "id" Datum.text?
  let executor ← optional? fields "executor" Datum.text?
  let legacyType ← optional? fields "type" Datum.text?
  let title ← optional? fields "title" Datum.text?
  let needs ← orDefault? fields "needs" [] needsOfDatum?
  let command ← optional? fields "command" Datum.text?
  let code ← optional? fields "code" Datum.text?
  let workdir ← optional? fields "workdir" Datum.text?
  let env ← orDefault? fields "env" [] (Datum.tableOf? Datum.text?)
  let onError ← optional? fields "on_error" Datum.text?
  let outputs ← orDefault? fields "outputs" [] (Datum.tableOf? OutputDeclaration.ofDatum?)
  let agent ← optional? fields "agent" Datum.text?
  let assignee ← optional? fields "assignee" Datum.text?
  let adapter ← optional? fields "adapter" Datum.text?
  let resumeSession ← optional? fields "resume_session" Datum.text?
  let spawnArgs ← orDefault? fields "spawn_args" [] Datum.texts?
  let prompt ← optional? fields "prompt" Datum.text?
  let instructions ← optional? fields "instructions" Datum.text?
  let mode ← optional? fields "mode" Datum.text?
  let graceful ← optional? fields "graceful" Datum.bool?
  let timeout ← optional? fields "timeout" Datum.text?
  let template ← optional? fields "template" Datum.text?
  let vars ← orDefault? fields "variables" [] Datum.values?
  let items ← optional? fields "items" Datum.text?
  let itemsFile ← optional? fields "items_file" Datum.text?
  let itemVar ← optional? fields "item_var" Datum.text?
  let indexVar ← optional? fields "index_var" Datum.text?
  let parallel ← optional? fields "parallel" Setting.ofDatum?
  let maxConcurrent ← optional? fields "max_concurrent" Setting.ofDatum?
  let condition ← optional? fields "condition" Datum.text?
  pure
    { id, executor, legacyType, title, needs, command, code, workdir, env, onError, outputs,
      agent, assignee, adapter, resumeSession, spawnArgs, prompt, instructions, mode, graceful,
      timeout, template, vars, items, itemsFile, itemVar, indexVar, parallel,
      maxConcurrent, condition }

/-- The fields of a target. -/
def Target.fieldNames : List String := ["template", "variables", "inline"]

/-- A target whose inline steps are read already. -/
def Target.ofFields? (fields : Fields Datum) (inline : List Step) : Option (Target Step) := do
  let template ← optional? fields "template" Datum.text?
  let vars ← orDefault? fields "variables" [] Datum.values?
  pure { template, vars, inline }

mutual

/-- Reads a step. -/
def Step.ofDatum? : Datum → Option Step
  | .table fields => do
    let declaration ← Declaration.ofFields? fields
    let onTrue ← outcomeNamed? "on_true" fields
    let onFalse ← outcomeNamed? "on_false" fields
    let onTimeout ← outcomeNamed? "on_timeout" fields
    pure ⟨declaration, onTrue, onFalse, onTimeout⟩
  | .list items => do
    let fields ← (Datum.list items).record? Step.fieldNames
    let declaration ← Declaration.ofFields? fields
    let onTrue ← outcomeNth? 30 items
    let onFalse ← outcomeNth? 31 items
    let onTimeout ← outcomeNth? 32 items
    pure ⟨declaration, onTrue, onFalse, onTimeout⟩
  | _ => none

/-- Reads the target of an outcome, which may be `null`. -/
def outcome? : Datum → Option (Option (Target Step))
  | .null => some none
  | .table fields => do
    let inline ← inlineNamed? fields
    let target ← Target.ofFields? fields inline
    pure (some target)
  | .list items => do
    let fields ← (Datum.list items).record? Target.fieldNames
    let inline ← inlineNth? 2 items
    let target ← Target.ofFields? fields inline
    pure (some target)
  | _ => none

/-- Reads the target of an outcome from the field of its name, which may be missing. -/
def outcomeNamed? (name : String) : List (String × Datum) → Option (Option (Target Step))
  | [] => some none
  | (key, d) :: rest => if key = name then outcome? d else outcomeNamed? name rest

/-- Reads the target of an outcome from its position, which may be missing. -/
def outcomeNth? : Nat → List Datum → Option (Option (Target Step))
  | _, [] => some none
  | 0, d :: _ => outcome? d
  | n + 1, _ :: rest => outcomeNth? n rest

/-- Reads inline steps from the field of their name, which may be missing. -/
def inlineNamed? : List (String × Datum) → Option (List Step)
  | [] => some []
  | (key, d) :: rest => if key = "inline" then stepList? d else inlineNamed? rest

/-- Reads inline steps from their position, which may be missing. -/
def inlineNth? : Nat → List Datum → Option (List Step)
  | _, [] => some []
  | 0, d :: _ => stepList? d
  | n + 1, _ :: rest => inlineNth? n rest

/-- Reads a list of steps. -/
def stepList? : Datum → Option (List Step)
  | .list items => steps? items
  | _ => none

/-- Reads the steps of a list. -/
def steps? : List Datum → Option (List Step)
  | [] => some []
  | d :: rest => do
    let step ← Step.ofDatum? d
    let steps ← steps? rest
    pure (step :: steps)

end

/-! ## Workflows -/

/-- The fields of a workflow. -/
def Workflow.fieldNames : List String :=
  ["name", "description", "variables", "steps", "ephemeral", "internal", "hooks_to"]

/-- Reads a workflow from a datum of a format. -/
def Workflow.ofDatum? (f : Datum.Format) (d : Datum) : Option Workflow := do
  let fields ← d.record? Workflow.fieldNames
  let name ← orDefault? fields "name" "" Datum.text?
  let description ← optional? fields "description" Datum.text?
  let vars ← orDefault? fields "variables" [] (Datum.tableOf? (Variable.ofDatum? f))
  let steps ← orDefault? fields "steps" [] stepList?
  let ephemeral ← orDefault? fields "ephemeral" false Datum.bool?
  let internal ← orDefault? fields "internal" false Datum.bool?
  let hooksTo ← optional? fields "hooks_to" Datum.text?
  pure { name, description, vars, steps, ephemeral, internal, hooksTo }

end WorkflowCompiler
