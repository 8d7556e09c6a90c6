import WorkflowCompiler.Workflow.Basic

/-!
# Writing workflows as JSON

A record is written as an object with its names in increasing order. A field that is absent
and a list or table that is empty are left out, except the fields that are always written:
the id of a step and the steps it needs, the name and the steps of a workflow, and whether a
variable or an output is required and a workflow ephemeral or internal.
-/

namespace WorkflowCompiler

/-- A field that is left out when it is absent. -/
def fieldOf {α : Type} (write : α → Json) (name : String) (value : Option α) :
    List (String × Json) :=
  match value with
  | some a => [(name, write a)]
  | none => []

/-- A table field that is left out when it is empty. -/
def tableField {α : Type} (write : α → Json) (name : String) (fields : Fields α) :
    List (String × Json) :=
  match fields with
  | [] => []
  | entries => [(name, .obj (entries.mapValues write))]

/-- A list field that is left out when it is empty. -/
def textsField (name : String) (texts : List String) : List (String × Json) :=
  match texts with
  | [] => []
  | texts => [(name, .arr (texts.map .str))]

/-- A variable as JSON. -/
def Variable.toJson (v : Variable) : Json :=
  .obj (fieldOf id "default" v.default ++ fieldOf .str "description" v.description ++
    fieldOf (fun texts => .arr (texts.map .str)) "enum" v.allowed ++
    [("required", .bool v.required)] ++ fieldOf (fun t => .str t.name) "type" v.type)

/-- A setting as JSON. -/
def Setting.toJson : Setting → Json
  | .flag b => .bool b
  | .count n => .int n.toInt
  | .number x => .ofBinary64 x
  | .text s => .str s

/-- An output as JSON. -/
def OutputDeclaration.toJson (o : OutputDeclaration) : Json :=
  .obj (fieldOf .str "description" o.description ++ [("required", .bool o.required)] ++
    fieldOf .str "source" o.source ++ fieldOf .str "type" o.type)

mutual

/-- A step as JSON. -/
def Step.toJson : Step → Json
  | ⟨d, onTrue, onFalse, onTimeout⟩ =>
    .obj (fieldOf .str "adapter" d.adapter ++ fieldOf .str "agent" d.agent ++
      fieldOf .str "assignee" d.assignee ++ fieldOf .str "code" d.code ++
      fieldOf .str "command" d.command ++ fieldOf .str "condition" d.condition ++
      tableField .str "env" d.env ++ fieldOf .str "executor" d.executor ++
      fieldOf .bool "graceful" d.graceful ++ [("id", .str d.id)] ++
      fieldOf .str "index_var" d.indexVar ++ fieldOf .str "instructions" d.instructions ++
      fieldOf .str "item_var" d.itemVar ++ fieldOf .str "items" d.items ++
      fieldOf .str "items_file" d.itemsFile ++
      fieldOf Setting.toJson "max_concurrent" d.maxConcurrent ++
      fieldOf .str "mode" d.mode ++ [("needs", .arr (d.needs.map .str))] ++
      fieldOf .str "on_error" d.onError ++ outcomeField "on_false" onFalse ++
      outcomeField "on_timeout" onTimeout ++ outcomeField "on_true" onTrue ++
      tableField OutputDeclaration.toJson "outputs" d.outputs ++
      fieldOf Setting.toJson "parallel" d.parallel ++ fieldOf .str "prompt" d.prompt ++
      fieldOf .str "resume_session" d.resumeSession ++ textsField "spawn_args" d.spawnArgs ++
      fieldOf .str "template" d.template ++ fieldOf .str "timeout" d.timeout ++
      fieldOf .str "title" d.title ++ fieldOf .str "type" d.legacyType ++
      tableField id "variables" d.vars ++ fieldOf .str "workdir" d.workdir)

/-- The target of an outcome, left out when it is absent. -/
def outcomeField (name : String) : Option (Target Step) → List (String × Json)
  | none => []
  | some ⟨template, vars, inline⟩ =>
    [(name, .obj (inlineField inline ++ fieldOf .str "template" template ++
      tableField id "variables" vars))]

/-- Inline steps, left out when there are none. -/
def inlineField : List Step → List (String × Json)
  | [] => []
  | step :: rest => [("inline", .arr (step.toJson :: stepsToJson rest))]

/-- Steps as JSON. -/
def stepsToJson : List Step → List Json
  | [] => []
  | step :: rest => step.toJson :: stepsToJson rest

end

/-- A workflow as JSON. -/
def Workflow.toJson (w : Workflow) : Json :=
  .obj (fieldOf .str "description" w.description ++ [("ephemeral", .bool w.ephemeral)] ++
    fieldOf .str "hooks_to" w.hooksTo ++ [("internal", .bool w.internal)] ++
    [("name", .str w.name)] ++ [("steps", .arr (stepsToJson w.steps))] ++
    tableField Variable.toJson "variables" w.vars)

end WorkflowCompiler
