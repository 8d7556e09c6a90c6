import WorkflowCompiler.Compiled.Step
import WorkflowCompiler.Workflow.Encoding

/-!
# Writing compiled steps as JSON

A compiled step is written as an object whose entries stand in the order of the fields of its
type, and not in the order of their names. Its configuration starts with the executor. Fields
that are absent and lists and tables that are empty are left out, except the needs of a step.
-/

namespace WorkflowCompiler

/-- An output in the order of its fields. -/
def OutputDeclaration.toOrderedJson (o : OutputDeclaration) : Json :=
  .obj (fieldOf .str "source" o.source ++ fieldOf .str "type" o.type ++
    [("required", .bool o.required)] ++ fieldOf .str "description" o.description)

/-- The entries of a shell configuration. -/
def ShellConfig.fields (c : ShellConfig) : List (String × Json) :=
  [("command", .str c.command)] ++ fieldOf .str "workdir" c.workdir ++
    tableField .str "env" c.env ++ fieldOf .str "on_error" c.onError ++
    tableField OutputDeclaration.toOrderedJson "outputs" c.outputs

/-- The entries of a configuration that starts an agent. -/
def SpawnConfig.fields (c : SpawnConfig) : List (String × Json) :=
  [("agent", .str c.agent)] ++ fieldOf .str "adapter" c.adapter ++
    fieldOf .str "workdir" c.workdir ++ tableField .str "env" c.env ++
    fieldOf .str "resume_session" c.resumeSession ++ textsField "spawn_args" c.spawnArgs ++
    fieldOf .str "prompt" c.prompt

/-- The entries of a configuration that stops an agent. -/
def KillConfig.fields (c : KillConfig) : List (String × Json) :=
  [("agent", .str c.agent), ("graceful", .bool c.graceful), ("timeout", .str c.timeout)]

/-- The entries of a configuration that puts in a workflow. -/
def ExpandConfig.fields (c : ExpandConfig) : List (String × Json) :=
  [("template", .str c.template)] ++ tableField id "variables" c.vars

/-- The entries of a configuration that puts in a workflow for each item. -/
def ForeachConfig.fields (c : ForeachConfig) : List (String × Json) :=
  [("template", .str c.template)] ++ tableField id "variables" c.vars ++
    fieldOf .str "items" c.items ++ fieldOf .str "items_file" c.itemsFile ++
    [("item_var", .str c.itemVar)] ++ fieldOf .str "index_var" c.indexVar ++
    [("parallel", .bool c.parallel)] ++
    fieldOf (fun (n : Nat) => .int n) "max_concurrent" c.maxConcurrent

/-- The entries of a configuration that gives a prompt to an agent. -/
def AgentConfig.fields (c : AgentConfig) : List (String × Json) :=
  fieldOf .str "agent" c.agent ++ [("prompt", .str c.prompt), ("mode", .str c.mode)] ++
    tableField OutputDeclaration.toOrderedJson "outputs" c.outputs

mutual

/-- A compiled step as JSON. -/
def CompiledStep.toJson : CompiledStep → Json
  | ⟨id, title, status, needs, config⟩ =>
    .obj ([("id", .str id)] ++ fieldOf .str "title" title ++
      [("status", .str status.name), ("needs", .arr (needs.map .str)),
       ("config", .obj (("executor", .str config.executor.name) :: configFields config))])

/-- The entries of a configuration behind the executor. -/
def configFields : Config CompiledStep → List (String × Json)
  | .shell c => c.fields
  | .spawn c => c.fields
  | .kill c => c.fields
  | .expand c => c.fields
  | .branch ⟨condition, prompt, workdir, env, outputs, timeout, onTrue, onFalse, onTimeout⟩ =>
    [("condition", .str condition)] ++ fieldOf .str "prompt" prompt ++
      fieldOf .str "workdir" workdir ++ tableField .str "env" env ++
      tableField OutputDeclaration.toOrderedJson "outputs" outputs ++
      fieldOf .str "timeout" timeout ++ compiledTargetField "on_true" onTrue ++
      compiledTargetField "on_false" onFalse ++ compiledTargetField "on_timeout" onTimeout
  | .foreach c => c.fields
  | .agent c => c.fields

/-- The target of an outcome, left out when it is absent. -/
def compiledTargetField (name : String) :
    Option (CompiledTarget CompiledStep) → List (String × Json)
  | none => []
  | some ⟨template, vars, steps⟩ =>
    [(name, .obj (fieldOf .str "template" template ++ tableField id "variables" vars ++
      compiledStepsField steps))]

/-- Inline steps, left out when there are none. -/
def compiledStepsField : List CompiledStep → List (String × Json)
  | [] => []
  | s :: rest => [("steps", .arr (s.toJson :: compiledStepsToJson rest))]

/-- Compiled steps as JSON. -/
def compiledStepsToJson : List CompiledStep → List Json
  | [] => []
  | s :: rest => s.toJson :: compiledStepsToJson rest

end

end WorkflowCompiler
