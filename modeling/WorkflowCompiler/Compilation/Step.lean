import WorkflowCompiler.Compilation.Fields
import WorkflowCompiler.Compiled.Step
import WorkflowCompiler.Needs.Cycle
import WorkflowCompiler.Needs.Order
import WorkflowCompiler.Validation.Batch

/-!
# Compiling steps

A step is compiled in a session in which the builtins `step_id`, `bead_id` and `agent` are
its own. The agent is the one that the step names, or else the one of the run; if there is
neither, a deferring session leaves references to it for later.

The inline steps of an outcome are compiled as a batch of their own. Their ids are put behind
the id of the branch, needs that name a step of the batch are changed along, and a step that
needs none of the batch needs the branch. A batch is put into an order in which each step
stands behind the steps it needs.
-/

namespace WorkflowCompiler

/-- What holds for all steps of a run. -/
structure RunSettings where
  /-- the id of the run -/
  workflowId : String
  /-- the agent of steps that name none -/
  defaultAssignee : Option String := none
  /-- values in commands are quoted for the shell -/
  shellQuoting : Bool := false
  /-- the order in which the validation before the run goes through sets of ids -/
  order : SetOrder := .asAdded

/-! ## The agent of a step -/

/-- The name of the builtin that is the agent of a step. -/
def agentRoot : String := "agent"

/-- The field that names the agent of a step. -/
def Declaration.agentField (d : Declaration) : String :=
  if d.agent.isSome then "agent" else "assignee"

/-- The field that holds the prompt of a step. -/
def Declaration.promptField (d : Declaration) : String :=
  if d.prompt.isSome then "prompt" else "instructions"

/-- The field that holds the command of a step. -/
def Declaration.commandField (d : Declaration) : String :=
  if d.command.isSome then "command" else "code"

/-- The context before the agent of a step is known: there is none, and a reference to it is
left for later if the context defers and no variable has the name. -/
def Context.withoutAgent (c : Context) : Context :=
  let c := c.removeBuiltin agentRoot
  if c.deferred && !c.vars.has agentRoot then c.bindLate agentRoot
  else c.unbindLate agentRoot

/-- The context in which the agent of a step is known. -/
def Context.withAgent (c : Context) (agent : String) : Context :=
  (c.unbindLate agentRoot).setBuiltin agentRoot (.str agent)

/-- Binds the agent of a step. -/
def bindAgent (settings : RunSettings) (id : String) (d : Declaration) : Compiling Unit := do
  Compiling.update Context.withoutAgent
  -- the text that names the agent is itself compiled while no agent is bound
  let agent ←
    match d.agentName with
    | some raw => (do
        let agent ← Compiling.text id d.agentField raw
        pure (some agent))
    | none => pure settings.defaultAssignee
  match agent with
  | some agent => Compiling.update (·.withAgent agent)
  | none => pure ()

/-! ## Configurations -/

/-- The command that a gate waits for. -/
def approvalCommand : String := "meow await-approval"

/-- The configuration of a shell step. -/
def shellConfig (settings : RunSettings) (id : String) (d : Declaration) :
    Compiling ShellConfig := do
  let command ←
    Compiling.command settings.shellQuoting id d.commandField (d.commandText.getD "")
  let workdir ← Compiling.optional id "workdir" d.workdir
  let env ← Compiling.texts id "env" d.env
  pure { command, workdir, env, onError := d.onError, outputs := d.outputs }

/-- The configuration of a step that starts an agent. -/
def spawnConfig (id : String) (d : Declaration) : Compiling SpawnConfig := do
  let agent ← Compiling.required id d.agentField d.agentName
  let spawnArgs ← Compiling.numbered id "spawn_args" d.spawnArgs
  let adapter ← Compiling.optional id "adapter" d.adapter
  let workdir ← Compiling.optional id "workdir" d.workdir
  let env ← Compiling.texts id "env" d.env
  let prompt ← Compiling.optional id d.promptField d.promptText
  pure { agent, adapter, workdir, env, resumeSession := d.resumeSession, spawnArgs, prompt }

/-- The configuration of a step that stops an agent. -/
def killConfig (id : String) (d : Declaration) : Compiling KillConfig := do
  let timeout ←
    match d.timeout with
    | some timeout => Compiling.text id "timeout" timeout
    | none => pure "10s"
  let agent ← Compiling.required id d.agentField d.agentName
  pure { agent, graceful := d.graceful.getD true, timeout }

/-- The configuration of a step that puts in a workflow. -/
def expandConfig (id : String) (d : Declaration) : Compiling ExpandConfig := do
  let template ← Compiling.required id "template" d.template
  let vars ← Compiling.values id "variables" d.vars
  pure { template, vars }

/-- The fields of a repetition, in a context in which its own names are bound late. -/
def foreachFields (id : String) (d : Declaration) : Compiling ForeachConfig := do
  let parallel ←
    match d.parallel with
    | some setting => Compiling.flag id "parallel" setting
    | none => pure true
  let maxConcurrent ← Attempt.optional (Compiling.count id "max_concurrent") d.maxConcurrent
  let template ← Compiling.required id "template" d.template
  let vars ← Compiling.values id "variables" d.vars
  let items ← Compiling.optional id "items" d.items
  let itemsFile ← Compiling.optional id "items_file" d.itemsFile
  pure
    { template, vars, items, itemsFile, itemVar := d.itemName, indexVar := d.indexVar,
      parallel, maxConcurrent }

/-- The names that a repetition binds for each of its items. -/
def Declaration.repetitionRoots (d : Declaration) : List String := d.itemName :: d.indexVar.toList

/-- The configuration of a repetition. The names it binds for each item are left for later. -/
def foreachConfig (id : String) (d : Declaration) : Compiling ForeachConfig :=
  match d.items, d.itemsFile with
  | some _, some _ => Attempt.fail (.invalidStep id .itemsTwice)
  | none, none => Attempt.fail (.invalidStep id .noItems)
  | _, _ => do
    Compiling.update fun c => d.repetitionRoots.foldl Context.bindLate c
    Attempt.ensuring (foreachFields id d)
      (·.update fun c => d.repetitionRoots.foldl Context.unbindLate c)

/-- The condition of a branch; a gate waits for its approval. -/
def branchCondition (settings : RunSettings) (id : String) (d : Declaration) (gate : Bool) :
    Compiling String :=
  if gate then pure (approvalCommand ++ " " ++ id)
  else
    match d.condition.filter fun c => !Text.allBlank c with
    | some condition => Compiling.command settings.shellQuoting id "condition" condition
    | none => Attempt.fail (.invalidStep id .noCondition)

/-- The configuration of a branch, without its outcomes. -/
def branchFields (settings : RunSettings) (id : String) (d : Declaration) (gate : Bool) :
    Compiling (BranchConfig CompiledStep) := do
  let condition ← branchCondition settings id d gate
  let prompt ← Compiling.optional id d.promptField d.promptText
  let workdir ← Compiling.optional id "workdir" d.workdir
  let env ← Compiling.texts id "env" d.env
  let timeout ← Compiling.optional id "timeout" d.timeout
  pure { condition, prompt, workdir, env, outputs := d.outputs, timeout }

/-- The configuration of a step that gives a prompt to an agent. -/
def agentConfig (settings : RunSettings) (id : String) (d : Declaration) :
    Compiling AgentConfig := do
  let agent ←
    match d.agentName with
    | some raw => (do
        let agent ← Compiling.text id d.agentField raw
        pure (some agent))
    | none => pure settings.defaultAssignee
  let mode ←
    match d.mode with
    | some mode => Compiling.text id "mode" mode
    | none => pure "autonomous"
  let prompt ← Compiling.text id d.promptField (d.promptText.getD "")
  pure { agent, prompt, mode, outputs := d.outputs }

/-! ## Batches -/

/-- Compiled steps, each behind the steps it needs. -/
def inOrder (steps : List CompiledStep) : Except CompileError (List CompiledStep) :=
  let graph := NeedsGraph.ofDeclared (steps.map fun s => (s.id, s.needs))
  match graph.order with
  | .ok ids => .ok (ids.filterMap fun id => steps.find? fun s => s.id = id)
  | .error _ => .error (.cycle (graph.findCycles.headD []))

/-- The first id of a list that stands in it again. -/
def firstRepeated? : List String → List String → Option String
  | _, [] => none
  | seen, id :: rest => if id ∈ seen then some id else firstRepeated? (id :: seen) rest

/-- Fails if inline steps have an id in common or need each other. -/
def checkInline (parent : String) (steps : List Step) : Except CompileError Unit :=
  match firstRepeated? [] (steps.map (·.id)) with
  | some id => .error (.duplicateStep (fullId (some parent) id))
  | none =>
    match (NeedsGraph.ofSteps steps).findCycles with
    | path :: _ => .error (.cycle path)
    | [] => .ok ()

/-- The needs of an inline step: those within the batch by their full ids, the others as they
stand, and the branch itself if the step needs none of the batch. -/
def inlineNeeds (parent : String) (batch needs : List String) : List String :=
  needs.map (fun need => if need ∈ batch then fullId (some parent) need else need) ++
    if needs.any (· ∈ batch) then [] else [parent]

/-- Compiles inline steps, given how their members are compiled. -/
def inlineBatch (parent : String) (steps : List Step) (members : Compiling (List CompiledStep)) :
    Compiling (List CompiledStep) := do
  Attempt.ofExcept (checkInline parent steps)
  let compiled ← members
  Attempt.ofExcept (inOrder compiled)

/-! ## Steps -/

/-- The error for a step whose executor is not known. -/
def unsupportedStep (id : String) (d : Declaration) : CompileError :=
  .unsupported id ((d.executor <|> d.legacyType).getD "")

/-- The context in which a step is compiled. -/
def Context.atStep (c : Context) (id : String) : Context :=
  (c.setBuiltin "step_id" (.str id)).setBuiltin "bead_id" (.str id)

mutual

/-- Compiles a step under an id. -/
def compileStep (settings : RunSettings) (id : String) : Step → Compiling CompiledStep
  | ⟨d, onTrue, onFalse, onTimeout⟩ => do
    Compiling.update (·.atStep id)
    bindAgent settings id d
    match d.classify? with
    | none => Attempt.fail (unsupportedStep id d)
    | some c => do
      let title ← Compiling.optional id "title" d.title
      let config ← (
        match c.executor with
        | .shell => do
          let config ← shellConfig settings id d
          pure (Config.shell config)
        | .spawn => do
          let config ← spawnConfig id d
          pure (Config.spawn config)
        | .kill => do
          let config ← killConfig id d
          pure (Config.kill config)
        | .expand => do
          let config ← expandConfig id d
          pure (Config.expand config)
        | .foreach => do
          let config ← foreachConfig id d
          pure (Config.foreach config)
        | .agent => do
          let config ← agentConfig settings id d
          pure (Config.agent config)
        | .branch => do
          -- outcomes come last: compiling their inline steps binds `step_id` anew
          let config ← branchFields settings id d c.gate
          let onTrue ← compileOutcome settings id "on_true" onTrue
          let onFalse ← compileOutcome settings id "on_false" onFalse
          let onTimeout ← compileOutcome settings id "on_timeout" onTimeout
          pure (Config.branch { config with onTrue, onFalse, onTimeout }))
      pure { id, title, needs := d.needs, config }

/-- Compiles the target of an outcome of a branch: first its inline steps, then its template
and the variables of that. -/
def compileOutcome (settings : RunSettings) (id name : String) :
    Option (Target Step) → Compiling (Option (CompiledTarget CompiledStep))
  | none => pure none
  | some ⟨template, vars, inline⟩ => do
    let steps ←
      if inline.isEmpty then pure []
      else inlineBatch id inline (compileMembers settings id (inline.map (·.id)) inline)
    let template ← Compiling.optional id (name ++ ".template") template
    let vars ← Compiling.values id (name ++ ".variables") vars
    pure (some { template, vars, steps })

/-- Compiles the steps of a batch under the id of a branch, in the order in which they are
declared. -/
def compileMembers (settings : RunSettings) (parent : String) (batch : List String) :
    List Step → Compiling (List CompiledStep)
  | [] => pure []
  | s :: rest => do
    let compiled ← compileStep settings (fullId (some parent) s.id) s
    let compiled := { compiled with needs := inlineNeeds parent batch s.needs }
    let tail ← compileMembers settings parent batch rest
    pure (compiled :: tail)

end

/-- Compiles inline steps under the id of a branch. -/
def compileInline (settings : RunSettings) (steps : List Step) (parent : String) :
    Compiling (List CompiledStep) :=
  inlineBatch parent steps (compileMembers settings parent (steps.map (·.id)) steps)

end WorkflowCompiler
