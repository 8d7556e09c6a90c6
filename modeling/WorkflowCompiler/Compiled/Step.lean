import WorkflowCompiler.Context.Basic
import WorkflowCompiler.Workflow.Step

/-!
# Compiled steps

A compiled step is ready to be run: its placeholders are replaced as far as possible, and its
configuration is of a type of its own for each executor. The inline steps of a branch are
compiled steps as well, so compiled steps form a tree.
-/

namespace WorkflowCompiler

/-- How a command is run. -/
structure ShellConfig where
  /-- the command -/
  command : String
  /-- the directory to run in -/
  workdir : Option String := none
  /-- the environment -/
  env : Fields String := []
  /-- what happens after a failure -/
  onError : Option String := none
  /-- the outputs, as they were declared -/
  outputs : Fields OutputDeclaration := []

/-- How an agent is started. -/
structure SpawnConfig where
  /-- the agent -/
  agent : String
  /-- the program that runs it -/
  adapter : Option String := none
  /-- the directory to run in -/
  workdir : Option String := none
  /-- the environment -/
  env : Fields String := []
  /-- the session it goes on with, as it was declared -/
  resumeSession : Option String := none
  /-- further arguments -/
  spawnArgs : List String := []
  /-- the first prompt -/
  prompt : Option String := none

/-- How an agent is stopped. -/
structure KillConfig where
  /-- the agent -/
  agent : String
  /-- it is asked to stop before it is stopped -/
  graceful : Bool := true
  /-- how long to wait for it -/
  timeout : String := "10s"

/-- How a workflow is put in. -/
structure ExpandConfig where
  /-- the workflow -/
  template : String
  /-- its variables -/
  vars : Fields Json := []

/-- How a workflow is put in once for each item. -/
structure ForeachConfig where
  /-- the workflow -/
  template : String
  /-- its variables -/
  vars : Fields Json := []
  /-- the items -/
  items : Option String := none
  /-- a file with the items -/
  itemsFile : Option String := none
  /-- the name of an item -/
  itemVar : String
  /-- the name of the number of an item -/
  indexVar : Option String := none
  /-- the repetitions run side by side -/
  parallel : Bool := true
  /-- how many of them at most -/
  maxConcurrent : Option Nat := none

/-- What a branch goes on with at an outcome. -/
structure CompiledTarget (σ : Type) where
  /-- the workflow to put in -/
  template : Option String := none
  /-- its variables -/
  vars : Fields Json := []
  /-- the inline steps -/
  steps : List σ := []

/-- How a branch is decided and gone on with. -/
structure BranchConfig (σ : Type) where
  /-- the condition -/
  condition : String
  /-- what is shown while an approval is waited for -/
  prompt : Option String := none
  /-- the directory to run in -/
  workdir : Option String := none
  /-- the environment -/
  env : Fields String := []
  /-- the outputs, as they were declared -/
  outputs : Fields OutputDeclaration := []
  /-- how long to wait -/
  timeout : Option String := none
  /-- what follows if the condition holds -/
  onTrue : Option (CompiledTarget σ) := none
  /-- what follows if the condition does not hold -/
  onFalse : Option (CompiledTarget σ) := none
  /-- what follows if there is no answer in time -/
  onTimeout : Option (CompiledTarget σ) := none

/-- How a prompt is given to an agent. -/
structure AgentConfig where
  /-- the agent, if one is named -/
  agent : Option String := none
  /-- the prompt -/
  prompt : String
  /-- how the agent is to work -/
  mode : String := "autonomous"
  /-- the outputs, as they were declared -/
  outputs : Fields OutputDeclaration := []

/-- The configuration of a compiled step. -/
inductive Config (σ : Type) where
  | shell (c : ShellConfig)
  | spawn (c : SpawnConfig)
  | kill (c : KillConfig)
  | expand (c : ExpandConfig)
  | branch (c : BranchConfig σ)
  | foreach (c : ForeachConfig)
  | agent (c : AgentConfig)

/-- The executor of a configuration. -/
def Config.executor {σ : Type} : Config σ → Executor
  | shell _ => .shell
  | spawn _ => .spawn
  | kill _ => .kill
  | expand _ => .expand
  | branch _ => .branch
  | foreach _ => .foreach
  | agent _ => .agent

/-- A step that is ready to be run. -/
structure CompiledStep where
  /-- its id, which tells it from all other steps of the run -/
  id : String
  /-- a title for people -/
  title : Option String := none
  /-- how far it has got -/
  status : Status := .pending
  /-- the steps that have to end before it starts -/
  needs : List String := []
  /-- how it is run -/
  config : Config CompiledStep

/-- The executor of a compiled step. -/
def CompiledStep.executor (s : CompiledStep) : Executor := s.config.executor

/-- The target of an outcome of a branch. -/
def BranchConfig.target? {σ : Type} (c : BranchConfig σ) : Outcome → Option (CompiledTarget σ)
  | .onTrue => c.onTrue
  | .onFalse => c.onFalse
  | .onTimeout => c.onTimeout

end WorkflowCompiler
