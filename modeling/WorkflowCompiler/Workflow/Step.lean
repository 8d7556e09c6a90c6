import WorkflowCompiler.Workflow.Executor
import WorkflowCompiler.Workflow.Variable

/-!
# Steps

A *step* is declared by flat fields, of which its executor decides the meaning, and by up to
three *outcomes*: what a branch goes on with when its condition holds, does not hold, or is
not answered in time. The *target* of an outcome is another workflow, or steps that stand
inline, and these may have outcomes in turn.

The flat fields are a type of their own, `Declaration`, so that a function on steps recurses
on the three outcomes alone.
-/

namespace WorkflowCompiler

/-- A value that is written as a literal or as a text with placeholders. -/
inductive Setting where
  /-- a truth value -/
  | flag (value : Bool)
  /-- an integer of 64 bits -/
  | count (value : Int64)
  /-- a floating point number -/
  | number (value : Binary64)
  /-- a text -/
  | text (value : String)
deriving DecidableEq

/-- What a step says about one of its outputs. -/
structure OutputDeclaration where
  /-- where a command's output is read from -/
  source : Option String := none
  /-- the type of the output -/
  type : Option String := none
  /-- the step has to give it -/
  required : Bool := false
  /-- what it is -/
  description : Option String := none
deriving DecidableEq

/-- The fields of a step other than its outcomes. -/
structure Declaration where
  /-- the name of the step among its siblings -/
  id : String
  /-- the executor, named directly -/
  executor : Option String := none
  /-- the executor, named by an older type -/
  legacyType : Option String := none
  /-- a title for people -/
  title : Option String := none
  /-- the steps that have to end before this one starts -/
  needs : List String := []
  /-- the command of a shell step -/
  command : Option String := none
  /-- an older name of `command` -/
  code : Option String := none
  /-- the directory to run in -/
  workdir : Option String := none
  /-- the environment -/
  env : Fields String := []
  /-- what happens after a failure -/
  onError : Option String := none
  /-- the outputs of the step -/
  outputs : Fields OutputDeclaration := []
  /-- the agent -/
  agent : Option String := none
  /-- an older name of `agent` -/
  assignee : Option String := none
  /-- the program that runs the agent -/
  adapter : Option String := none
  /-- the session that a started agent goes on with -/
  resumeSession : Option String := none
  /-- arguments for starting an agent -/
  spawnArgs : List String := []
  /-- the prompt for an agent -/
  prompt : Option String := none
  /-- an older name of `prompt` -/
  instructions : Option String := none
  /-- how the agent is to work -/
  mode : Option String := none
  /-- an agent is asked to stop before it is stopped -/
  graceful : Option Bool := none
  /-- how long to wait -/
  timeout : Option String := none
  /-- the workflow to put in -/
  template : Option String := none
  /-- the variables of that workflow -/
  vars : Fields Json := []
  /-- the items to repeat for -/
  items : Option String := none
  /-- a file with the items -/
  itemsFile : Option String := none
  /-- the name under which an item is known in its repetition -/
  itemVar : Option String := none
  /-- the name under which the number of an item is known -/
  indexVar : Option String := none
  /-- the repetitions run side by side -/
  parallel : Option Setting := none
  /-- how many of them at most -/
  maxConcurrent : Option Setting := none
  /-- the condition of a branch -/
  condition : Option String := none

/-- What an outcome goes on with: another workflow, or inline steps. -/
structure Target (σ : Type) where
  /-- the other workflow -/
  template : Option String := none
  /-- the variables of that workflow -/
  vars : Fields Json := []
  /-- the inline steps -/
  inline : List σ := []

/-- A declared step. -/
structure Step extends Declaration where
  /-- what follows if the condition holds -/
  onTrue : Option (Target Step) := none
  /-- what follows if the condition does not hold -/
  onFalse : Option (Target Step) := none
  /-- what follows if there is no answer in time -/
  onTimeout : Option (Target Step) := none

/-- One of the three ways a branch can end. -/
inductive Outcome where
  | onTrue
  | onFalse
  | onTimeout
deriving DecidableEq

/-- The name of the field that holds an outcome's target. -/
def Outcome.name : Outcome → String
  | onTrue => "on_true"
  | onFalse => "on_false"
  | onTimeout => "on_timeout"

namespace Step

instance : Inhabited Step := ⟨{ id := "" }⟩

/-- A step with nothing but a name, whose blanks at the ends do not count. -/
def named (id : String) : Step := { id := Text.trim id }

/-- The target of an outcome. -/
def target? (s : Step) : Outcome → Option (Target Step)
  | .onTrue => s.onTrue
  | .onFalse => s.onFalse
  | .onTimeout => s.onTimeout

/-- The outcomes that have a target, with their targets. -/
def targets (s : Step) : List (Outcome × Target Step) :=
  [Outcome.onTrue, .onFalse, .onTimeout].filterMap fun o => (s.target? o).map (o, ·)

theorem mem_targets {s : Step} {o : Outcome} {t : Target Step} :
    (o, t) ∈ s.targets ↔ s.target? o = some t := by
  cases o <;> simp [targets, List.mem_filterMap, target?]

end Step

namespace Declaration

/-- How the step is run. A directly named executor counts before an older type, and a step
without either is a task. -/
def classify? (d : Declaration) : Option Classification :=
  match d.executor with
  | some name => (Executor.read? name).map .ofExecutor
  | none => (LegacyType.read? (d.legacyType.getD "")).map .ofLegacy

/-- The command, under either of its names. -/
def commandText (d : Declaration) : Option String := d.command <|> d.code

/-- The agent, under either of its names. -/
def agentName (d : Declaration) : Option String := d.agent <|> d.assignee

/-- The prompt, under either of its names. -/
def promptText (d : Declaration) : Option String := d.prompt <|> d.instructions

/-- The name under which an item is known in its repetition. -/
def itemName (d : Declaration) : String := d.itemVar.getD "item"

end Declaration

/-! ## Texts with placeholders -/

/-- A field that is a text, with its name. -/
def textField (name : String) (value : Option String) : List (String × String) :=
  (value.map (name, ·)).toList

/-- The members of a table that are texts, with their names. -/
def textValues (name : String) (values : Fields Json) : List (String × String) :=
  values.filterMap fun entry =>
    match entry.2 with
    | .str text => some (name ++ "." ++ entry.1, text)
    | _ => none

/-- A setting that is a text, with its name. -/
def settingText (name : String) : Option Setting → List (String × String)
  | some (.text text) => [(name, text)]
  | _ => []

/-- The texts of a target that may hold placeholders; its inline steps have texts of their
own. -/
def Target.texts {σ : Type} (name : String) (t : Target σ) : List (String × String) :=
  textField (name ++ ".template") t.template ++ textValues (name ++ ".variables") t.vars

/-- The texts of a step that may hold placeholders, with the names of their fields; its
inline steps have texts of their own. -/
def Step.texts (s : Step) : List (String × String) :=
  textField "title" s.title ++ textField "command" s.command ++ textField "code" s.code ++
  textField "workdir" s.workdir ++ textField "agent" s.agent ++
  textField "assignee" s.assignee ++ textField "adapter" s.adapter ++
  textField "prompt" s.prompt ++ textField "instructions" s.instructions ++
  textField "timeout" s.timeout ++ textField "template" s.template ++
  textField "items" s.items ++ textField "items_file" s.itemsFile ++
  textField "condition" s.condition ++
  s.env.map (fun entry => ("env." ++ entry.1, entry.2)) ++
  textValues "variables" s.vars ++
  s.spawnArgs.zipIdx.map (fun entry => ("spawn_args[" ++ toString entry.2 ++ "]", entry.1)) ++
  settingText "parallel" s.parallel ++ settingText "max_concurrent" s.maxConcurrent ++
  s.targets.flatMap fun entry => entry.2.texts entry.1.name

end WorkflowCompiler
