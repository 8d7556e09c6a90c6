import WorkflowCompiler.Text.Blank

/-!
# Executors

An *executor* is the way a step is run; there are seven. A step names its executor directly,
or by one of the older step types, each of which stands for an executor. One of the older
types, the gate, is a branch that waits for an approval.

* `Executor.read?`, `Executor.name` — the names of the executors;
* `LegacyType.read?`, `LegacyType.executor` — the older types and what they stand for;
* `Classification` — the executor of a step together with how it was named.
-/

namespace WorkflowCompiler

/-- A way to run a step. -/
inductive Executor where
  /-- runs a command -/
  | shell
  /-- starts an agent -/
  | spawn
  /-- stops an agent -/
  | kill
  /-- puts the steps of another workflow in place of this one -/
  | expand
  /-- evaluates a condition and goes on with one of its outcomes -/
  | branch
  /-- puts in the steps of another workflow once for each item -/
  | foreach
  /-- gives a prompt to an agent -/
  | agent
deriving DecidableEq

namespace Executor

/-- The executors, in the order in which they are listed. -/
def all : List Executor := [.shell, .spawn, .kill, .expand, .branch, .foreach, .agent]

/-- The name of an executor. -/
def name : Executor → String
  | shell => "shell"
  | spawn => "spawn"
  | kill => "kill"
  | expand => "expand"
  | branch => "branch"
  | foreach => "foreach"
  | agent => "agent"

/-- The executor of a name, which may have blanks around it. -/
def read? (text : String) : Option Executor :=
  all.find? fun executor => executor.name = Text.trim text

/-- The message for a text that names no executor. -/
def unknownMessage (text : String) : String := "unknown executor '" ++ text ++ "'"

/-- Steps with this executor put steps of their own into the run. -/
def producesChildren : Executor → Bool
  | expand | foreach | branch => true
  | _ => false

theorem mem_all (e : Executor) : e ∈ all := by cases e <;> decide

end Executor

/-- An older type of step. -/
inductive LegacyType where
  | task
  | collaborative
  | code
  | condition
  | start
  | stop
  | expand
  | gate
deriving DecidableEq

namespace LegacyType

/-- The types, in the order in which they are listed. -/
def all : List LegacyType :=
  [.task, .collaborative, .code, .condition, .start, .stop, .expand, .gate]

/-- The name of a type. -/
def name : LegacyType → String
  | task => "task"
  | collaborative => "collaborative"
  | code => "code"
  | condition => "condition"
  | start => "start"
  | stop => "stop"
  | expand => "expand"
  | gate => "gate"

/-- The type of a name, which may have blanks around it. A blank name is a task. -/
def read? (text : String) : Option LegacyType :=
  if Text.trim text = "" then some task
  else all.find? fun type => type.name = Text.trim text

/-- The executor that a type stands for. -/
def executor : LegacyType → Executor
  | task | collaborative => .agent
  | code => .shell
  | condition | gate => .branch
  | start => .spawn
  | stop => .kill
  | expand => .expand

end LegacyType

/-- How a step is run, and how it said so. -/
structure Classification where
  /-- the executor -/
  executor : Executor
  /-- the step is a branch that waits for an approval -/
  gate : Bool
  /-- the older type by which the step named its executor, if it did -/
  legacy : Option LegacyType
deriving DecidableEq

namespace Classification

/-- The classification of an executor named directly. -/
def ofExecutor (executor : Executor) : Classification := ⟨executor, false, none⟩

/-- The classification of an older type. -/
def ofLegacy (type : LegacyType) : Classification := ⟨type.executor, type = .gate, some type⟩

end Classification

end WorkflowCompiler
