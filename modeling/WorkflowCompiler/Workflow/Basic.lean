import WorkflowCompiler.Workflow.Step

/-!
# Workflows and modules

A *workflow* has a name, variables and an ordered list of steps. A *module* holds the
workflows of one document under their keys, and remembers the file it was read from.
-/

namespace WorkflowCompiler

/-- A workflow. -/
structure Workflow where
  /-- the name -/
  name : String := ""
  /-- what it is for -/
  description : Option String := none
  /-- the declared variables -/
  vars : Fields Variable := []
  /-- the steps, in the order of their declaration -/
  steps : List Step := []
  /-- its runs are not kept -/
  ephemeral : Bool := false
  /-- only workflows of the same document may refer to it -/
  internal : Bool := false
  /-- the workflow whose hooks it attaches to -/
  hooksTo : Option String := none

instance : Inhabited Workflow := ⟨{}⟩

namespace Workflow

/-- The first step with an id. -/
def step? (w : Workflow) (id : String) : Option Step := w.steps.find? fun s => s.id = id

/-- The workflow with one more step, unless it has a step with that id already. -/
def addStep? (w : Workflow) (s : Step) : Option Workflow :=
  if w.steps.any fun other => other.id = s.id then none
  else some { w with steps := w.steps ++ [s] }

/-- The message for a step whose id is taken. -/
def existsMessage (id : String) : String := "Step '" ++ id ++ "' already exists"

/-- The workflow with a variable declared. -/
def withVariable (w : Workflow) (name : String) (v : Variable) : Workflow :=
  { w with vars := w.vars.set name v }

/-- The steps that need no other step. -/
def rootSteps (w : Workflow) : List Step := w.steps.filter fun s => s.needs.isEmpty

/-- The ids of the steps, each once, in increasing order. -/
def stepIds (w : Workflow) : List String :=
  (Fields.ofEntries (w.steps.map fun s => (s.id, ()))).names

end Workflow

/-- The workflows of one document. -/
structure Module where
  /-- the workflows under their keys -/
  workflows : Fields Workflow := []
  /-- the file they were read from -/
  path : Option String := none

instance : Inhabited Module := ⟨{}⟩

namespace Module

/-- The key of the workflow that stands for the whole document. -/
def entryKey : String := "main"

/-- The module of one workflow. -/
def single (w : Workflow) : Module := { workflows := [(entryKey, w)] }

/-- The workflow of a key. -/
def get? (m : Module) (key : String) : Option Workflow := m.workflows.get? key

/-- The workflow that stands for the whole document: the one with the entry key, or the only
one. -/
def entry? (m : Module) : Option Workflow :=
  match m.get? entryKey with
  | some w => some w
  | none =>
    match m.workflows with
    | [(_, w)] => some w
    | _ => none

/-- The keys of the workflows, in order. -/
def names (m : Module) : List String := m.workflows.names

end Module

end WorkflowCompiler
