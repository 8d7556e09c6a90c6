import WorkflowCompiler.CommandLine.Selection
import WorkflowCompiler.Compilation.Workflow
import WorkflowCompiler.Compiled.Encoding
import WorkflowCompiler.Json.Printer

/-!
# A run of the program

The program loads a template, with all documents it refers to, validates it, compiles one of
its workflows and writes the compiled steps as JSON. The steps go to the standard output or
into a file, and all that is said about them goes to the standard error output. A run that
fails ends with the reason.

`run` is the whole program as a function of its surroundings: the arguments, the files, the
directory of the user's settings and the clock.
-/

namespace WorkflowCompiler.CommandLine

/-! ## What a run sees and leaves -/

/-- What the program can see. -/
structure Surroundings where
  /-- the arguments -/
  arguments : List String
  /-- the files, with the working directory -/
  disk : Disk
  /-- the directory in which the settings of the user are kept -/
  userSettings : Option String := none
  /-- the time, in seconds since the start of 1970 -/
  clock : Int
  /-- the orders in which the check of the template goes through sets of ids, one for each key -/
  checkOrder : String → SetOrder := fun _ => .asAdded
  /-- the order in which the compiler does so, when it checks the workflow it is given -/
  compileOrder : SetOrder := .asAdded

/-- What the program has written so far. -/
structure Console where
  /-- the files -/
  disk : Disk
  /-- the standard output -/
  output : String := ""
  /-- the standard error output -/
  errors : String := ""

/-- What a run leaves. -/
structure Outcome where
  /-- the run failed -/
  failed : Bool
  /-- what it wrote -/
  console : Console

/-- A part of a run. -/
abbrev Running := Attempt Console RunError

/-- Writes to the standard output. -/
def put (text : String) : Running Unit :=
  Attempt.change fun c => { c with output := c.output ++ text }

/-- Writes to the standard error output. -/
def say (text : String) : Running Unit :=
  Attempt.change fun c => { c with errors := c.errors ++ text }

/-! ## Validating and compiling -/

/-- Loads the template of a run, and tells of a failure. -/
def loadTemplate (l : Library) (t : Selection) : Running (Module × String) := do
  let d ← Attempt.ask Console.disk
  match t.load l d with
  | .ok loaded => pure loaded
  | .error e => do
    say ("[ERROR] Failed to load template: " ++ e.message ++ "\n")
    Attempt.fail (.template t.template e)

/-- The id of a run for which none is given. -/
def defaultRunId (name : String) (clock : Int) : String :=
  name ++ "-" ++ Calendar.compactText clock

/-- Writes compiled steps to the standard output or into a file. -/
def deliver (steps : List CompiledStep) : Option String → Running Unit
  | none => put ((Json.arr (compiledStepsToJson steps)).pretty ++ "\n")
  | some path => do
    let d ← Attempt.ask Console.disk
    let d ← Attempt.ofExcept
      ((d.writeText path (Json.arr (compiledStepsToJson steps)).pretty).mapError .write)
    Attempt.change fun c => { c with disk := d }
    say ("✓ wrote " ++ toString steps.length ++ " step(s) to " ++ path ++ "\n")

/-- Compiles a workflow of a document. -/
def compileChosen (s : Surroundings) (o : Options) (name : String) (w : Workflow) :
    Running (List CompiledStep) := do
  let d ← Attempt.ask Console.disk
  let compiler : Compiler :=
    { settings :=
        { workflowId := o.runId.getD (defaultRunId name s.clock)
          defaultAssignee := o.assignee
          shellQuoting := o.shellQuoting
          order := s.compileOrder } }
  Attempt.ofExcept ((compiler.compile d w (Fields.ofEntries o.bindings)).1.mapError .compile)

/-- Validates a template and compiles one of its workflows. -/
def compileTemplate (s : Surroundings) (template : String) (o : Options) : Running Unit := do
  say banner
  let selection := Selection.of template
  let (m, name) ← loadTemplate (libraryFor o s.disk s.userSettings) selection
  let findings := m.findings s.checkOrder
  say (report findings)
  if findings ≠ [] then Attempt.fail (.invalid findings)
  else if o.validateOnly then pure ()
  else do
    let w ← Attempt.ofExcept (chooseWorkflow m name selection.workflow)
    let steps ← compileChosen s o name w
    deliver steps o.output

/-! ## The program -/

/-- Does what the arguments ask for. -/
def program (s : Surroundings) : Running Unit :=
  match Request.read s.arguments with
  | .error e => do
    say ("Error: " ++ e.message ++ "\n\n")
    put usage
    Attempt.fail (.arguments e)
  | .ok .help => put usage
  | .ok .version => put (programName ++ " " ++ programVersion ++ "\n")
  | .ok (.compile template o) => compileTemplate s template o

/-- The console after a failure: the reason is said. -/
def Console.ended (c : Console) (e : RunError) : Console :=
  { c with errors := c.errors ++ "\nError: " ++ e.message ++ "\n" }

/-- Runs the program. -/
def run (s : Surroundings) : Outcome :=
  match program s { disk := s.disk } with
  | (.ok (), console) => { failed := false, console }
  | (.error e, console) => { failed := true, console := console.ended e }

end WorkflowCompiler.CommandLine
