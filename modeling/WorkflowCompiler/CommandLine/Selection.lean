import WorkflowCompiler.CommandLine.Error
import WorkflowCompiler.CommandLine.Usage
import WorkflowCompiler.Library.Tree
import WorkflowCompiler.Text.Ending

/-!
# The template of a run

A template is given as a text in which a number sign separates where it is found from the
workflow that is meant. Where it is found is the path of a file or, if there is no such file,
a name in the library of the project.

* `Selection.of` — the parts of the text;
* `Selection.load` — the document, once everything that its workflow refers to is loaded;
* `chooseWorkflow` — the workflow that is meant.
-/

namespace WorkflowCompiler.CommandLine

/-- A template as it was asked for. -/
structure Selection where
  /-- the whole text -/
  template : String
  /-- the path or the name -/
  place : String
  /-- the workflow that is asked for -/
  workflow : Option String

/-- Takes a template apart at the first number sign. -/
def Selection.of (template : String) : Selection :=
  match Text.cutAt? '#' template with
  | some (place, workflow) => { template, place, workflow := some workflow }
  | none => { template, place := template, workflow := none }

/-- The name of a document at a path: the name of the file without its endings. -/
def documentName (path : String) : String :=
  match FilePath.fileName? path with
  | some name => Text.withoutEnding ".toml" (Text.withoutEnding Library.ending name)
  | none => path

/-- The directory of the documents of a user. -/
def userDirectory (settings : String) : String :=
  FilePath.join (FilePath.join settings programName) "templates"

/-- The library in which templates are looked for, given the directory of the user's settings.
The project is in the working directory, unless another one is named. -/
def libraryFor (o : Options) (d : Disk) (userSettings : Option String) : Library :=
  Library.ofProject (o.projectDirectory.getD d.cwdPath) (userSettings.map userDirectory) []

/-- Loads a document with all that its workflow refers to, and tells the name of the document.
A text that is the path of a file is taken as a path, and any other one as a name. -/
def Selection.loadTree (t : Selection) (l : Library) (d : Disk) :
    Except TemplateError (TemplateTree × String) :=
  if d.isFile t.place then do
    let m ← (Module.readAt d t.place).mapError .file
    let name := documentName t.place
    let tree ← (l.loadTreeFrom d name m t.workflow).mapError .library
    pure (tree, name)
  else do
    let tree ← (l.loadTree d t.template).mapError .library
    pure (tree, t.place)

/-- Loads the document that is meant, and tells its name. -/
def Selection.load (t : Selection) (l : Library) (d : Disk) :
    Except TemplateError (Module × String) := do
  let (tree, name) ← t.loadTree l d
  match tree.modules.get? tree.root with
  | some m => pure (m, name)
  | none => .error (.missing t.place)

/-- The workflow of a document that is meant. -/
def chooseWorkflow (m : Module) (name : String) : Option String → Except RunError Workflow
  | some key =>
    match m.get? key with
    | some w => if w.internal then .error (.internal name w.name) else .ok w
    | none => .error (.noWorkflow name key m.names)
  | none =>
    match m.entry? with
    | some w => .ok w
    | none => .error (.noEntry name)

end WorkflowCompiler.CommandLine
