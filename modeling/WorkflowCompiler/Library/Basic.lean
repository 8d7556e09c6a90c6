import WorkflowCompiler.Disk.Basic
import WorkflowCompiler.Document
import WorkflowCompiler.Reference.Tracker

/-!
# The library of templates

Documents are found by name. A name is looked for in the directory of the project, then in
that of the user, and last among the documents that come with the library; the first one
found counts. A document can also be read from an explicit path.
-/

namespace WorkflowCompiler

/-- Why a document could not be read from a path. -/
inductive ReadError where
  /-- the file could not be read -/
  | file (path : String) (error : FileError)
  /-- the file is no workflow document -/
  | document (error : DocumentError)
deriving DecidableEq

/-- The error in words. -/
def ReadError.message : ReadError → String
  | file path error => "failed to read workflow file '" ++ path ++ "': " ++ error.message
  | document error => error.message

/-- Why templates could not be loaded. -/
inductive LoadError where
  /-- no document has the name -/
  | notFound (name : String) (searched : List String)
  /-- the file of the name could not be read -/
  | unreadable (name : String) (error : FileError)
  /-- the document of the name is no workflow document -/
  | malformed (name : String) (error : DocumentError)
  /-- the document has no such workflow -/
  | noWorkflow (file workflow : String) (available : List String)
  /-- the workflow may be referred to from its own document only -/
  | internal (file workflow : String)
  /-- there is no document of which the reference could name a workflow -/
  | dangling (reference : String)
  /-- the references lead back to a workflow they come from -/
  | circular (circle : List String)
  /-- there are more references in a row than there are workflows -/
  | endless
deriving DecidableEq

/-- The error in words. -/
def LoadError.message : LoadError → String
  | notFound name searched =>
    "template '" ++ name ++ "' not found (searched: " ++ Text.joined ", " searched ++ ")"
  | unreadable name error => "failed to read template '" ++ name ++ "': " ++ error.message
  | malformed name error =>
    "template '" ++ name ++ "' could not be parsed: " ++ error.message
  | noWorkflow file workflow available =>
    "template '" ++ file ++ "' has no workflow '" ++ workflow ++ "' (available: " ++
      Text.joined ", " available ++ ")"
  | internal file workflow =>
    "workflow '" ++ file ++ "#" ++ workflow ++
      "' is internal and cannot be referenced from outside its file"
  | dangling reference => "local reference '" ++ reference ++ "' has no enclosing document"
  | circular circle => Tracker.circleMessage circle
  | endless => "references do not come to an end"

/-- Where documents are found. -/
structure Library where
  /-- the directories with documents, in the order in which they are searched -/
  directories : List String := []
  /-- the documents that come with the library -/
  embedded : Fields String := []

namespace Library

/-- The directory of the documents of a project. -/
def projectDirectory (project : String) : String :=
  FilePath.join (FilePath.join project ".meow") "templates"

/-- The library of a project. -/
def ofProject (project : String) (user : Option String) (embedded : Fields String) : Library :=
  { directories := projectDirectory project :: user.toList, embedded }

/-- The ending of the names of document files. -/
def ending : String := ".meow.toml"

/-- The paths at which a document is looked for, in order. -/
def searchPaths (l : Library) (name : String) : List String :=
  l.directories.map fun directory => FilePath.join directory (name ++ ending)

/-- Reads a document of a name from its text. -/
def readNamed (name text : String) : Except LoadError Module :=
  (Module.read text).mapError (.malformed name)

/-- Loads the document of a name. -/
def load (l : Library) (d : Disk) (name : String) : Except LoadError Module :=
  match (l.searchPaths name).find? d.isFile with
  | some path =>
    match d.readText path with
    | .error e => .error (.unreadable name e)
    | .ok text => (readNamed name text).map fun m => { m with path := some path }
  | none =>
    match l.embedded.get? name with
    | some text => readNamed name text
    | none => .error (.notFound name (l.searchPaths name ++ ["embedded:" ++ name]))

end Library

/-- Reads the document at a path. -/
def Module.readAt (d : Disk) (path : String) : Except ReadError Module :=
  match d.readText path with
  | .error e => .error (.file path e)
  | .ok text =>
    match Module.read text with
    | .error e => .error (.document e)
    | .ok m => .ok { m with path := some path }

end WorkflowCompiler
