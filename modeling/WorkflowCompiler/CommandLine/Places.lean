import WorkflowCompiler.CommandLine.Run

/-!
# The places a run depends on

A run looks at the path of its template, at the paths at which the documents are searched
that its documents refer to, at the files that its variables name, and at the place where it
writes. `placesSought` lists these as far as the known files tell; when they are all known,
knowing more of the disk changes nothing.
-/

namespace WorkflowCompiler.CommandLine

/-- The documents on a disk. -/
def documentsOn (d : Disk) : List Module :=
  d.entries.filterMap fun e =>
    match e.2 with
    | .file (.text s) => (Module.read s).toOption
    | _ => none

/-- The names of the documents that a document refers to. -/
def referredNames (m : Module) : List String :=
  m.workflows.flatMap fun w =>
    (references w.2.steps).filterMap fun text =>
      match Reference.read text with
      | .sibling _ => none
      | .file name _ => some name

/-- The texts of bindings that are the paths of files for some document. -/
def variableFiles (documents : List Module) (o : Options) : List String :=
  (o.bindings.filter fun binding =>
    documents.any fun m => m.workflows.any fun w =>
      (w.2.vars.get? binding.1).bind Variable.type = some .file).map Prod.snd

/-- The places at which a run looks, as far as they can be told from what is known of the
disk. -/
def placesSought (s : Surroundings) : List Place :=
  match Request.read s.arguments with
  | .ok (.compile template o) =>
    let selection := Selection.of template
    let documents := documentsOn s.disk
    let named := match Reference.read template with
      | .sibling _ => []
      | .file name _ => [name]
    let names := named ++ documents.flatMap referredNames
    let paths :=
      selection.place :: names.flatMap (libraryFor o s.disk s.userSettings).searchPaths ++
        variableFiles documents o ++ o.output.toList
    paths.flatMap s.disk.placesOf
  | _ => []

end WorkflowCompiler.CommandLine
