import WorkflowCompiler.Library.Basic
import WorkflowCompiler.Placeholder.Scan

/-!
# Loading all documents that a workflow refers to

From a root workflow the references of its steps, and of their inline steps, are followed
from document to document. The result is a `TemplateTree`: every document that is reached,
under the name it is referred to by. A reference with placeholders cannot be followed and is
left alone. Following fails when references lead in a circle, when a document or a workflow
is missing, and when a document refers to an internal workflow of another one.

The workflows on the way from the root are all different, so the way can be no longer than
there are workflows under the names that documents refer to; this bounds the recursion.
-/

namespace WorkflowCompiler

/-! ## The references of steps -/

/-- The texts of a list that the other list does not have, each once. -/
def addNew (found : List String) : List String → List String
  | [] => found
  | text :: rest => addNew (if text ∈ found then found else found ++ [text]) rest

/-- The references that can be followed. -/
def followable (templates : List String) : List String :=
  templates.filter fun text => !hasPlaceholders text

mutual

/-- Adds the references of a step to those found before. -/
def stepReferences (found : List String) : Step → List String
  | ⟨d, onTrue, onFalse, onTimeout⟩ =>
    let own := followable (d.template.toList ++ onTrue.toList.filterMap Target.template ++
      onFalse.toList.filterMap Target.template ++ onTimeout.toList.filterMap Target.template)
    let found := addNew found own
    let found := outcomeReferences found onTrue
    let found := outcomeReferences found onFalse
    outcomeReferences found onTimeout

/-- Adds the references of the inline steps of an outcome to those found before. -/
def outcomeReferences (found : List String) : Option (Target Step) → List String
  | none => found
  | some ⟨_, _, inline⟩ => stepsReferences found inline

/-- Adds the references of steps to those found before. -/
def stepsReferences (found : List String) : List Step → List String
  | [] => found
  | s :: rest => stepsReferences (stepReferences found s) rest

end

/-- The references of steps and of their inline steps that can be followed, each once. -/
def references (steps : List Step) : List String := stepsReferences [] steps

/-! ## Following references -/

/-- The documents that were reached from a root. -/
structure TemplateTree where
  /-- the name of the root document -/
  root : String
  /-- the documents under their names -/
  modules : Fields Module

/-- The workflow of a document that a reference selects, with its key. -/
def selectWorkflow (m : Module) (file : String) (workflow : Option String) :
    Except LoadError (String × Workflow) :=
  let found :=
    match workflow with
    | some key => (m.get? key).map (key, ·)
    | none =>
      match m.get? Module.entryKey with
      | some w => some (Module.entryKey, w)
      | none =>
        match m.workflows with
        | [entry] => some entry
        | _ => none
  match found with
  | some selected => .ok selected
  | none => .error (.noWorkflow file (workflow.getD Module.entryKey) m.names)

/-- A reference seen from a document: the name of its document, and the workflow it selects. -/
def Reference.from (file : String) : Reference → String × Option String
  | .sibling name => (file, some name)
  | .file next workflow => (next, workflow)

namespace Library

/-- The document of a name, which is loaded unless it was loaded before. -/
def loadInto (l : Library) (d : Disk) (modules : Fields Module) (file : String) :
    Except LoadError (Module × Fields Module) :=
  match modules.get? file with
  | some m => .ok (m, modules)
  | none => (l.load d file).map fun m => (m, modules.set file m)

/-- Visits a workflow and, one after the other, what it refers to, adding the documents that are
reached. The workflow is entered before its references are followed and left after that, so the
tracker has the way from the root; `fuel` bounds its length. -/
def visit (l : Library) (d : Disk) : Nat → Tracker × Fields Module → String → Option String →
    Option String → Except LoadError (Tracker × Fields Module)
  | 0, _, _, _, _ => .error .endless
  | fuel + 1, (tracker, modules), file, workflow, origin => do
    let (m, modules) ← l.loadInto d modules file
    let (key, w) ← selectWorkflow m file workflow
    -- from the outside there is no way into an internal workflow, not even for the root
    if w.internal && origin ≠ some file then .error (.internal file key)
    else
      match tracker.enter file key with
      | (.error circle, _) => .error (.circular circle)
      | (.ok (), tracker) =>
        let (tracker, modules) ← (references w.steps).foldlM (fun reached text =>
          let (next, workflow) := (Reference.read text).from file
          l.visit d fuel reached next workflow (some file)) (tracker, modules)
        pure (tracker.exit.2, modules)

/-- The documents that are reached from a workflow, besides those that were reached before. -/
def walk (l : Library) (d : Disk) (fuel : Nat) (tracker : Tracker) (modules : Fields Module)
    (file : String) (workflow origin : Option String) : Except LoadError (Fields Module) :=
  (l.visit d fuel (tracker, modules) file workflow origin).map Prod.snd

/-! ## How long a way can be -/

/-- All documents that can be reached: those of the disk, those that come with the library,
and those at hand. -/
def reachableModules (l : Library) (d : Disk) (modules : Fields Module) : List Module :=
  let texts := d.entries.filterMap (fun e =>
    match e.2 with
    | .file (.text s) => some s
    | _ => none) ++ l.embedded.map Prod.snd
  texts.filterMap (fun text => (Module.read text).toOption) ++ modules.map Prod.snd

/-- A bound on the length of a way: the number of names that documents are referred to by,
times the number of workflows. -/
def walkBound (l : Library) (d : Disk) (modules : Fields Module) : Nat :=
  let workflows := (l.reachableModules d modules).flatMap fun m => m.workflows.map Prod.snd
  let names := workflows.foldr (fun w rest => (references w.steps).length + rest) 1
  names * workflows.length + 2

/-- Loads the documents that a reference reaches. -/
def loadTree (l : Library) (d : Disk) (reference : String) : Except LoadError TemplateTree :=
  match Reference.read reference with
  | .sibling _ => .error (.dangling reference)
  | .file file workflow => do
    let modules ← l.walk d (l.walkBound d []) {} [] file workflow none
    pure { root := file, modules }

/-- Loads the documents that a workflow of a document at hand reaches. -/
def loadTreeFrom (l : Library) (d : Disk) (name : String) (m : Module)
    (workflow : Option String) : Except LoadError TemplateTree := do
  let modules := [(name, m)]
  let modules ← l.walk d (l.walkBound d modules) {} modules name workflow none
  pure { root := name, modules }

end Library

end WorkflowCompiler
