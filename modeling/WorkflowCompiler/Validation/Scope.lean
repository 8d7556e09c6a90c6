import WorkflowCompiler.Placeholder.Path
import WorkflowCompiler.Validation.Finding
import WorkflowCompiler.Validation.Suggestion
import WorkflowCompiler.Workflow.Basic

/-!
# The scope of a validation

A workflow is validated alone, or in its module. In its module a reference to another
workflow of the same document, which starts with a point, can be followed; alone, what such a
reference stands for is not known.

A validation keeps the ids around a batch as a set. In which order it goes through them is a matter
of each validation of a workflow, and part of its scope.
-/

namespace WorkflowCompiler

/-- The builtins that every run binds. -/
def builtinNames : List String :=
  ["timestamp", "date", "time", "agent", "bead_id", "step_id", "workflow_id", "molecule_id"]

/-- An order in which one validation of a workflow goes through sets of ids. It may be any, and may
hang on how a set came about, as long as no member is left out and none is added. -/
structure SetOrder where
  /-- the members of the set that came about by putting in ids in the given order -/
  list : List String → List String
  /-- they are the ids that were put in -/
  mem_list : ∀ (ids : List String) (id : String), id ∈ list ids ↔ id ∈ ids

namespace SetOrder

/-- Members that were put in earlier come first. -/
def asAdded : SetOrder := ⟨fun ids => ids, fun _ _ => Iff.rfl⟩

/-- Members that were put in later come first. -/
def lastFirst : SetOrder := ⟨List.reverse, fun _ _ => List.mem_reverse⟩

end SetOrder

/-- What a validation knows of the place it is at. -/
structure Scope where
  /-- the workflow -/
  workflow : Workflow
  /-- the module around it, if it is known -/
  module : Option Module := none
  /-- the order in which the validation goes through the ids around a batch -/
  order : SetOrder := .asAdded

/-- The name after the point of a reference within the document. -/
def localName? (reference : String) : Option String :=
  match reference.toList with
  | '.' :: rest => some (String.ofList rest)
  | _ => none

namespace Scope

/-- A finding in the workflow. -/
def finding (scope : Scope) (step field : String) (fault : Fault)
    (suggestion : Option String := none) : Finding :=
  { workflow := scope.workflow.name, step, field, fault, suggestion }

/-- The roots that are known everywhere in the workflow: its variables, then the builtins. -/
def knownRoots (scope : Scope) : List String := scope.workflow.vars.names ++ builtinNames

/-- The workflow of the same document that a reference names, if that can be known. -/
def localWorkflow? (scope : Scope) (reference : String) : Option Workflow := do
  let name ← localName? reference
  if hasPlaceholders reference then none
  else
    let module ← scope.module
    module.get? name

end Scope

/-- The full id of a step: its own, after the full id of the step in which it stands. -/
def fullId (parent : Option String) (id : String) : String :=
  match parent with
  | some parent => parent ++ "." ++ id
  | none => id

end WorkflowCompiler
