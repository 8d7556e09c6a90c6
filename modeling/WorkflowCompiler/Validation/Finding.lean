import WorkflowCompiler.Needs.Cycle

/-!
# Findings of a validation

A *fault* is something that is wrong with a workflow, and a *finding* is a fault together
with the place where it was found and, for a name that is not known, a name that may have
been meant. A validation collects all findings, in the order in which it comes upon them.
-/

namespace WorkflowCompiler

/-- Something wrong with a workflow. -/
inductive Fault where
  /-- the module is empty -/
  | noWorkflows
  /-- the workflow has no name -/
  | noName
  /-- the workflow is empty -/
  | noSteps
  /-- an id is blank -/
  | blankId
  /-- two siblings have the same id -/
  | duplicateId (id : String)
  /-- a need names a child of a step that has no children -/
  | noChildren (need parent : String)
  /-- a need names a child that the step does not have -/
  | unknownChild (parent child : String)
  /-- a need names nothing -/
  | unknownNeed (need : String)
  /-- steps need each other -/
  | cycle (path : List String)
  /-- a reference within the document names no workflow of it -/
  | unknownLocal (reference : String)
  /-- hooks are attached to a workflow that the document does not have -/
  | unknownHooks (name : String)
  /-- a placeholder has a root that nothing binds -/
  | undefinedVariable (root : String)
  /-- no executor has this name -/
  | unknownExecutor (name : String)
  /-- no older type has this name -/
  | unknownType (name : String)
  /-- a shell step has no command -/
  | noCommand
  /-- a step that starts or stops an agent does not say which -/
  | noAgent (executor : Executor)
  /-- a step of an older type that starts or stops an agent does not say which -/
  | noAssignee (executor : Executor)
  /-- a step that puts in a workflow does not say which -/
  | noTemplate (executor : Executor)
  /-- the items are given in two ways -/
  | itemsTwice
  /-- the items are not given -/
  | noItems
  /-- a gate has no instructions -/
  | noInstructions
  /-- a gate names an agent -/
  | gateAssignee
  /-- a branch has no condition -/
  | noCondition
  /-- a branch has no outcome -/
  | noOutcome
  /-- there is no such way to work -/
  | unknownMode (mode : String)
  /-- a target has a template and inline steps -/
  | targetTwice
  /-- a target has neither -/
  | targetEmpty
  /-- a fault found elsewhere, in its own words -/
  | remark (text : String)
deriving DecidableEq

namespace Fault

/-- The fault in words. -/
def message : Fault → String
  | noWorkflows => "module has no workflows"
  | noName => "workflow has no name"
  | noSteps => "workflow has no steps"
  | blankId => "step has empty or whitespace-only ID"
  | duplicateId id => "duplicate step ID '" ++ id ++ "'"
  | noChildren need parent =>
    "'" ++ need ++ "' references children of '" ++ parent ++
      "', which is not an expand, foreach or branch step"
  | unknownChild parent child => "step '" ++ parent ++ "' has no child step '" ++ child ++ "'"
  | unknownNeed need => "unknown dependency '" ++ need ++ "'"
  | cycle path => "dependency cycle: " ++ NeedsGraph.cycleText path
  | unknownLocal reference =>
    "local reference '" ++ reference ++ "' does not name a workflow in this module"
  | unknownHooks name => "hooks_to references unknown workflow '" ++ name ++ "'"
  | undefinedVariable root => "undefined variable '" ++ root ++ "'"
  | unknownExecutor name => Executor.unknownMessage name
  | unknownType name => "unknown step type '" ++ name ++ "'"
  | noCommand => "shell step requires a command"
  | noAgent executor => executor.name ++ " step requires an agent"
  | noAssignee executor => executor.name ++ " step requires an assignee"
  | noTemplate executor => executor.name ++ " step requires a template"
  | itemsTwice => "items and items_file are mutually exclusive"
  | noItems => "foreach step requires items or items_file"
  | noInstructions => "gate step requires instructions"
  | gateAssignee => "gate step must not have an assignee"
  | noCondition => "branch step requires a condition"
  | noOutcome => "branch step requires at least one of on_true, on_false or on_timeout"
  | unknownMode mode => "unknown agent mode '" ++ mode ++ "'"
  | targetTwice => "target must have either a template or inline steps, not both"
  | targetEmpty => "target must have a template or inline steps"
  | remark text => text

end Fault

/-- A fault and where it was found. -/
structure Finding where
  /-- the name of the workflow -/
  workflow : String
  /-- the full id of the step, or nothing -/
  step : String := ""
  /-- the field, or nothing -/
  field : String := ""
  /-- what is wrong -/
  fault : Fault
  /-- the name that may have been meant -/
  suggestion : Option String := none
deriving DecidableEq

namespace Finding

/-- One part of a place, unless it is nothing. -/
def placePart (kind name : String) : List String :=
  if name = "" then [] else [kind ++ " '" ++ name ++ "'"]

/-- The place of a finding. -/
def place (f : Finding) : List String :=
  placePart "workflow" f.workflow ++ placePart "step" f.step ++ placePart "field" f.field

/-- The finding in words. -/
def text (f : Finding) : String :=
  (match f.place with
    | [] => f.fault.message
    | parts => Text.joined ", " parts ++ ": " ++ f.fault.message) ++
  match f.suggestion with
  | some name => " (did you mean '" ++ name ++ "'?)"
  | none => ""

/-- Findings in words, one per line. -/
def lines (findings : List Finding) : String := Text.joined "\n" (findings.map text)

end Finding

end WorkflowCompiler
