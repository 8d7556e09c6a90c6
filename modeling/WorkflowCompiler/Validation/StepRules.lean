import WorkflowCompiler.Validation.Scope

/-!
# Rules for a single step

Every executor has fields that its steps need, the target of an outcome is either a template
or inline steps, references within the document name a workflow of it, and every placeholder
in a text has a root that something binds. What stands here looks at one step alone.
-/

namespace WorkflowCompiler

open Suggestion (suggest)

/-- The field is missing or blank. -/
def isBlankField (value : Option String) : Bool := value.all Text.allBlank

/-- The ways in which an agent works. -/
def agentModes : List String := ["autonomous", "interactive"]

/-- What is wrong with the fields that an executor needs: the field, the fault, and the name
that may have been meant. -/
def executorFaults (s : Step) (c : Classification) : List (String × Fault × Option String) :=
  match c.executor with
  | .shell => if isBlankField s.commandText then [("command", .noCommand, none)] else []
  | .spawn | .kill =>
    if isBlankField s.agentName then
      match c.legacy with
      | some .start | some .stop => [("assignee", .noAssignee c.executor, none)]
      | _ => [("agent", .noAgent c.executor, none)]
    else []
  | .expand =>
    if isBlankField s.template then [("template", .noTemplate .expand, none)] else []
  | .foreach =>
    (if isBlankField s.template then [("template", .noTemplate .foreach, none)] else []) ++
    match s.items, s.itemsFile with
    | some _, some _ => [("items", .itemsTwice, none)]
    | none, none => [("items", .noItems, none)]
    | _, _ => []
  | .branch =>
    if c.gate then
      (if isBlankField s.instructions then [("instructions", .noInstructions, none)] else []) ++
      (if s.agentName.isSome then [("assignee", .gateAssignee, none)] else [])
    else
      (if isBlankField s.condition then [("condition", .noCondition, none)] else []) ++
      (if s.targets.isEmpty then [("on_true", .noOutcome, none)] else [])
  | .agent =>
    match s.mode with
    | some mode =>
      if hasPlaceholders mode || mode ∈ agentModes then []
      else [("mode", .unknownMode mode, suggest mode agentModes)]
    | none => []

/-- What is wrong with a target: it has to have a template or inline steps, and not both. -/
def targetFaults (o : Outcome) (t : Target Step) : List (String × Fault × Option String) :=
  match t.template, t.inline.isEmpty with
  | some _, false => [(o.name, .targetTwice, none)]
  | none, true => [(o.name, .targetEmpty, none)]
  | _, _ => []

/-- What is wrong with the fields of a step. A step that does not say how it is run is looked
at no further. -/
def fieldFaults (s : Step) : List (String × Fault × Option String) :=
  match s.classify? with
  | some c => executorFaults s c ++ s.targets.flatMap fun entry => targetFaults entry.1 entry.2
  | none =>
    match s.executor with
    | some name =>
      [("executor", .unknownExecutor name, suggest name (Executor.all.map Executor.name))]
    | none =>
      let name := s.legacyType.getD ""
      [("type", .unknownType name, suggest name (LegacyType.all.map LegacyType.name))]

/-- The workflows that a step refers to, with the fields that name them. -/
def templateFields (s : Step) : List (String × String) :=
  textField "template" s.template ++
    s.targets.flatMap fun entry => textField (entry.1.name ++ ".template") entry.2.template

/-- What is wrong with the references of a step to workflows of the same document. -/
def localFaults (scope : Scope) (s : Step) : List (String × Fault × Option String) :=
  match scope.module with
  | none => []
  | some module =>
    (templateFields s).filterMap fun (field, reference) => do
      let name ← localName? reference
      if hasPlaceholders reference || (module.get? name).isSome then none
      else
        some (field, .unknownLocal reference,
          (suggest name module.names).map fun known => "." ++ known)

/-- The roots that the texts of a step may use. A repetition binds its item and its number. -/
def rootsAt (scope : Scope) (s : Step) : List String :=
  scope.knownRoots ++
    match s.classify? with
    | some ⟨.foreach, _, _⟩ => s.itemName :: s.indexVar.toList
    | _ => []

/-- The roots in a text that are not known. References to outputs have none. -/
def unknownRoots (known : List String) (text : String) : List String :=
  ((scan text).filter fun p => !p.isOutputReference && !known.contains p.root).map (·.root)

/-- What is wrong with the placeholders in the texts of a step. -/
def placeholderFaults (scope : Scope) (s : Step) : List (String × Fault × Option String) :=
  let known := rootsAt scope s
  s.texts.flatMap fun (field, text) =>
    (unknownRoots known text).map fun root =>
      (field, .undefinedVariable root, suggest root known)

/-- The findings in a step that its siblings do not matter for. -/
def stepFindings (scope : Scope) (id : String) (s : Step) : List Finding :=
  (fieldFaults s ++ localFaults scope s ++ placeholderFaults scope s).map
    fun (field, fault, suggestion) => scope.finding id field fault suggestion

end WorkflowCompiler
