import WorkflowCompiler.Validation.StepRules

/-!
# Rules for the steps of a batch

A *batch* is a list of siblings: the steps of a workflow, or the inline steps of a target.
The ids of a batch are not blank and differ from each other, its steps need each other in no
circle, and every need names

* a step of the same batch, by its id;
* a step of an enclosing batch, by its full id;
* or a child of a step of the same batch that has children, by the two ids with a point
  between them, where a star stands for all children.
-/

namespace WorkflowCompiler

open Suggestion (suggest)

/-- The ids of a batch that are not blank. -/
def usableIds (batch : List Step) : List String :=
  (batch.map (·.id)).filter fun id => !Text.allBlank id

/-- The findings about the ids of a batch, where some ids were seen before. -/
def idFindings (scope : Scope) (parent : Option String) : List String → List Step → List Finding
  | _, [] => []
  | seen, s :: rest =>
    if Text.allBlank s.id then
      scope.finding "" "id" .blankId :: idFindings scope parent seen rest
    else if s.id ∈ seen then
      scope.finding (fullId parent s.id) "id" (.duplicateId s.id) ::
        idFindings scope parent seen rest
    else idFindings scope parent (s.id :: seen) rest

/-! ## Children -/

/-- What is known of the children of a step. -/
inductive Children where
  /-- there can be none -/
  | none
  /-- they come with a workflow that is not known -/
  | unknown
  /-- these -/
  | known (ids : List String)

/-- The children of a step: the steps of the workflows it puts in, and its inline steps. -/
def childrenOf (scope : Scope) (s : Step) : Children :=
  match s.classify? with
  | .none => .none
  | some c =>
    if c.executor.producesChildren then
      let templates := s.template.toList ++ s.targets.filterMap (·.2.template)
      let workflows := templates.map scope.localWorkflow?
      if workflows.all Option.isSome then
        .known ((workflows.filterMap id).flatMap (fun w => w.steps.map (·.id)) ++
          s.targets.flatMap fun entry => entry.2.inline.map (·.id))
      else .unknown
    else .none

/-! ## Needs -/

/-- What is wrong with a need that names a child of a step of the batch. -/
def childFault? (scope : Scope) (need : String) (parent : Step) (child : String) :
    Option (Fault × Option String) :=
  match childrenOf scope parent with
  | .none => some (.noChildren need parent.id, none)
  | .unknown => none
  | .known ids =>
    if child = "*" || ids.contains child then none
    else
      some (.unknownChild parent.id child,
        (suggest child ids).map fun known => parent.id ++ "." ++ known)

/-- What is wrong with a need in a batch, where `outer` holds the full ids of the steps of
the enclosing batches. The ids of the batch are candidates for it in their order, and behind them
those of the enclosing batches in the order of the validation. -/
def needFault? (scope : Scope) (batch : List Step) (outer : List String) (need : String) :
    Option (Fault × Option String) :=
  if (usableIds batch).contains need || outer.contains need then none
  else
    match (Text.cutAt? '.' need).bind fun (q, child) =>
        (batch.find? fun s => s.id = q).map (·, child) with
    | some (parent, child) => childFault? scope need parent child
    | none =>
      some (.unknownNeed need, suggest need (batch.map (·.id) ++ scope.order.list outer))

/-- The findings about the needs of a batch. -/
def needFindings (scope : Scope) (parent : Option String) (outer : List String)
    (batch : List Step) : List Finding :=
  batch.flatMap fun s =>
    (s.needs.filterMap (needFault? scope batch outer)).map fun (fault, suggestion) =>
      scope.finding (fullId parent s.id) "needs" fault suggestion

/-- The findings about circles in a batch. -/
def cycleFindings (scope : Scope) (parent : Option String) (batch : List Step) : List Finding :=
  (NeedsGraph.ofSteps batch).findCycles.map fun path =>
    scope.finding (fullId parent (path.headD "")) "needs" (.cycle path)

/-- The findings about how the steps of a batch go together. -/
def siblingFindings (scope : Scope) (parent : Option String) (outer : List String)
    (batch : List Step) : List Finding :=
  idFindings scope parent [] batch ++ needFindings scope parent outer batch ++
    cycleFindings scope parent batch

/-- The full ids of the steps of the enclosing batches, for a batch inside this one, in the order
in which they are put into their set. -/
def outerIds (parent : Option String) (outer : List String) (batch : List Step) : List String :=
  outer ++ batch.map fun s => fullId parent s.id

/-! ## Batches inside batches -/

mutual

/-- The findings in a step and in its inline steps. -/
def nestedFindings (scope : Scope) (parent : Option String) (outer : List String) :
    Step → List Finding
  | ⟨d, onTrue, onFalse, onTimeout⟩ =>
    let id := fullId parent d.id
    stepFindings scope id ⟨d, onTrue, onFalse, onTimeout⟩ ++
      outcomeFindings scope id outer onTrue ++ outcomeFindings scope id outer onFalse ++
      outcomeFindings scope id outer onTimeout

/-- The findings in the inline steps of an outcome of a step. -/
def outcomeFindings (scope : Scope) (id : String) (outer : List String) :
    Option (Target Step) → List Finding
  | none => []
  | some ⟨_, _, inline⟩ =>
    siblingFindings scope (some id) outer inline ++
      membersFindings scope (some id) (outerIds (some id) outer inline) inline

/-- The findings in each step of a list and in its inline steps. -/
def membersFindings (scope : Scope) (parent : Option String) (outer : List String) :
    List Step → List Finding
  | [] => []
  | s :: rest => nestedFindings scope parent outer s ++ membersFindings scope parent outer rest

end

/-- All findings in a batch. -/
def batchFindings (scope : Scope) (parent : Option String) (outer : List String)
    (batch : List Step) : List Finding :=
  siblingFindings scope parent outer batch ++
    membersFindings scope parent (outerIds parent outer batch) batch

/-! ## Workflows and modules -/

/-- The findings in a workflow, alone or in its module. -/
def Scope.findings (scope : Scope) : List Finding :=
  (if Text.allBlank scope.workflow.name then [scope.finding "" "name" .noName] else []) ++
  if scope.workflow.steps.isEmpty then [scope.finding "" "steps" .noSteps]
  else batchFindings scope none [] scope.workflow.steps

/-- The findings in a workflow alone. -/
def Workflow.findings (w : Workflow) (order : SetOrder := .asAdded) : List Finding :=
  Scope.findings { workflow := w, order }

/-- The finding about the hooks of a workflow, if the module lacks what they attach to. -/
def hookFindings (m : Module) (w : Workflow) : List Finding :=
  match w.hooksTo with
  | some name =>
    if (m.get? name).isSome then []
    else
      [{ workflow := w.name, field := "hooks_to", fault := .unknownHooks name,
         suggestion := suggest name m.names }]
  | none => []

/-- What is found in a workflow of a module, and in its hooks. -/
def Module.findingsIn (m : Module) (w : Workflow) (order : SetOrder := .asAdded) : List Finding :=
  Scope.findings { workflow := w, module := some m, order } ++ hookFindings m w

/-- The findings in all workflows of a module. Each of them is gone through in an order of its own,
given by its key. -/
def Module.findings (m : Module) (order : String → SetOrder := fun _ => .asAdded) : List Finding :=
  if m.workflows.isEmpty then [{ workflow := "", fault := .noWorkflows }]
  else m.workflows.flatMap fun entry => m.findingsIn entry.2 (order entry.1)

end WorkflowCompiler
