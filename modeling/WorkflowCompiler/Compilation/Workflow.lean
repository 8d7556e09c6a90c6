import WorkflowCompiler.Compilation.Step

/-!
# Compiling a workflow

A workflow that has no findings is compiled for one run. Its variables are bound to the
inputs of the run, a variable of type file to the contents of the file that its input names;
variables that are left get their defaults, and after that no required one may be unbound.
The values have to be of the declared types and among the allowed texts, as far as they hold
no placeholders. Then the steps are compiled one after the other in one session, and put
into an order in which each stands behind the steps it needs.

A `Compiler` keeps its session from one workflow to the next, but its context is reset each
time: what was bound before a workflow counts for that workflow only.
-/

namespace WorkflowCompiler

/-! ## Variables -/

/-- The value of an input: the text itself, or for a variable of type file the contents of
the file without the blanks around them. -/
def inputValue (d : Disk) (declared : Fields Variable) (name text : String) :
    Except CompileError Json :=
  if (declared.get? name).bind Variable.type = some .file then
    match d.readText text with
    | .ok contents => .ok (.str (Text.trim contents))
    | .error e => .error (.variableFile name text e)
  else .ok (.str text)

/-- Binds the inputs of a run, in order. -/
def bindInputs (d : Disk) (declared : Fields Variable) : Fields String → Compiling Unit
  | [] => pure ()
  | (name, text) :: rest => do
    let value ← Attempt.ofExcept (inputValue d declared name text)
    Compiling.update (·.setVariable name value)
    bindInputs d declared rest

/-- What is wrong with the text of a variable. -/
def Variable.fault? (v : Variable) (text : String) : Option VariableFault :=
  if hasPlaceholders text then none
  else if v.type = some .int ∧ (Integer.readSigned? (Text.trimChars text.toList)).isNone then
    some (.notInteger text)
  else if v.type = some .bool ∧ (readFlag? text).isNone then some (.notFlag text)
  else
    match v.allowed with
    | some allowed => if text ∈ allowed then none else some (.notAllowed text allowed)
    | none => none

/-- Checks the values of the declared variables, in order. -/
def checkVariables (c : Context) : Fields Variable → Except CompileError Unit
  | [] => .ok ()
  | (name, v) :: rest =>
    match (c.vars.get? name).bind fun value => v.fault? value.text with
    | some fault => .error (.invalidVariable name fault)
    | none => checkVariables c rest

/-- The context of a run: the builtins that name it are bound. -/
def Context.ofRun (c : Context) (workflowId : String) : Context :=
  (c.setBuiltin "workflow_id" (.str workflowId)).setBuiltin "molecule_id" (.str workflowId)

/-- Fails if required variables are not bound. -/
def requireVariables (c : Context) (declared : Fields Variable) : Except CompileError Unit :=
  (c.checkRequired declared).mapError fun
    | .missingRequired names => .missingVariables names
    | cause => .unresolved cause

/-- Binds and checks the variables of a workflow. -/
def bindVariables (d : Disk) (w : Workflow) (inputs : Fields String) : Compiling Unit := do
  bindInputs d w.vars inputs
  Compiling.update (·.applyDefaults w.vars)
  let c ← Compiling.context
  Attempt.ofExcept (requireVariables c w.vars)
  Attempt.ofExcept (checkVariables c w.vars)

/-! ## Workflows -/

/-- Compiles the steps of a workflow in the order in which they are declared. -/
def compileSteps (settings : RunSettings) (steps : List Step) : Compiling (List CompiledStep) :=
  Attempt.each (fun s => compileStep settings s.id s) steps

/-- Fails if the workflow has findings. -/
def requireValid (order : SetOrder) (w : Workflow) : Except CompileError Unit :=
  match w.findings order with
  | [] => .ok ()
  | findings => .error (.invalid findings)

/-- Compiles a workflow in a session. -/
def compileWorkflow (settings : RunSettings) (d : Disk) (w : Workflow) (inputs : Fields String) :
    Compiling (List CompiledStep) := do
  Attempt.ofExcept (requireValid settings.order w)
  bindVariables d w inputs
  Compiling.update (·.ofRun settings.workflowId)
  let compiled ← compileSteps settings w.steps
  Attempt.ofExcept (inOrder compiled)

/-- A compiler of workflows for one run. -/
structure Compiler where
  /-- what holds for all steps of the run -/
  settings : RunSettings
  /-- the session -/
  session : Session := { context := { deferred := true } }

namespace Compiler

/-- Compiles a workflow, and resets the context whether it compiled or not. -/
def compile (c : Compiler) (d : Disk) (w : Workflow) (inputs : Fields String) :
    Except CompileError (List CompiledStep) × Compiler :=
  let (result, session) :=
    Attempt.ensuring (compileWorkflow c.settings d w inputs) (·.update Context.reset) c.session
  (result, { c with session })

/-- Compiles inline steps under the id of a branch. -/
def compileInline (c : Compiler) (steps : List Step) (parent : String) :
    Except CompileError (List CompiledStep) × Compiler :=
  let (result, session) := WorkflowCompiler.compileInline c.settings steps parent c.session
  (result, { c with session })

end Compiler

end WorkflowCompiler
