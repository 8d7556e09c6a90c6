import WorkflowCompiler.Context.Resolution
import WorkflowCompiler.Disk.Basic
import WorkflowCompiler.Validation.Finding

/-!
# Why a workflow does not compile

Every cause is a constructor, with the place where it arose, and `CompileError.message` puts
it into words.
-/

namespace WorkflowCompiler

/-- Why the text of a variable is refused. -/
inductive VariableFault where
  /-- it is no integer -/
  | notInteger (text : String)
  /-- it is no truth value -/
  | notFlag (text : String)
  /-- it is none of the texts that are allowed -/
  | notAllowed (text : String) (allowed : List String)
deriving DecidableEq

/-- The fault in words. -/
def VariableFault.message : VariableFault → String
  | notInteger text => "'" ++ text ++ "' is not an integer"
  | notFlag text => "'" ++ text ++ "' is not a boolean"
  | notAllowed text allowed => "'" ++ text ++ "' is not one of: " ++ Text.joined ", " allowed

/-- Why the value of a setting is refused. -/
inductive SettingFault where
  /-- it is no truth value -/
  | notFlag (text : String)
  /-- it is no number that can be counted to -/
  | notCount (text : String)
deriving DecidableEq

/-- The fault in words. -/
def SettingFault.message : SettingFault → String
  | notFlag text => "'" ++ text ++ "' is not a boolean (expected true/1/yes or false/0/no)"
  | notCount text => "'" ++ text ++ "' is not a non-negative integer"

/-- Why a step is refused. -/
inductive StepFault where
  /-- the items are given in two ways -/
  | itemsTwice
  /-- the items are not given -/
  | noItems
  /-- a branch has no condition -/
  | noCondition
  /-- a field is missing or blank -/
  | missingField (field : String)
deriving DecidableEq

/-- The fault in words. -/
def StepFault.message : StepFault → String
  | itemsTwice => Fault.itemsTwice.message
  | noItems => Fault.noItems.message
  | noCondition => Fault.noCondition.message
  | missingField field => "missing required field '" ++ field ++ "'"

/-- Why a workflow does not compile. -/
inductive CompileError where
  /-- its validation has findings -/
  | invalid (findings : List Finding)
  /-- the file of a variable could not be read -/
  | variableFile (name path : String) (error : FileError)
  /-- required variables are not bound -/
  | missingVariables (names : List String)
  /-- the text of a variable is refused -/
  | invalidVariable (name : String) (fault : VariableFault)
  /-- a field of a step could not be resolved -/
  | field (step field : String) (cause : ResolutionError)
  /-- the value of a setting is refused -/
  | invalidValue (step field : String) (fault : SettingFault)
  /-- a step is refused -/
  | invalidStep (step : String) (fault : StepFault)
  /-- the executor of a step is not known -/
  | unsupported (step executor : String)
  /-- two inline steps have the same id -/
  | duplicateStep (id : String)
  /-- steps need each other -/
  | cycle (path : List String)
  /-- something outside of the steps could not be resolved -/
  | unresolved (cause : ResolutionError)
deriving DecidableEq

namespace CompileError

/-- The place of a field in words. -/
def placeText (step field : String) : String := "step '" ++ step ++ "', field '" ++ field ++ "': "

/-- The error in words. -/
def message : CompileError → String
  | invalid findings => "workflow failed validation:\n" ++ Finding.lines findings
  | variableFile name path error =>
    "failed to read file for variable '" ++ name ++ "' (" ++ path ++ "): " ++ error.message
  | missingVariables names => "missing required variables: " ++ Text.joined ", " names
  | invalidVariable name fault => "variable '" ++ name ++ "': " ++ fault.message
  | field step name cause => placeText step name ++ cause.message
  | invalidValue step name fault => placeText step name ++ fault.message
  | invalidStep step fault => "step '" ++ step ++ "': " ++ fault.message
  | unsupported step executor =>
    "step '" ++ step ++ "': unsupported executor '" ++ executor ++ "'"
  | duplicateStep id => (Fault.duplicateId id).message
  | cycle path => (Fault.cycle path).message
  | unresolved cause => cause.message

end CompileError

end WorkflowCompiler
