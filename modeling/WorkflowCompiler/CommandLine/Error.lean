import WorkflowCompiler.CommandLine.Arguments
import WorkflowCompiler.Compilation.Error
import WorkflowCompiler.Library.Basic

/-!
# Why a run fails

Every cause is a constructor, and `RunError.message` puts it into the words with which the
run ends.
-/

namespace WorkflowCompiler.CommandLine

/-- Why a template could not be loaded. -/
inductive TemplateError where
  /-- its file is no workflow document, or could not be read -/
  | file (error : ReadError)
  /-- the library lacks something, or something in it is wrong -/
  | library (error : LoadError)
  /-- the document is not among those that were loaded -/
  | missing (place : String)
deriving DecidableEq

/-- The error in words. -/
def TemplateError.message : TemplateError → String
  | file error => error.message
  | library error => error.message
  | missing place => "Template '" ++ place ++ "' did not load"

/-- Why a run fails. -/
inductive RunError where
  /-- the arguments cannot be understood -/
  | arguments (error : ArgumentError)
  /-- the template could not be loaded -/
  | template (template : String) (error : TemplateError)
  /-- the validation has findings -/
  | invalid (findings : List Finding)
  /-- the template has no workflow of the key -/
  | noWorkflow (name key : String) (available : List String)
  /-- no workflow of the template stands for the whole document -/
  | noEntry (name : String)
  /-- the workflow is meant for its own document only -/
  | internal (name workflow : String)
  /-- the workflow does not compile -/
  | compile (error : CompileError)
  /-- the steps could not be written -/
  | write (error : FileError)
deriving DecidableEq

/-- The error in words. -/
def RunError.message : RunError → String
  | arguments error => error.message
  | template text error => "Could not load template '" ++ text ++ "': " ++ error.message
  | invalid findings => Finding.lines findings
  | noWorkflow name key available =>
    "Template '" ++ name ++ "' has no workflow '" ++ key ++ "' (available: " ++
      Text.joined ", " available ++ ")"
  | noEntry name => "Template '" ++ name ++ "' has no entry workflow"
  | internal name workflow => "Workflow '" ++ name ++ "#" ++ workflow ++ "' is internal"
  | compile error => error.message
  | write error => error.message

end WorkflowCompiler.CommandLine
