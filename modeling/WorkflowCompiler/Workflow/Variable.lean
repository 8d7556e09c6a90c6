import WorkflowCompiler.Json.Basic
import WorkflowCompiler.Text.Blank

/-!
# Variables of a workflow

A workflow declares its variables: whether one has to be given, what it is when it is not,
which type its text has to have and which texts are allowed. Declaring binds nothing; the
values come with each run.
-/

namespace WorkflowCompiler

/-- The type a variable declares for its text. -/
inductive VariableType where
  /-- any text -/
  | string
  /-- an integer of 64 bits -/
  | int
  /-- a truth value -/
  | bool
  /-- the path of a file whose contents are meant -/
  | file
deriving DecidableEq

namespace VariableType

/-- The name of a type. -/
def name : VariableType → String
  | string => "string"
  | int => "int"
  | bool => "bool"
  | file => "file"

/-- The type of a name. -/
def read? (text : String) : Option VariableType :=
  [string, int, bool, file].find? fun type => type.name = text

theorem read?_name (t : VariableType) : read? t.name = some t := by cases t <;> decide

end VariableType

/-- The declaration of a variable. -/
structure Variable where
  /-- a run has to bind it, unless it has a default -/
  required : Bool := false
  /-- what it is bound to when a run does not bind it -/
  default : Option Json := none
  /-- the type of its text -/
  type : Option VariableType := none
  /-- the texts it may have -/
  allowed : Option (List String) := none
  /-- what it is for -/
  description : Option String := none

instance : Inhabited Variable := ⟨{}⟩

/-- The truth value of a text: `true`, `1` and `yes`, or `false`, `0` and `no`, in any case
and with blanks around them. The case of ASCII letters alone is ignored. -/
def readFlag? (text : String) : Option Bool :=
  let word := String.ofList ((Text.trimChars text.toList).map Char.toLower)
  if word = "true" ∨ word = "1" ∨ word = "yes" then some true
  else if word = "false" ∨ word = "0" ∨ word = "no" then some false
  else none

end WorkflowCompiler
