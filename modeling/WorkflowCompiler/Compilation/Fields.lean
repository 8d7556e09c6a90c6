import WorkflowCompiler.Compilation.Error
import WorkflowCompiler.Context.Substitution
import WorkflowCompiler.Numeric.Integer
import WorkflowCompiler.Workflow.Step

/-!
# Compiling the fields of a step

A field is compiled by substituting its placeholders, and an error that arises is reported
with the step and the name of the field. In a table and inside a JSON value every text is
substituted, in order. A setting that is a text has to read as what the setting is for.
-/

namespace WorkflowCompiler

/-- A compilation in a session. -/
abbrev Compiling (α : Type) := Attempt Session CompileError α

namespace Compiling

/-- Changes the context. -/
def update (f : Context → Context) : Compiling Unit := Attempt.change (·.update f)

/-- Reads the context. -/
def context : Compiling Context := Attempt.ask (·.context)

/-- A text. -/
def text (step field value : String) : Compiling String :=
  Attempt.mapError (.field step field) (substitute value)

/-- A command of the shell, in which values may be quoted. -/
def command (quoted : Bool) (step field value : String) : Compiling String :=
  Attempt.mapError (.field step field)
    (if quoted then substituteShell value else substitute value)

/-- A text that may be missing. -/
def optional (step field : String) (value : Option String) : Compiling (Option String) :=
  Attempt.optional (text step field) value

/-- A text that may not be missing or blank. -/
def required (step field : String) (value : Option String) : Compiling String :=
  match value.filter fun v => !Text.allBlank v with
  | some v => text step field v
  | none => Attempt.fail (.invalidStep step (.missingField field))

/-- Numbered texts. -/
def numbered (step field : String) (values : List String) : Compiling (List String) :=
  Attempt.each (fun entry => text step (field ++ "[" ++ toString entry.2 ++ "]") entry.1)
    values.zipIdx

/-- A table of texts. -/
def texts (step field : String) (values : Fields String) : Compiling (Fields String) :=
  Attempt.each (fun entry => do
    let v ← text step (field ++ "." ++ entry.1) entry.2
    pure (entry.1, v)) values

mutual

/-- A JSON value, in which every text is substituted. -/
def value (step field : String) : Json → Compiling Json
  | .str s => do
    let s ← text step field s
    pure (.str s)
  | .arr items => do
    let items ← valueItems step field items
    pure (.arr items)
  | .obj fields => do
    let fields ← valueFields step field fields
    pure (.obj fields)
  | .null => pure .null
  | .bool b => pure (.bool b)
  | .int i => pure (.int i)
  | .float x => pure (.float x)

/-- The members of a list. -/
def valueItems (step field : String) : List Json → Compiling (List Json)
  | [] => pure []
  | item :: rest => do
    let item ← value step field item
    let rest ← valueItems step field rest
    pure (item :: rest)

/-- The entries of an object. -/
def valueFields (step field : String) : List (String × Json) → Compiling (List (String × Json))
  | [] => pure []
  | (name, item) :: rest => do
    let item ← value step field item
    let rest ← valueFields step field rest
    pure ((name, item) :: rest)

end

/-- A table of JSON values. -/
def values (step field : String) (entries : Fields Json) : Compiling (Fields Json) :=
  Attempt.each (fun entry => do
    let v ← value step (field ++ "." ++ entry.1) entry.2
    pure (entry.1, v)) entries

/-! ## Settings -/

/-- A setting that is a truth value; a number stands for whether it is not zero. -/
def flag (step field : String) : Setting → Compiling Bool
  | .flag b => pure b
  | .count n => pure (n != 0)
  | .number x => pure (!x.isZero)
  | .text s => do
    let s ← text step field s
    match readFlag? s with
    | some b => pure b
    | none => Attempt.fail (.invalidValue step field (.notFlag s))

/-- The greatest natural number of 64 bits. -/
def greatestCount : Nat := Integer.unsignedSpan - 1

/-- A setting that is a natural number of 64 bits. A floating point number without a fraction
will do, and one that is too great stands for the greatest number. -/
def count (step field : String) (s : Setting) : Compiling Nat :=
  let refuse (shown : String) : Compiling Nat :=
    Attempt.fail (.invalidValue step field (.notCount shown))
  match s with
  | .count n => if n.toInt < 0 then refuse (toString n.toInt) else pure n.toInt.toNat
  | .number x =>
    if x.isWhole && (!x.negative || x.isZero) then pure (min x.whole greatestCount)
    else refuse (Decimal.messageText x)
  | .flag b => refuse (if b then "true" else "false")
  | .text s => do
    let s ← text step field s
    match Integer.readUnsigned? (Text.trimChars s.toList) with
    | some n => pure n
    | none => refuse s

end Compiling

end WorkflowCompiler
