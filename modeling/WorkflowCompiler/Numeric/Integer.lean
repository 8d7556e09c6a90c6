/-!
# Integers in texts

An integer text is an optional sign and at least one decimal digit. `readSigned?` also asks
that the value fits 64 bits with a sign, `readUnsigned?` that it has no minus and fits 64
bits without one.
-/

namespace WorkflowCompiler.Integer

/-- The value of a decimal digit. -/
def digitValue (c : Char) : Nat := c.toNat - '0'.toNat

/-- The value of digits, read after the digits of `acc`. -/
def valueFrom (acc : Nat) (ds : List Char) : Nat :=
  ds.foldl (fun n c => 10 * n + digitValue c) acc

/-- The value of one or more decimal digits. -/
def readDigits? (ds : List Char) : Option Nat :=
  if ds ≠ [] ∧ ds.all Char.isDigit then some (valueFrom 0 ds) else none

/-- The number of natural numbers of 63 bits. -/
def signedSpan : Nat := 9223372036854775808

/-- The number of natural numbers of 64 bits. -/
def unsignedSpan : Nat := 2 * signedSpan

/-- The integers of 64 bits with a sign. -/
def fitsSigned (i : Int) : Bool := -(signedSpan : Int) ≤ i && i < signedSpan

/-- The natural numbers of 64 bits. -/
def fitsUnsigned (n : Nat) : Bool := n < unsignedSpan

/-- An integer text of 64 bits with a sign. -/
def readSigned? (cs : List Char) : Option Int :=
  let value : Option Int :=
    match cs with
    | '-' :: ds => (readDigits? ds).map fun n => -(n : Int)
    | '+' :: ds => (readDigits? ds).map fun n => (n : Int)
    | ds => (readDigits? ds).map fun n => (n : Int)
  value.filter fitsSigned

/-- An integer text of 64 bits that has no minus sign. -/
def readUnsigned? (cs : List Char) : Option Nat :=
  let value :=
    match cs with
    | '+' :: ds => readDigits? ds
    | ds => readDigits? ds
  value.filter fitsUnsigned

end WorkflowCompiler.Integer
