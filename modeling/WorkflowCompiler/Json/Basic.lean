import WorkflowCompiler.Fields
import WorkflowCompiler.Numeric.Binary64

/-!
# JSON values

A `Json` value is what variables hold and what documents are written as. A number keeps its
kind: it is an integer, or a floating point number that is neither infinite nor a NaN. An
object is the list of its entries, in increasing order of their names when it was built with
`Fields.set`.
-/

namespace WorkflowCompiler

/-- A JSON value. -/
inductive Json where
  /-- the value `null` -/
  | null
  /-- a truth value -/
  | bool (value : Bool)
  /-- an integer -/
  | int (value : Int)
  /-- a number with a point or an exponent -/
  | float (value : FiniteBinary64)
  /-- a text -/
  | str (value : String)
  /-- a list of values -/
  | arr (items : List Json)
  /-- named values -/
  | obj (fields : List (String × Json))

namespace Json

instance : Inhabited Json := ⟨.null⟩

/-- A floating point number as a value; one that is not finite has no JSON form but `null`. -/
def ofBinary64 (x : Binary64) : Json :=
  if h : x.isFinite = true then .float ⟨x, h⟩ else .null

/-- The value of a name, if the value is an object that has it. -/
def field? : Json → String → Option Json
  | .obj fields, name => Fields.get? fields name
  | _, _ => none

theorem ofBinary64_of_isFinite {x : Binary64} (h : x.isFinite = true) :
    ofBinary64 x = .float ⟨x, h⟩ := dif_pos h

end Json

end WorkflowCompiler
