import WorkflowCompiler.Json.Basic

/-!
# Data

A `Datum` is a value as a document gives it, before it is read as a workflow. It is wider
than a JSON value in one point: a floating point number may be infinite or a NaN, which some
document formats can write. A date or time is the text it is written as.

* `Json.toDatum`, `Datum.toJson` — the two are the same but for numbers that are not finite,
  which become `null` (`toJson_toDatum`);
* `Datum.record?` — the fields of a record, given by name or by position;
* `Datum.choice?` — one of a set of names, the only thing that formats write differently.
-/

namespace WorkflowCompiler

/-- A value of a document. -/
inductive Datum where
  /-- nothing -/
  | null
  /-- a truth value -/
  | bool (value : Bool)
  /-- an integer -/
  | int (value : Int)
  /-- a floating point number of any kind -/
  | float (value : Binary64)
  /-- a text -/
  | text (value : String)
  /-- a list of values -/
  | list (items : List Datum)
  /-- named values -/
  | table (fields : List (String × Datum))

instance : Inhabited Datum := ⟨.null⟩

/-! ## Data and JSON values -/

mutual

/-- The JSON value as a datum. -/
def Json.toDatum : Json → Datum
  | .null => .null
  | .bool b => .bool b
  | .int i => .int i
  | .float x => .float x.val
  | .str s => .text s
  | .arr items => .list (Json.toDatumItems items)
  | .obj fields => .table (Json.toDatumFields fields)

/-- The members of a list as data. -/
def Json.toDatumItems : List Json → List Datum
  | [] => []
  | item :: rest => item.toDatum :: Json.toDatumItems rest

/-- The entries of an object as data. -/
def Json.toDatumFields : List (String × Json) → List (String × Datum)
  | [] => []
  | (name, value) :: rest => (name, value.toDatum) :: Json.toDatumFields rest

end

mutual

/-- The datum as a JSON value; a number that is not finite becomes `null`. -/
def Datum.toJson : Datum → Json
  | .null => .null
  | .bool b => .bool b
  | .int i => .int i
  | .float x => .ofBinary64 x
  | .text s => .str s
  | .list items => .arr (Datum.toJsonItems items)
  | .table fields => .obj (Datum.toJsonFields fields)

/-- The members of a list as JSON values. -/
def Datum.toJsonItems : List Datum → List Json
  | [] => []
  | item :: rest => item.toJson :: Datum.toJsonItems rest

/-- The entries of a table as JSON values. -/
def Datum.toJsonFields : List (String × Datum) → List (String × Json)
  | [] => []
  | (name, value) :: rest => (name, value.toJson) :: Datum.toJsonFields rest

end

mutual

/-- A JSON value comes back from the datum it is. -/
theorem Json.toJson_toDatum : ∀ j : Json, j.toDatum.toJson = j
  | .null => rfl
  | .bool _ => rfl
  | .int _ => rfl
  | .float x => by
    rw [Json.toDatum, Datum.toJson, Json.ofBinary64_of_isFinite x.property]
  | .str _ => rfl
  | .arr items => by
    rw [Json.toDatum, Datum.toJson, Json.toJsonItems_toDatumItems items]
  | .obj fields => by
    rw [Json.toDatum, Datum.toJson, Json.toJsonFields_toDatumFields fields]

theorem Json.toJsonItems_toDatumItems :
    ∀ items : List Json, Datum.toJsonItems (Json.toDatumItems items) = items
  | [] => rfl
  | item :: rest => by
    rw [Json.toDatumItems, Datum.toJsonItems, Json.toJson_toDatum item,
      Json.toJsonItems_toDatumItems rest]

theorem Json.toJsonFields_toDatumFields :
    ∀ fields : List (String × Json), Datum.toJsonFields (Json.toDatumFields fields) = fields
  | [] => rfl
  | (name, value) :: rest => by
    rw [Json.toDatumFields, Datum.toJsonFields, Json.toJson_toDatum value,
      Json.toJsonFields_toDatumFields rest]

end

/-- The names of a table stay as they are. -/
theorem Json.get?_toDatumFields (fields : Fields Json) (name : String) :
    Fields.get? (Json.toDatumFields fields) name = (fields.get? name).map Json.toDatum := by
  induction fields with
  | nil => rfl
  | cons entry rest ih =>
    obtain ⟨key, value⟩ := entry
    by_cases h : key = name
    · simp [Json.toDatumFields, Fields.get?_cons, h]
    · simpa [Json.toDatumFields, Fields.get?_cons, h] using ih

/-! ## Reading data -/

namespace Datum

/-- A text. -/
def text? : Datum → Option String
  | .text s => some s
  | _ => none

/-- A truth value. -/
def bool? : Datum → Option Bool
  | .bool b => some b
  | _ => none

/-- The members of a list. -/
def list? : Datum → Option (List Datum)
  | .list items => some items
  | _ => none

/-- The entries of a table. -/
def table? : Datum → Option (Fields Datum)
  | .table fields => some fields
  | _ => none

/-- A list of texts. -/
def texts? (d : Datum) : Option (List String) := d.list?.bind fun items => items.mapM text?

/-- A table of values that are all read in one way. -/
def tableOf? {α : Type} (read : Datum → Option α) (d : Datum) : Option (Fields α) :=
  d.table?.bind fun fields => fields.mapM fun entry => (read entry.2).map (entry.1, ·)

/-- A table of JSON values. -/
def values? : Datum → Option (Fields Json) := tableOf? fun d => some d.toJson

/-- The fields of a record whose fields have these names: a table has them by name, and a
list by position, where fields at the end may be left out. -/
def record? (names : List String) : Datum → Option (Fields Datum)
  | .table fields => some fields
  | .list items => if items.length ≤ names.length then some (names.zip items) else none
  | _ => none

/-- A field that may be missing or `null`. -/
def optional? {α : Type} (fields : Fields Datum) (name : String) (read : Datum → Option α) :
    Option (Option α) :=
  match fields.get? name with
  | none => some none
  | some .null => some none
  | some d => (read d).map some

/-- A field that may be missing, and then has a default. -/
def orDefault? {α : Type} (fields : Fields Datum) (name : String) (default : α)
    (read : Datum → Option α) : Option α :=
  match fields.get? name with
  | none => some default
  | some d => read d

/-- A field that has to be there. -/
def required? {α : Type} (fields : Fields Datum) (name : String) (read : Datum → Option α) :
    Option α := (fields.get? name).bind read

/-- The formats that data are written in. -/
inductive Format where
  /-- JSON, which has a `null` -/
  | json
  /-- TOML, which has none -/
  | toml
deriving DecidableEq

/-- The datum is what the format writes for a value that says nothing: a `null`, or else an
empty list or an empty table. -/
def Format.saysNothing : Format → Datum → Bool
  | .json, .null => true
  | .toml, .list [] => true
  | .toml, .table [] => true
  | _, _ => false

/-- One of a set of names, given as a text, or as the only name of a table, whose value says
nothing. -/
def choice? {α : Type} (f : Format) (read : String → Option α) : Datum → Option α
  | .text s => read s
  | .table [(s, d)] => if f.saysNothing d then read s else none
  | _ => none

end Datum

end WorkflowCompiler
