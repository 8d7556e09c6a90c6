import WorkflowCompiler.Datum.Basic
import WorkflowCompiler.Toml.Moment

/-!
# Building the tables of a TOML document

A document defines its tables piece by piece, and a table that is defined may not be defined
again. While it is read, a table therefore remembers how it came about: by a header of its
own, only as the way to a table below it (it is *implied*), or by a key with points (it is
*dotted*). Its entries stand in the order in which they were defined.

* a header may define an implied table that is not dotted;
* a key with points may lead through implied tables, and adds entries to dotted ones only;
* a header in double brackets adds a table to a list of tables, and a path leads into the last
  one of such a list;
* values, inline tables and lists among them, are never added to.

When the document is complete, its tables become data. A table inside the document whose first
key is `momentKey` is no table then but the moment that the string under this key spells; its
other entries do not count.
-/

namespace WorkflowCompiler.Toml

/-- A table while the document is read. -/
structure TableOf (α : Type) where
  /-- it has no header of its own yet -/
  implied : Bool := false
  /-- it came about by a key with points -/
  dotted : Bool := false
  /-- its entries, in the order in which they were defined -/
  entries : List (String × α) := []

/-- What an entry of a table is bound to. -/
inductive Item where
  /-- a text, a number or a truth value -/
  | value (d : Datum)
  /-- a date or time -/
  | moment (m : Moment)
  /-- a list of values -/
  | list (items : List Item)
  /-- an inline table, which is complete -/
  | inline (t : TableOf Item)
  /-- a table -/
  | table (t : TableOf Item)
  /-- a list of tables, each under a header of its own -/
  | tables (ts : List (TableOf Item))

/-- A table while the document is read. -/
abbrev Table := TableOf Item

namespace Table

/-- The entry of a key. -/
def get? (t : Table) (key : String) : Option Item := Fields.get? t.entries key

/-- The entries with a key bound: in its place, or at the end if it is new. -/
def bind (key : String) (item : Item) : List (String × Item) → List (String × Item)
  | [] => [(key, item)]
  | (name, old) :: rest =>
    if name = key then (key, item) :: rest else (name, old) :: bind key item rest

/-- The table with a key bound. -/
def set (t : Table) (key : String) (item : Item) : Table :=
  { t with entries := bind key item t.entries }

/-- The table without a key. -/
def erase (t : Table) (key : String) : Table := { t with entries := Fields.erase t.entries key }

/-- Binding a key leaves the other keys alone. -/
theorem get?_set (t : Table) (key other : String) (item : Item) :
    (t.set key item).get? other = if key = other then some item else t.get? other := by
  obtain ⟨implied, dotted, entries⟩ := t
  simp only [get?, set]
  induction entries with
  | nil => by_cases h : key = other <;> simp [bind, Fields.get?_cons, h]
  | cons entry rest ih =>
    obtain ⟨name, old⟩ := entry
    by_cases h : name = key
    · by_cases h' : key = other <;> simp [bind, Fields.get?_cons, h, h']
    · by_cases h' : name = other
      · subst h'
        simp [bind, Fields.get?_cons, h, Ne.symm h]
      · simpa [bind, Fields.get?_cons, h, h'] using ih

/-- Changes the last table of a list. -/
def changeLast (f : Table → Option Table) : List Table → Option (List Table)
  | [] => none
  | [t] => (f t).map ([·])
  | t :: rest => (changeLast f rest).map (t :: ·)

/-- Changes the table at the end of a path. Tables that are missing on the way come about as
implied ones. -/
def change (dotted : Bool) (f : Table → Option Table) : List String → Table → Option Table
  | [], t => f t
  | key :: path, t =>
    match t.get? key with
    | none =>
      (change dotted f path { implied := true, dotted }).map fun inner => t.set key (.table inner)
    | some (.tables ts) =>
      (changeLast (change dotted f path) ts).map fun inner => t.set key (.tables inner)
    | some (.table inner) =>
      if dotted && !inner.implied then none
      else (change dotted f path inner).map fun inner => t.set key (.table inner)
    | some _ => none

/-- Adds an entry at the end of a path of keys with points between them. -/
def addValue (path : List String) (key : String) (item : Item) (t : Table) : Option Table :=
  change true (fun inner =>
    -- a key without points adds to the table under the header, one with points to a dotted one
    if inner.dotted = path.isEmpty then none
    else if (inner.get? key).isSome then none
    else some (inner.set key item)) path t

/-- Puts a table that a header defined behind the entries that are there. The implied table
that it may have come from leaves its place. -/
def putTable (path : List String) (key : String) (new t : Table) : Option Table :=
  change false (fun inner => some ((inner.erase key).set key (.table new))) path t

/-- Adds a table that a header defined to the end of a list of tables. -/
def pushTable (path : List String) (key : String) (new t : Table) : Option Table :=
  change false (fun inner =>
    match inner.get? key with
    | none => some (inner.set key (.tables [new]))
    | some (.tables ts) => some (inner.set key (.tables (ts ++ [new])))
    | some _ => none) path t

/-- The table at the end of a path, and the outer table in which the way to it is made. -/
def reach (path : List String) (t : Table) : Option (Table × Table) := do
  let outer ← change false some path t
  let inner ← follow path outer
  pure (inner, outer)
where
  /-- The table at the end of a path that is there. -/
  follow : List String → Table → Option Table
    | [], t => some t
    | key :: path, t =>
      match t.get? key with
      | some (.table inner) => follow path inner
      | some (.tables ts) => ts.getLast?.bind (follow path)
      | _ => none

end Table

/-! ## Tables as data -/

/-- The key under which a table spells a moment. -/
def momentKey : String := "$__toml_private_datetime"

/-- The moment that a string spells. -/
def Item.spelledMoment? : Item → Option Moment
  | .value (.text s) => Moment.ofText? s
  | _ => none

mutual

/-- What an entry is bound to, as a datum. -/
def Item.toDatum? : Item → Option Datum
  | .value d => some d
  | .moment m => some (.text m.text)
  | .list items => (itemsToData? items).map .list
  | .inline ⟨_, _, entries⟩ => tableToDatum? entries
  | .table ⟨_, _, entries⟩ => tableToDatum? entries
  | .tables ts => (tablesToData? ts).map .list

/-- A table inside the document as a datum. -/
def tableToDatum? : List (String × Item) → Option Datum
  | [] => some (.table [])
  | (key, item) :: rest =>
    if key = momentKey then item.spelledMoment?.map fun m => .text m.text
    else do
      let d ← item.toDatum?
      let more ← entriesToData? rest
      pure (.table (Fields.ofEntries ((key, d) :: more)))

/-- The entries of a table as data. -/
def entriesToData? : List (String × Item) → Option (List (String × Datum))
  | [] => some []
  | (key, item) :: rest => do
    let d ← item.toDatum?
    let more ← entriesToData? rest
    pure ((key, d) :: more)

/-- The members of a list as data. -/
def itemsToData? : List Item → Option (List Datum)
  | [] => some []
  | item :: rest => do
    let d ← item.toDatum?
    let more ← itemsToData? rest
    pure (d :: more)

/-- The tables of a list as data. -/
def tablesToData? : List (TableOf Item) → Option (List Datum)
  | [] => some []
  | ⟨_, _, entries⟩ :: rest => do
    let d ← tableToDatum? entries
    let more ← tablesToData? rest
    pure (d :: more)

end

/-! ## The document so far -/

/-- A document while it is read: the tables that are complete, and the one that its lines add
to. -/
structure Draft where
  /-- the table of the whole document -/
  root : Table := {}
  /-- the table under the last header -/
  current : Table := {}
  /-- the path of the last header, nothing before the first one -/
  path : List String := []
  /-- the last header stands in double brackets -/
  listed : Bool := false

namespace Draft

/-- Puts the table under the last header in its place. -/
def close (d : Draft) : Option Table :=
  match d.path.reverse with
  | [] => some d.current
  | key :: outer =>
    if d.listed then Table.pushTable outer.reverse key d.current d.root
    else Table.putTable outer.reverse key d.current d.root

/-- Adds a line with a key and a value. -/
def addValue (d : Draft) (keys : List String) (item : Item) : Option Draft :=
  match keys.reverse with
  | [] => none
  | key :: outer => do
    let current ← Table.addValue outer.reverse key item d.current
    pure { d with current }

/-- Adds a header. The table it defines may have come about as an implied one. -/
def openTable (d : Draft) (path : List String) : Option Draft := do
  let root ← d.close
  match path.reverse with
  | [] => none
  | key :: outer =>
    let (inner, root) ← Table.reach outer.reverse root
    match inner.get? key with
    | none => pure { root, current := {}, path, listed := false }
    | some (.table t) =>
      if t.implied && !t.dotted then
        pure { root, current := { entries := t.entries }, path, listed := false }
      else none
    | some _ => none

/-- Adds a header in double brackets. -/
def openListed (d : Draft) (path : List String) : Option Draft := do
  let root ← d.close
  match path.reverse with
  | [] => none
  | key :: outer =>
    let (inner, root) ← Table.reach outer.reverse root
    match inner.get? key with
    | none => pure { root, current := {}, path, listed := true }
    | some (.tables _) => pure { root, current := {}, path, listed := true }
    | some _ => none

end Draft

end WorkflowCompiler.Toml
