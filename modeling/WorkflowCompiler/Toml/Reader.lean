import WorkflowCompiler.Toml.Scalar
import WorkflowCompiler.Toml.Table

/-!
# Reading TOML

`read?` reads a whole document as a table of data, or finds that it is not TOML. Values stand
in each other up to a fixed depth, and reading them recurses on what is left of that depth. A
byte order mark at the start of the text does not count.
-/

namespace WorkflowCompiler.Toml

/-! ## Values -/

/-- The members of a list, behind its opening bracket, up to and with its closing one. A comma
may follow the last member. -/
def readItems (readItem : List Char → Option (Item × List Char)) :
    Nat → List Char → Option (List Item × List Char)
  | 0, _ => none
  | fuel + 1, cs =>
    match skipFiller cs.length cs with
    | ']' :: rest => some ([], rest)
    | start => do
      let (item, rest) ← readItem start
      match skipFiller rest.length rest with
      | ',' :: rest => do
        let (items, rest) ← readItems readItem fuel rest
        pure (item :: items, rest)
      | ']' :: rest => pure ([item], rest)
      | _ => none

/-- A key with its value, behind blanks. -/
def readEntry (readItem : List Char → Option (Item × List Char)) (cs : List Char) :
    Option ((List String × Item) × List Char) := do
  let (keys, rest) ← readPath cs
  let rest ← expect '=' (skipSpace rest)
  let (value, rest) ← readItem (skipSpace rest)
  pure ((keys, value), rest)

/-- The entries of an inline table up to and with its closing brace, one at least. -/
def readEntries (readItem : List Char → Option (Item × List Char)) :
    Nat → List Char → Option (List (List String × Item) × List Char)
  | 0, _ => none
  | fuel + 1, cs => do
    let (entry, rest) ← readEntry readItem cs
    match skipSpace rest with
    | ',' :: rest => do
      let (entries, rest) ← readEntries readItem fuel rest
      pure (entry :: entries, rest)
    | '\x7d' :: rest => pure ([entry], rest)
    | _ => none

/-- The table of the entries of an inline table. -/
def inlineTable? (entries : List (List String × Item)) : Option Table :=
  entries.foldlM (fun (t : Table) (keys, item) =>
    match keys.reverse with
    | [] => none
    | key :: outer => t.addValue outer.reverse key item) {}

/-- An inline table, behind its opening brace. -/
def readInlineTable (readItem : List Char → Option (Item × List Char)) (cs : List Char) :
    Option (Item × List Char) :=
  match skipSpace cs with
  | '\x7d' :: rest => some (.inline {}, rest)
  | start => do
    let (entries, rest) ← readEntries readItem (start.length + 1) start
    let table ← inlineTable? entries
    pure (.inline table, rest)

/-- A value that is neither a list nor a table. -/
def readScalar (cs : List Char) : Option (Item × List Char) :=
  match cs with
  | c :: _ =>
    if c = '"' ∨ c = '\'' then (readString cs).map fun (s, rest) => (.value (.text s), rest)
    else
      match readFlag cs, Moment.readPrefix cs with
      | some (flag, rest), _ => some (.value flag, rest)
      | none, some (m, rest) => some (.moment m, rest)
      | none, none => (readNumber cs).map fun (number, rest) => (.value number, rest)
  | [] => none

/-- A value in which lists and inline tables stand no deeper than `depth`. -/
def readValue : Nat → List Char → Option (Item × List Char)
  | 0, cs => readScalar cs
  | depth + 1, cs =>
    match cs with
    | '[' :: rest => do
      let (items, rest) ← readItems (readValue depth) (rest.length + 1) rest
      pure (.list items, rest)
    | '\x7b' :: rest => readInlineTable (readValue depth) rest
    | cs => readScalar cs

/-! ## Documents -/

/-- Reads a header, behind its first bracket. -/
def readHeader (d : Draft) : List Char → Option (Draft × List Char)
  | '[' :: cs => do
    let (path, rest) ← readPath cs
    let rest ← expect ']' rest
    let rest ← expect ']' rest
    let d ← d.openListed path
    pure (d, rest)
  | cs => do
    let (path, rest) ← readPath cs
    let rest ← expect ']' rest
    let d ← d.openTable path
    pure (d, rest)

/-- Reads a line with a key and a value. -/
def readPair (d : Draft) (cs : List Char) : Option (Draft × List Char) := do
  let ((keys, value), rest) ← readEntry (readValue (depthLimit - 1)) cs
  let d ← d.addValue keys value
  pure (d, rest)

/-- Reads lines up to the end of the text; `fuel` bounds their number. -/
def readLines : Nat → Draft → List Char → Option Draft
  | 0, _, _ => none
  | fuel + 1, d, cs =>
    match skipSpace cs with
    | [] => some d
    | '#' :: rest => do
      let rest ← endOfLine? ('#' :: rest)
      readLines fuel d rest
    | '[' :: rest => do
      let (d, rest) ← readHeader d rest
      let rest ← endOfLine? rest
      readLines fuel d rest
    | start =>
      match lineEnd? start with
      | some rest => readLines fuel d rest
      | none => do
        let (d, rest) ← readPair d start
        let rest ← endOfLine? rest
        readLines fuel d rest

/-- The text without the byte order mark at its start. -/
def dropMark : List Char → List Char
  | '\uFEFF' :: rest => rest
  | cs => cs

/-- The table that a document spells. -/
def read? (text : String) : Option (Fields Datum) := do
  let cs := dropMark text.toList
  let draft ← readLines (cs.length + 1) {} cs
  let table ← draft.close
  let entries ← entriesToData? table.entries
  pure (Fields.ofEntries entries)

end WorkflowCompiler.Toml
