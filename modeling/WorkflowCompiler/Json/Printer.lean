import WorkflowCompiler.Json.Basic
import WorkflowCompiler.Numeric.Decimal

/-!
# Writing JSON

* `compact` — a value on one line without a space: what a substituted list or object reads;
* `pretty` — a value over several lines, each level indented by two more spaces;
* `text` — a value put into a text: a string as it is, `null` as nothing, all else compact.

In a string the quote, the backslash and the characters below U+0020 are escaped, five of
them by a letter, the others by four hexadecimal digits; every other character stands as it
is.
-/

namespace WorkflowCompiler.Json

/-! ## Strings -/

/-- A lower-case hexadecimal digit. -/
def hexDigit (n : Nat) : Char := Nat.digitChar (n % 16)

/-- A character inside a quoted string. -/
def escapeChar (c : Char) : List Char :=
  if c = '"' then ['\\', '"']
  else if c = '\\' then ['\\', '\\']
  else if c = '\n' then ['\\', 'n']
  else if c = '\t' then ['\\', 't']
  else if c = '\r' then ['\\', 'r']
  else if c.toNat = 0x08 then ['\\', 'b']
  else if c.toNat = 0x0C then ['\\', 'f']
  else if c.toNat < 0x20 then ['\\', 'u', '0', '0', hexDigit (c.toNat / 16), hexDigit c.toNat]
  else [c]

/-- A string in quotes. -/
def quoted (s : String) : String :=
  String.ofList ('"' :: s.toList.flatMap escapeChar ++ ['"'])

/-! ## On one line -/

mutual

/-- The value without spaces. -/
def compact : Json → String
  | .null => "null"
  | .bool true => "true"
  | .bool false => "false"
  | .int i => toString i
  | .float x => Decimal.documentText x.val
  | .str s => quoted s
  | .arr items => "[" ++ compactItems items ++ "]"
  | .obj fields => "\x7b" ++ compactFields fields ++ "\x7d"

/-- The members of a list, separated by commas. -/
def compactItems : List Json → String
  | [] => ""
  | [item] => compact item
  | item :: rest => compact item ++ "," ++ compactItems rest

/-- The entries of an object, separated by commas. -/
def compactFields : List (String × Json) → String
  | [] => ""
  | [(name, value)] => quoted name ++ ":" ++ compact value
  | (name, value) :: rest => quoted name ++ ":" ++ compact value ++ "," ++ compactFields rest

end

/-- The value inside a text: a string as it is, `null` as nothing, and all else compact. -/
def text : Json → String
  | .str s => s
  | .null => ""
  | other => compact other

/-! ## Over several lines -/

/-- A new line, indented by two spaces for each level. -/
def newLine (level : Nat) : String := String.ofList ('\n' :: List.replicate (2 * level) ' ')

mutual

/-- The value over several lines, standing at a level. -/
def prettyAt (level : Nat) : Json → String
  | .arr [] => "[]"
  | .arr (item :: rest) =>
    "[" ++ prettyItems (level + 1) (item :: rest) ++ newLine level ++ "]"
  | .obj [] => "\x7b\x7d"
  | .obj (entry :: rest) =>
    "\x7b" ++ prettyFields (level + 1) (entry :: rest) ++ newLine level ++ "\x7d"
  | .null => "null"
  | .bool true => "true"
  | .bool false => "false"
  | .int i => toString i
  | .float x => Decimal.documentText x.val
  | .str s => quoted s

/-- The members of a list, each on lines of its own. -/
def prettyItems (level : Nat) : List Json → String
  | [] => ""
  | [item] => newLine level ++ prettyAt level item
  | item :: rest => newLine level ++ prettyAt level item ++ "," ++ prettyItems level rest

/-- The entries of an object, each on lines of its own. -/
def prettyFields (level : Nat) : List (String × Json) → String
  | [] => ""
  | [(name, value)] => newLine level ++ quoted name ++ ": " ++ prettyAt level value
  | (name, value) :: rest =>
    newLine level ++ quoted name ++ ": " ++ prettyAt level value ++ "," ++ prettyFields level rest

end

/-- The value over several lines. -/
def pretty (value : Json) : String := prettyAt 0 value

end WorkflowCompiler.Json
