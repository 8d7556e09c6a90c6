import WorkflowCompiler.Json.Basic
import WorkflowCompiler.Numeric.Integer

/-!
# Reading JSON

`read?` reads one JSON value from a text. A number without a point and an exponent that fits
64 bits, with or without a sign, is an integer; every other number, and minus zero, is a
floating point number. Such a number is read with two roundings: the digits that fit 64 bits
are taken as one number, and that is scaled by a power of ten. A name that is given twice in
an object keeps its last value.
-/

namespace WorkflowCompiler.Json

/-! ## Numbers -/

/-- The digits read so far as one number of 64 bits, and the power of ten they stand for. -/
structure Significand where
  /-- the digits taken -/
  value : Nat
  /-- the power of ten to scale them by -/
  exponent : Int

namespace Significand

/-- Digits before the point: one that no longer fits only moves the scale. -/
def whole : Significand → List Char → Significand
  | s, [] => s
  | s, c :: cs =>
    let next := 10 * s.value + Integer.digitValue c
    -- once a digit was left out, all that follow are left out too
    if s.exponent = 0 ∧ Integer.fitsUnsigned next then whole ⟨next, 0⟩ cs
    else whole ⟨s.value, s.exponent + 1⟩ cs

/-- Digits after the point: the first that no longer fits ends the reading. -/
def fraction : Significand → List Char → Significand
  | s, [] => s
  | s, c :: cs =>
    let next := 10 * s.value + Integer.digitValue c
    if Integer.fitsUnsigned next then fraction ⟨next, s.exponent - 1⟩ cs else s

/-- Scales a number by ten to a power, in steps of at most 308. -/
def scale : Nat → Binary64 → Int → Binary64
  | 0, x, _ => x
  | fuel + 1, x, e =>
    if 308 < e then if x.isZero then x else .infinity false
    else if 0 ≤ e then x.mul (.ofRatio false (Nat.pow 10 e.toNat) 1)
    else if -308 ≤ e then x.div (.ofRatio false (Nat.pow 10 (-e).toNat) 1)
    else if x.isZero then x
    else scale fuel (x.div (.ofRatio false (Nat.pow 10 308) 1)) (e + 308)

/-- The number that the digits stand for. -/
def toBinary64 (s : Significand) (e : Int) : Binary64 :=
  scale 4 (.ofInt s.value) (s.exponent + e)

end Significand

/-- The longest run of digits at the start of the text, and what follows it. -/
def spanDigits (cs : List Char) : List Char × List Char :=
  (cs.takeWhile Char.isDigit, cs.dropWhile Char.isDigit)

/-- The digits after a point, if there is one; at least one digit has to follow it. -/
def readFraction : List Char → Option (Option (List Char) × List Char)
  | '.' :: cs =>
    match spanDigits cs with
    | ([], _) => none
    | (ds, rest) => some (some ds, rest)
  | cs => some (none, cs)

/-- The exponent, if there is one. -/
def readExponent : List Char → Option (Option Int × List Char)
  | c :: cs =>
    if c = 'e' ∨ c = 'E' then
      let (negative, body) :=
        match cs with
        | '-' :: body => (true, body)
        | '+' :: body => (false, body)
        | body => (false, body)
      match spanDigits body with
      | ([], _) => none
      | (ds, rest) =>
        let n : Int := Integer.valueFrom 0 ds
        some (some (if negative then -n else n), rest)
    else some (none, c :: cs)
  | [] => some (none, [])

/-- A number whose digits before the point, digits after it and exponent are known. -/
def numeral? (negative : Bool) (whole : List Char) (fraction : Option (List Char))
    (exponent : Option Int) : Option Json :=
  let n := Integer.valueFrom 0 whole
  let asInteger : Option Json :=
    if fraction.isSome ∨ exponent.isSome then none
    else if negative then
      if 0 < n ∧ n ≤ Integer.signedSpan then some (.int (-(n : Int))) else none
    else if Integer.fitsUnsigned n then some (.int n) else none
  match asInteger with
  | some value => some value
  | none =>
    let s := (Significand.whole ⟨0, 0⟩ whole).fraction (fraction.getD [])
    let x := s.toBinary64 (exponent.getD 0)
    if h : (if negative then x.neg else x).isFinite = true then some (.float ⟨_, h⟩) else none

/-- A number: an optional minus, digits without a needless zero in front, and optionally a
fraction and an exponent. -/
def readNumber (cs : List Char) : Option (Json × List Char) :=
  let (negative, body) :=
    match cs with
    | '-' :: body => (true, body)
    | body => (false, body)
  match spanDigits body with
  | ([], _) => none
  | ('0' :: _ :: _, _) => none
  | (whole, rest) => do
    let (fraction, rest) ← readFraction rest
    let (exponent, rest) ← readExponent rest
    let value ← numeral? negative whole fraction exponent
    pure (value, rest)

/-! ## Strings -/

/-- The value of a hexadecimal digit. -/
def hexValue? (c : Char) : Option Nat :=
  if c.isDigit then some (c.toNat - '0'.toNat)
  else if 'a' ≤ c ∧ c ≤ 'f' then some (c.toNat - 'a'.toNat + 10)
  else if 'A' ≤ c ∧ c ≤ 'F' then some (c.toNat - 'A'.toNat + 10)
  else none

/-- The number that four hexadecimal digits stand for. -/
def readHex4 : List Char → Option (Nat × List Char)
  | a :: b :: c :: d :: rest => do
    let a ← hexValue? a
    let b ← hexValue? b
    let c ← hexValue? c
    let d ← hexValue? d
    pure (((a * 16 + b) * 16 + c) * 16 + d, rest)
  | _ => none

/-- The character of a code point, if it is one. -/
def charOf? (n : Nat) : Option Char :=
  if h : n.isValidChar then some (Char.ofNatAux n h) else none

/-- The character after a backslash. Two escapes that form a surrogate pair are one
character. -/
def readEscape : List Char → Option (Char × List Char)
  | '"' :: rest => some ('"', rest)
  | '\\' :: rest => some ('\\', rest)
  | '/' :: rest => some ('/', rest)
  | 'n' :: rest => some ('\n', rest)
  | 't' :: rest => some ('\t', rest)
  | 'r' :: rest => some ('\r', rest)
  | 'b' :: rest => some ('\x08', rest)
  | 'f' :: rest => some ('\x0C', rest)
  | 'u' :: rest => do
    let (high, rest) ← readHex4 rest
    if 0xD800 ≤ high ∧ high < 0xDC00 then
      match rest with
      | '\\' :: 'u' :: rest => do
        let (low, rest) ← readHex4 rest
        if 0xDC00 ≤ low ∧ low < 0xE000 then
          let c ← charOf? (0x10000 + (high - 0xD800) * 0x400 + (low - 0xDC00))
          pure (c, rest)
        else none
      | _ => none
    else do
      let c ← charOf? high
      pure (c, rest)
  | _ => none

/-- The rest of a string after its opening quote; `fuel` bounds its characters. -/
def readString : Nat → List Char → Option (List Char × List Char)
  | 0, _ => none
  | fuel + 1, cs =>
    match cs with
    | [] => none
    | '"' :: rest => some ([], rest)
    | '\\' :: rest => do
      let (c, rest) ← readEscape rest
      let (tail, rest) ← readString fuel rest
      pure (c :: tail, rest)
    | c :: rest =>
      if c.toNat < 0x20 then none
      else do
        let (tail, rest) ← readString fuel rest
        pure (c :: tail, rest)

/-! ## Values -/

/-- The text without the white space in front of it. -/
def skipSpace (cs : List Char) : List Char :=
  cs.dropWhile fun c => c = ' ' || c = '\t' || c = '\n' || c = '\r'

mutual

/-- A value, and what follows it; `fuel` bounds the number of steps. -/
def readValue : Nat → List Char → Option (Json × List Char)
  | 0, _ => none
  | fuel + 1, cs =>
    match skipSpace cs with
    | 'n' :: 'u' :: 'l' :: 'l' :: rest => some (.null, rest)
    | 't' :: 'r' :: 'u' :: 'e' :: rest => some (.bool true, rest)
    | 'f' :: 'a' :: 'l' :: 's' :: 'e' :: rest => some (.bool false, rest)
    | '"' :: rest => do
      let (chars, rest) ← readString (rest.length + 1) rest
      pure (.str (String.ofList chars), rest)
    | '[' :: rest =>
      match skipSpace rest with
      | ']' :: rest => some (.arr [], rest)
      | rest => do
        let (items, rest) ← readItems fuel rest
        pure (.arr items, rest)
    | '\x7b' :: rest =>
      match skipSpace rest with
      | '\x7d' :: rest => some (.obj [], rest)
      | rest => do
        let (entries, rest) ← readEntries fuel rest
        pure (.obj (Fields.ofEntries entries), rest)
    | rest => readNumber rest

/-- The members of a list up to its closing bracket. -/
def readItems : Nat → List Char → Option (List Json × List Char)
  | 0, _ => none
  | fuel + 1, cs => do
    let (item, rest) ← readValue fuel cs
    match skipSpace rest with
    | ',' :: rest =>
      let (items, rest) ← readItems fuel rest
      pure (item :: items, rest)
    | ']' :: rest => pure ([item], rest)
    | _ => none

/-- The entries of an object up to its closing brace. -/
def readEntries : Nat → List Char → Option (List (String × Json) × List Char)
  | 0, _ => none
  | fuel + 1, cs =>
    match skipSpace cs with
    | '"' :: rest => do
      let (name, rest) ← readString (rest.length + 1) rest
      match skipSpace rest with
      | ':' :: rest => do
        let (value, rest) ← readValue fuel rest
        match skipSpace rest with
        | ',' :: rest =>
          let (entries, rest) ← readEntries fuel rest
          pure ((String.ofList name, value) :: entries, rest)
        | '\x7d' :: rest => pure ([(String.ofList name, value)], rest)
        | _ => none
      | _ => none
    | _ => none

end

/-- The value that the text spells, if it spells exactly one. -/
def read? (text : String) : Option Json := do
  let cs := text.toList
  let (value, rest) ← readValue (2 * cs.length + 2) cs
  if skipSpace rest = [] then some value else none

end WorkflowCompiler.Json
