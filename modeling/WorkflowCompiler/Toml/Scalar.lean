import WorkflowCompiler.Datum.Basic
import WorkflowCompiler.Toml.Lexeme

/-!
# Numbers and truth values of TOML

Digits may have single underscores between them. An integer has 64 bits and a sign; it is
decimal without a zero in front, or hexadecimal, octal or binary without a sign. A floating
point number is rounded once; it may be infinite or a NaN by name, and one that is too great
is refused.
-/

namespace WorkflowCompiler.Toml

/-! ## Digits -/

/-- More digits, each of which may have an underscore in front of it. -/
def moreDigits (isDigit : Char → Bool) : List Char → List Char × List Char
  | '_' :: d :: rest =>
    if isDigit d then
      let (ds, rest) := moreDigits isDigit rest
      (d :: ds, rest)
    else ([], '_' :: d :: rest)
  | d :: rest =>
    if isDigit d then
      let (ds, rest) := moreDigits isDigit rest
      (d :: ds, rest)
    else ([], d :: rest)
  | [] => ([], [])

/-- One or more digits. -/
def readDigits (isDigit : Char → Bool) : List Char → Option (List Char × List Char)
  | d :: rest =>
    if isDigit d then
      let (ds, rest) := moreDigits isDigit rest
      some (d :: ds, rest)
    else none
  | [] => none

/-- A sign, if there is one: whether it is a minus, and the rest. -/
def readSign : List Char → Bool × List Char
  | '-' :: rest => (true, rest)
  | '+' :: rest => (false, rest)
  | cs => (false, cs)

/-- The digits of a decimal integer: a zero stands alone. -/
def readWhole : List Char → Option (List Char × List Char)
  | '0' :: rest => some (['0'], rest)
  | cs => readDigits Char.isDigit cs

/-! ## Numbers -/

/-- The digits behind a point, if there is one. -/
def readFraction : List Char → Option (Option (List Char) × List Char)
  | '.' :: cs => do
    let (ds, rest) ← readDigits Char.isDigit cs
    pure (some ds, rest)
  | cs => some (none, cs)

/-- The exponent, if there is one. -/
def readExponent : List Char → Option (Option Int × List Char)
  | c :: cs =>
    if c = 'e' ∨ c = 'E' then do
      let (negative, body) := readSign cs
      let (ds, rest) ← readDigits Char.isDigit body
      let n : Int := Integer.valueFrom 0 ds
      pure (some (if negative then -n else n), rest)
    else some (none, c :: cs)
  | [] => some (none, [])

/-- An integer that fits 64 bits with a sign. -/
def integer? (i : Int) : Option Datum := if Integer.fitsSigned i then some (.int i) else none

/-- A decimal number: an integer, or a floating point number if it has a fraction or an
exponent. -/
def readDecimal (cs : List Char) : Option (Datum × List Char) := do
  let (negative, body) := readSign cs
  let (whole, rest) ← readWhole body
  let (fraction, rest) ← readFraction rest
  let (exponent, rest) ← readExponent rest
  if fraction.isNone && exponent.isNone then
    let n : Int := Integer.valueFrom 0 whole
    let value ← integer? (if negative then -n else n)
    pure (value, rest)
  else
    let places := fraction.getD []
    let x := Binary64.ofDecimal negative (Integer.valueFrom 0 (whole ++ places))
      (exponent.getD 0 - places.length)
    if x = .infinity false then none else pure (.float x, rest)

/-- A number in a base of its own, behind the mark of the base. -/
def readBased (base : Nat) (cs : List Char) : Option (Datum × List Char) := do
  let isDigit := fun c => (Json.hexValue? c).any (· < base)
  let (ds, rest) ← readDigits isDigit cs
  let values ← ds.mapM Json.hexValue?
  let value ← integer? (values.foldl (fun n d => base * n + d) 0 : Nat)
  pure (value, rest)

/-- The numbers that have names. -/
def readNamed (cs : List Char) : Option (Datum × List Char) :=
  match readSign cs with
  | (negative, 'i' :: 'n' :: 'f' :: rest) => some (.float (.infinity negative), rest)
  | (negative, 'n' :: 'a' :: 'n' :: rest) =>
    some (.float (if negative then Binary64.nan.neg else .nan), rest)
  | _ => none

/-- A number. -/
def readNumber (cs : List Char) : Option (Datum × List Char) :=
  match readNamed cs with
  | some found => some found
  | none =>
    match cs with
    | '0' :: 'x' :: rest => readBased 16 rest
    | '0' :: 'o' :: rest => readBased 8 rest
    | '0' :: 'b' :: rest => readBased 2 rest
    | cs => readDecimal cs

/-! ## Truth values -/

/-- A truth value. -/
def readFlag : List Char → Option (Datum × List Char)
  | 't' :: 'r' :: 'u' :: 'e' :: rest => some (.bool true, rest)
  | 'f' :: 'a' :: 'l' :: 's' :: 'e' :: rest => some (.bool false, rest)
  | _ => none

end WorkflowCompiler.Toml
