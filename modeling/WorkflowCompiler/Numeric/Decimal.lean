import WorkflowCompiler.Numeric.Binary64

/-!
# Shortest decimal texts

The *shortest decimal* of a finite number is the decimal numeral with the fewest digits that
lies in the interval of reals which round to that number, and of several such numerals the
one nearest to the number. Both are found in exact arithmetic: on each grid of decimals, from
coarse to fine, only the two neighbours of the number can be the nearest, and the first grid
with a neighbour inside the interval has the fewest digits.

How such a decimal is written is a `Layout`: which exponents are written positionally,
whether a whole number keeps a point and a zero, and which way a tie between two neighbours
goes.
-/

namespace WorkflowCompiler

/-- A positive decimal numeral `digits · 10ᵉ`. -/
structure Decimal where
  /-- the digits, read as one natural number -/
  digits : Nat
  /-- the power of ten they are multiplied with -/
  exponent : Int
deriving DecidableEq

namespace Decimal

/-- The digits of a natural number in base ten. -/
def digitChars (n : Nat) : List Char := Nat.toDigits 10 n

/-- The numeral without zeros at the end of its digits; `fuel` bounds their number. -/
def stripZeros : Nat → Decimal → Decimal
  | 0, d => d
  | fuel + 1, d =>
    if d.digits % 10 = 0 then stripZeros fuel ⟨d.digits / 10, d.exponent + 1⟩ else d

/-- The reals that round to one number, in quarters of its unit, with the number itself. -/
structure Interval where
  /-- the lower end -/
  low : Nat
  /-- the number -/
  value : Nat
  /-- the upper end -/
  high : Nat
  /-- the ends belong to the interval -/
  closed : Bool

/-- The interval of a finite number. Its ends are the midpoints to the neighbouring numbers;
below a power of two the neighbours stand at half the distance. -/
def Interval.of (x : Binary64) : Interval :=
  let gap := 2 * Nat.pow 2 x.spacing
  -- the least normal power of two has a neighbour at the full distance on both sides
  let narrow := x.fraction = 0 && 1 < x.exponentField
  { low := 4 * x.units - (if narrow then gap / 2 else gap)
    value := 4 * x.units
    high := 4 * x.units + gap
    closed := x.fraction % 2 = 0 }

/-- Quarters of a unit in one. -/
def quartersPerOne : Nat := 4 * Binary64.unitsPerOne

/-- The two natural numbers whose quotient is `n · 10ᵉ` quarters of a unit. -/
def onGrid (n : Nat) (exponent : Int) : Nat × Nat :=
  if 0 ≤ exponent then (n * Nat.pow 10 exponent.toNat * quartersPerOne, 1)
  else (n * quartersPerOne, Nat.pow 10 (-exponent).toNat)

/-- The decimal lies in the interval. -/
def Interval.holds (i : Interval) (n : Nat) (exponent : Int) : Bool :=
  let (num, den) := onGrid n exponent
  if i.closed then i.low * den ≤ num && num ≤ i.high * den
  else i.low * den < num && num < i.high * den

/-- Which of two decimals at the same distance is taken. -/
inductive Tie where
  /-- the one whose last digit is even -/
  | even
  /-- the greater one -/
  | up
deriving DecidableEq

/-- The decimal of the grid `10ᵉ` inside the interval that is nearest to the number. -/
def Interval.nearest? (i : Interval) (tie : Tie) (exponent : Int) : Option Decimal :=
  let (num, den) := onGrid 1 exponent
  let below := i.value * den / num
  let above := below + 1
  let toBelow := i.value * den - below * num
  let toAbove := above * num - i.value * den
  let takeBelow : Bool :=
    if toBelow = toAbove then (match tie with | .even => below % 2 = 0 | .up => false)
    else toBelow < toAbove
  -- zero stands on every grid, but no positive number is written as zero
  match 0 < below && i.holds below exponent, i.holds above exponent with
  | true, true => some ⟨if takeBelow then below else above, exponent⟩
  | true, false => some ⟨below, exponent⟩
  | false, true => some ⟨above, exponent⟩
  | false, false => none

/-- The first grid with a decimal inside the interval, from `10ᵉ` down. -/
def search (i : Interval) (tie : Tie) : Nat → Int → Decimal
  | 0, exponent => ⟨0, exponent⟩
  | fuel + 1, exponent =>
    match i.nearest? tie exponent with
    | some d => stripZeros 400 d
    | none => search i tie fuel (exponent - 1)

/-- A power of ten above the number, not by much: three tenths of its binary exponent. -/
def startExponent (x : Binary64) : Int :=
  ((Nat.log2 x.units : Int) - 1074) * 30103 / 100000 + 1

/-- The shortest decimal of a positive finite number; seventeen digits are always enough. -/
def shortest (tie : Tie) (x : Binary64) : Decimal :=
  search (.of x) tie 24 (startExponent x)

/-! ## Writing a decimal -/

/-- How a number is written. -/
structure Layout where
  /-- the least exponent of the first digit that is written positionally, if there is one -/
  lowest : Option Int
  /-- the greatest exponent of the first digit that is written positionally, if there is one -/
  highest : Option Int
  /-- a whole number keeps a point and a zero -/
  pointZero : Bool
  /-- which of two equally near decimals is taken -/
  tie : Tie

/-- An exponent with its sign. -/
def exponentChars (e : Int) : List Char :=
  (if e < 0 then '-' else '+') :: digitChars e.natAbs

/-- The digits with the point at its place. -/
def positional (layout : Layout) (ds : List Char) (exponent : Int) : List Char :=
  let tail := if layout.pointZero then ['.', '0'] else []
  if 0 ≤ exponent then ds ++ List.replicate exponent.toNat '0' ++ tail
  else
    let places := (-exponent).toNat
    if places < ds.length then ds.take (ds.length - places) ++ '.' :: ds.drop (ds.length - places)
    else '0' :: '.' :: List.replicate (places - ds.length) '0' ++ ds

/-- The digits with an exponent, one digit standing before the point. -/
def scientific (ds : List Char) (exponent : Int) : List Char :=
  match ds with
  | [] => []
  | [d] => d :: 'e' :: exponentChars exponent
  | d :: rest => d :: '.' :: rest ++ 'e' :: exponentChars exponent

/-- The text of a finite number. -/
def Layout.write (layout : Layout) (x : Binary64) : List Char :=
  let sign := if x.negative then ['-'] else []
  if x.isZero then sign ++ positional layout ['0'] 0
  else
    let d := shortest layout.tie x
    let ds := digitChars d.digits
    let first := d.exponent + ds.length - 1
    let inside := (layout.lowest.all (· ≤ first)) && (layout.highest.all (first ≤ ·))
    sign ++ if inside then positional layout ds d.exponent else scientific ds first

/-- Numbers in documents and in substituted texts: positional from `0.00001` up to below
`10¹⁶`, always with a point or an exponent. -/
def documentLayout : Layout := ⟨some (-5), some 15, true, .even⟩

/-- Numbers in messages: always positional, a whole number without a point. -/
def messageLayout : Layout := ⟨none, none, false, .up⟩

/-- The number as documents write it. -/
def documentText (x : Binary64) : String := String.ofList (documentLayout.write x)

/-- The number as messages write it; infinities and NaN are named. -/
def messageText (x : Binary64) : String :=
  if x.isNaN then "NaN"
  else if x.isFinite then String.ofList (messageLayout.write x)
  else if x.negative then "-inf" else "inf"

end Decimal

end WorkflowCompiler
