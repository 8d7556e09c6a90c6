/-!
# Binary floating point numbers of 64 bits

A number is its 64 bits: a sign, an exponent field of 11 bits and a fraction of 52 bits.
Every finite number is a whole multiple of the least positive one, `2⁻¹⁰⁷⁴`; that multiple,
`units`, makes all arithmetic here exact arithmetic on natural numbers.

* `units`, `negative`, `isFinite`, `isNaN` — what the bits say;
* `ofRatio` — the number nearest to a fraction of two natural numbers, a tie going to the
  number whose last bit is zero;
* `ofDecimal` — the number nearest to a decimal numeral;
* `mul`, `div` — one operation, rounded once.
-/

namespace WorkflowCompiler

/-- A floating point number of 64 bits. -/
structure Binary64 where
  /-- the sign, the exponent field and the fraction, from the highest bit down -/
  bits : UInt64
deriving DecidableEq

namespace Binary64

/-! ## Reading the bits -/

/-- The number of fractions: two to the power of 52. -/
def fractionSpan : Nat := 4503599627370496

/-- The bits of an infinite magnitude: the exponent field is full and the fraction zero. -/
def infiniteBits : Nat := 2047 * fractionSpan

/-- The weight of the sign bit. -/
def signWeight : Nat := 2048 * fractionSpan

/-- The sign bit is set. -/
def negative (x : Binary64) : Bool := signWeight ≤ x.bits.toNat

/-- The eleven bits of the exponent. -/
def exponentField (x : Binary64) : Nat := x.bits.toNat / fractionSpan % 2048

/-- The fifty-two bits of the fraction. -/
def fraction (x : Binary64) : Nat := x.bits.toNat % fractionSpan

/-- Neither an infinity nor a NaN. -/
def isFinite (x : Binary64) : Bool := x.exponentField ≠ 2047

/-- Not a number. -/
def isNaN (x : Binary64) : Bool := x.exponentField = 2047 && x.fraction ≠ 0

/-- How many doublings separate the spacing of the numbers around a finite `x` from the
least spacing. -/
def spacing (x : Binary64) : Nat := x.exponentField - 1

/-- The magnitude of a finite number, counted in units of `2⁻¹⁰⁷⁴`. -/
def units (x : Binary64) : Nat :=
  if x.exponentField = 0 then x.fraction else (fractionSpan + x.fraction) * Nat.pow 2 x.spacing

/-- The number of units in one. -/
def unitsPerOne : Nat := Nat.pow 2 1074

/-- The number is zero, of either sign. -/
def isZero (x : Binary64) : Bool := x.exponentField = 0 && x.fraction = 0

/-! ## Rounding -/

/-- The quotient rounded to the nearest natural number, a tie going to the even one. -/
def roundDiv (num den : Nat) : Nat :=
  let q := num / den
  let r := num % den
  if 2 * r < den then q else if den < 2 * r then q + 1 else q + q % 2

/-- The bits of the magnitude nearest to `num / den` units. Up to `2⁵³` units the spacing is
one unit; above, it doubles with every further bit of the quotient. The significand is added
to the exponent, so that one that rounds up to a power of two moves the exponent by itself. -/
def magnitudeBits (num den : Nat) : Nat :=
  let shift := Nat.log2 (num / den) - 52
  min (shift * fractionSpan + roundDiv num (den * Nat.pow 2 shift)) infiniteBits

/-- The number with these magnitude bits and this sign. -/
def ofMagnitudeBits (negative : Bool) (magnitude : Nat) : Binary64 :=
  ⟨UInt64.ofNat (magnitude + if negative then signWeight else 0)⟩

/-- The number nearest to `± num / den`; past the greatest finite number, an infinity. -/
def ofRatio (negative : Bool) (num den : Nat) : Binary64 :=
  ofMagnitudeBits negative (magnitudeBits (num * unitsPerOne) den)

/-- The number nearest to `± digits · 10ᵉ`. Decimal exponents far outside the range of the
numbers are settled by the number of digits alone. -/
def ofDecimal (negative : Bool) (digits : Nat) (exponent : Int) : Binary64 :=
  if digits = 0 then ofMagnitudeBits negative 0
  else if 400 < exponent then ofMagnitudeBits negative infiniteBits
  else if exponent < -(400 + Nat.log2 digits : Int) then ofMagnitudeBits negative 0
  else if 0 ≤ exponent then ofRatio negative (digits * Nat.pow 10 exponent.toNat) 1
  else ofRatio negative digits (Nat.pow 10 (-exponent).toNat)

/-- The number nearest to an integer. -/
def ofInt (i : Int) : Binary64 := ofRatio (i < 0) i.natAbs 1

/-- Positive zero. -/
def zero : Binary64 := ⟨0⟩

/-- The infinity of a sign. -/
def infinity (negative : Bool) : Binary64 := ofMagnitudeBits negative infiniteBits

/-- A NaN. -/
def nan : Binary64 := ofMagnitudeBits false (infiniteBits + fractionSpan / 2)

/-- The number with the opposite sign. -/
def neg (x : Binary64) : Binary64 := ⟨x.bits ^^^ 0x8000000000000000⟩

/-! ## Arithmetic on finite numbers -/

/-- The product of two finite numbers, rounded. -/
def mul (x y : Binary64) : Binary64 :=
  ofRatio (x.negative != y.negative) (x.units * y.units) (unitsPerOne * unitsPerOne)

/-- The quotient of two finite numbers, rounded; the divisor is not zero. -/
def div (x y : Binary64) : Binary64 :=
  ofRatio (x.negative != y.negative) x.units y.units

/-- A finite number without a fractional part. -/
def isWhole (x : Binary64) : Bool := x.isFinite && x.units % unitsPerOne = 0

/-- The whole part of a finite magnitude. -/
def whole (x : Binary64) : Nat := x.units / unitsPerOne

example : ofInt 1 = ⟨0x3FF0000000000000⟩ := by decide +kernel
example : ofDecimal false 1 (-1) = ⟨0x3FB999999999999A⟩ := by decide +kernel
example : ofDecimal false 5 (-324) = ⟨1⟩ := by decide +kernel
example : ofDecimal true 17976931348623157 292 = ⟨0xFFEFFFFFFFFFFFFF⟩ := by decide +kernel
example : (ofDecimal false 1 400).isFinite = false := by decide +kernel
example : div (ofInt 6626) (ofDecimal false 1 37) ≠ ofDecimal false 6626 (-37) := by
  decide +kernel

end Binary64

/-- A floating point number that is neither infinite nor a NaN. -/
abbrev FiniteBinary64 := { x : Binary64 // x.isFinite = true }

end WorkflowCompiler
