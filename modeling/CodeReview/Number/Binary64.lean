/-!
# Binary floating-point numbers

A number of the 64-bit binary format by its bit pattern, so that reading and printing are exact
functions on natural numbers. A finite number is `± mantissa · 2 ^ power`.

* `ofRatio` rounds a quotient to the nearest number, a tie to the even mantissa; past the largest
  finite number it gives an infinity.
* `ofDecimal` and `ofInt?` are the two ways a written number comes in.
* `toInt?` drops the fraction; an infinity and a not-a-number have no integer part.

Arithmetic is done on `Float`, which has the same bit patterns.
-/

namespace CodeReview

/-- A 64-bit binary floating-point number. -/
structure Binary64 where
  bits : UInt64
  deriving DecidableEq, Repr, Inhabited

namespace Binary64

-- Powers are those of the core library, also where a file knows the monoids of numbers. A numeral as
-- exponent has its type written for that.
attribute [local instance (high)] instPowNat instNatPowNat

/-! ## Parts -/

/-- The sign bit; it is set for `-0.0`. -/
def negative (x : Binary64) : Bool := 2 ^ (63 : Nat) ≤ x.bits.toNat

/-- The bits without the sign. -/
def magnitude (x : Binary64) : Nat := x.bits.toNat % 2 ^ (63 : Nat)

/-- The exponent field. -/
def field (x : Binary64) : Nat := x.magnitude / 2 ^ (52 : Nat)

/-- The fraction field. -/
def fraction (x : Binary64) : Nat := x.magnitude % 2 ^ (52 : Nat)

def isFinite (x : Binary64) : Bool := x.field < 2047

def isNaN (x : Binary64) : Bool := x.field == 2047 && x.fraction != 0

def isInfinite (x : Binary64) : Bool := x.field == 2047 && x.fraction == 0

def isZero (x : Binary64) : Bool := x.magnitude == 0

/-- The whole number that is scaled by the power of two. -/
def mantissa (x : Binary64) : Nat := if x.field = 0 then x.fraction else x.fraction + 2 ^ (52 : Nat)

/-- The power of two that scales the mantissa. -/
def power (x : Binary64) : Int := if x.field = 0 then -1074 else (x.field : Int) - 1075

/-! ## Building -/

/-- A number from its sign and the bits without it. -/
def ofMagnitude (negative : Bool) (magnitude : Nat) : Binary64 :=
  ⟨UInt64.ofNat (if negative then magnitude + 2 ^ (63 : Nat) else magnitude)⟩

/-- The magnitude of the infinities. -/
def infiniteMagnitude : Nat := 2047 * 2 ^ (52 : Nat)

def infinity (negative : Bool) : Binary64 := ofMagnitude negative infiniteMagnitude

def nan : Binary64 := ofMagnitude false (infiniteMagnitude + 2 ^ (51 : Nat))

def zero : Binary64 := ofMagnitude false 0

/-- The whole number nearest to `num / den`; a half goes to the even one. -/
def roundDiv (num den : Nat) : Nat :=
  let quotient := num / den
  let twice := 2 * (num % den)
  if twice < den || (twice == den && quotient % 2 == 0) then quotient else quotient + 1

/-- `num / den / 2 ^ power` as a quotient of whole numbers. -/
def scaled (num den : Nat) (power : Int) : Nat × Nat :=
  if 0 ≤ power then (num, den * 2 ^ power.toNat) else (num * 2 ^ (-power).toNat, den)

/-- The power of two at which the quotient, rounded down, has 53 bits; never below the power of the
smallest numbers. -/
def powerFor (num den : Nat) : Int :=
  if num = 0 then -1074 else
  let guess : Int := max (-1074) ((num.log2 : Int) - den.log2 - 53)
  let (n, d) := scaled num den guess
  if n / d < 2 ^ (53 : Nat) then guess else guess + 1

/-- The number nearest to `num / den`, with a sign. -/
def ofRatio (negative : Bool) (num den : Nat) : Binary64 :=
  let power := powerFor num den
  let (n, d) := scaled num den power
  let magnitude := (power + 1074).toNat * 2 ^ (52 : Nat) + roundDiv n d
  ofMagnitude negative (min magnitude infiniteMagnitude)

/-- The number of decimal digits, none for zero. -/
def digitCount (n : Nat) : Nat := if n = 0 then 0 else (Nat.toDigits 10 n).length

/-- The number nearest to `digits · 10 ^ exponent`, with a sign. Exponents far outside the range of
the format are answered without computing the power. -/
def ofDecimal (negative : Bool) (digits : Nat) (exponent : Int) : Binary64 :=
  let top : Int := digitCount digits + exponent
  if digits = 0 || top < -400 then ofMagnitude negative 0
  else if 400 < top then infinity negative
  else if 0 ≤ exponent then ofRatio negative (digits * 10 ^ exponent.toNat) 1
  else ofRatio negative digits (10 ^ (-exponent).toNat)

/-- The number nearest to a whole number, unless that is infinite. -/
def ofInt? (n : Int) : Option Binary64 :=
  let x := ofRatio (n < 0) n.natAbs 1
  if x.isFinite then some x else none

/-! ## Reading off -/

/-- The whole number left when the fraction is dropped. -/
def toInt? (x : Binary64) : Option Int :=
  if x.isFinite then
    let (n, d) := scaled x.mantissa 1 (-x.power)
    let whole : Int := (n / d : Nat)
    some (if x.negative then -whole else whole)
  else none

def toFloat (x : Binary64) : Float := Float.ofBits x.bits

def ofFloat (x : Float) : Binary64 := ⟨x.toBits⟩

end Binary64

end CodeReview
