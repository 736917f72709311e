import CodeReview.Number.Binary64

/-!
# Decimal text of floating-point numbers

The text of a number has the fewest digits that read back as the same number, and of those the
nearest (`Binary64.shortest`). Where the point and the exponent go is a `DecimalLayout`.

A decimal reads back exactly when it lies in the interval of reals that round to the number, ends
included when the mantissa is even. Of the multiples of a power of ten only the two neighbours of
the number itself have to be tried: if any multiple lies in the interval, so does one of those.
-/

namespace CodeReview

namespace Binary64

attribute [local instance (high)] instPowNat instNatPowNat

/-- The exponent of the leading decimal digit of `num / den`, which is not zero. -/
def leadingExponent (num den : Nat) : Int :=
  if den ≤ num then (digitCount (num / den) : Int) - 1 else -(digitCount ((den - 1) / num) : Int)

/-- A decimal `digits · 10 ^ exponent`. -/
structure Decimal where
  digits : Nat
  exponent : Int
  deriving DecidableEq, Repr

/-- The nearer of the two neighbours of the number among the multiples of `10 ^ exponent`, if it
reads back. In units of a quarter of the last mantissa bit the number is `4 · mantissa`, and the
interval reaches from `below` under it to 2 above it. A tie goes to the even neighbour. -/
def readBackAt (mantissa : Nat) (power : Int) (below : Nat) (exponent : Int) : Option Decimal :=
  let (unitNum, unitDen) := scaled 1 1 (-(power - 2))
  let (tenNum, tenDen) : Nat × Nat :=
    if 0 ≤ exponent then (10 ^ exponent.toNat, 1) else (1, 10 ^ (-exponent).toNat)
  -- in both scales at once: a multiple `a` stands for `a * step`, a quarter bit for `unit`
  let step := tenNum * unitDen
  let unit := unitNum * tenDen
  let value := 4 * mantissa * unit
  let low := (4 * mantissa - below) * unit
  let high := (4 * mantissa + 2) * unit
  let inside (a : Nat) : Bool :=
    if mantissa % 2 == 0 then low ≤ a * step && a * step ≤ high
    else low < a * step && a * step < high
  let lower := value / step
  let upper := lower + 1
  let first := if 2 * value < (lower + upper) * step ||
    (2 * value == (lower + upper) * step && lower % 2 == 0) then lower else upper
  let second := if first == lower then upper else lower
  if inside first then some ⟨first, exponent⟩
  else if inside second then some ⟨second, exponent⟩
  else none

/-- The first decimal of at most 17 digits that reads back, trying few digits first. -/
def shortestFrom (mantissa : Nat) (power : Int) (below : Nat) (lead : Int) : (tries : Nat) → Decimal
  | 0 => ⟨0, 0⟩
  | tries + 1 =>
    match readBackAt mantissa power below (lead - (16 - tries : Nat)) with
    | some d => d
    | none => shortestFrom mantissa power below lead tries

/-- Drops the zeros at the end of the digits. -/
def Decimal.reduced (d : Decimal) : Decimal :=
  let zeros := ((Nat.toDigits 10 d.digits).reverse.takeWhile (· == '0')).length
  ⟨d.digits / 10 ^ zeros, d.exponent + zeros⟩

/-- The shortest decimal that reads back as a finite number that is not zero, without its sign. -/
def shortest (x : Binary64) : Decimal :=
  let (num, den) := scaled x.mantissa 1 (-x.power)
  let below := if x.fraction = 0 && 1 < x.field then 1 else 2
  (shortestFrom x.mantissa x.power below (leadingExponent num den) 17).reduced

end Binary64

/-! ## Layout -/

/-- How the digits of a number are set out. -/
structure DecimalLayout where
  /-- The least exponent of the leading digit that is written without an exponent part. -/
  positionalFrom : Int
  /-- The exponent of the leading digit from which on there is an exponent part. -/
  positionalBelow : Int
  /-- The fewest digits of an exponent part. -/
  exponentDigits : Nat
  nan : String
  infinity : String

namespace DecimalLayout

/-- Exponents from -4 to 15 are written out, others with a sign and at least two digits. -/
def display : DecimalLayout := ⟨-4, 16, 2, "nan", "inf"⟩

/-- Like `display`, with the names that documents use for what is not finite. -/
def document : DecimalLayout := { display with nan := "NaN", infinity := "Infinity" }

/-- Like `display`, with no zero in front of an exponent. -/
def settings : DecimalLayout := { display with exponentDigits := 1 }

/-- Zeros in front of digits, up to a width. -/
def padded (width : Nat) (digits : List Char) : List Char :=
  List.replicate (width - digits.length) '0' ++ digits

/-- The digits without an exponent part; a whole number keeps one zero behind the point. -/
def positional (digits : List Char) (lead : Int) : List Char :=
  if lead < 0 then '0' :: '.' :: (List.replicate (-lead - 1).toNat '0' ++ digits)
  else
    let whole := digits.take (lead.toNat + 1)
    let places := digits.drop (lead.toNat + 1)
    whole ++ List.replicate (lead.toNat + 1 - whole.length) '0' ++
      '.' :: (if places.isEmpty then ['0'] else places)

/-- The digits with an exponent part; a single digit has no point. -/
def scientific (layout : DecimalLayout) (digits : List Char) (lead : Int) : List Char :=
  digits.take 1 ++ (if digits.length ≤ 1 then [] else '.' :: digits.drop 1) ++
    'e' :: (if lead < 0 then '-' else '+') ::
      padded layout.exponentDigits (Nat.toDigits 10 lead.natAbs)

/-- The text of a number. -/
def text (layout : DecimalLayout) (x : Binary64) : String :=
  if x.isNaN then layout.nan
  else
    let sign := if x.negative then "-" else ""
    if x.isInfinite then sign ++ layout.infinity
    else if x.isZero then sign ++ "0.0"
    else
      let decimal := x.shortest
      let digits := Nat.toDigits 10 decimal.digits
      let lead := decimal.exponent + digits.length - 1
      sign ++ String.ofList
        (if layout.positionalFrom ≤ lead && lead < layout.positionalBelow then positional digits lead
        else layout.scientific digits lead)

/-- The text of the nearest whole number, a half going to the even one; the sign is kept on zero. -/
def wholeText (x : Binary64) : String :=
  if x.isNaN then "nan"
  else
    let sign := if x.negative then "-" else ""
    if x.isInfinite then sign ++ "inf"
    else
      let (num, den) := Binary64.scaled x.mantissa 1 (-x.power)
      sign ++ toString (Binary64.roundDiv num den)

end DecimalLayout

end CodeReview
