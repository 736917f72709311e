import CodeReview.Number.Binary64
import CodeReview.Text.Chars

/-!
# Reading written numbers

Numbers as people write them: white space around, a sign, digits of any script, single low lines
between digits. A whole number may have at most `digitLimit` digits.
-/

namespace CodeReview.Number

open Text

/-- The number that decimal digits spell. -/
def ofDigits (digits : List Nat) : Nat := digits.foldl (fun n d => 10 * n + d) 0

/-- The most digits that a whole number is read from. -/
def digitLimit : Nat := 4300

/-- Why a text is not read as a whole number. -/
inductive IntegerError
  | malformed
  | tooLong (digits : Nat)
  deriving DecidableEq, Repr

/-- Splits off a sign; true for minus. -/
def splitSign : List Char → Bool × List Char
  | '-' :: cs => (true, cs)
  | '+' :: cs => (false, cs)
  | cs => (false, cs)

/-- The longest run of digits with single low lines between them, and the rest. -/
def digitRun : List Char → List Nat × List Char
  | [] => ([], [])
  | c :: cs =>
    match digitValue? c with
    | none => ([], c :: cs)
    | some d =>
      match cs with
      | '_' :: c' :: cs' =>
        match digitValue? c' with
        | none => ([d], '_' :: c' :: cs')
        | some _ => let (ds, rest) := digitRun (c' :: cs'); (d :: ds, rest)
      | cs => let (ds, rest) := digitRun cs; (d :: ds, rest)

/-- The whole number that decimal digits spell, unless there are too many. -/
def wholeOf (digits : List Nat) : Except IntegerError Nat :=
  if digitLimit < digits.length then .error (.tooLong digits.length) else .ok (ofDigits digits)

/-- Reads a whole number. -/
def readInteger (cs : List Char) : Except IntegerError Int :=
  let (negative, body) := splitSign (Chars.trim cs)
  match digitRun body with
  | ([], _) | (_, _ :: _) => .error .malformed
  | (digits, []) => (wholeOf digits).map fun n => if negative then -(n : Int) else n

/-- The digits before and behind the point and the exponent of a written number. -/
structure Written where
  whole : List Nat
  places : List Nat
  exponent : Int
  deriving DecidableEq, Repr

/-- The number nearest to what is written. -/
def Written.value (w : Written) (negative : Bool) : Binary64 :=
  .ofDecimal negative (ofDigits (w.whole ++ w.places)) (w.exponent - w.places.length)

/-- The exponent part at the end of a written number; none at all counts as zero. -/
def readExponent? : List Char → Option Int
  | [] => some 0
  | c :: cs =>
    if c == 'e' || c == 'E' then
      let (negative, body) := splitSign cs
      match digitRun body with
      | ([], _) | (_, _ :: _) => none
      | (digits, []) => some (if negative then -(ofDigits digits : Int) else ofDigits digits)
    else none

/-- Digits with a point somewhere or not at all, and an exponent part or none. -/
def readWritten? (cs : List Char) : Option Written :=
  let (whole, afterWhole) := digitRun cs
  match afterWhole with
  | '.' :: cs =>
    let (places, rest) := digitRun cs
    if whole.isEmpty && places.isEmpty then none
    else (readExponent? rest).map (⟨whole, places, ·⟩)
  | rest => if whole.isEmpty then none else (readExponent? rest).map (⟨whole, [], ·⟩)

/-- Reads a number of any kind; the names of what is not finite count in either case. -/
def readFloat? (cs : List Char) : Option Binary64 :=
  let (negative, body) := splitSign (Chars.trim cs)
  let name := String.ofList (body.map Char.toLower)
  if name == "inf" || name == "infinity" then some (.infinity negative)
  else if name == "nan" then some .nan
  else (readWritten? body).map (·.value negative)

end CodeReview.Number
