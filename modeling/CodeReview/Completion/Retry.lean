import CodeReview.Failure
import CodeReview.Keyed
import CodeReview.Number.Reading
import CodeReview.Text.Scan

/-!
# Waiting before another attempt

How long to wait after an attempt that failed. A server may ask for a delay in a header, or in words
such as `try again in 1m2.5s`; otherwise the delay doubles with every attempt.
-/

namespace CodeReview.Retry

open Number Scan Text

attribute [local instance (high)] instPowNat instNatPowNat

/-! ## What a server asks for -/

/-- A delay in words: minutes, an amount, and its unit. -/
structure Asked where
  minutes : Option (List Char)
  amount : List Char
  unit : List Char

/-- An amount and its unit, which ends a word. -/
def amount? (minutes : Option (List Char)) (cs : List Char) : Option (Asked × List Char) := do
  let (amount, rest) ← run? (fun c => isDigit c || c == '.') (blanks cs)
  let rest := blanks rest
  let after ← ["ms", "s"].findSome? fun unit =>
    (wordIgnoringCase? unit rest).filter atWordEnd
  return (⟨minutes, amount, rest.take (rest.length - after.length)⟩, after)

/-- Minutes, with the text after them. -/
def minutes? (cs : List Char) : Option (List Char × List Char) := do
  let (minutes, rest) ← run? isDigit cs
  return (minutes, ← wordIgnoringCase? "m" rest)

/-- A request to try again after a delay. -/
def asked? (_before : Option Char) (cs : List Char) : Option (Asked × List Char) := do
  let rest ← wordIgnoringCase? "try again in" cs >>= someBlanks?
  let long := do
    let (minutes, rest) ← minutes? rest
    amount? (some minutes) rest
  long.or (amount? none rest)

/-- The number that an amount spells. -/
def number (cs : List Char) : Except Failure Float :=
  match readFloat? cs with
  | some x => .ok x.toFloat
  | none => .error (.notNumber (String.ofList cs))

/-- The seconds in some minutes. -/
def secondsIn (minutes : List Char) : Except Failure Float :=
  match readInteger minutes with
  | .ok n =>
    match Binary64.ofInt? (n * 60) with
    | some x => .ok x.toFloat
    | none => .error .tooLargeForFloat
  | .error (.tooLong count) => .error (.tooManyDigits count digitLimit)
  | .error .malformed => .error (.tooManyDigits 0 digitLimit)

/-- The seconds of a delay in words. -/
def Asked.seconds (asked : Asked) : Except Failure Float := do
  let amount ← number asked.amount
  let seconds := if lower asked.unit == ['m', 's'] then amount / 1000.0 else amount
  match asked.minutes with
  | some minutes => return seconds + (← secondsIn minutes)
  | none => return seconds

/-- The value of a header; capitals and small letters in its name count alike. -/
def header? (headers : Keyed String) (name : String) : Option String :=
  (headers.reverse.find? fun (key, _) => lowercase key == name).map (·.2)

/-- The seconds that a server asks to wait. -/
def delayAsked (headers : Keyed String) (body : String) : Except Failure (Option Float) := do
  let inHeader := (header? headers "retry-after").bind fun value => readFloat? value.toList
  match inHeader with
  | some x => return some x.toFloat
  | none =>
    match findFirst? asked? body.toList with
    | some (_, asked, _) => return some (← asked.seconds)
    | none => return none

/-! ## Without being asked -/

/-- The largest random addition to a delay. -/
def maxJitter : Float := 0.3

/-- The delay before the second attempt. -/
def baseDelay : Float := 0.2

/-- The delay after an attempt, counted from one, that nobody asked for. -/
def backoff (attempt : Nat) (jitter : Float) : Except Failure Float :=
  match Binary64.ofInt? (2 ^ (attempt - 1) : Nat) with
  | some factor => .ok (baseDelay * factor.toFloat + jitter)
  | none => .error .tooLargeForFloat

end CodeReview.Retry
