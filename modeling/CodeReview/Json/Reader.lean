import CodeReview.Json.Basic
import CodeReview.Number.Reading

/-!
# Reading JSON

The grammar of JSON with three more numbers: `NaN`, `Infinity` and `-Infinity`. A control character
inside a string is an error, a number too large for the format is infinite, and a field that is
given twice keeps its first place and its last value.

Every reader takes the characters that are left and gives a value with the characters after it.
The fuel of the recursive ones bounds nesting and length together; `parse?` gives enough of it for
the text at hand.
-/

namespace CodeReview.Json

open Number Text

/-- White space between tokens. -/
def isSpace (c : Char) : Bool := c == ' ' || c == '\t' || c == '\n' || c == '\r'

/-- Drops the white space in front. -/
def skipSpace (cs : List Char) : List Char := cs.dropWhile isSpace

/-! ## Strings -/

/-- The value of a hexadecimal digit. -/
def hexValue? (c : Char) : Option Nat :=
  if '0' ≤ c && c ≤ '9' then some (c.toNat - 48)
  else if 'a' ≤ c && c ≤ 'f' then some (c.toNat - 87)
  else if 'A' ≤ c && c ≤ 'F' then some (c.toNat - 55)
  else none

/-- Four hexadecimal digits. -/
def readUnit? : List Char → Option (Nat × List Char)
  | a :: b :: c :: d :: cs => do
    let a ← hexValue? a
    let b ← hexValue? b
    let c ← hexValue? c
    let d ← hexValue? d
    return (((a * 16 + b) * 16 + c) * 16 + d, cs)
  | _ => none

/-- A character by its 16-bit units: two of them when the first is a high surrogate and the low
one follows. A surrogate alone stands for no character and reads as a replacement character. -/
def readEscapedUnits? (cs : List Char) : Option (Char × List Char) := do
  let (high, rest) ← readUnit? cs
  let single := if 0xD800 ≤ high && high ≤ 0xDFFF then '\uFFFD' else Char.ofNat high
  match rest with
  | '\\' :: 'u' :: more =>
    match readUnit? more with
    | some (low, rest') =>
      if 0xD800 ≤ high && high ≤ 0xDBFF && 0xDC00 ≤ low && low ≤ 0xDFFF then
        return (Char.ofNat (0x10000 + (high - 0xD800) * 0x400 + (low - 0xDC00)), rest')
      else return (single, rest)
    | none => return (single, rest)
  | _ => return (single, rest)

/-- The character that a letter after a backslash stands for. -/
def escaped? : Char → Option Char
  | '"' => some '"'
  | '\\' => some '\\'
  | '/' => some '/'
  | 'b' => some '\x08'
  | 'f' => some '\x0c'
  | 'n' => some '\n'
  | 'r' => some '\r'
  | 't' => some '\t'
  | _ => none

/-- The characters of a string up to its closing quote, onto those already `read`, in reverse. -/
def readString? (fuel : Nat) (read : List Char) (cs : List Char) : Option (String × List Char) :=
  match fuel, cs with
  | 0, _ | _, [] => none
  | _, '"' :: cs => some (String.ofList read.reverse, cs)
  | fuel + 1, '\\' :: 'u' :: cs => do
    let (c, rest) ← readEscapedUnits? cs
    readString? fuel (c :: read) rest
  | fuel + 1, '\\' :: e :: cs => do
    let c ← escaped? e
    readString? fuel (c :: read) cs
  | fuel + 1, c :: cs => if c.toNat < 0x20 || c == '\\' then none else readString? fuel (c :: read) cs

/-! ## Numbers -/

/-- The digits in front, by value. -/
def spanDigits (cs : List Char) : List Nat × List Char :=
  let (digits, rest) := cs.span isAsciiDigit
  (digits.map (·.toNat - 48), rest)

/-- The digits behind a point, if there are a point and a digit. -/
def readPlaces? : List Char → Option (List Nat × List Char)
  | '.' :: cs =>
    match spanDigits cs with
    | ([], _) => none
    | found => some found
  | _ => none

/-- An exponent part, if it has a digit. -/
def readPower? : List Char → Option (Int × List Char)
  | c :: cs =>
    if c == 'e' || c == 'E' then
      let (negative, body) := splitSign cs
      match spanDigits body with
      | ([], _) => none
      | (digits, rest) =>
        some (if negative then -(ofDigits digits : Int) else ofDigits digits, rest)
    else none
  | [] => none

/-- A number: no zero in front of other digits, and more digits than a whole number may have are an
error. -/
def readNumber? (cs : List Char) : Option (Json × List Char) := do
  let (negative, body) := match cs with | '-' :: cs => (true, cs) | cs => (false, cs)
  let (whole, rest) ← match body with
    | '0' :: cs => some ([0], cs)
    | cs => match spanDigits cs with | ([], _) => none | found => some found
  let places := readPlaces? rest
  let afterPlaces := (places.map (·.2)).getD rest
  let power := readPower? afterPlaces
  match places, power with
  | none, none =>
    match wholeOf whole with
    | .ok n => some (int (if negative then -(n : Int) else n), rest)
    | .error _ => none
  | _, _ =>
    let written : Written := ⟨whole, (places.map (·.1)).getD [], (power.map (·.1)).getD 0⟩
    some (float (written.value negative), (power.map (·.2)).getD afterPlaces)

/-! ## Values -/

/-- The values that are a fixed word. -/
def constants : List (String × Json) :=
  [("null", null), ("true", bool true), ("false", bool false), ("NaN", float .nan),
   ("Infinity", float (.infinity false)), ("-Infinity", float (.infinity true))]

/-- A fixed word in front of the text. -/
def readConstant? (cs : List Char) : Option (Json × List Char) :=
  constants.findSome? fun (word, value) => (Chars.dropPrefix? word.toList cs).map (value, ·)

mutual

/-- A value at the very start of the text. -/
def readValue? (fuel : Nat) (cs : List Char) : Option (Json × List Char) :=
  match fuel, cs with
  | 0, _ | _, [] => none
  | fuel + 1, '"' :: cs => (readString? (fuel + 1) [] cs).map fun (s, rest) => (str s, rest)
  | fuel + 1, '[' :: cs =>
    match skipSpace cs with
    | ']' :: rest => some (arr [], rest)
    | cs => (readItems? fuel cs).map fun (items, rest) => (arr items, rest)
  | fuel + 1, '{' :: cs =>
    match skipSpace cs with
    | '}' :: rest => some (obj [], rest)
    | cs => (readFields? fuel [] cs).map fun (fields, rest) => (obj fields, rest)
  | _, cs => (readConstant? cs).or (readNumber? cs)

/-- The items of an array from the first on, with the bracket that closes it. -/
def readItems? (fuel : Nat) (cs : List Char) : Option (List Json × List Char) :=
  match fuel with
  | 0 => none
  | fuel + 1 => do
    let (item, rest) ← readValue? fuel cs
    match skipSpace rest with
    | ']' :: rest => return ([item], rest)
    | ',' :: rest =>
      let (items, rest) ← readItems? fuel (skipSpace rest)
      return (item :: items, rest)
    | _ => none

/-- The fields of an object from the next on, added to those already read, with the brace that
closes it. -/
def readFields? (fuel : Nat) (fields : Fields) (cs : List Char) : Option (Fields × List Char) :=
  match fuel, cs with
  | fuel + 1, '"' :: cs => do
    let (name, rest) ← readString? (fuel + 1) [] cs
    match skipSpace rest with
    | ':' :: rest =>
      let (value, rest) ← readValue? fuel (skipSpace rest)
      let fields := Keyed.put fields name value
      match skipSpace rest with
      | '}' :: rest => return (fields, rest)
      | ',' :: rest => readFields? fuel fields (skipSpace rest)
      | _ => none
    | _ => none
  | _, _ => none

end

/-- Reads a whole text as one value, with white space around it. -/
def parseChars? (cs : List Char) : Option Json :=
  match readValue? (2 * cs.length + 2) (skipSpace cs) with
  | some (value, rest) => if (skipSpace rest).isEmpty then some value else none
  | none => none

/-- Reads a whole text as one value. -/
def parse? (s : String) : Option Json := parseChars? s.toList

end CodeReview.Json
