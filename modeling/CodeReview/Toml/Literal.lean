import CodeReview.Number.Reading
import CodeReview.Text.Basic
import CodeReview.Text.Quoted
import CodeReview.Toml.Value

/-!
# Literals of a settings file

Strings, dates and numbers. A literal is read from the whole text of a value; there is no white
space around it.
-/

namespace CodeReview.Toml

open Number Text

attribute [local instance (high)] instPowNat instNatPowNat Int.instNatPow

/-! ## Strings -/

/-- The number of backslashes at the end of a text. -/
def trailingBackslashes (cs : List Char) : Nat := (cs.reverse.takeWhile (· == '\\')).length

/-- Whether nothing follows the quote that closes a string. `parts` are what stands between the
quotes behind the opening one, or behind the three opening ones (`triple`). -/
def closesAtEnd (triple : Bool) (parts : List (List Char)) : Bool :=
  go false 0 parts
where
  go (closed : Bool) (quotes : Nat) : List (List Char) → Bool
    | [] => true
    | part :: rest =>
      if part.isEmpty then (if triple then go closed (quotes + 1) rest else go true quotes rest)
      else if trailingBackslashes part % 2 == 1 then go closed quotes rest
      else if closed then false
      else if !triple || 1 < quotes then go true quotes rest
      else go closed 0 rest

/-- The characters that stand for others behind a backslash. -/
def escapes : List (Char × Char) :=
  [('0', '\x00'), ('b', '\x08'), ('f', '\x0c'), ('n', '\n'), ('r', '\r'), ('t', '\t'), ('"', '"')]

/-- Whether what follows each backslash may follow one. -/
def escapesAreKnown (cs : List Char) : Bool :=
  go false ((Chars.splitOn '\\' cs).drop 1)
where
  go (doubled : Bool) : List (List Char) → Bool
    | [] => true
    | [] :: rest => go (!doubled) rest
    | (c :: _) :: rest =>
      ((escapes.lookup c).isSome || c == 'u' || c == 'U' || doubled) && go false rest

/-- The value of a hexadecimal digit, in capitals or small letters. -/
def hexDigit? (c : Char) : Option Nat :=
  if '0' ≤ c && c ≤ '9' then some (c.toNat - 48)
  else if 'a' ≤ c && c ≤ 'f' then some (c.toNat - 87)
  else none

/-- The character of an escape by code point, and the text behind it. -/
def codePoint (width : Nat) (cs : List Char) : Except Fault (List Char) := do
  let digits := lower (cs.take width)
  let edges := Chars.trimBoth (fun c => (hexDigit? c).isSome) digits
  if !edges.isEmpty then throw .malformed
  match digits with
  | [] => throw (.broken .outOfRange)
  | 'd' :: rest =>
    match rest with
    | [] => throw (.broken .outOfRange)
    | c :: _ => if !('0' ≤ c && c ≤ '7') then throw .malformed
  | _ => pure ()
  let n := digits.foldl (fun n c => 16 * n + (hexDigit? c).getD 0) 0
  if 2 ^ (31 : Nat) ≤ n then
    throw (.broken (.reported .overflow "Python int too large to convert to C int"))
  if 0x110000 ≤ n then throw .malformed
  return Char.ofNat n :: cs.drop digits.length

/-- Replaces the escapes by code point. `parts` are the texts between the marks of such escapes,
the first of them before any mark. -/
def replaceCodePoints (mark : List Char) (width : Nat) (parts : List (List Char)) :
    Except Fault (List Char) :=
  match parts with
  | [] => .ok []
  | first :: rest => go first (trailingBackslashes first % 2 == 1) rest
where
  go (read : List Char) (skip : Bool) : List (List Char) → Except Fault (List Char)
    | [] => .ok read
    | part :: rest =>
      if skip then go (read ++ mark ++ part) (trailingBackslashes part % 2 == 1) rest
      else do
        let part ← codePoint width part
        go (read ++ part) false rest

/-- Replaces the escapes of one kind by code point, if there are any. -/
def withCodePoints (mark : String) (width : Nat) (cs : List Char) : Except Fault (List Char) :=
  if Chars.hasPart mark.toList cs then
    replaceCodePoints mark.toList width (Chars.splitOnText mark.toList cs)
  else .ok cs

/-- Replaces the escapes by a letter. What an escape becomes is not read again. -/
def unescape : List Char → Except Fault (List Char)
  | [] => .ok []
  | '\\' :: [] => .ok ['\\']
  | '\\' :: c :: cs =>
    match escapes.lookup c with
    | some e => (unescape cs).map (e :: ·)
    | none =>
      if c == '\\' then (unescape cs).map ('\\' :: ·)
      else if c == 'u' || c == 'U' then (unescape cs).map fun rest => '\\' :: c :: rest
      else .error .malformed
  | c :: cs => (unescape cs).map (c :: ·)

/-- Drops `n` characters at both ends. -/
def inner (n : Nat) (cs : List Char) : List Char := (cs.drop n).take (cs.length - 2 * n)

/-- A string with its quotes. Only double quotes take escapes. -/
def readString (quote : Char) (cs : List Char) : Except Fault String := do
  let parts := Chars.splitOn quote (cs.drop 1)
  let (triple, parts) :=
    match parts with
    | [] :: [] :: rest => (true, rest)
    | parts => (false, parts)
  if !closesAtEnd triple parts then throw .malformed
  let cs ←
    if quote == '"' then do
      if !escapesAreKnown cs then throw .malformed
      let cs ← withCodePoints "\\u" 4 cs
      let cs ← withCodePoints "\\U" 8 cs
      unescape cs
    else pure cs
  let long :=
    match cs with
    | [_, c] => c == quote
    | _ :: c :: d :: _ => c == quote && c == d
    | _ => false
  return String.ofList (inner 1 (if long then inner 2 cs else cs))

/-! ## Dates and times -/

/-- A whole number as people write it. -/
def whole? (cs : List Char) : Option Int := (readInteger cs).toOption

/-- Characters `start` to `stop`, as far as they are there. -/
def slice (start stop : Nat) (cs : List Char) : List Char := (cs.drop start).take (stop - start)

/-- A number of at least `width` digits. -/
def padded (width : Nat) (n : Int) : String :=
  let digits := toString n
  copies (width - digits.length) "0" ++ digits

/-- Whether a time starts the text: hours, minutes and seconds of two digits each. -/
def startsWithTime : List Char → Bool
  | a :: b :: ':' :: c :: d :: ':' :: e :: f :: _ => [a, b, c, d, e, f].all isAsciiDigit
  | _ => false

/-- The fraction behind a time: a point and three to six digits. -/
def timeFraction (cs : List Char) : List Char :=
  match cs with
  | '.' :: rest =>
    let digits := (rest.takeWhile isAsciiDigit).take 6
    if digits.length < 3 then [] else digits
  | _ => []

/-- Text of hours, minutes, seconds and millionths of a second, if there is such a time. -/
def timeText? (hour minute second micro : Int) : Option String :=
  if 0 ≤ hour && hour < 24 && 0 ≤ minute && minute < 60 && 0 ≤ second && second < 60 &&
      0 ≤ micro && micro < 1000000 then
    some (padded 2 hour ++ ":" ++ padded 2 minute ++ ":" ++ padded 2 second ++
      (if micro = 0 then "" else "." ++ padded 6 micro))
  else none

/-- The time that a text starts with. -/
def readTime (cs : List Char) : Except Fault String :=
  let part (i : Nat) : Int := (whole? (slice i (i + 2) cs)).getD 0
  let micro := (whole? (timeFraction (cs.drop 8))).getD 0
  match timeText? (part 0) (part 3) (part 6) micro with
  | some text => .ok text
  | none => .error .malformed

/-- The days of a month. -/
def daysIn (year month : Int) : Int :=
  if month = 2 then
    if year % 4 = 0 && (year % 100 != 0 || year % 400 = 0) then 29 else 28
  else if [4, 6, 9, 11].contains month then 30
  else 31

/-- Text of a date, if there is such a date. -/
def dateText? (year month day : Int) : Option String :=
  if 1 ≤ year && year ≤ 9999 && 1 ≤ month && month ≤ 12 && 1 ≤ day && day ≤ daysIn year month then
    some (padded 4 year ++ "-" ++ padded 2 month ++ "-" ++ padded 2 day)
  else none

/-- Text of an offset from universal time, if the text is one. -/
def offset? (cs : List Char) : Option String := do
  let cs := if cs == ['Z'] then "+00:00".toList else cs
  let hours ← whole? (slice 1 3 cs)
  let minutes ← whole? (slice 4 6 cs)
  let total := (if cs.head? == some '-' then -1 else 1) * (60 * hours + minutes)
  let sign := if total < 0 then "-" else "+"
  let size : Int := total.natAbs
  return if total = 0 then "Z" else sign ++ padded 2 (size / 60) ++ ":" ++ padded 2 (size % 60)

/-- The millionths of a second and the offset behind a date and a time of 19 characters. -/
def afterSeconds (cs : List Char) : Int × Option String :=
  let rest := cs.drop 20
  let (fraction, zone) :=
    if cs.getLast?.any fun c => upper [c] == ['Z'] then (rest.dropLast, some ['Z'])
    else
      let sign := if rest.contains '+' then '+' else '-'
      if rest.contains sign then (rest.takeWhile (· != sign), some (rest.dropWhile (· != sign)))
      else (rest, none)
  match zone, zone.bind offset? with
  | some _, none => (0, none)
  | _, offset =>
    match whole? fraction with
    | none => (0, none)
    | some n =>
      (if fraction.length ≤ 6 then n * 10 ^ (6 - fraction.length)
      else n.tdiv (10 ^ (fraction.length - 6)), offset)

/-- The text of a date, with a time or without one. -/
def date? (cs : List Char) : Option String :=
  if !(cs.drop 1).contains '-' then none
  else do
    let (micro, zone) :=
      if cs.length ≤ 19 then (0, none)
      else if cs[19]? == some '.' then afterSeconds cs
      else (0, offset? (cs.drop 19))
    let year ← whole? (slice 0 4 cs)
    let month ← whole? (slice 5 7 cs)
    let day ← whole? (slice 8 10 cs)
    if cs.length = 10 then dateText? year month day
    else
      let hour ← whole? (slice 11 13 cs)
      let minute ← whole? (slice 14 16 cs)
      let second ← whole? (slice 17 19 cs)
      let date ← dateText? year month day
      let time ← timeText? hour minute second micro
      return date ++ "T" ++ time ++ zone.getD ""

/-! ## Numbers -/

/-- Whether a number is written without needless zeros and low lines. -/
def isStrict (cs : List Char) : Bool :=
  let cs := Chars.trim cs
  let misplaced := cs.isEmpty || cs.head? == some '_' || cs.getLast? == some '_' ||
    Chars.hasPart "_.".toList cs || Chars.hasPart "._".toList cs
  if misplaced then false
  else if cs.length = 1 then true
  else
    match cs with
    | '0' :: c :: _ => ['.', 'o', 'b', 'x'].contains c && !Chars.hasPart "__".toList cs
    | '+' :: rest | '-' :: rest =>
      match rest with
      | '0' :: c :: _ => c == '.' && !Chars.hasPart "__".toList rest
      | _ => !Chars.hasPart "__".toList rest
    | _ => !Chars.hasPart "__".toList cs

/-- Digits of a base; capitals and small letters count alike. -/
def digitsOf? (base : Nat) (cs : List Char) : Option Nat :=
  if cs.isEmpty then none
  else cs.foldlM (fun n c =>
    match (lower [c]).head?.bind hexDigit? with
    | some d => if d < base then some (base * n + d) else none
    | none => none) 0

/-- A whole number with a mark of its base in front, or a decimal one without zeros in front. -/
def based? (cs : List Char) : Option Int :=
  let (negative, body) := splitSign (Chars.trim cs)
  let magnitude : Option Nat :=
    match body with
    | '0' :: mark :: digits =>
      match mark.toLower with
      | 'x' => digitsOf? 16 digits
      | 'o' => digitsOf? 8 digits
      | 'b' => digitsOf? 2 digits
      | _ => if body.all (digitValue? · == some 0) then some 0 else none
    | body =>
      match body.head?.bind digitValue? with
      | none => none
      | some 0 => if body.all (digitValue? · == some 0) then some 0 else none
      | some _ => (whole? body).map Int.toNat
  magnitude.map fun n => if negative then -(n : Int) else n

/-- Zero minus a number. -/
def negated (x : Binary64) : Binary64 :=
  if x.isZero then .zero else if x.isNaN then x else .ofMagnitude (!x.negative) x.magnitude

/-- A number. -/
def readNumber (cs : List Char) : Except Fault Value := do
  let (negative, body) := splitSign cs
  let body := body.filter (· != '_')
  let hasPower := !body.contains 'x' && (body.contains 'e' || body.contains 'E')
  if body.contains '.' || hasPower then
    if (Chars.splitFirst '.' body).2 == some [] then throw .malformed
    if !body.head?.any isAsciiDigit then throw .malformed
    match readFloat? body with
    | some x => return .float (if negative then negated x else x)
    | none => throw .malformed
  else if ["inf", "nan"].contains (String.ofList (lower body)) then
    match readFloat? body with
    | some x => return .float (if negative then negated x else x)
    | none => throw .malformed
  else
    match based? body with
    | some n => return .int (if negative then 0 - n else n)
    | none => throw .malformed

end CodeReview.Toml
