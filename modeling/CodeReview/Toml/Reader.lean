import CodeReview.Toml.Lines
import CodeReview.Toml.Literal

/-!
# Reading settings files

The table of a settings file. Its lines are headers, which say where the keys that follow belong,
and keys with their values; a string over several lines is gathered until its closing quotes.

Arrays and tables within a line hold values themselves, so their readers take fuel, which bounds how
deep they are nested; the length of a line is enough.
-/

namespace CodeReview.Toml

open Text

/-! ## Splitting lines -/

/-- The parts of a text between the first `n` separators. -/
def splitAtMost (separator : List Char) : (n : Nat) → List Char → List (List Char)
  | 0, cs => [cs]
  | n + 1, cs =>
    match Chars.cut? separator cs with
    | some (before, after) => before :: splitAtMost separator n after
    | none => [cs]

/-- How often a text occurs in another, without overlap. -/
def countText (part cs : List Char) : Nat := (Chars.splitOnText part cs).length - 1

/-- Takes up parts at double quotes into parts at single quotes while these are even in number, so
that a double quote between single quotes parts nothing. -/
def mendSingle (single : List (List Char)) : (double : List (List Char)) →
    List (List Char) × List (List Char)
  | [] => (single, [])
  | d :: double =>
    if single.length % 2 == 0 then
      let last := single.getLast?.getD [] ++ '"' :: d
      mendSingle (single.dropLast ++ Chars.splitOn '\'' last) double
    else (single, d :: double)

/-- The parts of a line at its quotes: unquoted and quoted ones in turn. -/
def partsAtQuotes (line : List Char) : List (List Char) :=
  let double := Chars.splitOn '"' line
  let (front, rest) :=
    match double with
    | first :: second :: rest =>
      if first.contains '\'' then mendSingle (Chars.splitOn '\'' first) (second :: rest)
      else ([], double)
    | _ => ([], double)
  match rest with
  | [] => front
  | first :: quoted => front ++ Chars.splitOn '\'' first ++ quoted

/-- How many separators there are before the first that stands outside of quotes. -/
def separatorsBefore (separator : List Char) (line : List Char) : Nat :=
  go false (partsAtQuotes line)
where
  go (quoted : Bool) : List (List Char) → Nat
    | [] => 0
    | part :: rest =>
      if !quoted && Chars.hasPart separator part then 0
      else countText separator part + go (!quoted) rest

/-! ## Strings over several lines -/

/-- A string that goes on behind its line: its key, its text so far, and whether the line end was
escaped. -/
structure Unfinished where
  key : String
  text : List Char
  escaped : Bool

/-- Adds to a text that goes on: an escaped line end is dropped. -/
def continued (key : String) (text : List Char) : Unfinished :=
  if trailingBackslashes text % 2 == 1 then ⟨key, text.dropLast, true⟩
  else ⟨key, text ++ ['\n'], false⟩

/-- Whether an array of strings is open at its end. -/
def isOpenArray (cs : List Char) : Bool :=
  match cs with
  | '[' :: _ =>
    (Chars.trim cs).getLast? != some ']' &&
      (Chars.trim (inner 1 cs)).head?.any fun c => c == '"' || c == '\''
  | _ => false

/-- The last item of an open array, from its quote on. -/
def lastItem (items : List (List Char)) : Except Fault (List Char) :=
  go items.reverse
where
  go : List (List Char) → Except Fault (List Char)
    | [] => .ok []
    | [item] => .ok item
    | item :: before :: rest =>
      match item.head? with
      | none => .error (.broken .outOfRange)
      | some c =>
        if c == '"' || c == '\'' then .ok item
        else go ((before ++ ',' :: item) :: rest)
  termination_by items => items.length

/-- Whether a value starts a string over several lines that does not end on the line. -/
def startsLongString (cs : List Char) : Except Fault Bool := do
  if cs.length < 3 then return false
  let item ←
    if isOpenArray cs then lastItem (Chars.splitOn ',' (Chars.trim (cs.drop 1))) else pure cs
  match item with
  | [] => throw (.broken .outOfRange)
  | q :: rest =>
    if q != '"' && q != '\'' then return false
    match rest with
    | [] => throw (.broken .outOfRange)
    | a :: rest =>
      if a != q then return false
      match rest with
      | [] => throw (.broken .outOfRange)
      | b :: _ =>
        return b == q && !(5 < item.length && (item.reverse.take 3).all (· == q))

/-! ## Keys -/

/-- A key, which may have dots: the tables it leads through, and its last part. -/
def readKey (cs : List Char) : Except Fault (List String × String) := do
  if cs.contains '.' then
    let quoted := cs.contains '"' || cs.contains '\''
    let levels := if quoted then unquotedParts false (partsAtQuotes cs) else Chars.splitOn '.' cs
    match levels.reverse.dropWhile (·.isEmpty) with
    | [] => throw (.broken .outOfRange)
    | last :: before =>
      return ((before.reverse.filter (!·.isEmpty)).map String.ofList, String.ofList (Chars.trim last))
  else
    match cs.head?, cs.getLast? with
    | some first, some last =>
      if first == last && (first == '"' || first == '\'') then
        return ([], String.ofList (← unescape (inner 1 cs)))
      else return ([], String.ofList cs)
    | _, _ => throw (.broken .outOfRange)
where
  /-- The parts of a key: quoted ones whole, others at their dots. -/
  unquotedParts (quoted : Bool) : List (List Char) → List (List Char)
    | [] => []
    | part :: rest =>
      (if quoted then [part] else (Chars.splitOn '.' part).map Chars.trim) ++
        unquotedParts (!quoted) rest

/-- Whether a value without a space in front can be a number, a date or a time. -/
def isPlainValue (cs : List Char) : Bool :=
  (Number.readFloat? cs).isSome || (date? cs).isSome || startsWithTime cs

/-- Whether a value is told by its first character or is a truth value. -/
def isMarkedValue (cs : List Char) : Bool :=
  cs.isEmpty || cs.head?.any (fun c => [' ', '\t', '\'', '"', '[', '\x7b'].contains c) ||
    ["true", "false"].contains (String.ofList (Chars.trim cs))

/-- Splits a line into a key and a value at the equals sign of number `i`, or at a later one if what
follows cannot be a value. Also gives whether the value may be a number. -/
def splitPair (line : List Char) (i : Nat) : Except Fault (List Char × List Char × Bool) :=
  let pair := splitAtMost ['='] i line
  let value := pair.getLast?.getD []
  let value' := if value.head?.any isAsciiDigit then value.filter (· != '_') else value
  go line.length i pair.dropLast value' (isStrict value)
where
  go : Nat → Nat → List (List Char) → List Char → Bool →
      Except Fault (List Char × List Char × Bool)
    | 0, _, _, _, _ => .error .malformed
    | fuel + 1, i, key, value, strict =>
      if isMarkedValue value || isPlainValue value then
        .ok (Chars.trim (Chars.join ['='] key), Chars.trim value, strict)
      else
        let pair := splitAtMost ['='] (i + 1) line
        let next := pair.getLast?.getD []
        if next == value then .error .malformed
        else go fuel (i + 1) pair.dropLast next (strict && isStrict next)

/-! ## Values -/

/-- Whether a string between quotes ends with the quote that it starts with. -/
def isBounded (cs : List Char) : Bool :=
  match cs.head?, cs.getLast? with
  | some first, some last =>
    first == last && ((cs.dropLast.drop 1).reverse.takeWhile (· == '\\')).length % 2 == 0
  | _, _ => true

/-- Whether an item of an array of strings goes on behind the comma. -/
def goesOn (item : List Char) : Bool :=
  let item := Chars.trim item
  !isBounded item ||
    match item with
    | a :: b :: c :: _ =>
      let back := item.reverse
      a == b && b == c && back[1]? != some a && back[2]? != some a
    | _ => false

/-- Puts strings together that were split at a comma of their own. -/
def mendStrings : (fuel : Nat) → List (List Char) → Except Fault (List (List Char))
  | fuel + 1, item :: rest =>
    match rest with
    | [] => .ok [item]
    | next :: rest' =>
      if goesOn item then
        let joined := item ++ ',' :: next
        if rest'.isEmpty && goesOn joined then .error (.broken .outOfRange)
        else mendStrings fuel (joined :: rest')
      else (mendStrings fuel rest).map (item :: ·)
  | _, items => .ok items

/-- The tables of an array of tables, each up to its closing brace. -/
def splitTables (array : Array Char) : List (List Char) :=
  go (2 * array.size + 2) 1 2 (if array[1]? == some '\x7b' then 1 else 0) false
where
  /-- The number of backslashes in front of a position. -/
  backslashes : Nat → Nat
    | 0 => 0
    | i + 1 => if array[i]? == some '\\' then backslashes i + 1 else 0
  go (fuel start stop depth : Nat) (inString : Bool) : List (List Char) :=
    match fuel with
    | 0 => []
    | fuel + 1 =>
      if array.size ≤ stop + 1 then []
      else
        let c := array[stop]?.getD ' '
        let inString :=
          if c == '"' || c == '\'' then
            let flips := if inString then backslashes stop else 0
            !(inString != (flips % 2 == 1))
          else inString
        let depth := if !inString && c == '\x7b' then depth + 1 else depth
        if inString || c != '\x7d' then go fuel start (stop + 1) depth inString
        else if 1 < depth then go fuel start (stop + 1) (depth - 1) inString
        else
          let stop := stop + 1
          let found := array.toList.drop start |>.take (stop - start)
          let rest := array.toList.drop (stop + 1)
          let gap := (rest.takeWhile (· != '\x7b')).length
          let start := min (stop + 1 + gap) (max (stop + 1) (array.size - 1))
          found :: go fuel start (start + 1) depth inString

/-- The items of an array that holds arrays. -/
def splitNested (cs : List Char) : List (List Char) :=
  let (_, parts) := cs.foldl (fun (state : Int × List (List Char)) c =>
    let (depth, parts) := state
    if c == ',' && depth == 0 then (depth, [] :: parts)
    else
      let depth := if c == '[' then depth + 1 else if c == ']' then depth - 1 else depth
      match parts with
      | part :: rest => (depth, (c :: part) :: rest)
      | [] => (depth, [[c]])) ((0 : Int), [[]])
  (parts.map List.reverse).reverse

/-- The items of an array. -/
def splitArray (array : List Char) : Except Fault (List (List Char)) :=
  let content := inner 1 array
  let beforeBracket := Chars.splitFirst '[' content
  if beforeBracket.2.isNone || !Chars.isBlankText beforeBracket.1 then
    let trimmed := Chars.trim content
    if trimmed.head? == some '\x7b' then .ok (splitTables array.toArray)
    else
      let items := Chars.splitOn ',' content
      if trimmed.head?.any fun c => c == '"' || c == '\'' then
        mendStrings (2 * items.length + 2) items
      else .ok items
  else .ok (splitNested content)

/-- Whether a value of a table within a line is complete. -/
def isComplete (value : List Char) : Except Fault Bool :=
  match value.head?, value.getLast? with
  | some first, some last =>
    .ok ((first == last && (first == '"' || first == '\'')) ||
      ("-0123456789".toList.contains first) ||
      ["true", "false"].contains (String.ofList value) ||
      (first == '[' && last == ']') || (first == '\x7b' && last == '\x7d'))
  | _, _ => .error (.broken .outOfRange)

/-- The keys and values of a table within a line: parts at commas, put together where a value goes
on behind its comma. -/
def splitEntries (cs : List Char) : Except Fault (List (List Char)) :=
  let parts := Chars.splitOn ',' cs
  match parts with
  | [part] => if Chars.isBlankText part then .ok [] else go parts.length parts
  | _ => go parts.length parts
where
  go : (fuel : Nat) → List (List Char) → Except Fault (List (List Char))
    | 0, _ | _, [] => .ok []
    | fuel + 1, part :: rest =>
      match Chars.splitFirst '=' part with
      | (_, none) => .error .malformed
      | (_, some value) => do
        if ← isComplete (Chars.trim value) then return part :: (← go fuel rest)
        else match rest with
          | next :: rest => go fuel ((part ++ ',' :: next) :: rest)
          | [] => throw .malformed

/-- Puts a value under a key into a table that lies below others, which are made as needed. -/
def insertAt (levels : List String) (key : String) (value : Option Value) (level : Value) :
    Except Fault Value :=
  match levels, level with
  | [], .table entries =>
    if Keyed.hasKey entries key then .error .malformed
    else match value with
      | some value => .ok (.table (Keyed.put entries key value))
      | none => .ok level
  | [], _ => .error .malformed
  | l :: levels, .table entries => do
    let below ← insertAt levels key value ((Keyed.get? entries l).getD (.table []))
    return .table (Keyed.put entries l below)
  | _ :: _, _ => .error (.broken .wrongType)

/-- Whether the tables that a key leads through are tables, as far as they are there. -/
def leadsThrough : (levels : List String) → Value → Bool
  | [], _ => true
  | l :: levels, .table entries =>
    match Keyed.get? entries l with
    | some below => leadsThrough levels below
    | none => true
  | _ :: _, _ => false

mutual

/-- A value and what it is. -/
def readValue (fuel : Nat) (cs : List Char) (strict : Bool) : Except Fault (Value × Kind) :=
  match fuel, cs with
  | 0, _ | _, [] => .error .malformed
  | fuel + 1, c :: rest =>
    let word := String.ofList (lower cs)
    if word == "true" || word == "false" then
      if String.ofList cs == word then .ok (.bool (word == "true"), .bool) else .error .malformed
    else if c == '"' || c == '\'' then (readString c cs).map fun s => (.text s, .text)
    else if c == '[' then do
      let items ← splitArray (Chars.trim (c :: rest))
      return (.array (← readItems fuel none items), .array)
    else if c == '\x7b' then do
      let entries ← splitEntries (inner 1 cs)
      return (← readEntries fuel entries (.table []), .table)
    else if startsWithTime cs then (readTime cs).map fun written => (.date written, .time)
    else match date? cs with
      | some written => .ok (.date written, .date)
      | none =>
        if !strict then .error .malformed
        else (readNumber cs).map fun value =>
          (value, match value with | .float _ => .float | _ => .int)

/-- The values of the items that are not blank, which have to be of one kind. -/
def readItems (fuel : Nat) (kind : Option Kind) : List (List Char) → Except Fault (List Value)
  | [] => .ok []
  | item :: rest =>
    match fuel, Chars.trim item with
    | 0, _ => .error .malformed
    | fuel + 1, [] => readItems (fuel + 1) kind rest
    | fuel + 1, cs => do
      let (value, found) ← readValue fuel cs true
      if kind.any (· != found) then throw .malformed
      return value :: (← readItems (fuel + 1) (some found) rest)

/-- Puts the keys and values of a table within a line into a table. A string that goes on behind the
line ends it. -/
def readEntries (fuel : Nat) (entries : List (List Char)) (level : Value) : Except Fault Value :=
  match entries with
  | [] => .ok level
  | entry :: rest =>
    match fuel with
    | 0 => .error .malformed
    | fuel + 1 => do
      match ← readLine fuel entry level with
      | (level, none) => readEntries (fuel + 1) rest level
      | (level, some _) => return level

/-- Puts the key and value of a line into a table. -/
def readLine (fuel : Nat) (line : List Char) (level : Value) :
    Except Fault (Value × Option Unfinished) := do
  match fuel with
  | 0 => throw .malformed
  | fuel + 1 =>
    let (keyText, valueText, strict) ← splitPair line (separatorsBefore ['='] line + 1)
    let (levels, key) ← readKey keyText
    if !leadsThrough levels level then throw (.broken .wrongType)
    if ← startsLongString valueText then
      return (← insertAt levels key none level, some (continued key valueText))
    else
      let (value, _) ← readValue fuel valueText strict
      return (← insertAt levels key (some value) level, none)

end

/-! ## Headers -/

/-- A step from a value to one inside it. -/
inductive Step
  | key (name : String)
  | last
  deriving Repr

/-- Whether a name may stand in a header without quotes. -/
def isBareName (cs : List Char) : Bool :=
  !cs.isEmpty && cs.all fun c => c.isAlphanum || c == '_' || c == '-'

/-- The shortest text from the front of some parts that ends with the quote it starts with, and the
parts behind it. -/
def quotedName? (parts : List (List Char)) : Option (List Char × List (List Char)) :=
  (List.range parts.length).findSome? fun n =>
    let text := Chars.trim (Chars.join ['.'] (parts.take (n + 1)))
    if 1 < text.length && text.head? == text.getLast? then some (text, parts.drop (n + 1)) else none

/-- The names in a header. -/
def headerNames : (fuel : Nat) → List (List Char) → Except Fault (List String)
  | 0, _ | _, [] => .ok []
  | fuel + 1, part :: rest =>
    let name := Chars.trim part
    if name.head?.any fun c => c == '"' || c == '\'' then
      match quotedName? (part :: rest) with
      | some (text, rest) => (headerNames fuel rest).map (String.ofList (inner 1 text) :: ·)
      | none => .error .malformed
    else if isBareName name then (headerNames fuel rest).map (String.ofList name :: ·)
    else .error .malformed

/-- The names in the header of a table, or of an array of tables. -/
def readHeader (ofArray : Bool) (line : List Char) : Except Fault (List String) :=
  let bracket := if ofArray then [']', ']'] else [']']
  let count := separatorsBefore bracket line + 1
  let parts := splitAtMost bracket count line
  if parts.length < count + 1 || !Chars.isBlankText (parts.getLast?.getD []) then .error .malformed
  else
    let groups := Chars.splitOn '.' (Chars.join bracket parts.dropLast)
    headerNames groups.length groups

/-- What a walk through a header has come to: the value with the table in place, the steps to the
table, and the names of the tables that were made on the way. -/
abbrev Entered := Value × List Step × List String

/-- The new table of a header, or an array with it. -/
def newTable (asArray : Bool) : Value := if asArray then .array [.table []] else .table []

/-- Goes from a value to the table of a header, which is made unless a header above made it on its
way. -/
def enter (ofArray : Bool) (made : List String) : (names : List String) → Value →
    Except Fault Entered
  | [], value => .ok (value, [], made)
  | name :: rest, value => do
    if name.isEmpty then throw .malformed
    match value with
    | .table entries =>
      let (child, made) ← child entries made name rest.isEmpty
      let (below, steps, made) ← descend made rest child
      return (.table (Keyed.put entries name below), .key name :: steps, made)
    | .array items =>
      match items.getLast? with
      | some (.table entries) =>
        let child := (Keyed.get? entries name).getD (newTable (rest.isEmpty && ofArray))
        let (below, steps, made) ← descend made rest child
        return (.array (items.dropLast ++ [.table (Keyed.put entries name below)]),
          .last :: .key name :: steps, made)
      | some _ => throw (.broken .wrongType)
      | none => throw (.broken .outOfRange)
    | .text s => throw (.broken (if s.isEmpty then .outOfRange else .wrongType))
    | _ => throw (.broken .wrongType)
where
  /-- The value under a name of a header, made or extended where the header ends. -/
  child (entries : Table) (made : List String) (name : String) (atEnd : Bool) :
      Except Fault (Value × List String) :=
    match Keyed.get? entries name with
    | none =>
      .ok (newTable (atEnd && ofArray), if atEnd then made else made ++ [name])
    | some found =>
      if !atEnd then .ok (found, made)
      else if made.contains name then
        if ofArray then .error .malformed else .ok (found, made.erase name)
      else if ofArray then
        match found with
        | .array items => .ok (.array (items ++ [.table []]), made)
        | _ => .error (.broken .missingAttribute)
      else .error .malformed
  /-- Goes on below a value; in the header of an array, below the last item of an array. -/
  descend (made : List String) (rest : List String) (value : Value) : Except Fault Entered :=
    if ofArray then
      match value with
      | .array items =>
        match items.getLast? with
        | none => .error (.broken .outOfRange)
        | some item => do
          let (below, steps, made) ← enter ofArray made rest item
          return (.array (items.dropLast ++ [below]), .last :: steps, made)
      | .table _ => enter ofArray made rest value
      | .text s => .error (.broken (if s.isEmpty then .outOfRange else .wrongType))
      | _ => .error (.broken .wrongType)
    else enter ofArray made rest value

/-- Changes what lies at the end of some steps. -/
def alterAt (f : Value → Except Fault (Value × α)) : List Step → Value → Except Fault (Value × α)
  | [], value => f value
  | .key name :: steps, .table entries => do
    let (below, a) ← alterAt f steps ((Keyed.get? entries name).getD (.table []))
    return (.table (Keyed.put entries name below), a)
  | .last :: steps, .array items => do
    let (below, a) ← alterAt f steps (items.getLast?.getD (.table []))
    return (.array (items.dropLast ++ [below]), a)
  | _, value => f value

/-! ## Files -/

/-- A file that has been read up to some line. -/
structure Reading where
  root : Value := .table []
  /-- The steps to the table that keys belong to. -/
  level : List Step := []
  /-- The tables that headers made on their way. -/
  made : List String := []
  unfinished : Option Unfinished := none

namespace Reading

/-- Whether a line closes an unfinished value. -/
def closes (text line : List Char) : Except Fault Bool :=
  if text.head? == some '[' then
    match line.getLast? with
    | none => .error (.broken .outOfRange)
    | some c => .ok (c == ']')
  else .ok (2 < line.length && (line.reverse.take 3).all fun c => some c == text.head?)

/-- Goes on with an unfinished string. -/
def readOn (r : Reading) (u : Unfinished) (line : List Char) : Except Fault Reading := do
  let text := u.text ++ line
  if ← closes text line then
    let (value, _) ← readValue (text.length + 2) text true
    let put (level : Value) : Except Fault (Value × Unit) :=
      match level with
      | .table entries => .ok (.table (Keyed.put entries u.key value), ())
      | _ => .error (.broken .wrongType)
    let (root, _) ← alterAt put r.level r.root
    return { r with root, unfinished := none }
  else return { r with unfinished := some (continued u.key text) }

/-- Reads a line that starts a header or a value. -/
def readNew (r : Reading) (line : List Char) : Except Fault Reading := do
  let fuel := line.length + 2
  match line with
  | ['['] => throw .malformed
  | '[' :: c :: rest =>
    let ofArray := c == '['
    let names ← readHeader ofArray (if ofArray then rest else c :: rest)
    let (root, level, made) ← enter ofArray r.made names r.root
    return { r with root, level, made }
  | '\x7b' :: _ =>
    if line.getLast? != some '\x7d' then throw .malformed
    let entries ← splitEntries (inner 1 line)
    let (root, _) ← alterAt (fun level => do return (← readEntries fuel entries level, ()))
      r.level r.root
    return { r with root }
  | _ =>
    if line.contains '=' then
      let (root, unfinished) ← alterAt (readLine fuel line) r.level r.root
      return { r with root, unfinished }
    else return r

/-- Reads a line. Inside a string over several lines, white space counts. -/
def read (r : Reading) (line : List Char) : Except Fault Reading :=
  match r.unfinished with
  | none =>
    let line := Chars.trim line
    if line.isEmpty then .ok r else r.readNew line
  | some u =>
    let line := if u.escaped || !u.text.contains '\n' then Chars.trim line else line
    if line.isEmpty && u.escaped then .ok r else r.readOn u line

end Reading

/-- Reads a settings file. -/
def parse (text : String) : Except Fault Table := do
  let reading ← (← lines text.toList).foldlM Reading.read {}
  match reading.root with
  | .table entries => return entries
  | _ => throw .malformed

end CodeReview.Toml
