import CodeReview.Number.Decimal
import CodeReview.Text.Quoted
import CodeReview.Toml.Value

/-!
# Writing settings files

A table as text: first its own keys, then the tables in it under headers, level by level. Arrays of
tables come before the tables of their level.
-/

namespace CodeReview.Toml

open Text

/-! ## Strings -/

/-- Puts a text back together that was parted at marks of escapes by code. What stands in front of
a mark decides whether the mark stays; a text that starts with its only mark cannot be written. -/
def joinMarks : (fuel : Nat) → List (List Char) → Except Failure (List Char)
  | 0, _ | _, [] => .ok []
  | _, [text] => .ok text
  | fuel + 1, first :: rest =>
    match (if first.isEmpty then rest else first :: rest) with
    | front :: next :: rest =>
      let front := Chars.replace ['\\', '\\'] ['\\'] front
      match front.getLast? with
      | none => .error .outOfRange
      | some last =>
        let turns := min (front.reverse.takeWhile (· == '\\')).length (front.length - 1)
        let kept := (last != '\\') != (turns % 2 == 1)
        joinMarks fuel ((front ++ (if kept then ['x'] else ['u', '0', '0']) ++ next) :: rest)
    | _ => .error .outOfRange

/-- A string between double quotes. -/
def writeString (s : String) : Except Failure String := do
  let shown := (quoted s).toList
  let content := (shown.drop 1).dropLast
  let content :=
    if shown.head? == some '\'' then
      Chars.replace ['"'] ['\\', '"'] (Chars.replace ['\\', '\''] ['\''] content)
    else content
  let parts := Chars.splitOnText ['\\', 'x'] content
  let text ← joinMarks parts.length parts
  return String.ofList ('"' :: text ++ ['"'])

/-- A key, between quotes unless it is made of letters, digits, hyphens and low lines. -/
def writeKey (key : String) : Except Failure String :=
  let plain (c : Char) : Bool := c.isAlphanum || c == '_' || c == '-'
  let body := if endsWith "\n" key then key.toList.dropLast else key.toList
  if !body.isEmpty && body.all plain then .ok key else writeString key

/-! ## Values -/

mutual

/-- A value on one line. Of a table inside an array of arrays only the keys are written. -/
def writeValue : Value → Except Failure String
  | .text s => writeString s
  | .int n => .ok (toString n)
  | .float x => .ok (DecimalLayout.settings.text x)
  | .bool b => .ok (if b then "true" else "false")
  | .date written => .ok written
  | .array items => do return "[" ++ String.join (← writeItems items) ++ "]"
  | .table entries => do
    let keys ← entries.mapM fun (key, _) => writeString key
    return "[" ++ String.join (keys.map fun key => " " ++ key ++ ",") ++ "]"

def writeItems : List Value → Except Failure (List String)
  | [] => .ok []
  | item :: items => do
    let first ← writeValue item
    return (" " ++ first ++ ",") :: (← writeItems items)

end

/-! ## Tables -/

namespace Value

def isTable : Value → Bool
  | table _ => true
  | _ => false

def entries : Value → Table
  | table entries => entries
  | _ => []

mutual

/-- How deep tables and arrays are nested in a value. -/
def depth : Value → Nat
  | array items => depthOf items + 1
  | table entries => depthOfEntries entries + 1
  | _ => 0

def depthOf : List Value → Nat
  | [] => 0
  | item :: items => max (depth item) (depthOf items)

def depthOfEntries : List (String × Value) → Nat
  | [] => 0
  | (_, value) :: entries => max (depth value) (depthOfEntries entries)

end

end Value

/-- What a table comes to: the lines of its own, and the tables in it, by the names they have in
headers. -/
structure Written where
  own : String := ""
  arrays : String := ""
  tables : Table := []

/-- The lines of a table and of its arrays of tables. -/
def Written.text (w : Written) : String := w.own ++ w.arrays

mutual

/-- Writes the entries of a table whose name in headers starts with `path`. -/
def writeEntries (fuel : Nat) (path : String) (entries : Table) : Except Failure Written :=
  match fuel with
  | 0 => .ok {}
  | fuel + 1 =>
    let start := if path.isEmpty || endsWith "." path then path else path ++ "."
    entries.foldlM (fun (w : Written) (key, value) => do
      let name ← writeKey key
      match value with
      | .table below => return { w with tables := Keyed.put w.tables name (.table below) }
      | .array items =>
        if items.any Value.isTable then
          let tables ← writeArray fuel (start ++ name) items
          return { w with arrays := w.arrays ++ tables }
        else return { w with own := w.own ++ name ++ " = " ++ (← writeValue value) ++ "\n" }
      | value => return { w with own := w.own ++ name ++ " = " ++ (← writeValue value) ++ "\n" })
      {}

/-- Writes an array of tables, each under a header of its own. -/
def writeArray (fuel : Nat) (path : String) (items : List Value) : Except Failure String :=
  match fuel with
  | 0 => .ok ""
  | fuel + 1 => do
    let parts ← items.mapM fun item => do
      let w ← writeEntries fuel path item.entries
      let below ← writeBelow fuel path w.tables
      let header := "[[" ++ path ++ "]]\n"
      return if startsWith "[" w.text then header ++ "\n" ++ w.text ++ below
        else header ++ w.text ++ "\n" ++ below
    return String.join parts

/-- Writes the tables inside an item of an array of tables, level by level. -/
def writeBelow (fuel : Nat) (path : String) (tables : Table) : Except Failure String :=
  match fuel with
  | 0 => .ok ""
  | fuel + 1 => do
    if tables.isEmpty then return ""
    let (text, next) ← tables.foldlM (fun (text, next) (name, table) => do
      let w ← writeEntries fuel (path ++ "." ++ name) table.entries
      let header := if w.text.isEmpty then "" else "[" ++ path ++ "." ++ name ++ "]\n"
      let next := w.tables.foldl (fun next (s, t) => Keyed.put next (name ++ "." ++ s) t) next
      return (text ++ header ++ w.text, next)) ("", ([] : Table))
    return text ++ (← writeBelow fuel path next)

end

/-- Writes tables under headers, level by level, behind the text so far. A table that holds nothing
but other tables has no header. -/
def writeTables (depth : Nat) : (levels : Nat) → (tables : Table) → (text : String) →
    Except Failure String
  | 0, _, text => .ok text
  | levels + 1, tables, text => do
    if tables.isEmpty then return text
    let (text, next) ← tables.foldlM (fun (text, next) (path, table) => do
      let w ← writeEntries depth path table.entries
      let shown := !w.text.isEmpty || w.tables.isEmpty
      let gap := if text.isEmpty || endsWith "\n\n" text then "" else "\n"
      let next := w.tables.foldl (fun next (s, t) => Keyed.put next (path ++ "." ++ s) t) next
      return (if shown then text ++ gap ++ "[" ++ path ++ "]\n" ++ w.text else text, next))
      (text, ([] : Table))
    writeTables depth levels next text

/-- A table as the text of a settings file. -/
def write (table : Table) : Except Failure String := do
  let depth := 4 * (Value.table table).depth + 4
  let w ← writeEntries depth "" table
  writeTables depth depth w.tables w.text

end CodeReview.Toml
