import CodeReview.Text.Basic

/-!
# Repository paths

A path of the repository is a text relative to its root, with forward slashes. `normalize` brings
the spellings that people write to such a key; it works in one pass from the outside in, so what
one step uncovers is not looked at again by an earlier step.

The extension of a file is asked for in three places, each with its own rule: by the nodes of the
tree (`extension`), by the listing filter (`nameExtension`) and by the choice of a scanner
(`suffix`).
-/

namespace CodeReview.Path

open Text

/-- Drops every `./` in front. -/
def dropHere : List Char → List Char
  | '.' :: '/' :: cs => dropHere cs
  | cs => cs

def isSlash (c : Char) : Bool := c == '/'

/-- The key of a path: slashes for backslashes, no white space around it, no `./` in front, and
then no slash in front or at the end. -/
def normalizeChars (cs : List Char) : List Char :=
  Chars.trimBoth isSlash (dropHere (Chars.trim (cs.map fun c => if c == '\\' then '/' else c)))

/-- The key of a path. -/
def normalize (path : String) : String := onChars normalizeChars path

/-- The last component. -/
def name (path : String) : String := onChars (Chars.afterLast '/') path

/-- What stands before the last component, nothing for a path of one component. -/
def folder (path : String) : String := onChars (Chars.beforeLast '/') path

/-- The number of components; the root has none. -/
def depth (path : String) : Nat :=
  if path.isEmpty then 0 else path.toList.count '/' + 1

/-- A path below a folder. -/
def child (folder name : String) : String := if folder.isEmpty then name else folder ++ "/" ++ name

/-! ## Extensions -/

def isDot (c : Char) : Bool := c == '.'

/-- The extension of the file at a path, in small letters: what follows the last dot of its name,
dots in front of the name not counting. -/
def extension (path : String) : String :=
  let name := Chars.afterLast '/' path.toList
  if (Chars.trimStart isDot name).contains '.' then
    String.ofList (lower (Chars.afterLast '.' name))
  else ""

/-- The extension of a file name, in small letters: the dots in front are dropped first. -/
def nameExtension (name : String) : String :=
  let stem := Chars.trimStart isDot name.toList
  if stem.contains '.' then String.ofList (lower (Chars.afterLast '.' stem)) else ""

/-- The part of the last component from its last dot on, if something other than dots stands
before it. -/
def suffixChars (cs : List Char) : List Char :=
  let name := Chars.afterLast '/' cs
  if name.contains '.' && (Chars.beforeLast '.' name).any (!isDot ·) then
    '.' :: Chars.afterLast '.' name
  else []

/-- The suffix of a path, with its dot and as it is written. -/
def suffix (path : String) : String := onChars suffixChars path

end CodeReview.Path
