import CodeReview.Failure
import CodeReview.Path.Lexical
import CodeReview.Text.Utf8

/-!
# File systems

A file system as a value: a finite map from places to regular files, folders, symbolic links and
named pipes, with the folder that relative paths start from. A place is the list of names that lead
to it from the top; the empty place is the top folder itself.

`resolve` follows a path the way an operating system does, one name at a time through folders and
links, and gives the place it denotes. It fails where a name is missing or too long, where a
component that is no folder is entered, and after `linkLimit` links.
-/

namespace CodeReview

open Text

/-- What stands at a place. -/
inductive Entry
  | file (bytes : List UInt8)
  | folder
  | link (target : String)
  | pipe
  deriving DecidableEq, Repr

namespace Entry

def isFile : Entry → Bool
  | file _ => true
  | _ => false

def isFolder : Entry → Bool
  | folder => true
  | _ => false

def isLink : Entry → Bool
  | link _ => true
  | _ => false

/-- The size that is reported for an entry; only files have one. -/
def size : Entry → Nat
  | file bytes => bytes.length
  | _ => 0

end Entry

/-- The names that lead to a place from the top. -/
abbrev Place := List String

/-- A file system and the folder that relative paths start from. -/
structure FileSystem where
  entries : List (Place × Entry) := []
  workingFolder : Place := []

namespace FileSystem

/-! ## Looking -/

/-- The entry at a place. -/
def entry? (fs : FileSystem) (place : Place) : Option Entry :=
  if place.isEmpty then some .folder else fs.entries.lookup place

/-- The entries directly in a folder, by name in code point order. -/
def listing (fs : FileSystem) (place : Place) : List (String × Entry) :=
  let inside := fs.entries.filterMap fun (p, e) =>
    match p.getLast? with
    | some name => if p.dropLast == place then some (name, e) else none
    | none => none
  inside.mergeSort fun a b => !decide (b.1 < a.1)

/-- The most links that are followed on one path. -/
def linkLimit : Nat := 40

/-- The most bytes in one name. -/
def nameLimit : Nat := 255

/-- Paths of this many bytes are too long. -/
def pathLimit : Nat := 4096

/-- The names in a path. -/
def components (path : String) : List String := splitOn '/' path

/-- Follows names from a place, with `links` links left to follow. -/
def resolveFrom (fs : FileSystem) (links : Nat) (place : Place) (names : List String) :
    Except SystemError (Place × Entry) :=
  match fs.entry? place, names with
  | none, _ => .error .notFound
  | some entry, [] => .ok (place, entry)
  | some .folder, name :: rest =>
    if name == "" || name == "." then fs.resolveFrom links place rest
    else if name == ".." then fs.resolveFrom links place.dropLast rest
    else if nameLimit < name.utf8ByteSize then .error .nameTooLong
    else
      match fs.entry? (place ++ [name]) with
      | none => .error .notFound
      | some (.link target) =>
        match links with
        | 0 => .error .tooManyLinks
        | links + 1 =>
          fs.resolveFrom links (if startsWith "/" target then [] else place)
            (components target ++ rest)
      | some _ => fs.resolveFrom links (place ++ [name]) rest
  | some _, _ :: _ => .error .notDirectory
termination_by (links, names.length)

/-- The place that a path denotes, and what stands there. -/
def resolve (fs : FileSystem) (path : String) : Except SystemError (Place × Entry) :=
  if path.isEmpty then .error .notFound
  else if pathLimit ≤ path.utf8ByteSize then .error .nameTooLong
  else fs.resolveFrom linkLimit (if startsWith "/" path then [] else fs.workingFolder)
    (components path)

/-- The absolute path of a place. -/
def pathOf (place : Place) : String := "/" ++ join "/" place

/-- Whether an error only means that there is nothing at the path. -/
def isAbsence : SystemError → Bool
  | .notFound | .notDirectory | .tooManyLinks => true
  | _ => false

/-- Whether something that satisfies `p` stands at a path. An error other than absence is passed
on; a path with a null character denotes nothing. -/
def probe (fs : FileSystem) (p : Entry → Bool) (path : String) : Except Failure Bool :=
  if path.contains '\x00' then .ok false
  else match fs.resolve path with
    | .ok (_, entry) => .ok (p entry)
    | .error error => if isAbsence error then .ok false else .error (.system error path)

def isFile (fs : FileSystem) (path : String) : Except Failure Bool := fs.probe Entry.isFile path

def isFolder (fs : FileSystem) (path : String) : Except Failure Bool := fs.probe Entry.isFolder path

def isThere (fs : FileSystem) (path : String) : Except Failure Bool := fs.probe (fun _ => true) path

/-- The bytes of the file at a path. A pipe that nobody writes to has none. -/
def readBytes (fs : FileSystem) (path : String) : Except Failure (List UInt8) :=
  if path.contains '\x00' then .error .nullInPath
  else match fs.resolve path with
    | .ok (_, .file bytes) => .ok bytes
    | .ok (_, .folder) => .error (.system .isDirectory path)
    | .ok _ => .ok []
    | .error error => .error (.system error path)

/-! ## Changing -/

/-- Puts an entry at a place, over what was there. -/
def put (fs : FileSystem) (place : Place) (entry : Entry) : FileSystem :=
  { fs with
    entries :=
      if fs.entries.any (·.1 == place) then
        fs.entries.map fun e => if e.1 == place then (place, entry) else e
      else fs.entries ++ [(place, entry)] }

/-- The name at the end of a path and the place of the folder it stands in. -/
def target (fs : FileSystem) (path : String) : Except SystemError Place := do
  let (place, entry) ← fs.resolve (if parent path == "" then "." else parent path)
  let name := Path.name path
  match entry with
  | .folder => if nameLimit < name.utf8ByteSize then .error .nameTooLong else .ok (place ++ [name])
  | _ => .error .notDirectory
where
  parent := Path.parent

/-- Writes a file, over the one that is there. -/
def writeBytes (fs : FileSystem) (path : String) (bytes : List UInt8) : Except Failure FileSystem :=
  match fs.resolve path with
  | .ok (_, .folder) => .error (.system .isDirectory path)
  | .ok (place, _) => .ok (fs.put place (.file bytes))
  | .error .notFound =>
    match fs.target path with
    | .ok place => .ok (fs.put place (.file bytes))
    | .error error => .error (.system error path)
  | .error error => .error (.system error path)

/-- Adds bytes at the end of a file, which is made when it is not there. -/
def appendBytes (fs : FileSystem) (path : String) (bytes : List UInt8) :
    Except Failure FileSystem :=
  match fs.resolve path with
  | .ok (place, .file before) => .ok (fs.put place (.file (before ++ bytes)))
  | _ => fs.writeBytes path bytes

/-- Makes the folders of `names` below a place that is a folder. -/
def makeFoldersFrom (fs : FileSystem) (path : String) (made : String) (names : List String) :
    Except Failure FileSystem :=
  match names with
  | [] => .ok fs
  | name :: rest =>
    let here := if made == "" then name else if endsWith "/" made then made ++ name
      else made ++ "/" ++ name
    match fs.resolve here with
    | .ok (_, .folder) => fs.makeFoldersFrom path here rest
    | .ok _ => .error (.system (if rest.isEmpty then .occupied else .notDirectory) path)
    | .error .notFound =>
      match fs.target here with
      | .ok place => (fs.put place .folder).makeFoldersFrom path here rest
      | .error error => .error (.system error path)
    | .error error => .error (.system error path)

/-- Makes a folder and the folders it stands in, as far as they are not there. -/
def makeFolders (fs : FileSystem) (path : String) : Except Failure FileSystem :=
  let names := (components path).filter fun name => !(name == "" || name == ".")
  fs.makeFoldersFrom path (if startsWith "/" path then "/" else "") names

/-- Writes a file into a folder that is made when it is not there. -/
def writeInto (fs : FileSystem) (path : String) (text : String) : Except Failure FileSystem := do
  let fs ← fs.makeFolders (folderOf path)
  fs.writeBytes path (Utf8.encode text.toList)
where
  /-- The folder that a path stands in; the working folder for a name alone. -/
  folderOf (path : String) : String := Path.tidy (Path.parent path)

end FileSystem

end CodeReview
