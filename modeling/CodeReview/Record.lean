import CodeReview.Dependency.Graph
import CodeReview.Hash.Sha256
import CodeReview.Json.Printer

/-!
# Records

What is kept of each reviewed file outside the report: one JSON document a line, added at the end of
a file of records. A file that cannot be read gets no record.
-/

namespace CodeReview

open Text

/-- What is kept of a file. -/
structure Record where
  path : String
  language : Option String
  size : Nat
  lineCount : Nat
  contentHash : String
  /-- How the file begins. -/
  snippet : String
  taking : List String
  calling : List String
  summary : Option String

/-- How many lines a text has; a last line without a line end counts. -/
def countLines (text : String) : Nat :=
  text.toList.count '\n' + (if text.isEmpty || endsWith "\n" text then 0 else 1)

/-- How many bytes of a file are hashed at most. -/
def hashedLength : Nat := 512000

/-- The hash of the first bytes of a file, in hexadecimal digits. -/
def contentHash (bytes : List UInt8) : String :=
  String.ofList ((Sha256.digest (bytes.take hashedLength)).flatMap fun byte => hex 2 byte.toNat)

namespace Record

/-- How many characters of a file a record holds at most. -/
def snippetLength : Nat := 4000

/-- The record of a file below a root. -/
def ofNode (fs : FileSystem) (root : String) (graph : Dependency.Graph) (node : Node) :
    Except Failure Record := do
  let bytes ← fs.readBytes (Path.under root node.path)
  let text := node.content.getD (String.ofList (Utf8.decode bytes))
  return {
    path := node.path
    language := graph.language node.path
    size := bytes.length
    lineCount := countLines text
    contentHash := CodeReview.contentHash bytes
    snippet := take snippetLength text
    taking := graph.taking node.path
    calling := graph.calling node.path
    summary := node.summary }

/-- The fields of a record as it is written. -/
def fields (record : Record) : Fields :=
  [("repoRelativePath", .str record.path), ("language", .ofText? record.language),
   ("size", .int record.size), ("lineCount", .int record.lineCount),
   ("contentHash", .str record.contentHash), ("snippet", .str record.snippet),
   ("taking", .arr (record.taking.map .str)), ("calling", .arr (record.calling.map .str)),
   ("summary", .ofText? record.summary)]

/-- The line of a record. -/
def line (record : Record) : String := (Json.obj record.fields).print ++ "\n"

/-- Adds a record at the end of a file, in folders that are made as needed. -/
def append (record : Record) (fs : FileSystem) (path : String) : Except Failure FileSystem := do
  let fs ← fs.makeFolders (Path.tidy (Path.parent path))
  fs.appendBytes path (Utf8.encode record.line.toList)

/-- Adds the record of a file below a root, if the file can be read. -/
def appendNode (root : String) (graph : Dependency.Graph) (path : String) (fs : FileSystem) (node : Node) :
    Except Failure (Option FileSystem) :=
  match ofNode fs root graph node with
  | .error (.system ..) => .ok none
  | .error failure => .error failure
  | .ok record => (record.append fs path).map some

/-- Writes something about one file after the other, and says for how many. What was written before a
failure stays. -/
def writeEach (write : FileSystem → Node → Except Failure (Option FileSystem)) (fs : FileSystem) :
    List Node → Except Failure Nat × FileSystem
  | [] => (.ok 0, fs)
  | node :: nodes =>
    match write fs node with
    | .error failure => (.error failure, fs)
    | .ok none => writeEach write fs nodes
    | .ok (some fs) =>
      let (written, fs) := writeEach write fs nodes
      (written.map (· + 1), fs)

/-- Adds the records of files below a root, and says how many there were. -/
def appendAll (fs : FileSystem) (root : String) (graph : Dependency.Graph) (path : String)
    (nodes : List Node) : Except Failure Nat × FileSystem :=
  writeEach (appendNode root graph path) fs nodes

end Record

end CodeReview
