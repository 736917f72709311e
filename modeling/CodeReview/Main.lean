import CodeReview.CommandLine.Run
import CodeReview.CommandLine.Terminal

/-!
# The program

Everything that touches the world. The folders that a command looks at are read into a
`FileSystem`, the command is carried out on it, and the files that it changed are written back.

No network is attached: every request to a provider ends as if the provider could not be reached.
-/

open CodeReview

namespace Main

/-- The names in an absolute path. -/
def placeOf (path : String) : Place := (FileSystem.components path).filter (!·.isEmpty)

/-- Adds the folders above a place. -/
def withParents (fs : FileSystem) (place : Place) : FileSystem :=
  (List.range (place.length + 1)).foldl (fun fs n => fs.put (place.take n) .folder) fs

/-- A file system that is being read, and the places that have been read. -/
structure Snapshot where
  fs : FileSystem
  seen : List Place := []

/-- Reads what stands at an absolute path, with all that is below it. What cannot be read is left
out. -/
partial def load (snapshot : Snapshot) (path : String) : IO Snapshot := do
  let place := placeOf path
  if snapshot.seen.contains place then return snapshot
  let seen := place :: snapshot.seen
  let fs := withParents snapshot.fs place.dropLast
  try
    match (← (← IO.FS.realPath path).metadata).type with
    | .dir =>
      let mut snapshot : Snapshot := { fs := fs.put place .folder, seen }
      for entry in ← (← IO.FS.realPath path).readDir do
        let here := path ++ "/" ++ entry.fileName
        if (← entry.path.symlinkMetadata).type == .symlink then
          let target := toString (← IO.FS.realPath here)
          snapshot ← load snapshot target
          snapshot := { snapshot with fs := snapshot.fs.put (placeOf here) (.link target) }
        else snapshot ← load snapshot here
      return snapshot
    | .file => return { fs := fs.put place (.file (← IO.FS.readBinFile path).toList), seen }
    | _ => return { fs := fs.put place .pipe, seen }
  catch _ => return { snapshot with seen }

/-- Writes the files that differ from those of an earlier file system. -/
def save (before after : FileSystem) : IO Unit := do
  for (place, entry) in after.entries do
    if before.entries.lookup place != some entry then
      match entry with
      | .file bytes => IO.FS.writeBinFile (FileSystem.pathOf place) ⟨bytes.toArray⟩
      | .folder => IO.FS.createDirAll (FileSystem.pathOf place)
      | _ => pure ()

/-- The environment variables that count. -/
def shellVariables : IO (Keyed String) := do
  let names := Environment.commonKeyVariable :: Provider.all.filterMap Provider.keyVariable?
  let values ← names.mapM fun name => do return (← IO.getEnv name).map (name, ·)
  return values.filterMap id

/-- The folder of the program's own files. -/
def home : IO String := do
  match ← IO.getEnv "REPOLENS_HOME" with
  | some home => return home
  | none => return ((← IO.getEnv "HOME").getD "") ++ "/.repolens"

/-- The folders whose files a command looks at, beside the program's own. -/
def rootsOf : Option Command → List String
  | some (.review request) => request.path ::
      (request.output.toList ++ request.records.toList).map Path.parent
  | some (.tree path) | some (.deps path _) => [path]
  | _ => []

/-- Whether a command may ask for something. -/
def asks : Option Command → Bool
  | some (.setProvider _) | some (.unsetProvider _) => true
  | _ => false

end Main

def main (arguments : List String) : IO UInt32 := do
  let command := Command.read arguments
  let working := toString (← IO.currentDir)
  let home ← Main.home
  let empty := Main.withParents { workingFolder := Main.placeOf working } (Main.placeOf working)
  let roots := (home :: Main.rootsOf command).map (Path.simplify ∘ Path.joinTo working)
  let fs := (← roots.foldlM Main.load { fs := empty }).fs
  let input ← if Main.asks command then (← IO.getStdin).readToEnd else pure ""
  let environment : Environment := { home, shellVariables := ← Main.shellVariables }
  let connector := Backend.ofNetwork (fun _ _ _ => .unreachable "no network") fun _ => 0
  let ended := runProgram environment connector arguments { fs, input := Console.linesOf input }
  Main.save fs ended.console.fs
  for piece in ended.console.pieces do IO.println piece.text
  IO.print ended.console.out
  IO.eprint ended.console.err
  if let some failure := ended.failure then
    IO.eprintln (failure.kind.label ++ ": " ++ failure.message)
  return UInt32.ofNat ended.status
