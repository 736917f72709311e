import CodeReview.Completion.Provider
import CodeReview.FileSystem.Basic
import CodeReview.Settings
import CodeReview.Toml.Reader
import CodeReview.Toml.Writer

/-!
# The settings file

Reading and changing the settings file of a user. Its section `llm` says which provider is asked,
its section `review` holds the settings of reviews, and other sections are kept as they are.

A file that cannot be opened or is no settings file counts as empty; one that is not even a text is a
failure. An API key in the environment wins over a stored one and is never stored.
-/

namespace CodeReview

open Text

/-- What surrounds a run of the program. -/
structure Environment where
  /-- The folder of the program's own files. -/
  home : String
  shellVariables : Keyed String := []
  processors : Option Int := none

namespace Environment

def configFile (env : Environment) : String := env.home ++ "/config.toml"

/-- The folder that parsed evaluations are saved to. -/
def dumpFolder (env : Environment) : String := env.home ++ "/evaluations"

/-- The value of a variable that is set to something. -/
def valueOf? (env : Environment) (name : String) : Option String :=
  (env.shellVariables.get? name).bind nonEmpty?

/-- The variable that holds the key of every provider. -/
def commonKeyVariable : String := "REPOLENS_API_KEY"

/-- The key for the provider of a name. -/
def apiKey (env : Environment) (provider : String) : String :=
  let own := (Provider.ofName? provider).bind Provider.keyVariable?
  ((env.valueOf? commonKeyVariable).or (own.bind env.valueOf?)).getD ""

end Environment

namespace Config

/-! ## Values -/

mutual

/-- A value of a settings file as a value of a document. -/
def toJson : Toml.Value → Json
  | .text s => .str s
  | .int n => .int n
  | .float x => .float x
  | .bool b => .bool b
  | .date written => .str written
  | .array items => .arr (itemsToJson items)
  | .table entries => .obj (entriesToJson entries)

def itemsToJson : List Toml.Value → List Json
  | [] => []
  | item :: items => toJson item :: itemsToJson items

def entriesToJson : List (String × Toml.Value) → List (String × Json)
  | [] => []
  | (key, value) :: entries => (key, toJson value) :: entriesToJson entries

end

/-! ## Reading -/

/-- The whole settings file. -/
def read (fs : FileSystem) (env : Environment) : Except Failure Toml.Table := do
  if !(← fs.isThere env.configFile) then return []
  match fs.readBytes env.configFile with
  | .error (.system ..) => return []
  | .error failure => throw failure
  | .ok bytes =>
    match Utf8.decode? bytes with
    | none => throw .notUtf8
    | some cs =>
      match Toml.parse (String.ofList (Utf8.unifyLineEnds cs)) with
      | .ok table => return table
      | .error .malformed => return []
      | .error (.broken failure) => throw failure

/-- The section that says which provider is asked, as it is stored; without one, the defaults of
`ollama`. -/
def providerSection (table : Toml.Table) : Except Failure Fields :=
  match (table.get? "llm").filter Toml.Value.isTruthy with
  | none => .ok Provider.ollama.defaults
  | some (.table entries) => .ok (entriesToJson entries)
  | some _ => .error .missingAttribute

/-- The key in the environment for the provider that a section names. -/
def keyFor (env : Environment) (stored : Fields) : Except Failure String :=
  match (Keyed.get? stored "provider").getD (.str Provider.ollama.name) with
  | .str name => .ok (env.apiKey name)
  | .arr _ | .obj _ =>
    match env.valueOf? Environment.commonKeyVariable with
    | some key => .ok key
    | none => .error .wrongType
  | _ => .ok (env.apiKey "")

/-- Which provider is asked: the stored section, with the key in the environment if there is one. -/
def load (fs : FileSystem) (env : Environment) : Except Failure Fields := do
  let stored ← providerSection (← read fs env)
  let key ← keyFor env stored
  return if key.isEmpty then stored else Keyed.put stored "api_key" (.str key)

/-- The settings of reviews. -/
def reviewSettings (fs : FileSystem) (env : Environment) : Except Failure Settings := do
  let table ← read fs env
  (Settings.standard env.processors).ofSection ((table.get? "review").getD (.table []))

/-! ## Changing -/

/-- Writes the whole settings file, and says whether that worked. A table that cannot be written
leaves the file empty. -/
def write (fs : FileSystem) (env : Environment) (table : Toml.Table) :
    Except Failure Bool × FileSystem :=
  let emptied := do (← fs.makeFolders env.home).writeBytes env.configFile []
  match emptied with
  | .error (.system ..) => (.ok false, fs)
  | .error failure => (.error failure, fs)
  | .ok empty =>
    match Toml.write table with
    | .error failure => (.error failure, empty)
    | .ok text =>
      match empty.writeBytes env.configFile (Utf8.encode text.toList) with
      | .ok written => (.ok true, written)
      | .error _ => (.ok false, empty)

/-- Changes the settings file, and says whether that worked. -/
def change (fs : FileSystem) (env : Environment) (f : Toml.Table → Toml.Table) :
    Except Failure Bool × FileSystem :=
  match read fs env with
  | .ok table => write fs env (f table)
  | .error failure => (.error failure, fs)

/-- The section for a provider. An empty key or address is left out. The key may be of any kind, as
it may be one that was stored before. -/
def sectionFor (provider model : String) (apiKey : Toml.Value) (endpoint : String) : Toml.Table :=
  [("provider", .text provider), ("model", .text model)] ++
    (if apiKey.isTruthy then [("api_key", apiKey)] else []) ++
    (if endpoint.isEmpty then [] else [("endpoint", .text endpoint)])

/-- Stores which provider is asked. -/
def save (fs : FileSystem) (env : Environment) (provider model : String) (apiKey : Toml.Value)
    (endpoint : String) : Except Failure Bool × FileSystem :=
  change fs env fun table =>
    table.put "llm" (.table (sectionFor provider model apiKey endpoint))

/-- The key that is stored for a provider, if there is one. -/
def storedKey? (provider : String) (table : Toml.Table) : Except Failure (Option Toml.Value) :=
  match (table.get? "llm").filter Toml.Value.isTruthy with
  | none => .ok none
  | some (.table entries) =>
    match Keyed.get? entries "provider" with
    | some (.text name) =>
      .ok (if name == provider then
        (Keyed.get? entries "api_key").filter Toml.Value.isTruthy else none)
    | _ => .ok none
  | some _ => .error .missingAttribute

/-- Removes what is stored about the provider. -/
def clear (fs : FileSystem) (env : Environment) : Except Failure Bool × FileSystem :=
  change fs env (·.erase "llm")

end Config

end CodeReview
