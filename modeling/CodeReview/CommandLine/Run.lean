import CodeReview.CommandLine.Command
import CodeReview.CommandLine.Console
import CodeReview.Review.Run

/-!
# Carrying out commands

What each command does. `Command.run` carries one out, and `runProgram` reads the arguments before
and says with which status the program ends.
-/

namespace CodeReview

open Text

/-- The model that a review asks, by name. -/
structure Backend where
  provider : String
  model : String
  client : Client

/-- Finds the model that is chosen. -/
abbrev Connector := FileSystem → Environment → Service.Choice → Except Failure Backend

namespace Backend

/-- A provider that is asked over a network. -/
def ofNetwork (network : Service.Network) (jitter : Nat → Float) : Connector :=
  fun fs env choice => do
    let service ← Service.choose env (← Config.load fs env) choice
    return {
      provider := service.provider.name
      model := service.target.model.asText
      client := service.client network jitter }

end Backend

namespace Command

open CommandM

/-- What marks a success. -/
def tick : String := "✓"

/-- What marks a failure. -/
def cross : String := "✗"

/-- Shows a failure and ends the command. -/
def refuse {α : Type} (message : String) : CommandM α := do
  present (.markup (s!"[red]{cross}[/red] " ++ message))
  exit 1

/-- What comes of a step that fails on roots that cannot be reviewed. -/
def onRoot {α : Type} (result : Except Failure α) : CommandM α :=
  match result with
  | .ok value => return value
  | .error (.invalidPath fault path) => refuse (Failure.invalidPath fault path).message
  | .error failure => throw (.failed failure)

/-! ## Looking at a repository -/

/-- Shows the files that a review would consider. -/
def runTree (path : String) : CommandM Unit := do
  let checkout ← onRoot (Checkout.walk (← get).fs path)
  echo checkout.render
  echo s!"\nFiles: {checkout.fileCount} | Directories: {checkout.folderCount}"

/-- The line of one kind of context of a file. -/
def contextLine (label : String) (values : List String) : Piece :=
  .markup (s!"[bold]{label}[/bold]: " ++ (if values.isEmpty then "(none)" else join ", " values))

/-- What the graph says of one file. -/
def fileView (graph : Dependency.Graph) (file : String) : List Piece :=
  let context := graph.fileContext file
  [.markup (s!"[bold cyan]{file}[/bold cyan] (" ++ (context.language.bind nonEmpty?).getD "n/a" ++ ")"),
   contextLine "taking" context.taking, contextLine "dependents" context.dependents,
   contextLine "calling" context.calling]

/-- What the graph says of every file. -/
def graphTable (graph : Dependency.Graph) (paths : List String) : Piece :=
  let counts (values : String → List String) : List String :=
    paths.map fun path => toString (values path).length
  .table "Dependency Context"
    [("File", paths), ("Language", paths.map fun path => (graph.language path).getD ""),
     ("Taking", counts graph.taking), ("Dependents", counts graph.dependents),
     ("Exports", counts graph.calling)]

/-- Shows the dependencies of all files, or of one. -/
def runDeps (path : String) (file : Option String) : CommandM Unit := do
  let fs := (← get).fs
  let checkout ← onRoot (Checkout.walk fs path)
  let paths := checkout.files.map Node.path
  let extraction ← lift (Dependency.extract ⟨fs, checkout.root⟩ paths)
  let graph := Dependency.Graph.ofExtraction extraction
  match file.bind nonEmpty? with
  | some file => for piece in fileView graph file do present piece
  | none =>
    present (graphTable graph paths)
    present (.markup
      s!"\nEdges: {extraction.edges.length} | Unresolved imports: {extraction.unresolved}")

/-! ## Reviewing -/

/-- The settings of a review: those of the settings file, but for those that are asked for. -/
def settingsFor (request : ReviewRequest) (settings : Settings) : Settings :=
  { settings with
    workers := request.workers.getD settings.workers
    batchTimeout := request.batchTimeout.getD settings.batchTimeout
    resultTimeout := request.resultTimeout.getD settings.resultTimeout
    tokensPerMinute := request.tokensPerMinute.getD settings.tokensPerMinute
    maxChars := request.maxChars.getD settings.maxChars }

/-- The model that is chosen; a choice that cannot be is a misuse. -/
def connect (connector : Connector) (fs : FileSystem) (env : Environment)
    (choice : Service.Choice) : CommandM Backend :=
  match connector fs env choice with
  | .ok backend => return backend
  | .error failure => if failure.kind = .value then throw .misuse else throw (.failed failure)

/-- Reviews a repository and shows the report. -/
def runReview (env : Environment) (connector : Connector) (request : ReviewRequest) :
    CommandM Unit := do
  let fs := (← get).fs
  let settings := settingsFor request (← lift (Config.reviewSettings fs env))
  let backend ← connect connector fs env request.choice
  let records := request.records.map Path.tidy
  let plan : Plan :=
    { client := backend.client, settings, assess := request.assess, rollup := request.rollup
      recordFile := records
      dumpFolder := if request.dump then some env.dumpFolder else none }
  present (.markup (s!"\n[bold cyan]🔍 Reviewing {request.path} with " ++
    s!"{backend.provider}/{backend.model}...[/bold cyan]\n"))
  let (result, fs) := plan.review fs request.path
  modify fun console => { console with fs }
  let review ← onRoot result
  for piece in review.report.view do present piece
  if let some output := request.output.map Path.tidy then
    let fs ← lift (review.report.save fs output)
    modify fun console => { console with fs }
    present (.markup (s!"[green]{tick}[/green] Report written to " ++ output))
  if let some records := records then
    present (.markup
      (s!"[green]{tick}[/green] {review.recordsWritten} records appended to " ++ records))

/-! ## Choosing a provider -/

/-- Says that something was done. -/
def succeed (message : String) : CommandM Unit := echo (tick ++ " " ++ message)

/-- Says something by the way. -/
def inform (message : String) : CommandM Unit := echo ("ℹ " ++ message)

/-- Says what went wrong and ends the command. -/
def fail {α : Type} (message : String) : CommandM α := do
  complain (cross ++ " " ++ message)
  exit 1

/-- Carries out a change of the settings file, which may not be possible. -/
def changeConfig (complaint : String) (change : FileSystem → Except Failure Bool × FileSystem) :
    CommandM Unit := do
  let (changed, fs) := change (← get).fs
  modify fun console => { console with fs }
  if !(← lift changed) then fail complaint

/-- The key that is stored with a provider that needs one: the one that is stored already, none if
the environment has one, and else what is typed. -/
def keyFor (env : Environment) (provider : Provider) (table : Toml.Table) : CommandM Toml.Value := do
  match ← lift (Config.storedKey? provider.name table) with
  | some key =>
    inform ("Reusing existing API key for " ++ provider.name)
    return key
  | none =>
    if (env.apiKey provider.name).isEmpty then
      return .text (← askSecret s!"Enter your {provider.name} API key")
    else
      inform (s!"Using the API key from the environment ({Environment.commonKeyVariable} or " ++
        provider.keyVariable?.getD Environment.commonKeyVariable ++ ")")
      return .text ""

/-- Stores which provider is asked. -/
def runSetProvider (env : Environment) (request : ProviderRequest) : CommandM Unit := do
  let name := trim (lowercase request.provider)
  let some provider := Provider.ofName? name |
    fail (Failure.unknownProvider name Provider.names).message
  let table ← lift (Config.read (← get).fs env)
  let model := (request.model.bind nonEmpty?).getD provider.model
  let endpoint := (request.endpoint.bind nonEmpty?).getD (provider.endpoint?.getD "")
  let apiKey : Toml.Value ←
    match request.apiKey.bind nonEmpty? with
    | some key => pure (.text key)
    | none => if provider.needsKey then keyFor env provider table else pure (.text "")
  changeConfig "Failed to save configuration!" fun fs =>
    Config.save fs env provider.name model apiKey endpoint
  succeed ("LLM provider set to: " ++ provider.name)
  echo ("  Provider: " ++ provider.name)
  echo ("  Model:    " ++ model)
  if !endpoint.isEmpty then echo ("  Endpoint: " ++ endpoint)

/-- Forgets what is stored about the provider. -/
def runUnsetProvider (env : Environment) (confirmed : Bool) : CommandM Unit := do
  if !(← lift ((← get).fs.isThere env.configFile)) then
    inform "No LLM configuration found. Nothing to unset."
  else
    let agreed ←
      if confirmed then pure true else askConsent "Remove the stored LLM configuration?"
    if agreed then
      changeConfig "Failed to update configuration!" fun fs => Config.clear fs env
      succeed "LLM configuration removed; Ollama defaults apply."
    else inform "Cancelled."

/-- The sign that stands for a character of a key. -/
def mask (count : Nat) : String := copies count "•"

/-- How many characters of a key are shown. -/
def shownLength : Nat := 8

/-- A key of which no more than the start can be read. -/
def maskKey (key : String) : String :=
  if key.length ≤ shownLength then mask key.length
  else take shownLength key ++ mask (min (key.length - shownLength) 16)

/-- A stored key of any kind, masked. Only what has a length can be. -/
def maskValue : Json → Except Failure String
  | .str key => .ok (maskKey key)
  | .arr items => if items.length ≤ shownLength then .ok (mask items.length) else .error .wrongType
  | .obj fields =>
    if fields.length ≤ shownLength then .ok (mask fields.length) else .error .wrongType
  | _ => .error .wrongType

/-- Shows which provider is asked. -/
def runShowProvider (env : Environment) : CommandM Unit := do
  let stored ← lift (Config.load (← get).fs env)
  let value (name : String) : Json := (Keyed.get? stored name).getD (.str "")
  match (Keyed.get? stored "provider").getD (.str Provider.ollama.name) with
  | .str name => echo ("  Provider  " ++ uppercase name)
  | _ => throw (.failed .missingAttribute)
  echo ("  Model     " ++ (value "model").asText)
  if (value "endpoint").isTruthy then echo ("  Endpoint  " ++ (value "endpoint").asText)
  if (value "api_key").isTruthy then
    echo ("  API Key   " ++ (← lift (maskValue (value "api_key"))))
  else echo "  API Key   (not set)"
  echo ("  Config    " ++ env.configFile)

/-! ## All commands -/

/-- The version of the program. -/
def versionText : String := "RepoLens v0.1.0"

/-- How the program is used. -/
def helpText : String :=
  "Usage: repolens [--version] [--help] review|tree|deps|config [OPTIONS] [ARGS]..."

/-- Carries out a command. -/
def run (env : Environment) (connector : Connector) : Command → CommandM Unit
  | version => echo versionText
  | help => echo helpText
  | review request => runReview env connector request
  | tree path => runTree path
  | deps path file => runDeps path file
  | setProvider request => runSetProvider env request
  | unsetProvider confirmed => runUnsetProvider env confirmed
  | showProvider => runShowProvider env

end Command

/-- How the program ended. -/
structure Ended where
  status : Nat
  /-- The failure that nobody dealt with, if there was one. -/
  failure : Option Failure := none
  console : Console

namespace Ended

/-- The status of a program whose arguments are refused. -/
def misuse : Nat := 2

/-- How the program ended, from how its command did. -/
def ofStop (console : Console) : Except Stop Unit → Ended
  | .ok () => { status := 0, console }
  | .error (.exit status) => { status, console }
  | .error .misuse => { status := misuse, console }
  | .error (.failed failure) => { status := 1, failure := some failure, console }

end Ended

/-- Runs the program with arguments. -/
def runProgram (env : Environment) (connector : Connector) (arguments : List String)
    (console : Console) : Ended :=
  match Command.read arguments with
  | none => { status := Ended.misuse, console }
  | some command =>
    let (result, console) := (command.run env connector).run.run console
    .ofStop console result

end CodeReview
