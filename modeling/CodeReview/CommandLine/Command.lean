import CodeReview.CommandLine.Arguments
import CodeReview.Completion.Service
import CodeReview.Number.Reading

/-!
# Commands

What can be asked for on the command line, and how it is read. `Command.read` gives nothing for
arguments that do not make a command.
-/

namespace CodeReview

open Number Text

/-- How a review is asked for. What is left out is taken from the settings file. -/
structure ReviewRequest where
  path : String
  workers : Option Int := none
  batchTimeout : Option Binary64 := none
  resultTimeout : Option Binary64 := none
  tokensPerMinute : Option Int := none
  maxChars : Option Int := none
  /-- The file that the report is written to. -/
  output : Option String := none
  /-- The file that records are added to. -/
  records : Option String := none
  dump : Bool := false
  assess : Bool := true
  rollup : Bool := false
  choice : Service.Choice := {}

/-- How a provider is chosen. -/
structure ProviderRequest where
  provider : String
  model : Option String := none
  apiKey : Option String := none
  endpoint : Option String := none

/-- What can be asked for on the command line. -/
inductive Command
  | version
  | help
  | review (request : ReviewRequest)
  | tree (path : String)
  /-- The dependencies of all files, or of one. -/
  | deps (path : String) (file : Option String)
  | setProvider (request : ProviderRequest)
  | unsetProvider (confirmed : Bool)
  | showProvider

namespace Command

/-- The option that asks for help. -/
def helpForm : OptionForm := { long := "--help", takesValue := false }

/-- A command with one path and the given options. -/
def reviewForms : List OptionForm :=
  [{ long := "--workers", short := some 'w' }, { long := "--timeout" },
   { long := "--result-timeout" }, { long := "--tpm" }, { long := "--max-chars" },
   { long := "--output", short := some 'o' }, { long := "--records" },
   { long := "--dump", takesValue := false }, { long := "--no-assess", takesValue := false },
   { long := "--rollup", takesValue := false }, { long := "--provider", short := some 'p' },
   { long := "--model", short := some 'm' }, { long := "--api-key", short := some 'k' },
   { long := "--verbose", short := some 'V', takesValue := false }]

/-- The options of a choice of provider. -/
def providerForms : List OptionForm :=
  [{ long := "--model", short := some 'm' }, { long := "--api-key", short := some 'k' },
   { long := "--endpoint", short := some 'e' }]

/-- Reads a value that may be left out; nothing comes of one that is given and cannot be read. -/
def optional {α : Type} (read : String → Option α) (value : Option String) : Option (Option α) :=
  match value with
  | none => some none
  | some text => (read text).map some

/-- A whole number that is not less than one. -/
def positive? (text : String) : Option Int :=
  (readInteger text.toList).toOption.filter (1 ≤ ·)

/-- A number of any kind. -/
def number? (text : String) : Option Binary64 := readFloat? text.toList

/-- Reads the request for a review. -/
def readReview (arguments : Arguments) (path : String) : Option Command := do
  let value := arguments.value?
  return .review {
    path
    workers := ← optional positive? (value "--workers")
    batchTimeout := ← optional number? (value "--timeout")
    resultTimeout := ← optional number? (value "--result-timeout")
    tokensPerMinute := ← optional positive? (value "--tpm")
    maxChars := ← optional positive? (value "--max-chars")
    output := value "--output"
    records := value "--records"
    dump := arguments.isOn "--dump"
    assess := !arguments.isOn "--no-assess"
    rollup := arguments.isOn "--rollup"
    choice :=
      { provider := value "--provider", model := value "--model", apiKey := value "--api-key" } }

/-- Reads a command that takes the given options, unless help is asked for. -/
def readWith (forms : List OptionForm) (rest : List String)
    (read : Arguments → Option Command) : Option Command := do
  let arguments ← Arguments.read (helpForm :: forms) true rest
  if arguments.isOn helpForm.long then return .help
  read arguments

/-- Reads a command that takes one argument and the given options. -/
def readWithPath (forms : List OptionForm) (rest : List String)
    (read : Arguments → String → Option Command) : Option Command :=
  readWith forms rest fun arguments =>
    match arguments.positional with
    | [path] => read arguments path
    | _ => none

/-- Reads a command that takes no argument but the given options. -/
def readBare (forms : List OptionForm) (rest : List String)
    (read : Arguments → Command) : Option Command :=
  readWith forms rest fun arguments =>
    if arguments.positional.isEmpty then some (read arguments) else none

/-- Reads a name of a command, after the given switches, with what follows it. A switch that is on
makes a command by itself. -/
def readGroup (switches : List (OptionForm × Command)) (read : String → List String → Option Command)
    (arguments : List String) : Option Command := do
  let sorted ← Arguments.read (switches.map (·.1)) false arguments
  match sorted.options with
  | (name, _) :: _ => (switches.find? (·.1.long == name)).map (·.2)
  | [] =>
    match sorted.positional with
    | name :: rest => read name rest
    | [] => none

/-- Reads a command about the provider. -/
def readConfig : String → List String → Option Command
  | "set-llm", rest =>
    readWithPath providerForms rest fun arguments provider =>
      some (.setProvider {
        provider
        model := arguments.value? "--model"
        apiKey := arguments.value? "--api-key"
        endpoint := arguments.value? "--endpoint" })
  | "unset-llm", rest =>
    readBare [{ long := "--yes", short := some 'y', takesValue := false }] rest fun arguments =>
      .unsetProvider (arguments.isOn "--yes")
  | "show-llm", rest => readBare [] rest fun _ => .showProvider
  | _, _ => none

/-- Reads a command with what follows its name. -/
def readNamed : String → List String → Option Command
  | "review", rest => readWithPath reviewForms rest readReview
  | "tree", rest => readWithPath [] rest fun _ path => some (.tree path)
  | "deps", rest =>
    readWithPath [{ long := "--file", short := some 'f' }] rest fun arguments path =>
      some (.deps path (arguments.value? "--file"))
  | "config", rest => readGroup [(helpForm, .help)] readConfig rest
  | _, _ => none

/-- Reads the arguments of the program. -/
def read (arguments : List String) : Option Command :=
  readGroup
    [({ long := "--version", short := some 'v', takesValue := false }, .version),
     (helpForm, .help)]
    readNamed arguments

end Command

end CodeReview
