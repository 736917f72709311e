import CodeReview.Number.Amount
import CodeReview.Number.Reading
import CodeReview.Toml.Value

/-!
# Review settings

What a review can be tuned by, and how it is read from a settings file. A value that is not of the
kind of its setting is converted if it can be, and else left out. A number that is too large to be
converted is a failure.
-/

namespace CodeReview

open Number

/-- What a review can be tuned by. -/
structure Settings where
  workers : Int
  /-- Seconds for all evaluations together. -/
  batchTimeout : Binary64 := .ofRatio false 600 1
  /-- Seconds for one outcome. -/
  resultTimeout : Binary64 := .ofRatio false 30 1
  /-- How many characters of a file are shown to the model. -/
  maxChars : Int := 32000
  /-- The size of the largest file that is listed. -/
  maxFileSize : Int := 1000000
  /-- The size of the largest file that is evaluated. -/
  maxEvalBytes : Int := 200000
  tokensPerMinute : Int := 60000
  maxTokens : Int := 1024
  temperature : Amount := .real (.ofRatio false 1 5)
  deriving Repr

namespace Settings

/-- How many evaluations run at once on a machine: one less than there are processors, but at least
two. -/
def defaultWorkers (processors : Option Int) : Int :=
  match processors with
  | none | some 0 => 2
  | some n => max 2 (n - 1)

/-- The settings where none are given. -/
def standard (processors : Option Int) : Settings := { workers := defaultWorkers processors }

/-! ## Reading -/

/-- The whole number that a value can be converted to. -/
def wholeNumber? : Toml.Value → Except Failure (Option Int)
  | .int n => .ok (some n)
  | .bool b => .ok (some (if b then 1 else 0))
  | .text s => .ok (readInteger s.toList).toOption
  | .float x =>
    match x.toInt? with
    | some n => .ok (some n)
    | none => if x.isInfinite then .error .infiniteWhole else .ok none
  | _ => .ok none

/-- The number that a value can be converted to. -/
def number? : Toml.Value → Except Failure (Option Binary64)
  | .float x => .ok (some x)
  | .bool b => .ok (some (if b then .ofRatio false 1 1 else .zero))
  | .text s => .ok (readFloat? s.toList)
  | .int n =>
    match Binary64.ofInt? n with
    | some x => .ok (some x)
    | none => .error .tooLargeForFloat
  | _ => .ok none

/-- A setting: how it is changed to a value, and how it is shown. -/
structure Setting where
  name : String
  read : Toml.Value → Settings → Except Failure Settings
  shown : Settings → Json

/-- A setting that is a whole number. -/
def wholeSetting (name : String) (set : Int → Settings → Settings) (get : Settings → Int) :
    Setting where
  name := name
  read value settings := do return ((← wholeNumber? value).map (set · settings)).getD settings
  shown settings := .int (get settings)

/-- A setting that is a number of any kind. -/
def realSetting (name : String) (set : Binary64 → Settings → Settings) (get : Settings → Json) :
    Setting where
  name := name
  read value settings := do return ((← number? value).map (set · settings)).getD settings
  shown := get

/-- The settings by their names. -/
def all : List Setting :=
  [wholeSetting "workers" (fun n s => { s with workers := n }) workers,
   realSetting "batch_timeout" (fun x s => { s with batchTimeout := x }) (.float ·.batchTimeout),
   realSetting "result_timeout" (fun x s => { s with resultTimeout := x }) (.float ·.resultTimeout),
   wholeSetting "max_chars" (fun n s => { s with maxChars := n }) maxChars,
   wholeSetting "max_file_size" (fun n s => { s with maxFileSize := n }) maxFileSize,
   wholeSetting "max_eval_bytes" (fun n s => { s with maxEvalBytes := n }) maxEvalBytes,
   wholeSetting "tokens_per_minute" (fun n s => { s with tokensPerMinute := n }) tokensPerMinute,
   wholeSetting "max_tokens" (fun n s => { s with maxTokens := n }) maxTokens,
   realSetting "temperature" (fun x s => { s with temperature := .real x }) (·.temperature.toJson)]

/-- The settings with those that a table names. -/
def ofTable (settings : Settings) (table : Toml.Table) : Except Failure Settings :=
  all.foldlM (fun settings setting =>
    match Keyed.get? table setting.name with
    | some value => setting.read value settings
    | none => .ok settings) settings

/-- Whether a value that is no table speaks of a setting all the same: a text that its name is a part
of, or a list that it is an item of. -/
def mentions (value : Toml.Value) (name : String) : Bool :=
  match value with
  | .text s => Text.hasPart name s
  | .array items => items.any fun item => item.text? == some name
  | _ => false

/-- The settings with those that a section names. A text or a list is let go as long as it speaks of
no setting; other values are no section at all. -/
def ofSection (settings : Settings) (value : Toml.Value) : Except Failure Settings :=
  match value with
  | .table table => settings.ofTable table
  | .text _ | .array _ =>
    if all.any (mentions value ·.name) then .error .wrongType else .ok settings
  | _ => .error .wrongType

/-- The settings by name. -/
def fields (settings : Settings) : Fields :=
  all.map fun setting => (setting.name, setting.shown settings)

end Settings

end CodeReview
