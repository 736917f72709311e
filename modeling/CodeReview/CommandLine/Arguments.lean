import CodeReview.Keyed
import CodeReview.Text.Basic

/-!
# Arguments

The arguments of a command, sorted into options and the rest. An option has a long name and may have
a short one of one letter; it is a switch or takes a value.

A value follows its option or is attached to it, as in `--name=value` and `-nvalue`. Several short
switches may be written together. What comes after `--` is no option, and neither is `-`.
-/

namespace CodeReview

open Text

/-- An option that a command knows. -/
structure OptionForm where
  /-- The long name, with its dashes. -/
  long : String
  short : Option Char := none
  /-- Whether the option takes a value; otherwise it is a switch. -/
  takesValue : Bool := true
  deriving DecidableEq, Repr

/-- Arguments, sorted. -/
structure Arguments where
  /-- The options that are given, by long name; a switch has the empty value. Of an option that is
  given twice, the last value counts. -/
  options : Keyed String := []
  /-- The other arguments, in order. -/
  positional : List String := []
  deriving DecidableEq, Repr

/-- What one argument says about options: those that it gives, and the one whose value is the next
argument, if there is such. -/
structure OptionArgument where
  given : Keyed String := []
  waiting : Option String := none

namespace OptionForm

/-- The options in a cluster of short ones. -/
def readCluster (forms : List OptionForm) : List Char → Option OptionArgument
  | [] => some {}
  | c :: cs => do
    let form ← forms.find? (·.short == some c)
    if !form.takesValue then
      let others ← readCluster forms cs
      return { others with given := (form.long, "") :: others.given }
    else if cs.isEmpty then return { waiting := some form.long }
    else return { given := [(form.long, String.ofList cs)] }

/-- The options in an argument that starts with a dash. -/
def readOption (forms : List OptionForm) (argument : String) : Option OptionArgument :=
  let (name, attached) := Chars.splitFirst '=' argument.toList
  match forms.find? (·.long == String.ofList name), attached with
  | some form, some value =>
    if form.takesValue then some { given := [(form.long, String.ofList value)] } else none
  | some form, none =>
    some (if form.takesValue then { waiting := some form.long } else { given := [(form.long, "")] })
  | none, _ =>
    if startsWith "--" argument then none else readCluster forms (argument.toList.drop 1)

end OptionForm

namespace Arguments

/-- Whether an argument is read as an option. -/
def isOption (argument : String) : Bool := startsWith "-" argument && argument != "-"

/-- Adds options. -/
def give (arguments : Arguments) (options : Keyed String) : Arguments :=
  { arguments with
    options := options.foldl (fun known (name, value) => known.put name value) arguments.options }

/-- Adds an argument that is no option. -/
def place (arguments : Arguments) (argument : String) : Arguments :=
  { arguments with positional := arguments.positional ++ [argument] }

/-- Sorts arguments into those found before. Unless options may be `mixed` with other arguments, the
first of those ends the options. -/
def readOnto (forms : List OptionForm) (mixed : Bool) (found : Arguments) :
    List String → Option Arguments
  | [] => some found
  | argument :: rest =>
    if argument == "--" then some { found with positional := found.positional ++ rest }
    else if isOption argument then
      match OptionForm.readOption forms argument with
      | none => none
      | some ⟨given, none⟩ => readOnto forms mixed (found.give given) rest
      | some ⟨given, some name⟩ =>
        match rest with
        | [] => none
        | value :: rest => readOnto forms mixed (found.give (given ++ [(name, value)])) rest
    else if mixed then readOnto forms mixed (found.place argument) rest
    else some { found with positional := found.positional ++ argument :: rest }

/-- Sorts arguments; nothing comes of an option that is not known or lacks its value. -/
def read (forms : List OptionForm) (mixed : Bool) (arguments : List String) : Option Arguments :=
  readOnto forms mixed {} arguments

/-- The value of an option. -/
def value? (arguments : Arguments) (name : String) : Option String := arguments.options.get? name

/-- Whether a switch is on. -/
def isOn (arguments : Arguments) (name : String) : Bool := arguments.options.hasKey name

end Arguments

end CodeReview
