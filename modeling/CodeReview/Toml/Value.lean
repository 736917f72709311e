import CodeReview.Failure
import CodeReview.Keyed
import CodeReview.Number.Binary64

/-!
# Settings files

The values of a settings file: tables by key, in the order in which the keys came in.

A text that is no settings file is `malformed`. Some texts break the reading itself; what they fail
with is kept apart, because it is not taken for a faulty file.
-/

namespace CodeReview.Toml

/-- A value of a settings file. -/
inductive Value
  | text (s : String)
  | int (n : Int)
  | float (x : Binary64)
  | bool (b : Bool)
  /-- A date, a time or both, as they are written. -/
  | date (written : String)
  | array (items : List Value)
  | table (entries : List (String × Value))
  deriving Inhabited, Repr

/-- A table, or a whole file. -/
abbrev Table := Keyed Value

/-- Why a text is not read. -/
inductive Fault
  | malformed
  | broken (failure : Failure)
  deriving Repr

/-- What a value is; the items of an array have to agree in it. -/
inductive Kind
  | text
  | int
  | float
  | bool
  | date
  | time
  | array
  | table
  deriving DecidableEq, Repr

namespace Value

/-- Whether a value counts as present: not false, zero or empty. -/
def isTruthy : Value → Bool
  | text s => !s.isEmpty
  | int n => n != 0
  | float x => !x.isZero
  | bool b => b
  | date _ => true
  | array items => !items.isEmpty
  | table entries => !entries.isEmpty

/-- A text, if the value is one. -/
def text? : Value → Option String
  | text s => some s
  | _ => none

end Value

end CodeReview.Toml
