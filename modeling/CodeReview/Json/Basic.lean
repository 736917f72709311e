import CodeReview.Keyed
import CodeReview.Number.Binary64

/-!
# JSON values

Objects keep the order of their fields and have each name once. Whole numbers and other numbers
are different values.
-/

namespace CodeReview

/-- A JSON value. -/
inductive Json
  | null
  | bool (b : Bool)
  | int (n : Int)
  | float (x : Binary64)
  | str (s : String)
  | arr (items : List Json)
  | obj (fields : List (String × Json))
  deriving Inhabited, Repr

/-- The fields of an object, in order. -/
abbrev Fields := Keyed Json

namespace Fields

/-- The first value among the named fields that is there and not null. -/
def firstOf? (fields : Fields) (names : List String) : Option Json :=
  names.findSome? fun name =>
    match Keyed.get? fields name with
    | some .null | none => none
    | some value => some value

end Fields

namespace Json

/-- A text, if the value is one. -/
def str? : Json → Option String
  | str s => some s
  | _ => none

/-- A text or null. -/
def ofText? : Option String → Json
  | some s => str s
  | none => null

/-- A whole number or null. -/
def ofInt? : Option Int → Json
  | some n => int n
  | none => null

/-- Whether the value counts as present: not null, false, zero or empty. -/
def isTruthy : Json → Bool
  | null => false
  | bool b => b
  | int n => n != 0
  | float x => !x.isZero
  | str s => !s.isEmpty
  | arr items => !items.isEmpty
  | obj fields => !fields.isEmpty

end Json

end CodeReview
