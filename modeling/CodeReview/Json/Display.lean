import CodeReview.Json.Basic
import CodeReview.Number.Decimal
import CodeReview.Text.Quoted

/-!
# Values as text

How a value that stands where a text was expected is turned into one: a string is itself, and
anything else is shown with `None`, `True` and `False` for the constants and quoted strings inside
lists and mappings.
-/

namespace CodeReview.Json

open Text

mutual

/-- A value inside another one. -/
def shown : Json → String
  | null => "None"
  | bool b => if b then "True" else "False"
  | int n => toString n
  | float x => DecimalLayout.display.text x
  | str s => quoted s
  | arr items => "[" ++ join ", " (shownItems items) ++ "]"
  | obj fields => "\x7b" ++ join ", " (shownFields fields) ++ "\x7d"

def shownItems : List Json → List String
  | [] => []
  | item :: items => shown item :: shownItems items

def shownFields : List (String × Json) → List String
  | [] => []
  | (name, value) :: fields => (quoted name ++ ": " ++ shown value) :: shownFields fields

end

/-- A value as a text of its own. -/
def asText : Json → String
  | str s => s
  | value => shown value

end CodeReview.Json
