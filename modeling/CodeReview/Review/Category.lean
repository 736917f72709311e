/-!
# Categories of issues

The three buckets of a report, and values for each of them.
-/

namespace CodeReview

/-- What an issue is about. -/
inductive Category
  | errors
  | improvements
  | thingsDoneRight
  deriving DecidableEq, Repr

namespace Category

/-- The categories in the order of a report. -/
def all : List Category := [errors, improvements, thingsDoneRight]

/-- The name of a category in a report. -/
def key : Category → String
  | errors => "errors"
  | improvements => "improvements"
  | thingsDoneRight => "thingsDoneRight"

/-- The category of a name. -/
def ofKey? (name : String) : Option Category := all.find? (·.key == name)

theorem mem_all (category : Category) : category ∈ all := by
  cases category <;> decide

theorem ofKey?_key (category : Category) : ofKey? category.key = some category := by
  cases category <;> decide

end Category

/-- A value for each category. -/
structure ByCategory (α : Type) where
  errors : α
  improvements : α
  thingsDoneRight : α
  deriving Repr

namespace ByCategory

variable {α : Type}

/-- The same value for every category. -/
def const (a : α) : ByCategory α := ⟨a, a, a⟩

def get (values : ByCategory α) : Category → α
  | .errors => values.errors
  | .improvements => values.improvements
  | .thingsDoneRight => values.thingsDoneRight

/-- Changes the value of one category. -/
def modify (values : ByCategory α) (category : Category) (f : α → α) : ByCategory α :=
  match category with
  | .errors => { values with errors := f values.errors }
  | .improvements => { values with improvements := f values.improvements }
  | .thingsDoneRight => { values with thingsDoneRight := f values.thingsDoneRight }

theorem get_const (a : α) (category : Category) : (const a).get category = a := by
  cases category <;> rfl

theorem get_modify (values : ByCategory α) (category other : Category) (f : α → α) :
    (values.modify category f).get other =
      if other = category then f (values.get other) else values.get other := by
  cases category <;> cases other <;> rfl

end ByCategory

end CodeReview
