import CodeReview.Json.Basic
import CodeReview.Text.Basic

/-!
# Severities

How grave an issue is. A severity is read from whatever a response holds: a few more words are
understood, and what is not understood counts as `medium`.
-/

namespace CodeReview

open Text

/-- How grave an issue is; `error` marks a failed evaluation. -/
inductive Severity
  | low
  | medium
  | high
  | critical
  | error
  deriving DecidableEq, Repr

namespace Severity

def all : List Severity := [low, medium, high, critical, error]

def text : Severity → String
  | low => "LOW"
  | medium => "MEDIUM"
  | high => "HIGH"
  | critical => "CRITICAL"
  | error => "ERROR"

/-- Words that stand for a severity of another name. -/
def synonyms : List (String × Severity) := [("INFO", medium), ("WARN", high), ("WARNING", high)]

/-- The severity that a word names, in capitals or small letters and with white space around. -/
def ofWord (word : String) : Severity :=
  let key := uppercase (trim word)
  match synonyms.lookup key with
  | some severity => severity
  | none => (all.find? (·.text == key)).getD medium

/-- The severity that a value names. -/
def ofJson : Json → Severity
  | .str word => ofWord word
  | _ => medium

end Severity

end CodeReview
