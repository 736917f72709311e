import CodeReview.Review.View

/-!
# Consoles

What a command reads and writes: lines of input, plain output, errors, and styled pieces that a
terminal lays out. A command (`CommandM`) may end early with an exit status, and what it did before
stays done.
-/

namespace CodeReview

open Text

/-- What a command works with. -/
structure Console where
  fs : FileSystem
  /-- The lines that have not been read. -/
  input : List String := []
  /-- Styled output, in order. -/
  pieces : List Piece := []
  /-- Plain output. -/
  out : String := ""
  /-- Errors. -/
  err : String := ""

/-- Why a command ends early. -/
inductive Stop
  | exit (status : Nat)
  /-- The arguments are refused. -/
  | misuse
  | failed (failure : Failure)

/-- A command that is being carried out. -/
abbrev CommandM := ExceptT Stop (StateM Console)

namespace Console

/-- The lines of an input; each way to end a line counts. -/
def linesOf (text : String) : List String :=
  let lines := Chars.splitOn '\n' (Utf8.unifyLineEnds text.toList)
  let lines := if lines.getLast? == some [] then lines.dropLast else lines
  lines.map String.ofList

/-- The character that starts a control sequence. -/
def escape : Char := '\x1b'

/-- Drops the sequences that style text on a terminal. `pending` holds, in reverse, what may turn
out to be the start of one. -/
def plainFrom : (pending : List Char) → List Char → List Char
  | pending, [] => pending.reverse
  | pending, c :: cs =>
    if c == escape then pending.reverse ++ plainFrom [c] cs
    else
      match pending with
      | [] => c :: plainFrom [] cs
      | [_] => if c == '[' then plainFrom (c :: pending) cs else pending.reverse ++ c :: plainFrom [] cs
      | _ =>
        if c.isDigit || c == ';' || c == '?' then plainFrom (c :: pending) cs
        else if c.isAlpha then plainFrom [] cs
        else pending.reverse ++ c :: plainFrom [] cs

/-- A text without what styles it. -/
def plain (text : String) : String := onChars (plainFrom []) text

end Console

namespace CommandM

def lift {α : Type} (result : Except Failure α) : CommandM α :=
  ExceptT.mk (pure (result.mapError .failed))

/-- Ends the command with a status. -/
def exit {α : Type} (status : Nat) : CommandM α := throw (.exit status)

/-- Writes plain output as it is. -/
def write (text : String) : CommandM Unit :=
  modify fun console => { console with out := console.out ++ text }

/-- Writes a line of plain output. -/
def echo (line : String) : CommandM Unit := write (Console.plain line ++ "\n")

/-- Writes a line of errors. -/
def complain (line : String) : CommandM Unit :=
  modify fun console => { console with err := console.err ++ Console.plain line ++ "\n" }

/-- Writes styled output. -/
def present (piece : Piece) : CommandM Unit :=
  modify fun console => { console with pieces := console.pieces ++ [piece] }

/-- Ends the command because the input has ended. -/
def abort {α : Type} : CommandM α := do
  modify fun console => { console with input := [] }
  complain "Aborted."
  exit 1

/-- Reads the lines of an answer that is not shown; empty ones are asked for again. -/
def readSecret (question : String) : List String → CommandM String
  | [] => do
    write (question ++ ": \n")
    write "\n"
    abort
  | line :: lines => do
    write (question ++ ": \n")
    if line.isEmpty then readSecret question lines
    else
      modify fun console => { console with input := lines }
      return line

/-- Asks for an answer that is not shown. -/
def askSecret (question : String) : CommandM String := do readSecret question (← get).input

/-- Reads the lines of a yes or no; an empty one means no, and others are asked for again. -/
def readConsent (question : String) : List String → CommandM Bool
  | [] => do
    write (question ++ " [y/N]: ")
    abort
  | line :: lines => do
    write (question ++ " [y/N]: " ++ line ++ "\n")
    modify fun console => { console with input := lines }
    let answer := trim (lowercase line)
    if answer == "y" || answer == "yes" then return true
    else if answer == "n" || answer == "no" || answer == "" then return false
    else
      echo "Error: invalid input"
      readConsent question lines

/-- Asks for a yes or no. -/
def askConsent (question : String) : CommandM Bool := do readConsent question (← get).input

end CommandM

end CodeReview
