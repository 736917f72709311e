import CodeReview.Text.Chars

/-!
# Balanced braces

Spans of text from an opening brace to the brace that closes it. Braces between quotes do not
count, and a backslash between quotes takes the next character along.

* `afterClosing?`: the text behind the brace that closes the one in front.
* `spans`: the spans of a text from left to right, each as long as can be; a brace that nothing
  closes is passed over.
-/

namespace CodeReview.Response.Braces

/-- Where a scan stands: outside quotes, between quotes, or behind a backslash between quotes. -/
inductive Mode
  | plain
  | quoted
  | escaped
  deriving DecidableEq, Repr

/-- The text behind the brace at which `depth` open braces are closed. -/
def afterClosingFrom? : Mode → (depth : Nat) → List Char → Option (List Char)
  | _, _, [] => none
  | .escaped, depth, _ :: cs => afterClosingFrom? .quoted depth cs
  | .quoted, depth, c :: cs =>
    if c == '\\' then afterClosingFrom? .escaped depth cs
    else if c == '"' then afterClosingFrom? .plain depth cs
    else afterClosingFrom? .quoted depth cs
  | .plain, depth, c :: cs =>
    if c == '"' then afterClosingFrom? .quoted depth cs
    else if c == '\x7b' then afterClosingFrom? .plain (depth + 1) cs
    else if c == '\x7d' then
      if depth ≤ 1 then some cs else afterClosingFrom? .plain (depth - 1) cs
    else afterClosingFrom? .plain depth cs

/-- The text behind the brace that closes the one in front. -/
def afterClosing? (cs : List Char) : Option (List Char) := afterClosingFrom? .plain 0 cs

theorem length_of_afterClosingFrom? {mode : Mode} {depth : Nat} {cs rest : List Char}
    (h : afterClosingFrom? mode depth cs = some rest) : rest.length < cs.length := by
  induction cs generalizing mode depth with
  | nil => cases mode <;> simp [afterClosingFrom?] at h
  | cons c cs ih =>
    have step {mode : Mode} {depth : Nat} (h : afterClosingFrom? mode depth cs = some rest) :
        rest.length < (c :: cs).length := Nat.lt_succ_of_lt (ih h)
    cases mode with
    | plain =>
      rw [afterClosingFrom?] at h
      split at h
      · exact step h
      · split at h
        · exact step h
        · split at h
          · split at h
            · rw [← Option.some.inj h]
              exact Nat.lt_succ_self _
            · exact step h
          · exact step h
    | quoted =>
      rw [afterClosingFrom?] at h
      split at h
      · exact step h
      · split at h <;> exact step h
    | escaped => exact step h

/-- The spans of a text, from left to right. -/
def spans (cs : List Char) : List (List Char) :=
  match cs with
  | [] => []
  | c :: cs =>
    if c == '\x7b' then
      match _h : afterClosing? (c :: cs) with
      | some rest => (c :: cs).take (cs.length + 1 - rest.length) :: spans rest
      | none => spans cs
    else spans cs
termination_by cs.length
decreasing_by
  · exact length_of_afterClosingFrom? _h
  · simp
  · simp

/-- The spans of a text, the longest first; of equal length, in the order of the text. -/
def longestFirst (cs : List Char) : List (List Char) :=
  (spans cs).mergeSort fun a b => b.length ≤ a.length

end CodeReview.Response.Braces
