import CodeReview.Text.CaseTable
import CodeReview.Text.Class

/-!
# Letter case

Full case mapping of text, and comparison of one letter regardless of case.

* `upper` and `lower` map a text; one letter may become several (`ß` becomes `SS`), and a capital
  sigma becomes the final form where a word ends on it.
* `sameLetter` is the comparison that case-insensitive scanning uses: it folds single letters
  only, so `ß` matches itself and the Kelvin sign matches `k`.
-/

namespace CodeReview.Text

/-- Moves a code point along the first run that covers it. -/
def moveAlong (runs : List (Nat × Nat × Nat × Nat)) (n : Nat) : Nat :=
  match runs.find? fun (first, last, step, _) => first ≤ n && n ≤ last && (n - first) % step == 0 with
  | some (first, _, _, image) => n - first + image
  | none => n

/-- The case mapping of one code point outside ASCII: a special sequence, or a run. -/
def mapBeyondAscii (special : List (Nat × List Nat)) (runs : List (Nat × Nat × Nat × Nat))
    (n : Nat) : List Char :=
  match special.lookup n with
  | some ns => ns.map Char.ofNat
  | none => [Char.ofNat (moveAlong runs n)]

/-- The capital form of one character. -/
def upperChar (c : Char) : List Char :=
  if c.toNat < 128 then [c.toUpper] else mapBeyondAscii upperSpecial upperRuns c.toNat

/-- The small form of one character, wherever it stands. -/
def lowerChar (c : Char) : List Char :=
  if c.toNat < 128 then [c.toLower] else mapBeyondAscii lowerSpecial lowerRuns c.toNat

/-- Text in capitals. -/
def upper (cs : List Char) : List Char := cs.flatMap upperChar

/-- A character that is passed over when looking for the end of a word. -/
def isCaseIgnorable (c : Char) : Bool := inRanges caseIgnorableRanges c.toNat

/-- A letter with a case that is not passed over. -/
def isCased (c : Char) : Bool := inRanges casedRanges c.toNat

/-- Whether the next character that is not passed over is a letter with a case. -/
def casedAhead : List Char → Bool
  | [] => false
  | c :: cs => if isCaseIgnorable c then casedAhead cs else isCased c

/-- `lower` after a text whose last character that is not passed over has a case or not. -/
def lowerAfter (casedBefore : Bool) : List Char → List Char
  | [] => []
  | c :: cs =>
    (if c == 'Σ' then [if casedBefore && !casedAhead cs then 'ς' else 'σ'] else lowerChar c) ++
      lowerAfter (if isCaseIgnorable c then casedBefore else isCased c) cs

/-- Text in small letters; a capital sigma that ends a word becomes `ς`. -/
def lower (cs : List Char) : List Char := lowerAfter false cs

/-- Whether `c` is the ASCII letter `letter`, given small, in either case. Three letters beyond
ASCII count as well: the dotted and the dotless i, the long s and the Kelvin sign. -/
def sameLetter (letter c : Char) : Bool :=
  c == letter || c.toLower == letter ||
    (letter == 'i' && (c == 'İ' || c == 'ı')) || (letter == 's' && c == 'ſ') ||
    (letter == 'k' && c == '\u212A')

end CodeReview.Text
