import CodeReview.Text.ClassTable

/-!
# Character classes

The tests that splitting, trimming and scanning use. Each answers ASCII by comparison and looks
everything else up in `CodeReview.Text.ClassTable`.

* `isBlank`: white space, the four ASCII separators (FS, GS, RS, US) included.
* `isLineEnd`: a character that ends a line. A carriage return before a line feed ends one line
  with it, which is for `Text.lines` to see to.
* `digitValue?`: the value of a decimal digit of any script.
* `isWord`: a letter, digit or numeral of any script, or the low line.
* `isPrintable`: a character that is shown as itself in quoted text.
-/

namespace CodeReview.Text

/-- Whether `n` lies in one of the closed ranges. -/
def inRanges (ranges : List (Nat × Nat)) (n : Nat) : Bool :=
  ranges.any fun (first, last) => first ≤ n && n ≤ last

/-- White space: tab to carriage return, the ASCII separators, the space, and the spaces and
line separators beyond ASCII. -/
def isBlank (c : Char) : Bool :=
  let n := c.toNat
  if n < 128 then (9 ≤ n && n ≤ 13) || (28 ≤ n && n ≤ 32)
  else n == 0x85 || n == 0xA0 || n == 0x1680 || (0x2000 ≤ n && n ≤ 0x200A) || n == 0x2028 ||
    n == 0x2029 || n == 0x202F || n == 0x205F || n == 0x3000

/-- A character that ends a line. -/
def isLineEnd (c : Char) : Bool :=
  let n := c.toNat
  (10 ≤ n && n ≤ 13) || (28 ≤ n && n ≤ 30) || n == 0x85 || n == 0x2028 || n == 0x2029

/-- The value of a decimal digit of any script. -/
def digitValue? (c : Char) : Option Nat :=
  let n := c.toNat
  if n < 128 then (if 48 ≤ n ∧ n ≤ 57 then some (n - 48) else none)
  else (digitZeros.find? fun first => first ≤ n && n ≤ first + 9).map (n - ·)

/-- A decimal digit of any script. -/
def isDigit (c : Char) : Bool := (digitValue? c).isSome

/-- A letter, digit or numeral of any script, or the low line. -/
def isWord (c : Char) : Bool :=
  if c.toNat < 128 then c.isAlphanum || c == '_' else inRanges wordRanges c.toNat

/-- A letter, digit or numeral of any script. -/
def isAlphanumeric (c : Char) : Bool := c != '_' && isWord c

/-- A character that is shown as itself in quoted text: no control, no separator but the space, no
unassigned code point. -/
def isPrintable (c : Char) : Bool :=
  let n := c.toNat
  if n < 128 then 32 ≤ n && n != 127 else !inRanges unprintableRanges n

/-- A decimal digit of ASCII. -/
def isAsciiDigit (c : Char) : Bool := '0' ≤ c && c ≤ '9'

/-- A space or a tab. -/
def isGap (c : Char) : Bool := c == ' ' || c == '\t'

end CodeReview.Text
