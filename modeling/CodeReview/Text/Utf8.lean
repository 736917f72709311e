import CodeReview.Text.Basic

/-!
# Text in files

UTF-8, read so that every byte sequence is a text: each maximal part that starts a character
without finishing it, and each byte that starts none, reads as one replacement character. A byte
order mark is a character like any other. Where only a text will do, `decode?` reads the bytes of
texts and nothing else.
-/

namespace CodeReview.Text.Utf8

/-- The bytes of a text. -/
def encode (cs : List Char) : List UInt8 := cs.flatMap String.utf8EncodeChar

/-- What a lead byte announces: the number of further bytes, the range of the first of them, and
the bits it contributes itself. -/
structure Lead where
  more : Nat
  low : Nat
  high : Nat
  bits : Nat

/-- The lead bytes; surrogates, overlong forms and code points past the last are excluded by the
range of the byte that follows. -/
def lead? (b : Nat) : Option Lead :=
  if b < 0x80 then some ⟨0, 0, 0, b⟩
  else if b < 0xC2 then none
  else if b < 0xE0 then some ⟨1, 0x80, 0xBF, b - 0xC0⟩
  else if b < 0xF0 then
    some ⟨2, if b = 0xE0 then 0xA0 else 0x80, if b = 0xED then 0x9F else 0xBF, b - 0xE0⟩
  else if b < 0xF5 then
    some ⟨3, if b = 0xF0 then 0x90 else 0x80, if b = 0xF4 then 0x8F else 0xBF, b - 0xF0⟩
  else none

/-- Reads `more` continuation bytes onto `bits`, the first of them between `low` and `high`. The
rest starts at the first byte that does not fit. -/
def tail (more low high bits : Nat) : List UInt8 → Option Nat × List UInt8
  | [] => (if more = 0 then some bits else none, [])
  | b :: bs =>
    match more with
    | 0 => (some bits, b :: bs)
    | more + 1 =>
      if low ≤ b.toNat && b.toNat ≤ high then tail more 0x80 0xBF (bits * 64 + (b.toNat - 0x80)) bs
      else (none, b :: bs)

theorem length_tail (more low high bits : Nat) (bs : List UInt8) :
    (tail more low high bits bs).2.length ≤ bs.length := by
  induction bs generalizing more low high bits with
  | nil => simp [tail]
  | cons b bs ih =>
    cases more with
    | zero => simp [tail]
    | succ more =>
      simp only [tail]
      split
      · exact Nat.le_succ_of_le (ih ..)
      · simp

/-- The replacement character. -/
def replacement : Char := '\uFFFD'

/-- The text of a byte sequence after the characters `read`, which are in reverse. -/
def decodeOnto (read : List Char) : List UInt8 → List Char
  | [] => read.reverse
  | b :: bs =>
    match lead? b.toNat with
    | none => decodeOnto (replacement :: read) bs
    | some lead =>
      let next := tail lead.more lead.low lead.high lead.bits bs
      decodeOnto ((match next.1 with | some n => Char.ofNat n | none => replacement) :: read) next.2
termination_by bs => bs.length
decreasing_by
  · simp
  · have := length_tail lead.more lead.low lead.high lead.bits bs
    simp only [List.length_cons]
    omega

/-- The text of a byte sequence. -/
def decode (bs : List UInt8) : List Char := decodeOnto [] bs

/-- The text whose bytes these are, if they are the bytes of one. -/
def decode? (bs : List UInt8) : Option (List Char) :=
  if encode (decode bs) == bs then some (decode bs) else none

/-- Line feeds for every way to end a line that contains a carriage return. -/
def unifyLineEnds (cs : List Char) : List Char :=
  (Chars.dropPairedReturns cs).map fun c => if c == '\r' then '\n' else c

end CodeReview.Text.Utf8
