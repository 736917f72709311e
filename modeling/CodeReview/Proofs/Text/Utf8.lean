import CodeReview.Text.Utf8

/-!
# Text that is written and read

The bytes of a text are read as that text (`decode_encode`), and where only a text will do nothing else is
read (`decode?_eq_some_iff`).

Every character is taken on its own: whatever is read before it and behind it, its bytes are read as
the character (`decodeOnto_encodeChar`). Its first byte says how many there are and how the second of
them is limited, and the limits leave out no character.
-/

namespace CodeReview.Text.Utf8

section Bytes

variable {n more low high bits : Nat} {read : List Char} {bs rest : List UInt8}

theorem tail_zero (low high bits : Nat) (bs : List UInt8) : tail 0 low high bits bs = (some bits, bs) := by
  cases bs <;> rfl

theorem tail_cons {b : Nat} (hb : b < 256) (hlow : low ≤ b) (hhigh : b ≤ high) :
    tail (more + 1) low high bits (UInt8.ofNat b :: bs) =
      tail more 0x80 0xBF (bits * 64 + (b - 0x80)) bs := by
  rw [tail, UInt8.toNat_ofNat_of_lt' hb, if_pos (by simp [hlow, hhigh])]

/-- A lead byte and the bytes that it asks for are read as a character. -/
theorem decodeOnto_of_lead {b : Nat} (hb : b < 256) (hlead : lead? b = some ⟨more, low, high, bits⟩)
    (htail : tail more low high bits (bs ++ rest) = (some n, rest)) :
    decodeOnto read (UInt8.ofNat b :: bs ++ rest) = decodeOnto (Char.ofNat n :: read) rest := by
  rw [List.cons_append, decodeOnto, UInt8.toNat_ofNat_of_lt' hb, hlead]
  dsimp only
  rw [htail]

/-! ## Characters of one to four bytes -/

theorem decodeOnto_one (h : n ≤ 0x7F) :
    decodeOnto read ([UInt8.ofNat n] ++ rest) = decodeOnto (Char.ofNat n :: read) rest := by
  have hlead : lead? n = some ⟨0, 0, 0, n⟩ := by
    rw [lead?, if_pos (by omega)]
  exact @decodeOnto_of_lead n 0 0 0 n read [] rest n (by omega) hlead (tail_zero ..)

theorem decodeOnto_two (hlow : 0x7F < n) (hhigh : n ≤ 0x7FF) :
    decodeOnto read ([UInt8.ofNat (n / 64 % 32 + 192), UInt8.ofNat (n % 64 + 128)] ++ rest) =
      decodeOnto (Char.ofNat n :: read) rest := by
  have hlead : lead? (n / 64 % 32 + 192) = some ⟨1, 0x80, 0xBF, n / 64 % 32⟩ := by
    rw [lead?, if_neg (by omega), if_neg (by omega), if_pos (by omega), Nat.add_sub_cancel]
  refine decodeOnto_of_lead (by omega) hlead ?_
  rw [List.singleton_append, tail_cons (by omega) (by omega) (by omega), tail_zero]
  exact congrArg (some · , rest) (by omega)

theorem decodeOnto_three (hlow : 0x7FF < n) (hhigh : n ≤ 0xFFFF) (hvalid : n < 0xD800 ∨ 0xDFFF < n) :
    decodeOnto read ([UInt8.ofNat (n / 4096 % 16 + 224), UInt8.ofNat (n / 64 % 64 + 128),
      UInt8.ofNat (n % 64 + 128)] ++ rest) = decodeOnto (Char.ofNat n :: read) rest := by
  have hlead : lead? (n / 4096 % 16 + 224) = some ⟨2, if n / 4096 % 16 + 224 = 0xE0 then 0xA0 else 0x80,
      if n / 4096 % 16 + 224 = 0xED then 0x9F else 0xBF, n / 4096 % 16⟩ := by
    rw [lead?, if_neg (by omega), if_neg (by omega), if_neg (by omega), if_pos (by omega),
      Nat.add_sub_cancel]
  refine decodeOnto_of_lead (by omega) hlead ?_
  rw [List.cons_append, List.singleton_append, tail_cons (by omega) (by split <;> omega)
    (by split <;> omega), tail_cons (by omega) (by omega) (by omega), tail_zero]
  exact congrArg (some · , rest) (by omega)

theorem decodeOnto_four (hlow : 0xFFFF < n) (hhigh : n < 0x110000) :
    decodeOnto read ([UInt8.ofNat (n / 262144 % 8 + 240), UInt8.ofNat (n / 4096 % 64 + 128),
      UInt8.ofNat (n / 64 % 64 + 128), UInt8.ofNat (n % 64 + 128)] ++ rest) =
      decodeOnto (Char.ofNat n :: read) rest := by
  have hlead : lead? (n / 262144 % 8 + 240) = some ⟨3, if n / 262144 % 8 + 240 = 0xF0 then 0x90 else 0x80,
      if n / 262144 % 8 + 240 = 0xF4 then 0x8F else 0xBF, n / 262144 % 8⟩ := by
    rw [lead?, if_neg (by omega), if_neg (by omega), if_neg (by omega), if_neg (by omega),
      if_pos (by omega), Nat.add_sub_cancel]
  refine decodeOnto_of_lead (by omega) hlead ?_
  rw [List.cons_append, List.cons_append, List.singleton_append,
    tail_cons (by omega) (by split <;> omega) (by split <;> omega),
    tail_cons (by omega) (by omega) (by omega), tail_cons (by omega) (by omega) (by omega), tail_zero]
  exact congrArg (some · , rest) (by omega)

end Bytes

/-! ## Texts -/

/-- The bytes of a character are read as the character. -/
theorem decodeOnto_encodeChar (read : List Char) (c : Char) (rest : List UInt8) :
    decodeOnto read (String.utf8EncodeChar c ++ rest) = decodeOnto (c :: read) rest := by
  have hvalid : c.val.toNat < 0xD800 ∨ 0xDFFF < c.val.toNat ∧ c.val.toNat < 0x110000 := c.valid
  have hchar : Char.ofNat c.val.toNat = c := Char.ofNat_toNat c
  rw [← congrArg (decodeOnto <| · :: read) hchar, String.utf8EncodeChar]
  split
  · exact decodeOnto_one ‹_›
  split
  · exact decodeOnto_two (by omega) ‹_›
  split
  · exact decodeOnto_three (by omega) ‹_› (by omega)
  · exact decodeOnto_four (by omega) (by omega)

/-- What is written is read. -/
theorem decode_encode (cs : List Char) : decode (encode cs) = cs := by
  have honto (read : List Char) : decodeOnto read (encode cs) = read.reverse ++ cs := by
    induction cs generalizing read with
    | nil => rw [encode, List.flatMap_nil, decodeOnto, List.append_nil]
    | cons c cs ih =>
      rw [encode, List.flatMap_cons, decodeOnto_encodeChar, ← encode, ih, List.reverse_cons,
        List.append_assoc, List.singleton_append]
  exact honto []

theorem encode_injective {cs ds : List Char} (h : encode cs = encode ds) : cs = ds := by
  rw [← decode_encode cs, h, decode_encode]

/-- Where only a text will do, the bytes of a text are read, and as that text. -/
theorem decode?_eq_some_iff {bs : List UInt8} {cs : List Char} : decode? bs = some cs ↔ bs = encode cs := by
  unfold decode?
  constructor
  · intro h
    split at h
    · next heq =>
      rw [← Option.some.inj h]
      exact (beq_iff_eq.1 heq).symm
    · exact nomatch h
  · rintro rfl
    rw [decode_encode, if_pos (beq_self_eq_true _)]

theorem decode?_encode (cs : List Char) : decode? (encode cs) = some cs := decode?_eq_some_iff.2 rfl

end CodeReview.Text.Utf8
