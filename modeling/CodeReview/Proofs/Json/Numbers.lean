import CodeReview.Json.Reader
import CodeReview.Number.Decimal
import CodeReview.Proofs.Number.Floats
import CodeReview.Proofs.Number.Shortest
import Mathlib.Data.List.TakeDrop
import Mathlib.Data.List.TakeWhile

/-!
# Written numbers

A number is read up to its end, whatever stands behind it that a number does not go on in (`Ends`).

* `readNumber?_printed`: the digits of a whole number are read as this number.
* `readNumber?_numeral`: so are digits with a point or an exponent part, as the number nearest to
  what they stand for.
* `readNumber?_text`: the text of a finite floating-point number is read as this number, bit by bit,
  the sign of a zero included.
-/

namespace CodeReview.Json

open Number Text

/-! ## Runs of digits -/

/-- What digits do not go on in. -/
def Stops (rest : List Char) : Prop := ∀ c ∈ rest.head?, isAsciiDigit c = false

/-- What a number does not go on in. -/
def Ends (rest : List Char) : Prop :=
  ∀ c ∈ rest.head?, isAsciiDigit c = false ∧ c ≠ '.' ∧ c ≠ 'e' ∧ c ≠ 'E'

theorem stops_cons {c : Char} (h : isAsciiDigit c = false) (rest : List Char) : Stops (c :: rest) := by
  rintro _ ⟨⟩
  exact h

theorem ends_nil : Ends [] := nofun

theorem ends_cons {c : Char} (h : isAsciiDigit c = false ∧ c ≠ '.' ∧ c ≠ 'e' ∧ c ≠ 'E')
    (rest : List Char) : Ends (c :: rest) := by
  rintro _ ⟨⟩
  exact h

theorem Ends.stops {rest : List Char} (h : Ends rest) : Stops rest := fun c hc => (h c hc).1

/-- What digits are worth. -/
def digitValues (ds : List Char) : List Nat := ds.map (·.toNat - 48)

theorem spanDigits_append {ds rest : List Char} (hds : ∀ c ∈ ds, isAsciiDigit c = true)
    (hrest : Stops rest) : spanDigits (ds ++ rest) = (digitValues ds, rest) := by
  have hstop : rest.takeWhile isAsciiDigit = [] ∧ rest.dropWhile isAsciiDigit = rest := by
    cases rest with
    | nil => exact ⟨rfl, rfl⟩
    | cons c rest => simp [hrest c rfl]
  rw [spanDigits, List.span_eq_takeWhile_dropWhile, List.takeWhile_append_of_pos hds,
    List.dropWhile_append_of_pos hds, hstop.1, hstop.2, List.append_nil, digitValues]

/-- Only zero has a zero in front. -/
theorem toDigits_ne_zero_cons {n : Nat} (h : n ≠ 0) (cs : List Char) : Nat.toDigits 10 n ≠ '0' :: cs := by
  induction n using Nat.strongRecOn generalizing cs with
  | ind n ih =>
    rw [Nat.toDigits_eq_if (by decide)]
    split
    · next hlt =>
      have hall : ∀ n < 10, n ≠ 0 → Nat.digitChar n ≠ '0' := by decide
      exact fun heq => hall n hlt h (List.cons.inj heq).1
    · next hge =>
      intro heq
      have hquot : n / 10 ≠ 0 := by omega
      obtain ⟨d, ds, hds⟩ := List.exists_cons_of_ne_nil (@Nat.toDigits_ne_nil (n / 10) 10)
      rw [hds] at heq
      exact ih (n / 10) (by omega) hquot ds (by rw [hds, (List.cons.inj heq).1])

/-! ## Up to the point -/

/-- Digits with no zero in front of others. -/
structure IsWhole (ds : List Char) : Prop where
  ne_nil : ds ≠ []
  isDigit : ∀ d ∈ ds, isAsciiDigit d = true
  zero : ∀ more, ds = '0' :: more → more = []

theorem isWhole_zero : IsWhole ['0'] :=
  ⟨List.cons_ne_nil _ _, by decide, fun _ h => (List.cons.inj h).2.symm⟩

/-- Digits that start as those of a number other than zero do. -/
theorem isWhole_of_head {n : Nat} (hn : n ≠ 0) {ds : List Char}
    (hhead : ds.head? = (Nat.toDigits 10 n).head?)
    (hdigits : ∀ d ∈ ds, isAsciiDigit d = true) : IsWhole ds := by
  obtain ⟨first, others, hfirst⟩ := List.exists_cons_of_ne_nil (@Nat.toDigits_ne_nil n 10)
  rw [hfirst, List.head?_cons] at hhead
  refine ⟨fun hnil => ?_, hdigits, fun more hmore => ?_⟩
  · rw [hnil] at hhead
    exact nomatch hhead
  · rw [hmore, List.head?_cons, Option.some.injEq] at hhead
    exact absurd (hhead ▸ hfirst) (toDigits_ne_zero_cons hn others)

theorem isWhole_toDigits (n : Nat) : IsWhole (Nat.toDigits 10 n) := by
  by_cases hn : n = 0
  · subst hn
    exact isWhole_zero
  · exact isWhole_of_head hn rfl fun d hd => isAsciiDigit_of_mem_toDigits hd

/-- What is read when the digits up to the point are. -/
def readTail? (negative : Bool) (whole : List Nat) (rest : List Char) : Option (Json × List Char) :=
  let places := readPlaces? rest
  let afterPlaces := (places.map (·.2)).getD rest
  let power := readPower? afterPlaces
  match places, power with
  | none, none =>
    match wholeOf whole with
    | .ok n => some (int (if negative then -(n : Int) else n), rest)
    | .error _ => none
  | _, _ =>
    let written : Written := ⟨whole, (places.map (·.1)).getD [], (power.map (·.1)).getD 0⟩
    some (float (written.value negative), (power.map (·.2)).getD afterPlaces)

/-- The digits are read up to the last one, be there a sign in front or not. -/
theorem readNumber?_eq (negative : Bool) {whole rest : List Char}
    (hwhole : IsWhole whole) (hrest : Stops rest) :
    readNumber? ((if negative then ['-'] else []) ++ whole ++ rest) =
      readTail? negative (digitValues whole) rest := by
  obtain ⟨d, ds, rfl⟩ := List.exists_cons_of_ne_nil hwhole.ne_nil
  have hd : isAsciiDigit d = true := hwhole.isDigit d List.mem_cons_self
  have hsign : d ≠ '-' := by
    rintro rfl
    exact absurd hd (by decide)
  unfold readNumber?
  split
  next negative' body hsplit =>
  obtain ⟨rfl, rfl⟩ : negative' = negative ∧ body = d :: ds ++ rest := by
    cases negative with
    | true => exact Prod.mk.inj hsplit.symm
    | false =>
      split at hsplit
      · next heq => exact absurd (List.cons.inj heq).1 hsign
      · exact Prod.mk.inj hsplit.symm
  extract_lets tail
  have htail (digits : List Nat) : tail (digits, rest) = readTail? negative' digits rest := rfl
  clear_value tail
  -- zero is read as a digit alone, and any other number has none in front
  split
  · next cs heq =>
    obtain ⟨rfl, hcs⟩ := List.cons.inj heq
    obtain rfl := hwhole.zero ds rfl
    rw [← hcs]
    exact htail [0]
  · rw [spanDigits_append hwhole.isDigit hrest]
    exact htail _

/-! ## Whole numbers -/

theorem readPlaces?_of_ends {rest : List Char} (h : Ends rest) : readPlaces? rest = none := by
  unfold readPlaces?
  split
  · exact absurd rfl (h '.' rfl).2.1
  · rfl

theorem readPower?_of_ends {rest : List Char} (h : Ends rest) : readPower? rest = none := by
  unfold readPower?
  split
  · next c cs =>
    obtain ⟨-, -, he, hE⟩ := h c rfl
    rw [if_neg (by simp [he, hE])]
  · rfl

theorem toList_toString (n : Int) : (toString n).toList =
    (if decide (n < 0) then ['-'] else []) ++ Nat.toDigits 10 n.natAbs := by
  cases n with
  | ofNat n => simp [toString, Int.repr, Nat.toList_repr]
  | negSucc n => simp [toString, Int.repr, Nat.toList_repr]

/-- A printed whole number is read up to its last digit. -/
theorem readNumber?_printed {n : Int} (hlength : (Nat.toDigits 10 n.natAbs).length ≤ digitLimit)
    {rest : List Char} (hrest : Ends rest) :
    readNumber? ((toString n).toList ++ rest) = some (int n, rest) := by
  have hwhole : wholeOf (digitValues (Nat.toDigits 10 n.natAbs)) = .ok n.natAbs := by
    rw [wholeOf, digitValues, List.length_map, if_neg (Nat.not_lt.2 hlength), ofDigits_toDigits]
  rw [toList_toString, readNumber?_eq _ (isWhole_toDigits _) hrest.stops, readTail?]
  simp only [readPlaces?_of_ends hrest, Option.map_none, Option.getD_none, readPower?_of_ends hrest, hwhole,
    decide_eq_true_eq]
  congr 3
  omega

/-! ## Numbers with a point or an exponent part -/

/-- A number in writing, without its sign. -/
structure Numeral where
  whole : List Char
  places : List Char
  /-- The digits of the exponent part, if there is one, and whether there is a minus in front. -/
  power : Option (Bool × List Char)
  isWhole : IsWhole whole
  isDigit_places : ∀ d ∈ places, isAsciiDigit d = true
  isDigit_power : ∀ digits ∈ power, digits.2 ≠ [] ∧ ∀ d ∈ digits.2, isAsciiDigit d = true

namespace Numeral

def placesChars (numeral : Numeral) : List Char :=
  if numeral.places.isEmpty then [] else '.' :: numeral.places

def powerChars (numeral : Numeral) : List Char :=
  match numeral.power with
  | none => []
  | some (negative, digits) => 'e' :: (if negative then '-' else '+') :: digits

def chars (numeral : Numeral) : List Char := numeral.whole ++ (numeral.placesChars ++ numeral.powerChars)

/-- What the exponent part stands for. -/
def exponent (numeral : Numeral) : Int :=
  match numeral.power with
  | none => 0
  | some (negative, digits) =>
    if negative then -(ofDigits (digitValues digits) : Int) else ofDigits (digitValues digits)

/-- What the numeral says. -/
def written (numeral : Numeral) : Written :=
  ⟨digitValues numeral.whole, digitValues numeral.places, numeral.exponent⟩

/-- Whether the numeral is more than a whole number. -/
def IsFractional (numeral : Numeral) : Prop := numeral.places ≠ [] ∨ numeral.power ≠ none

variable {numeral : Numeral} {rest : List Char}

theorem readPower?_chars (hrest : Ends rest) :
    readPower? (numeral.powerChars ++ rest) = numeral.power.map fun _ => (numeral.exponent, rest) := by
  rw [powerChars]
  cases hpower : numeral.power with
  | none => exact readPower?_of_ends hrest
  | some power =>
    obtain ⟨negative, digits⟩ := power
    obtain ⟨hne, hdigits⟩ := numeral.isDigit_power _ hpower
    have hsign : splitSign ((if negative then '-' else '+') :: (digits ++ rest)) = (negative, digits ++ rest) := by
      cases negative <;> rfl
    have hvalues : digitValues digits ≠ [] := mt List.map_eq_nil_iff.1 hne
    have hexponent : numeral.exponent =
        if negative then -(ofDigits (digitValues digits) : Int) else ofDigits (digitValues digits) := by
      rw [exponent, hpower]
    rw [hexponent]
    generalize hds : digitValues digits = ds at hvalues
    simp only [List.cons_append, readPower?, beq_self_eq_true, Bool.true_or, if_true, hsign,
      spanDigits_append hdigits hrest.stops, hds]
    cases ds with
    | nil => exact absurd rfl hvalues
    | cons d ds => rfl

/-- Behind the places stands no digit, and where there are none no point either. -/
theorem readPlaces?_chars (hrest : Ends rest) :
    readPlaces? (numeral.placesChars ++ (numeral.powerChars ++ rest)) =
      if numeral.places = [] then none else some (digitValues numeral.places, numeral.powerChars ++ rest) := by
  have hstops : Stops (numeral.powerChars ++ rest) ∧ (numeral.powerChars ++ rest).head? ≠ some '.' := by
    rw [powerChars]
    split
    · exact ⟨hrest.stops, fun h => (hrest '.' h).2.1 rfl⟩
    · exact ⟨stops_cons (by decide) _, by simp⟩
  rw [placesChars]
  split
  · next hplaces =>
    have hnil : numeral.places = [] := List.isEmpty_iff.1 hplaces
    rw [if_pos hnil, List.nil_append]
    unfold readPlaces?
    split
    · next heq => exact absurd (congrArg List.head? heq) hstops.2
    · rfl
  · next hplaces =>
    have hne : numeral.places ≠ [] := mt List.isEmpty_iff.2 hplaces
    rw [if_neg hne, List.cons_append, readPlaces?, spanDigits_append numeral.isDigit_places hstops.1]
    split
    · next heq => exact absurd (List.map_eq_nil_iff.1 (Prod.mk.inj heq).1) hne
    · rfl

/-- A numeral is read as the number nearest to what it says. -/
theorem readNumber?_numeral (negative : Bool) (hfractional : numeral.IsFractional) (hrest : Ends rest) :
    readNumber? ((if negative then ['-'] else []) ++ numeral.chars ++ rest) =
      some (float (numeral.written.value negative), rest) := by
  have hstops : Stops (numeral.placesChars ++ (numeral.powerChars ++ rest)) := by
    rw [placesChars, powerChars]
    split
    · split
      · exact hrest.stops
      · exact stops_cons (by decide) _
    · exact stops_cons (by decide) _
  rw [chars, List.append_assoc, List.append_assoc, List.append_assoc, ← List.append_assoc,
    readNumber?_eq negative numeral.isWhole hstops, readTail?]
  simp only [readPlaces?_chars hrest]
  by_cases hplaces : numeral.places = []
  · obtain ⟨power, hpower⟩ := Option.ne_none_iff_exists'.1 (hfractional.resolve_left (not_not.2 hplaces))
    have hchars : numeral.placesChars = [] := by rw [placesChars, hplaces]; rfl
    simp only [hplaces, if_true, Option.map_none, Option.getD_none, hchars,
      List.nil_append, readPower?_chars hrest,
      hpower, Option.map_some, Option.getD_some, written]
    rfl
  · simp only [hplaces, if_false, Option.map_some, Option.getD_some, readPower?_chars hrest, written]
    cases hpower : numeral.power with
    | none =>
      have hpowerChars : numeral.powerChars = [] := by rw [powerChars, hpower]
      have hexponent : numeral.exponent = 0 := by rw [exponent, hpower]
      rw [hpowerChars, hexponent]
      rfl
    | some power => rfl

theorem newline_notMem_chars (numeral : Numeral) : '\n' ∉ numeral.chars := by
  have hdigits {ds : List Char} (h : ∀ d ∈ ds, isAsciiDigit d = true) : '\n' ∉ ds := fun hmem =>
    absurd (h '\n' hmem) (by decide)
  rw [chars, placesChars, powerChars, List.mem_append, List.mem_append]
  refine not_or.2 ⟨hdigits numeral.isWhole.isDigit, not_or.2 ⟨?_, ?_⟩⟩
  · split
    · exact List.not_mem_nil
    · simp [hdigits numeral.isDigit_places]
  · split
    · exact List.not_mem_nil
    · next negative digits hpower =>
      have hpowerDigits := hdigits (numeral.isDigit_power _ hpower).2
      cases negative <;> simp [hpowerDigits]

end Numeral

/-! ## The text of a number -/

theorem isAsciiDigit_zeros (n : Nat) : ∀ d ∈ List.replicate n '0', isAsciiDigit d = true := fun d hd => by
  obtain rfl := List.eq_of_mem_replicate hd
  decide

theorem isAsciiDigit_toDigits (n : Nat) : ∀ d ∈ Nat.toDigits 10 n, isAsciiDigit d = true := fun _ hd =>
  isAsciiDigit_of_mem_toDigits hd

theorem digitValues_replicate (n : Nat) : digitValues (List.replicate n '0') = List.replicate n 0 := by
  rw [digitValues, List.map_replicate]
  rfl

/-- Zeros in front of digits count for nothing. -/
theorem ofDigits_zeros_append (n : Nat) (ds : List Char) :
    ofDigits (digitValues (List.replicate n '0' ++ ds)) = ofDigits (digitValues ds) := by
  rw [digitValues, List.map_append, ← digitValues, digitValues_replicate,
    ofDigits_append, ofDigits_replicate_zero,
    Nat.zero_mul, Nat.zero_add, digitValues]

/-- Zeros behind digits are factors of ten. -/
theorem ofDigits_append_zeros (n : Nat) (ds : List Char) :
    ofDigits (digitValues (ds ++ List.replicate n '0')) = ofDigits (digitValues ds) * 10 ^ n := by
  rw [digitValues, List.map_append, ← digitValues, ← digitValues, digitValues_replicate, ofDigits_append,
    ofDigits_replicate_zero, List.length_replicate, Nat.add_zero]

/-- A numeral that is more than a whole number and says what a decimal does. -/
structure Spells (numeral : Numeral) (decimal : Binary64.Decimal) : Prop where
  isFractional : numeral.IsFractional
  value_eq : (ofDigits (digitValues (numeral.whole ++ numeral.places)) : ℚ) *
    10 ^ (numeral.exponent - numeral.places.length) = decimal.value

section Layout

variable {decimal : Binary64.Decimal} {lead : Int}
  (hlead : lead = decimal.exponent + (Nat.toDigits 10 decimal.digits).length - 1)

include hlead

/-- A number below one has a zero in front of the point and further ones behind it. -/
theorem positional_of_neg (h : lead < 0) :
    ∃ numeral : Numeral, numeral.chars = DecimalLayout.positional (Nat.toDigits 10 decimal.digits) lead ∧
      Spells numeral decimal := by
  set places := List.replicate (-lead - 1).toNat '0' ++ Nat.toDigits 10 decimal.digits with hplaces
  have hdigits : ∀ d ∈ places, isAsciiDigit d = true :=
    List.forall_mem_append.2 ⟨isAsciiDigit_zeros _, isAsciiDigit_toDigits _⟩
  have hne : places ≠ [] := List.append_ne_nil_of_right_ne_nil _ Nat.toDigits_ne_nil
  have hvalue : ofDigits (digitValues ('0' :: places)) = decimal.digits := by
    have hzeros := ofDigits_zeros_append ((-lead - 1).toNat + 1) (Nat.toDigits 10 decimal.digits)
    rwa [List.replicate_succ, List.cons_append, digitValues, digitValues, ofDigits_toDigits] at hzeros
  have hexponent : (0 : ℤ) - places.length = decimal.exponent := by
    rw [hplaces, List.length_append, List.length_replicate]
    omega
  refine ⟨⟨['0'], places, none, isWhole_zero, hdigits, nofun⟩, ?_, .inl hne, ?_⟩
  · rw [DecimalLayout.positional, if_pos h, Numeral.chars, Numeral.placesChars,
      if_neg (mt List.isEmpty_iff.1 hne)]
    simp [Numeral.powerChars, hplaces]
  · exact congrArg₂ (fun (n : ℕ) (e : ℤ) => (n : ℚ) * 10 ^ e) hvalue hexponent

/-- The point stands between two digits. -/
theorem positional_of_lt_length (hne : decimal.digits ≠ 0) (h : 0 ≤ lead)
    (hlength : lead.toNat + 1 < (Nat.toDigits 10 decimal.digits).length) :
    ∃ numeral : Numeral, numeral.chars = DecimalLayout.positional (Nat.toDigits 10 decimal.digits) lead ∧
      Spells numeral decimal := by
  set ds := Nat.toDigits 10 decimal.digits with hds
  have hdigits : ∀ d ∈ ds, isAsciiDigit d = true := isAsciiDigit_toDigits _
  have hvalue : ofDigits (digitValues ds) = decimal.digits := ofDigits_toDigits _
  have htake : (ds.take (lead.toNat + 1)).length = lead.toNat + 1 := List.length_take_of_le hlength.le
  have hwhole : IsWhole (ds.take (lead.toNat + 1)) := by
    refine isWhole_of_head hne ?_ fun d hd => hdigits d (List.mem_of_mem_take hd)
    rw [List.head?_take, if_neg (Nat.succ_ne_zero _)]
  have hplaces : ds.drop (lead.toNat + 1) ≠ [] := by
    refine List.ne_nil_of_length_pos ?_
    rw [List.length_drop]
    omega
  have hexponent : (0 : ℤ) - (ds.drop (lead.toNat + 1)).length = decimal.exponent := by
    rw [List.length_drop]
    omega
  refine ⟨⟨_, _, none, hwhole, fun d hd => hdigits d (List.mem_of_mem_drop hd), nofun⟩, ?_, .inl hplaces, ?_⟩
  · rw [DecimalLayout.positional, if_neg (not_lt.2 h)]
    simp [Numeral.chars, Numeral.placesChars, Numeral.powerChars, hplaces, htake]
  · dsimp only
    rw [List.take_append_drop]
    exact congrArg₂ (fun (n : ℕ) (e : ℤ) => (n : ℚ) * 10 ^ e) hvalue hexponent

/-- Zeros stand behind the digits up to the point, and one behind it. -/
theorem positional_of_length_le (hne : decimal.digits ≠ 0) (h : 0 ≤ lead)
    (hlength : (Nat.toDigits 10 decimal.digits).length ≤ lead.toNat + 1) :
    ∃ numeral : Numeral, numeral.chars = DecimalLayout.positional (Nat.toDigits 10 decimal.digits) lead ∧
      Spells numeral decimal := by
  set ds := Nat.toDigits 10 decimal.digits with hds
  set zeros := lead.toNat + 1 - ds.length with hzeros
  have hnil : ds ≠ [] := Nat.toDigits_ne_nil
  have hvalue : ofDigits (digitValues ds) = decimal.digits := ofDigits_toDigits _
  have hexponent : (zeros : ℤ) = decimal.exponent := by
    have hpos := List.length_pos_of_ne_nil hnil
    omega
  have hwhole : IsWhole (ds ++ List.replicate zeros '0') := by
    refine isWhole_of_head hne ?_ (List.forall_mem_append.2 ⟨isAsciiDigit_toDigits _, isAsciiDigit_zeros _⟩)
    rw [List.head?_append_of_ne_nil _ hnil]
  refine ⟨⟨_, ['0'], none, hwhole, by decide, nofun⟩, ?_, .inl (List.cons_ne_nil _ _), ?_⟩
  · rw [DecimalLayout.positional, if_neg (not_lt.2 h), List.take_of_length_le hlength,
      List.drop_of_length_le hlength]
    simp [Numeral.chars, Numeral.placesChars, Numeral.powerChars, hzeros]
  · dsimp only
    rw [List.append_assoc, ← List.replicate_succ', ofDigits_append_zeros, hvalue,
      Binary64.Decimal.value, ← hexponent,
      zpow_natCast]
    -- the zero behind the point is one digit more, and one place
    change _ * (10 : ℚ) ^ ((0 : ℤ) - 1) = _
    push_cast
    rw [pow_succ, zpow_neg_one, mul_assoc, mul_assoc, mul_inv_cancel₀ (by norm_num), mul_one]

/-- A number with an exponent part has its first digit in front of the point. -/
theorem scientific_spells (layout : DecimalLayout) :
    ∃ numeral : Numeral, numeral.chars = layout.scientific (Nat.toDigits 10 decimal.digits) lead ∧
      Spells numeral decimal := by
  obtain ⟨d, ds, hds⟩ := List.exists_cons_of_ne_nil (@Nat.toDigits_ne_nil decimal.digits 10)
  have hdigits : ∀ c ∈ d :: ds, isAsciiDigit c = true := hds ▸ isAsciiDigit_toDigits _
  have hvalue : ofDigits (digitValues (d :: ds)) = decimal.digits := hds ▸ ofDigits_toDigits _
  obtain ⟨hd, hplaces⟩ := List.forall_mem_cons.1 hdigits
  rw [hds, List.length_cons] at hlead
  rw [hds]
  have hwhole : IsWhole [d] :=
    ⟨List.cons_ne_nil _ _, List.forall_mem_singleton.2 hd, fun _ hmore => (List.cons.inj hmore).2.symm⟩
  set power := DecimalLayout.padded layout.exponentDigits (Nat.toDigits 10 lead.natAbs) with hpower
  have hpowerValue : ofDigits (digitValues power) = lead.natAbs := by
    rw [hpower, DecimalLayout.padded, ofDigits_zeros_append, digitValues, ofDigits_toDigits]
  have hpowerDigits : power ≠ [] ∧ ∀ c ∈ power, isAsciiDigit c = true :=
    ⟨List.append_ne_nil_of_right_ne_nil _ Nat.toDigits_ne_nil,
      List.forall_mem_append.2 ⟨isAsciiDigit_zeros _, isAsciiDigit_toDigits _⟩⟩
  have hexponent : (if decide (lead < 0) then -(lead.natAbs : ℤ) else lead.natAbs) - ds.length =
      decimal.exponent := by
    simp only [decide_eq_true_eq]
    split <;> omega
  refine ⟨⟨[d], ds, some (decide (lead < 0), power), hwhole, hplaces, ?_⟩, ?_,
    .inr (Option.some_ne_none _), ?_⟩
  · rintro _ ⟨⟩
    exact hpowerDigits
  · rw [DecimalLayout.scientific, Numeral.chars, Numeral.placesChars, Numeral.powerChars]
    cases ds <;> simp [hpower]
  · rw [Numeral.exponent]
    dsimp only
    rw [List.singleton_append, hvalue, hpowerValue, hexponent, Binary64.Decimal.value]

end Layout

/-- The sign of a text, as the sign bit has it. -/
theorem toList_sign_append (negative : Bool) (cs : List Char) :
    ((if negative then "-" else "") ++ String.ofList cs).toList = (if negative then ['-'] else []) ++ cs := by
  rw [String.toList_append, String.toList_ofList]
  cases negative <;> rfl

theorem zero_spells : ∃ numeral : Numeral, numeral.chars = ['0', '.', '0'] ∧ numeral.IsFractional ∧
    ∀ negative, numeral.written.value negative = .ofMagnitude negative 0 :=
  ⟨⟨['0'], ['0'], none, isWhole_zero, by decide, nofun⟩, rfl, .inl (List.cons_ne_nil _ _), fun _ => rfl⟩

/-- The text of a finite number is a numeral whose value is the number. -/
theorem exists_numeral {x : Binary64} (h : x.isFinite = true) :
    ∃ numeral : Numeral, numeral.IsFractional ∧ numeral.written.value x.negative = x ∧
      (DecimalLayout.document.text x).toList = (if x.negative then ['-'] else []) ++ numeral.chars := by
  have hinfinite : x.isInfinite = false := by
    rw [Binary64.isFinite, decide_eq_true_eq] at h
    rw [Binary64.isInfinite, beq_eq_false_iff_ne.2 (Nat.ne_of_lt h), Bool.false_and]
  rw [DecimalLayout.text, if_neg (by simp [Binary64.isNaN_of_isFinite h]), if_neg (by simp [hinfinite])]
  split
  · next hzero =>
    obtain ⟨numeral, hchars, hfractional, hvalue⟩ := zero_spells
    refine ⟨numeral, hfractional, ?_, ?_⟩
    · rw [hvalue, ← beq_iff_eq.1 hzero, Binary64.ofMagnitude_magnitude]
    · rw [hchars]
      exact toList_sign_append x.negative ['0', '.', '0']
  · next hzero =>
    have hmantissa : 0 < x.mantissa := Nat.pos_of_ne_zero (mt Binary64.isZero_iff.2 hzero)
    have haround := Binary64.around_shortest hmantissa
    have hdigits : x.shortest.digits ≠ 0 := fun hnone => by
      have hpositive := (haround.bounds hmantissa h).1
      rw [Binary64.Decimal.value, hnone, Nat.cast_zero, zero_mul] at hpositive
      exact absurd hpositive (not_lt.2 (by positivity))
    rw [toList_sign_append]
    generalize hlead : x.shortest.exponent + (Nat.toDigits 10 x.shortest.digits).length - 1 = lead
    obtain ⟨numeral, hchars, hspells⟩ : ∃ numeral : Numeral, numeral.chars =
        (if DecimalLayout.document.positionalFrom ≤ lead && lead < DecimalLayout.document.positionalBelow then
          DecimalLayout.positional (Nat.toDigits 10 x.shortest.digits) lead
        else DecimalLayout.document.scientific (Nat.toDigits 10 x.shortest.digits) lead) ∧
        Spells numeral x.shortest := by
      split
      · obtain hneg | hnonneg := Int.lt_or_le lead 0
        · exact positional_of_neg hlead.symm hneg
        · obtain hlong | hshort := Nat.lt_or_ge (lead.toNat + 1) (Nat.toDigits 10 x.shortest.digits).length
          · exact positional_of_lt_length hlead.symm hdigits hnonneg hlong
          · exact positional_of_length_le hlead.symm hdigits hnonneg hshort
      · exact scientific_spells hlead.symm _
    refine ⟨numeral, hspells.isFractional, ?_, congrArg _ hchars.symm⟩
    rw [Numeral.written, Written.value, digitValues, digitValues,
      ← List.map_append, ← digitValues, List.length_map]
    rw [← hspells.value_eq] at haround
    rw [Binary64.ofDecimal_eq_of_around hmantissa h haround, Binary64.ofMagnitude_magnitude]

/-- The text of a finite number is read as this number. -/
theorem readNumber?_text {x : Binary64} (h : x.isFinite = true) {rest : List Char} (hrest : Ends rest) :
    readNumber? ((DecimalLayout.document.text x).toList ++ rest) = some (float x, rest) := by
  obtain ⟨numeral, hfractional, hvalue, htext⟩ := exists_numeral h
  rw [htext, Numeral.readNumber?_numeral x.negative hfractional hrest, hvalue]

end CodeReview.Json
