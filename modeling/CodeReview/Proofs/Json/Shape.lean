import CodeReview.Json.Reader
import Mathlib.Data.List.TakeDrop
import Mathlib.Data.List.TakeWhile

/-!
# The shape of JSON texts

What the characters of a JSON text look like to somebody who knows strings and braces but no values.

* `InString cs rest`: from `cs` up to `rest` stands the inside of a string. A backslash takes the
  next character along, and there are no control characters.
* `Balanced cs rest`: from `cs` up to `rest` stand strings, pairs of braces around balanced text and
  other characters; a `#` stands in strings only.

Every reader moves along balanced text (`balanced_of_readValue?` and the lemmas before it). So a text
that reads as JSON is balanced as a whole (`balanced_of_parseChars?`), and one that starts with an
opening brace and ends with a closing one is a pair of braces around balanced text
(`balanced_of_parseChars?_braces`).
-/

namespace CodeReview.Json

open Number Text

/-- From `cs` up to `rest` stands the inside of a string. -/
inductive InString : List Char → List Char → Prop
  | refl (cs : List Char) : InString cs cs
  | plain {c : Char} {cs rest : List Char} (hquote : c ≠ '"') (hback : c ≠ '\\')
      (hcontrol : 0x20 ≤ c.toNat) (h : InString cs rest) : InString (c :: cs) rest
  | escape {c : Char} {cs rest : List Char} (hcontrol : 0x20 ≤ c.toNat) (h : InString cs rest) :
      InString ('\\' :: c :: cs) rest

/-- A character that is neither a quote nor a brace nor `#`. -/
def IsNeutral (c : Char) : Prop := c ≠ '"' ∧ c ≠ '\x7b' ∧ c ≠ '\x7d' ∧ c ≠ '#'

instance (c : Char) : Decidable (IsNeutral c) := inferInstanceAs (Decidable (_ ∧ _))

/-- From `cs` up to `rest` stands balanced text. -/
inductive Balanced : List Char → List Char → Prop
  | refl (cs : List Char) : Balanced cs cs
  | neutral {c : Char} {cs rest : List Char} (hc : IsNeutral c) (h : Balanced cs rest) :
      Balanced (c :: cs) rest
  | string {cs mid rest : List Char} (hin : InString cs ('"' :: mid)) (h : Balanced mid rest) :
      Balanced ('"' :: cs) rest
  | braces {cs mid rest : List Char} (hin : Balanced cs ('\x7d' :: mid)) (h : Balanced mid rest) :
      Balanced ('\x7b' :: cs) rest

theorem Balanced.trans {as bs cs : List Char} (h : Balanced as bs) (h' : Balanced bs cs) :
    Balanced as cs := by
  induction h with
  | refl => exact h'
  | neutral hc _ ih => exact .neutral hc (ih h')
  | string hin _ ih => exact .string hin (ih h')
  | braces hin _ _ ih => exact .braces hin (ih h')

/-- What stands behind the text changes nothing. -/
theorem InString.append {cs rest : List Char} (h : InString cs rest) (after : List Char) :
    InString (cs ++ after) (rest ++ after) := by
  induction h with
  | refl => exact .refl _
  | plain hquote hback hcontrol _ ih => exact .plain hquote hback hcontrol ih
  | escape hcontrol _ ih => exact .escape hcontrol ih

theorem Balanced.append {cs rest : List Char} (h : Balanced cs rest) (after : List Char) :
    Balanced (cs ++ after) (rest ++ after) := by
  induction h with
  | refl => exact .refl _
  | neutral hc _ ih => exact .neutral hc ih
  | string hin _ ih => exact .string (hin.append after) ih
  | braces _ _ ihin ih => exact .braces ihin ih

theorem InString.isSuffix {cs rest : List Char} (h : InString cs rest) : rest <:+ cs := by
  induction h with
  | refl => exact List.suffix_rfl
  | plain _ _ _ _ ih => exact ih.trans (List.suffix_cons _ _)
  | escape _ _ ih => exact (ih.trans (List.suffix_cons _ _)).trans (List.suffix_cons _ _)

theorem Balanced.isSuffix {cs rest : List Char} (h : Balanced cs rest) : rest <:+ cs := by
  induction h with
  | refl => exact List.suffix_rfl
  | neutral _ _ ih => exact ih.trans (List.suffix_cons _ _)
  | string hin _ ih =>
    have hmid := (List.suffix_cons '"' _).trans hin.isSuffix
    exact (ih.trans hmid).trans (List.suffix_cons _ _)
  | braces _ _ ihin ih =>
    have hmid := (List.suffix_cons '\x7d' _).trans ihin
    exact (ih.trans hmid).trans (List.suffix_cons _ _)

/-! ## Runs of neutral characters -/

theorem balanced_of_neutral {used : List Char} (h : ∀ c ∈ used, IsNeutral c) (rest : List Char) :
    Balanced (used ++ rest) rest := by
  induction used with
  | nil => exact .refl _
  | cons c used ih =>
    exact .neutral (h c List.mem_cons_self) (ih fun d hd => h d (List.mem_cons_of_mem c hd))

/-- A run of characters of a neutral class. -/
theorem balanced_dropWhile {p : Char → Bool} (hp : ∀ c, p c = true → IsNeutral c)
    (cs : List Char) : Balanced cs (cs.dropWhile p) := by
  have h := @balanced_of_neutral (cs.takeWhile p) (fun c hc => hp c (List.mem_takeWhile_imp hc))
    (cs.dropWhile p)
  rwa [List.takeWhile_append_dropWhile] at h

theorem isNeutral_of_isSpace {c : Char} (h : isSpace c = true) : IsNeutral c := by
  simp only [isSpace, Bool.or_eq_true, beq_iff_eq] at h
  obtain ((rfl | rfl) | rfl) | rfl := h <;> decide

theorem balanced_skipSpace (cs : List Char) : Balanced cs (skipSpace cs) :=
  balanced_dropWhile (fun _ => isNeutral_of_isSpace) cs

/-- Text up to a neutral character that stands behind white space. -/
theorem Balanced.skip {cs rest mid : List Char} {c : Char} (h : Balanced cs rest)
    (hskip : skipSpace rest = c :: mid) (hc : IsNeutral c) : Balanced cs mid := by
  have hspace := balanced_skipSpace rest
  rw [hskip] at hspace
  exact (h.trans hspace).trans (.neutral hc (.refl _))

/-! ## Strings -/

theorem escaped?_ge {e c : Char} (h : escaped? e = some c) : 0x20 ≤ e.toNat := by
  unfold escaped? at h
  split at h
  case h_9 => exact nomatch h
  all_goals decide

/-- A hexadecimal digit is a letter or a digit of ASCII. -/
theorem hexValue?_plain {c : Char} {n : Nat} (h : hexValue? c = some n) :
    c ≠ '"' ∧ c ≠ '\\' ∧ 0x20 ≤ c.toNat := by
  have hrange : (48 ≤ c.toNat ∧ c.toNat ≤ 57) ∨ (97 ≤ c.toNat ∧ c.toNat ≤ 102) ∨
      (65 ≤ c.toNat ∧ c.toNat ≤ 70) := by
    unfold hexValue? at h
    simp only [Bool.and_eq_true, decide_eq_true_eq, Char.le_def, UInt32.le_iff_toNat_le] at h
    split at h
    · exact .inl ‹_›
    · split at h
      · exact .inr (.inl ‹_›)
      · split at h
        · exact .inr (.inr ‹_›)
        · exact nomatch h
  refine ⟨?_, ?_, by omega⟩ <;> rintro rfl <;> revert hrange <;> decide

/-- Four hexadecimal digits stand inside a string. -/
theorem inString_of_readUnit? {cs mid rest : List Char} {n : Nat}
    (h : readUnit? cs = some (n, mid)) (hmid : InString mid rest) : InString cs rest := by
  unfold readUnit? at h
  split at h
  · next a b c d cs =>
    simp only [Option.bind_eq_bind, Option.bind_eq_some_iff, Option.pure_def, Option.some.injEq,
      Prod.mk.injEq] at h
    obtain ⟨_, ha, _, hb, _, hc, _, hd, -, rfl⟩ := h
    obtain ⟨haq, hab, ha⟩ := hexValue?_plain ha
    obtain ⟨hbq, hbb, hb⟩ := hexValue?_plain hb
    obtain ⟨hcq, hcb, hc⟩ := hexValue?_plain hc
    obtain ⟨hdq, hdb, hd⟩ := hexValue?_plain hd
    exact .plain haq hab ha (.plain hbq hbb hb (.plain hcq hcb hc (.plain hdq hdb hd hmid)))
  · exact nomatch h

theorem inString_of_readEscapedUnits? {cs mid rest : List Char} {c : Char}
    (h : readEscapedUnits? cs = some (c, mid)) (hmid : InString mid rest) : InString cs rest := by
  unfold readEscapedUnits? at h
  simp only [Option.bind_eq_bind, Option.bind_eq_some_iff] at h
  obtain ⟨⟨high, after⟩, hhigh, h⟩ := h
  refine inString_of_readUnit? hhigh ?_
  have hsingle {read : Char} (h : some (read, after) = some (c, mid)) : InString after rest := by
    obtain ⟨-, rfl⟩ := Prod.mk.inj (Option.some.inj h)
    exact hmid
  -- one unit, unless it is a high surrogate with its low one behind it
  dsimp only at h
  split at h
  · next more =>
    split at h
    · next low after' hlow =>
      split at h
      · obtain ⟨-, rfl⟩ := Prod.mk.inj (Option.some.inj h)
        exact .escape (by decide) (inString_of_readUnit? hlow hmid)
      · exact hsingle h
    · exact hsingle h
  · exact hsingle h

/-- A string that is read goes up to a quote. -/
theorem inString_of_readString? {fuel : Nat} {read cs rest : List Char} {s : String}
    (h : readString? fuel read cs = some (s, rest)) : InString cs ('"' :: rest) := by
  fun_induction readString? fuel read cs with
  | case1 | case2 | case6 => exact nomatch h
  | case3 =>
    obtain ⟨-, rfl⟩ := Prod.mk.inj (Option.some.inj h)
    exact .refl _
  | case4 _ _ cs ih =>
    simp only [Option.bind_eq_bind, Option.bind_eq_some_iff] at h
    obtain ⟨⟨c, mid⟩, hunits, h⟩ := h
    exact .escape (by decide) (inString_of_readEscapedUnits? hunits (ih c mid h))
  | case5 _ _ e cs _ ih =>
    simp only [Option.bind_eq_bind, Option.bind_eq_some_iff] at h
    obtain ⟨c, he, h⟩ := h
    exact .escape (escaped?_ge he) (ih c h)
  | case7 _ _ c cs hquote _ _ hplain ih =>
    simp only [Bool.or_eq_true, decide_eq_true_eq, beq_iff_eq, not_or, Nat.not_lt] at hplain
    exact .plain hquote hplain.2 hplain.1 (ih h)

/-! ## Numbers -/

theorem isNeutral_of_isAsciiDigit {c : Char} (h : isAsciiDigit c = true) : IsNeutral c := by
  refine ⟨?_, ?_, ?_, ?_⟩ <;> rintro rfl <;> exact absurd h (by decide)

theorem balanced_spanDigits (cs : List Char) : Balanced cs (spanDigits cs).2 := by
  unfold spanDigits
  rw [List.span_eq_takeWhile_dropWhile]
  exact balanced_dropWhile (fun _ => isNeutral_of_isAsciiDigit) cs

theorem balanced_splitSign (cs : List Char) : Balanced cs (splitSign cs).2 := by
  unfold splitSign
  split
  · exact .neutral (by decide) (.refl _)
  · exact .neutral (by decide) (.refl _)
  · exact .refl _

theorem balanced_of_readPlaces? {cs rest : List Char} {digits : List Nat}
    (h : readPlaces? cs = some (digits, rest)) : Balanced cs rest := by
  unfold readPlaces? at h
  split at h
  · next cs =>
    have hdigits := balanced_spanDigits cs
    split at h
    · exact nomatch h
    · rw [Option.some.inj h] at hdigits
      exact .neutral (by decide) hdigits
  · exact nomatch h

theorem balanced_of_readPower? {cs rest : List Char} {n : Int}
    (h : readPower? cs = some (n, rest)) : Balanced cs rest := by
  unfold readPower? at h
  split at h
  · next c cs =>
    split at h
    · next he =>
      have hneutral : IsNeutral c := by
        rcases Bool.or_eq_true _ _ ▸ he with he | he <;> rw [beq_iff_eq.1 he] <;> decide
      have hsign := balanced_splitSign cs
      generalize splitSign cs = signed at h hsign
      obtain ⟨negative, body⟩ := signed
      have hdigits := balanced_spanDigits body
      dsimp only at h
      split at h
      · exact nomatch h
      · next found =>
        rw [found] at hdigits
        obtain ⟨-, rfl⟩ := Prod.mk.inj (Option.some.inj h)
        exact .neutral hneutral (hsign.trans hdigits)
    · exact nomatch h
  · exact nomatch h

/-- Behind the whole part of a number. -/
theorem balanced_places_power {cs : List Char} : Balanced cs
    (((readPower? (((readPlaces? cs).map (·.2)).getD cs)).map (·.2)).getD
      (((readPlaces? cs).map (·.2)).getD cs)) := by
  have hplaces : Balanced cs (((readPlaces? cs).map (·.2)).getD cs) := by
    cases h : readPlaces? cs with
    | none => exact .refl _
    | some found => exact balanced_of_readPlaces? h
  refine hplaces.trans ?_
  cases h : readPower? (((readPlaces? cs).map (·.2)).getD cs) with
  | none => exact .refl _
  | some found => exact balanced_of_readPower? h

theorem balanced_of_readNumber? {cs rest : List Char} {v : Json}
    (h : readNumber? cs = some (v, rest)) : Balanced cs rest := by
  unfold readNumber? at h
  split at h
  next negative body hsign =>
  have hbody : Balanced cs body := by
    split at hsign <;> obtain ⟨-, rfl⟩ := Prod.mk.inj hsign
    · exact .neutral (by decide) (.refl _)
    · exact .refl _
  refine hbody.trans ?_
  extract_lets tail at h
  have htail {found : List Nat × List Char} (h : tail found = some (v, rest)) :
      Balanced found.2 rest := by
    simp only [tail] at h
    split at h
    · split at h
      · obtain ⟨-, rfl⟩ := Prod.mk.inj (Option.some.inj h)
        exact .refl _
      · exact nomatch h
    · obtain ⟨-, rfl⟩ := Prod.mk.inj (Option.some.inj h)
      exact balanced_places_power
  clear_value tail
  split at h
  · rw [Option.bind_eq_bind, Option.bind_some] at h
    exact .neutral (by decide) (htail h)
  · split at h
    · exact nomatch h
    · rw [Option.bind_eq_bind, Option.bind_some] at h
      exact (balanced_spanDigits body).trans (htail h)

theorem isNeutral_of_mem_constants :
    ∀ entry ∈ constants, ∀ c ∈ entry.1.toList, IsNeutral c := by
  have h : constants.all (fun entry => entry.1.toList.all fun c => decide (IsNeutral c)) = true := by
    decide
  intro entry hentry c hc
  exact of_decide_eq_true (List.all_eq_true.1 (List.all_eq_true.1 h entry hentry) c hc)

theorem balanced_of_readConstant? {cs rest : List Char} {v : Json}
    (h : readConstant? cs = some (v, rest)) : Balanced cs rest := by
  obtain ⟨⟨word, value⟩, hmem, hword⟩ := List.exists_of_findSome?_eq_some h
  obtain ⟨after, hafter, heq⟩ := Option.map_eq_some_iff.1 hword
  obtain ⟨-, rfl⟩ := Prod.mk.inj heq
  rw [Chars.dropPrefix?_eq_some_iff.1 hafter]
  exact balanced_of_neutral (isNeutral_of_mem_constants _ hmem) _

/-! ## Values -/

/-- What the readers of values and of what stands inside them do with `fuel`. -/
structure ReadersBalanced (fuel : Nat) : Prop where
  value {cs v rest} : readValue? fuel cs = some (v, rest) → Balanced cs rest
  items {cs items rest} : readItems? fuel cs = some (items, rest) → Balanced cs rest
  fields {fields cs all rest} : readFields? fuel fields cs = some (all, rest) →
    Balanced cs ('\x7d' :: rest)

section Step

variable {fuel : Nat} {cs rest : List Char}

theorem ReadersBalanced.object_succ (ih : ReadersBalanced fuel) {v : Json}
    (h : readValue? (fuel + 1) ('\x7b' :: cs) = some (v, rest)) : Balanced cs ('\x7d' :: rest) := by
  have hspace := balanced_skipSpace cs
  simp only [readValue?] at h
  split at h
  · next after hclose =>
    obtain ⟨-, rfl⟩ := Prod.mk.inj (Option.some.inj h)
    rwa [hclose] at hspace
  · obtain ⟨⟨all, after⟩, hall, heq⟩ := Option.map_eq_some_iff.1 h
    obtain ⟨-, rfl⟩ := Prod.mk.inj heq
    exact hspace.trans (ih.fields hall)

theorem ReadersBalanced.value_succ (ih : ReadersBalanced fuel) {v : Json}
    (h : readValue? (fuel + 1) cs = some (v, rest)) : Balanced cs rest := by
  unfold readValue? at h
  split at h
  · exact nomatch h
  · exact nomatch h
  · next cs =>
    obtain ⟨⟨s, after⟩, hs, heq⟩ := Option.map_eq_some_iff.1 h
    obtain ⟨-, rfl⟩ := Prod.mk.inj heq
    exact .string (inString_of_readString? hs) (.refl _)
  · next fuel cs heq =>
    obtain rfl := Nat.succ.inj heq
    have hopen : Balanced ('[' :: cs) cs := .neutral (by decide) (.refl _)
    split at h
    · next after hclose =>
      obtain ⟨-, rfl⟩ := Prod.mk.inj (Option.some.inj h)
      exact hopen.skip hclose (by decide)
    · obtain ⟨⟨items, after⟩, hitems, heq⟩ := Option.map_eq_some_iff.1 h
      obtain ⟨-, rfl⟩ := Prod.mk.inj heq
      exact (hopen.trans (balanced_skipSpace cs)).trans (ih.items hitems)
  · next fuel cs heq =>
    obtain rfl := Nat.succ.inj heq
    refine .braces (ih.object_succ (v := v) ?_) (.refl _)
    simpa only [readValue?] using h
  · rcases Option.or_eq_some_iff.1 h with h | ⟨-, h⟩
    · exact balanced_of_readConstant? h
    · exact balanced_of_readNumber? h

theorem ReadersBalanced.items_succ (ih : ReadersBalanced fuel) {items : List Json}
    (h : readItems? (fuel + 1) cs = some (items, rest)) : Balanced cs rest := by
  rw [readItems?] at h
  simp only [Option.bind_eq_bind, Option.bind_eq_some_iff] at h
  obtain ⟨⟨item, after⟩, hitem, h⟩ := h
  have hitem := ih.value hitem
  split at h
  · next hclose =>
    obtain ⟨-, rfl⟩ := Prod.mk.inj (Option.some.inj h)
    exact hitem.skip hclose (by decide)
  · next more hcomma =>
    simp only [Option.bind_eq_some_iff] at h
    obtain ⟨⟨others, after'⟩, hothers, h⟩ := h
    obtain ⟨-, rfl⟩ := Prod.mk.inj (Option.some.inj h)
    exact ((hitem.skip hcomma (by decide)).trans (balanced_skipSpace more)).trans (ih.items hothers)
  · exact nomatch h

theorem ReadersBalanced.fields_succ (ih : ReadersBalanced fuel) {fields all : Fields}
    (h : readFields? (fuel + 1) fields cs = some (all, rest)) : Balanced cs ('\x7d' :: rest) := by
  unfold readFields? at h
  split at h
  · next fuel cs heq =>
    obtain rfl := Nat.succ.inj heq
    simp only [Option.bind_eq_bind, Option.bind_eq_some_iff] at h
    obtain ⟨⟨name, afterName⟩, hname, h⟩ := h
    have hname : Balanced ('"' :: cs) afterName := .string (inString_of_readString? hname) (.refl _)
    split at h
    · next beforeValue hcolon =>
      simp only [Option.bind_eq_some_iff] at h
      obtain ⟨⟨value, afterValue⟩, hvalue, h⟩ := h
      have hfield : Balanced ('"' :: cs) afterValue :=
        ((hname.skip hcolon (by decide)).trans (balanced_skipSpace _)).trans (ih.value hvalue)
      split at h
      · next hclose =>
        obtain ⟨-, rfl⟩ := Prod.mk.inj (Option.some.inj h)
        exact hclose ▸ hfield.trans (balanced_skipSpace afterValue)
      · next more hcomma =>
        have hmore := (hfield.skip hcomma (by decide)).trans (balanced_skipSpace more)
        exact hmore.trans (ih.fields h)
      · exact nomatch h
    · exact nomatch h
  · exact nomatch h

end Step

theorem readersBalanced (fuel : Nat) : ReadersBalanced fuel := by
  induction fuel with
  | zero =>
    exact ⟨fun h => by simp [readValue?] at h, fun h => by simp [readItems?] at h,
      fun h => by simp [readFields?] at h⟩
  | succ fuel ih => exact ⟨ih.value_succ, ih.items_succ, ih.fields_succ⟩

/-- A value that is read is balanced text. -/
theorem balanced_of_readValue? {fuel : Nat} {cs rest : List Char} {v : Json}
    (h : readValue? fuel cs = some (v, rest)) : Balanced cs rest := (readersBalanced fuel).value h

/-- An object that is read is a pair of braces around balanced text. -/
theorem balanced_of_readValue?_object {fuel : Nat} {cs rest : List Char} {v : Json}
    (h : readValue? fuel ('\x7b' :: cs) = some (v, rest)) : Balanced cs ('\x7d' :: rest) := by
  cases fuel with
  | zero => simp [readValue?] at h
  | succ fuel => exact (readersBalanced fuel).object_succ h

/-! ## Whole texts -/

theorem parseChars?_eq_some {cs : List Char} {v : Json} (h : parseChars? cs = some v) :
    ∃ fuel rest, readValue? fuel (skipSpace cs) = some (v, rest) ∧ skipSpace rest = [] := by
  unfold parseChars? at h
  split at h
  · next value rest hread =>
    split at h
    · next hrest =>
      rw [Option.some.inj h] at hread
      exact ⟨_, rest, hread, List.isEmpty_iff.1 hrest⟩
    · exact nomatch h
  · exact nomatch h

/-- A text that reads as JSON is balanced. -/
theorem balanced_of_parseChars? {cs : List Char} {v : Json} (h : parseChars? cs = some v) :
    Balanced cs [] := by
  obtain ⟨fuel, rest, hread, hrest⟩ := parseChars?_eq_some h
  have hbefore := (balanced_skipSpace cs).trans (balanced_of_readValue? hread)
  exact hbefore.trans (hrest ▸ balanced_skipSpace rest)

/-- A text between braces that reads as JSON is one pair of braces around balanced text. -/
theorem balanced_of_parseChars?_braces {cs : List Char} {v : Json}
    (h : parseChars? cs = some v) (hopen : cs.head? = some '\x7b')
    (hclose : cs.getLast? = some '\x7d') :
    ∃ inner, cs = '\x7b' :: inner ∧ Balanced inner ['\x7d'] := by
  obtain ⟨fuel, rest, hread, hrest⟩ := parseChars?_eq_some h
  obtain ⟨inner, rfl⟩ : ∃ inner, cs = '\x7b' :: inner := by
    cases cs with
    | nil => exact nomatch hopen
    | cons c inner => exact ⟨inner, by rw [Option.some.inj hopen]⟩
  refine ⟨inner, rfl, ?_⟩
  have hinner : Balanced inner ('\x7d' :: rest) := by
    rw [skipSpace, List.dropWhile_cons_of_neg (by decide)] at hread
    exact balanced_of_readValue?_object hread
  -- all that could stand behind the closing brace is white space, and the text does not end in it
  have hnil : rest = [] := by
    rcases List.eq_nil_or_concat rest with hnil | ⟨rest, c, rfl⟩
    · exact hnil
    · have hspace := List.dropWhile_eq_nil_iff.1 hrest c (by simp)
      obtain ⟨used, rfl⟩ := hinner.isSuffix
      have heq : '\x7b' :: (used ++ '\x7d' :: rest.concat c) =
          ('\x7b' :: used ++ '\x7d' :: rest) ++ [c] := by simp
      rw [heq, List.getLast?_concat] at hclose
      have hc := Option.some.inj hclose
      exact absurd hspace (hc ▸ by decide)
  exact hnil ▸ hinner

end CodeReview.Json
