import CodeReview.Json.Printer
import CodeReview.Proofs.Json.Numbers

/-!
# Printed documents

A document that is printed on one line reads back, and stands on one line. Over several lines it reads
back as well.

* `Exact`: the values of which the text says everything. They have no whole number of more than
  `digitLimit` digits, no not-a-number but the one, and no name twice in an object.
* `parse?_print`, `parse?_printIndented`: an exact value reads back as itself.
* `newline_notMem_print`: its text on one line has no line end.

The reader meets a printed value with more text behind it, so what is shown of each reader is that it
goes up to that text (`readString?_printed`, `Reads`). A number is the only value that could go on in the
text behind it (`Ends`). The two forms differ in the white space between the parts of a list or an
object, which stays open until the end (`Reads.arr`, `Reads.obj`).
-/

namespace CodeReview.Json

open Number Text

/-! ## Strings -/

theorem hexValue?_digitChar : ∀ k < 16, hexValue? (Nat.digitChar k) = some k := by
  decide

/-- The escape of a control character spells its code point. -/
theorem readEscapedUnits?_hex {c : Char} (h : c.toNat < 0x20) (rest : List Char) :
    readEscapedUnits? (hex 4 c.toNat ++ rest) = some (c, rest) := by
  have hdigits : ∀ n < 0x20, hex 4 n = ['0', '0', Nat.digitChar (n / 16), Nat.digitChar (n % 16)] := by
    decide
  have hunit : readUnit? (hex 4 c.toNat ++ rest) = some (c.toNat, rest) := by
    rw [hdigits _ h]
    have hzero : hexValue? '0' = some 0 := by decide
    simp only [List.cons_append, List.nil_append, readUnit?, hzero,
      hexValue?_digitChar (c.toNat / 16) (by omega), hexValue?_digitChar (c.toNat % 16) (by omega),
      Option.bind_eq_bind, Option.bind_some, Option.pure_def, Option.some.injEq, Prod.mk.injEq, and_true]
    omega
  have hsingle : (if 0xD800 ≤ c.toNat && c.toNat ≤ 0xDFFF then '\uFFFD' else Char.ofNat c.toNat) = c := by
    rw [if_neg (by simp; omega), Char.ofNat_toNat]
  rw [readEscapedUnits?, hunit]
  simp only [Option.bind_eq_bind, Option.bind_some]
  rw [hsingle]
  -- a second unit counts only behind a high surrogate
  split
  · split
    · rw [if_neg (by simp; omega)]
      rfl
    · rfl
  · rfl

/-- The characters that have a short escape. -/
def shortlyEscaped : List Char := ['"', '\\', '\n', '\r', '\t', '\x0c', '\x08']

theorem escapedChar_of_notMem {c : Char} (h : c ∉ shortlyEscaped) :
    escapedChar c = if c.toNat < 0x20 then '\\' :: 'u' :: hex 4 c.toNat else [c] := by
  simp only [shortlyEscaped, List.mem_cons, List.not_mem_nil, or_false, not_or] at h
  simp [escapedChar, h]

/-- A character that is written into a string is read off it. -/
theorem readString?_escapedChar (fuel : Nat) (read : List Char) (c : Char) (rest : List Char) :
    readString? (fuel + 1) read (escapedChar c ++ rest) = readString? fuel (c :: read) rest := by
  by_cases hshort : c ∈ shortlyEscaped
  · simp only [shortlyEscaped, List.mem_cons, List.not_mem_nil, or_false] at hshort
    obtain rfl | rfl | rfl | rfl | rfl | rfl | rfl := hshort <;> rfl
  rw [escapedChar_of_notMem hshort]
  split
  · next hcontrol =>
    simp only [List.cons_append, readString?, readEscapedUnits?_hex hcontrol, Option.bind_eq_bind,
      Option.bind_some]
  · next hcontrol =>
    have hquote : c ≠ '"' := fun h => hshort (h ▸ by decide)
    have hback : c ≠ '\\' := fun h => hshort (h ▸ by decide)
    rw [List.singleton_append, readString?]
    · rw [if_neg (by simp [hcontrol, hback])]
    · exact hquote
    · exact fun _ h => absurd h hback
    · exact fun _ _ h => absurd h hback

/-- A printed string is read up to its closing quote. -/
theorem readString?_printed {fuel : Nat} {cs : List Char} (h : cs.length < fuel) (read rest : List Char) :
    readString? fuel read (cs.flatMap escapedChar ++ '"' :: rest) =
      some (String.ofList (read.reverse ++ cs), rest) := by
  induction cs generalizing fuel read with
  | nil =>
    obtain ⟨fuel, rfl⟩ := Nat.exists_eq_add_of_lt h
    rw [List.append_nil]
    rfl
  | cons c cs ih =>
    obtain ⟨fuel, rfl⟩ := Nat.exists_eq_succ_of_ne_zero (Nat.ne_zero_of_lt h)
    rw [List.length_cons, Nat.succ_lt_succ_iff] at h
    rw [List.flatMap_cons, List.append_assoc, readString?_escapedChar, ih h]
    simp

theorem toList_printString (s : String) :
    (printString s).toList = '"' :: (s.toList.flatMap escapedChar ++ ['"']) := by
  rw [printString, onChars, String.toList_ofList]
  rfl

theorem length_le_flatMap_escapedChar (cs : List Char) :
    cs.length ≤ (cs.flatMap escapedChar).length := by
  have hchar (c : Char) : 1 ≤ (escapedChar c).length := by
    by_cases hshort : c ∈ shortlyEscaped
    · simp only [shortlyEscaped, List.mem_cons, List.not_mem_nil, or_false] at hshort
      obtain rfl | rfl | rfl | rfl | rfl | rfl | rfl := hshort <;> decide
    · rw [escapedChar_of_notMem hshort]
      split <;> simp
  induction cs with
  | nil => exact Nat.le_refl 0
  | cons c cs ih =>
    have := hchar c
    rw [List.flatMap_cons, List.length_append, List.length_cons]
    omega

/-! ## White space -/

/-- White space between tokens. -/
def IsGap (cs : List Char) : Prop := ∀ c ∈ cs, isSpace c = true

theorem isGap_nil : IsGap [] := nofun

theorem isGap_cons {c : Char} {cs : List Char} (hc : isSpace c = true) (hcs : IsGap cs) : IsGap (c :: cs) :=
  List.forall_mem_cons.2 ⟨hc, hcs⟩

theorem isGap_append {cs ds : List Char} (hcs : IsGap cs) (hds : IsGap ds) : IsGap (cs ++ ds) :=
  List.forall_mem_append.2 ⟨hcs, hds⟩

theorem skipSpace_cons {c : Char} (h : isSpace c = false) (cs : List Char) :
    skipSpace (c :: cs) = c :: cs :=
  List.dropWhile_cons_of_neg (by simp [h])

theorem skipSpace_append {gap : List Char} (h : IsGap gap) (cs : List Char) :
    skipSpace (gap ++ cs) = skipSpace cs :=
  List.dropWhile_append_of_pos h

theorem ends_append {gap rest : List Char} (h : IsGap gap) (hrest : Ends rest) : Ends (gap ++ rest) := by
  cases gap with
  | nil => exact hrest
  | cons c gap =>
    have hspace := h c List.mem_cons_self
    simp only [isSpace, Bool.or_eq_true, beq_iff_eq] at hspace
    obtain ((rfl | rfl) | rfl) | rfl := hspace <;> exact ends_cons (by decide) _

/-! ## Texts of values -/

/-- A character that starts a value. -/
def Starts (c : Char) : Prop := isSpace c = false ∧ c ≠ ']'

/-- The value is read off the text, whatever stands behind it that a number does not go on in. The fuel
is as much as there is for a text of these characters. -/
structure Reads (text : List Char) (v : Json) : Prop where
  starts : ∃ c cs, text = c :: cs ∧ Starts c
  read : ∀ fuel rest, 2 * text.length ≤ fuel → Ends rest → readValue? fuel (text ++ rest) = some (v, rest)

theorem reads_null : Reads "null".toList .null := by
  refine ⟨⟨'n', _, rfl, by decide, by decide⟩, fun fuel rest hfuel _ => ?_⟩
  obtain ⟨fuel, rfl⟩ := Nat.exists_eq_add_of_le' (Nat.le_trans (by decide : 1 ≤ _) hfuel)
  rfl

theorem reads_bool (b : Bool) : Reads (if b then "true" else "false").toList (.bool b) := by
  cases b
  all_goals
    refine ⟨⟨_, _, rfl, by decide, by decide⟩, fun fuel rest hfuel _ => ?_⟩
    obtain ⟨fuel, rfl⟩ := Nat.exists_eq_add_of_le' (Nat.le_trans (by decide : 1 ≤ _) hfuel)
    rfl

theorem reads_str (s : String) : Reads (printString s).toList (.str s) := by
  rw [toList_printString]
  refine ⟨⟨'"', _, rfl, by decide, by decide⟩, fun fuel rest hfuel _ => ?_⟩
  have hlength := length_le_flatMap_escapedChar s.toList
  rw [List.length_cons, List.length_append] at hfuel
  obtain ⟨fuel, rfl⟩ := Nat.exists_eq_succ_of_ne_zero (show fuel ≠ 0 by omega)
  rw [List.cons_append, List.append_assoc, List.singleton_append, readValue?,
    readString?_printed (by omega)]
  simp

/-! ### Numbers -/

/-- A value that is no string, list or object is a constant or a number. -/
theorem readValue?_succ {c : Char} (h : c ≠ '"' ∧ c ≠ '[' ∧ c ≠ '\x7b') (fuel : Nat) (cs : List Char) :
    readValue? (fuel + 1) (c :: cs) = (readConstant? (c :: cs)).or (readNumber? (c :: cs)) := by
  obtain ⟨hquote, hbracket, hbrace⟩ := h
  rw [readValue?] <;> simp [hquote, hbracket, hbrace]

theorem ne_of_isAsciiDigit {c d : Char} (hd : isAsciiDigit d = true) (hc : isAsciiDigit c = false) :
    c ≠ d := by
  rintro rfl
  exact absurd hd (by simp [hc])

/-- No constant starts with a digit, be there a minus in front of it or not. -/
theorem readConstant?_of_isAsciiDigit {d : Char} (hd : isAsciiDigit d = true) (negative : Bool)
    (cs : List Char) : readConstant? ((if negative then ['-'] else []) ++ d :: cs) = none := by
  have hplain : ['n', 't', 'f', 'N', 'I', '-'].all (!isAsciiDigit ·) = true := by decide
  have hword : ∀ c ∈ ['n', 't', 'f', 'N', 'I', '-'], c ≠ d := fun c hc =>
    ne_of_isAsciiDigit hd (by simpa using List.all_eq_true.1 hplain c hc)
  simp only [List.mem_cons, List.not_mem_nil, or_false, forall_eq_or_imp, forall_eq] at hword
  cases negative <;> simp [readConstant?, constants, Chars.dropPrefix?, hword]

/-- A text that starts with a digit, be there a minus in front of it or not, is read as a number. -/
theorem reads_number {negative : Bool} {text ds : List Char} {v : Json}
    (htext : text = (if negative then ['-'] else []) ++ ds) (hne : ds ≠ [])
    (hdigit : ∀ d ∈ ds.head?, isAsciiDigit d = true)
    (hread : ∀ rest, Ends rest → readNumber? (text ++ rest) = some (v, rest)) : Reads text v := by
  obtain ⟨d, more, rfl⟩ := List.exists_cons_of_ne_nil hne
  have hd : isAsciiDigit d = true := hdigit d rfl
  have hfirst : ∃ c cs, text = c :: cs ∧ Starts c ∧ c ≠ '"' ∧ c ≠ '[' ∧ c ≠ '\x7b' := by
    rw [htext]
    split
    · exact ⟨'-', d :: more, rfl, ⟨by decide, by decide⟩, by decide, by decide, by decide⟩
    · have hne {c : Char} (hc : isAsciiDigit c = false) : d ≠ c := (ne_of_isAsciiDigit hd hc).symm
      have hspace : isSpace d = false := by
        simp [isSpace, hne (show isAsciiDigit ' ' = false by decide),
          hne (show isAsciiDigit '\t' = false by decide),
          hne (show isAsciiDigit '\n' = false by decide), hne (show isAsciiDigit '\r' = false by decide)]
      exact ⟨d, more, rfl, ⟨hspace, hne (by decide)⟩, hne (by decide), hne (by decide), hne (by decide)⟩
  obtain ⟨c, cs, hcs, hc, hplain⟩ := hfirst
  refine ⟨⟨c, cs, hcs, hc⟩, fun fuel rest hfuel hrest => ?_⟩
  have hlength : 0 < text.length := by
    rw [hcs]
    exact Nat.succ_pos _
  obtain ⟨fuel, rfl⟩ := Nat.exists_eq_succ_of_ne_zero (show fuel ≠ 0 by omega)
  have hconstant : readConstant? (text ++ rest) = none := by
    rw [htext, List.append_assoc, List.cons_append]
    exact readConstant?_of_isAsciiDigit hd _ _
  have hnumber := hread rest hrest
  rw [hcs, List.cons_append] at hconstant hnumber ⊢
  rw [readValue?_succ hplain, hconstant, Option.none_or, hnumber]

theorem reads_int {n : Int} (h : (Nat.toDigits 10 n.natAbs).length ≤ digitLimit) :
    Reads (toString n).toList (.int n) :=
  reads_number (toList_toString n) Nat.toDigits_ne_nil
    (fun _ hd => isAsciiDigit_of_mem_toDigits (List.mem_of_mem_head? hd))
    fun _ hrest => readNumber?_printed h hrest

/-- Of what is not finite the names are constants. -/
theorem reads_float {x : Binary64} (h : x.isNaN = true → x = .nan) :
    Reads (DecimalLayout.document.text x).toList (.float x) := by
  by_cases hfinite : x.isFinite = true
  · obtain ⟨numeral, -, -, htext⟩ := exists_numeral hfinite
    refine reads_number htext (List.append_ne_nil_of_left_ne_nil numeral.isWhole.ne_nil _) (fun d hd => ?_)
      fun _ hrest => readNumber?_text hfinite hrest
    rw [Numeral.chars, List.head?_append_of_ne_nil _ numeral.isWhole.ne_nil] at hd
    exact numeral.isWhole.isDigit d (List.mem_of_mem_head? hd)
  by_cases hnan : x.isNaN = true
  · obtain rfl := h hnan
    refine ⟨⟨'N', _, rfl, by decide, by decide⟩, fun fuel rest hfuel _ => ?_⟩
    obtain ⟨fuel, rfl⟩ := Nat.exists_eq_add_of_le' (Nat.le_trans (by decide : 1 ≤ _) hfuel)
    rfl
  rw [← Binary64.infinity_negative (Binary64.isInfinite_of_not hfinite hnan)]
  cases x.negative
  all_goals
    refine ⟨⟨_, _, rfl, by decide, by decide⟩, fun fuel rest hfuel _ => ?_⟩
    obtain ⟨fuel, rfl⟩ := Nat.exists_eq_add_of_le' (Nat.le_trans (by decide : 1 ≤ _) hfuel)
    rfl

/-! ### Lists and objects -/

/-- Joined parts start as the first of them does. -/
theorem exists_cons_of_join {c : Char} {part separator cs : List Char} (h : part = c :: cs)
    (parts : List (List Char)) : ∃ more, Chars.join separator (part :: parts) = c :: more := by
  subst h
  by_cases hparts : parts = []
  · exact ⟨cs, by simp [hparts, Chars.join]⟩
  · exact ⟨_, Chars.join_cons hparts⟩

/-- The characters of a field, from the characters of its value. -/
def fieldChars (text : Json → List Char) (field : String × Json) : List Char :=
  (printString field.1).toList ++ ':' :: ' ' :: text field.2

section Nested

variable {text : Json → List Char} {first gap last rest : List Char} {fuel : Nat}

theorem exists_cons_of_join_fieldChars (field : String × Json) (fields : Fields) :
    ∃ more, Chars.join (',' :: gap) ((field :: fields).map (fieldChars text)) = '"' :: more :=
  exists_cons_of_join (by rw [fieldChars, toList_printString]; rfl) _

/-- The items of a list are read up to the bracket behind them. -/
theorem readItems?_joined (hgap : IsGap gap) (hlast : IsGap last) {items : List Json} (hne : items ≠ [])
    (hitems : ∀ item ∈ items, Reads (text item) item)
    (hfuel : 2 * (Chars.join (',' :: gap) (items.map text)).length < fuel) :
    readItems? fuel (Chars.join (',' :: gap) (items.map text) ++ (last ++ ']' :: rest)) = some (items, rest) := by
  induction items generalizing fuel with
  | nil => exact absurd rfl hne
  | cons item items ih =>
    obtain ⟨fuel, rfl⟩ := Nat.exists_eq_succ_of_ne_zero (Nat.ne_zero_of_lt hfuel)
    have hread := (hitems item List.mem_cons_self).read
    have hothers : ∀ other ∈ items, Reads (text other) other := fun other hother =>
      hitems other (List.mem_cons_of_mem item hother)
    rw [readItems?, List.map_cons]
    rw [List.map_cons] at hfuel
    cases items with
    | nil =>
      have hjoin : Chars.join (',' :: gap) [text item] = text item := by simp [Chars.join]
      have hends : Ends (last ++ ']' :: rest) := ends_append hlast (ends_cons (by decide) rest)
      rw [List.map_nil, hjoin] at hfuel ⊢
      simp only [hread fuel _ (by omega) hends, Option.bind_eq_bind, Option.bind_some, skipSpace_append hlast,
        skipSpace_cons (show isSpace ']' = false by decide), Option.pure_def]
    | cons next items =>
      obtain ⟨c, cs, hcs, hc⟩ := (hothers next List.mem_cons_self).starts
      have hjoin := @Chars.join_cons (',' :: gap) (text item) ((next :: items).map text) (by simp)
      obtain ⟨more, hmore⟩ : ∃ more, Chars.join (',' :: gap) ((next :: items).map text) = c :: more :=
        exists_cons_of_join hcs _
      have hrest := @ih fuel (List.cons_ne_nil _ _) hothers
      rw [hmore] at hjoin hrest
      rw [hjoin] at hfuel ⊢
      simp only [List.length_append, List.length_cons] at hfuel hrest
      have hspace : skipSpace (gap ++ (c :: more ++ (last ++ ']' :: rest))) =
          c :: more ++ (last ++ ']' :: rest) := by
        rw [skipSpace_append hgap]
        exact skipSpace_cons hc.1 _
      rw [List.append_assoc, List.append_assoc, List.cons_append,
        hread fuel _ (by omega) (ends_cons (by decide) _)]
      simp only [Option.bind_eq_bind, Option.bind_some, skipSpace_cons (show isSpace ',' = false by decide),
        hspace, hrest (by omega)]
      rfl

/-- A field is read up to its value, which is read then. -/
theorem readFields?_field {field : String × Json} (hfield : Reads (text field.2) field.2) (read : Fields)
    (hfuel : 2 * (fieldChars text field).length < fuel + 1) (hends : Ends rest) :
    readFields? (fuel + 1) read (fieldChars text field ++ rest) =
      match skipSpace rest with
      | '\x7d' :: rest => some (Keyed.put read field.1 field.2, rest)
      | ',' :: rest => readFields? fuel (Keyed.put read field.1 field.2) (skipSpace rest)
      | _ => none := by
  obtain ⟨name, value⟩ := field
  dsimp only at hfield
  have hname := length_le_flatMap_escapedChar name.toList
  rw [fieldChars, toList_printString] at hfuel ⊢
  simp only [List.length_append, List.length_cons, List.length_nil] at hfuel
  simp only [List.cons_append, List.append_assoc, List.nil_append]
  obtain ⟨d, ds, hds, hd⟩ := hfield.starts
  have hspace : skipSpace (' ' :: (text value ++ rest)) = text value ++ rest := by
    rw [hds, skipSpace, List.dropWhile_cons_of_pos (by decide)]
    exact skipSpace_cons hd.1 _
  rw [readFields?, readString?_printed (by omega)]
  simp only [Option.bind_eq_bind, Option.bind_some, List.reverse_nil, List.nil_append,
    String.ofList_toList, skipSpace_cons (show isSpace ':' = false by decide), hspace,
    hfield.read fuel _ (by omega) hends]
  rfl

/-- The fields of an object are read up to the brace behind them. -/
theorem readFields?_joined (hgap : IsGap gap) (hlast : IsGap last) {read fields : Fields} (hne : fields ≠ [])
    (hnames : (read.keys ++ fields.keys).Nodup)
    (hfields : ∀ field ∈ fields, Reads (text field.2) field.2)
    (hfuel : 2 * (Chars.join (',' :: gap) (fields.map (fieldChars text))).length < fuel) :
    readFields? fuel read (Chars.join (',' :: gap) (fields.map (fieldChars text)) ++ (last ++ '\x7d' :: rest)) =
      some (read ++ fields, rest) := by
  induction fields generalizing fuel read with
  | nil => exact absurd rfl hne
  | cons field fields ih =>
    obtain ⟨fuel, rfl⟩ := Nat.exists_eq_succ_of_ne_zero (Nat.ne_zero_of_lt hfuel)
    have hfield := hfields field List.mem_cons_self
    have hothers : ∀ other ∈ fields, Reads (text other.2) other.2 := fun other hother =>
      hfields other (List.mem_cons_of_mem field hother)
    have hnew : field.1 ∉ read.keys := fun hmem =>
      (List.nodup_append.1 hnames).2.2 field.1 hmem field.1 List.mem_cons_self rfl
    have hput : Keyed.put read field.1 field.2 = read ++ [field] :=
      Keyed.alter_of_notMem hnew fun _ => field.2
    rw [List.map_cons]
    rw [List.map_cons] at hfuel
    cases fields with
    | nil =>
      have hjoin : Chars.join (',' :: gap) [fieldChars text field] = fieldChars text field := by
        simp [Chars.join]
      have hends : Ends (last ++ '\x7d' :: rest) := ends_append hlast (ends_cons (by decide) rest)
      rw [List.map_nil, hjoin] at hfuel ⊢
      rw [readFields?_field hfield read (by omega) hends,
        skipSpace_append hlast, skipSpace_cons (by decide), hput]
      rfl
    | cons next fields =>
      have hjoin := @Chars.join_cons (',' :: gap) (fieldChars text field) ((next :: fields).map (fieldChars text))
        (by simp)
      obtain ⟨more, hmore⟩ := @exists_cons_of_join_fieldChars text gap next fields
      have hrest := @ih fuel (read ++ [field]) (List.cons_ne_nil _ _)
        (by simpa [Keyed.keys] using hnames) hothers
      rw [hmore] at hjoin hrest
      rw [hjoin] at hfuel ⊢
      simp only [List.length_append, List.length_cons] at hfuel hrest
      have hspace : skipSpace (gap ++ ('"' :: more ++ (last ++ '\x7d' :: rest))) =
          '"' :: more ++ (last ++ '\x7d' :: rest) := by
        rw [skipSpace_append hgap]
        exact skipSpace_cons (by decide) _
      rw [List.append_assoc, List.append_assoc, List.cons_append,
        readFields?_field hfield read (by omega) (ends_cons (by decide) _), skipSpace_cons (by decide), hput]
      simp only [hspace, hrest (by omega), List.append_assoc, List.singleton_append]

theorem reads_arr_nil : Reads "[]".toList (.arr []) := by
  refine ⟨⟨'[', _, rfl, by decide, by decide⟩, fun fuel rest hfuel _ => ?_⟩
  obtain ⟨fuel, rfl⟩ := Nat.exists_eq_add_of_le' (Nat.le_trans (by decide : 1 ≤ _) hfuel)
  rfl

theorem reads_obj_nil : Reads "\x7b\x7d".toList (.obj []) := by
  refine ⟨⟨'\x7b', _, rfl, by decide, by decide⟩, fun fuel rest hfuel _ => ?_⟩
  obtain ⟨fuel, rfl⟩ := Nat.exists_eq_add_of_le' (Nat.le_trans (by decide : 1 ≤ _) hfuel)
  rfl

/-- A list is read off its items with white space around them. -/
theorem Reads.arr (hfirst : IsGap first) (hgap : IsGap gap) (hlast : IsGap last) {items : List Json}
    (hne : items ≠ []) (hitems : ∀ item ∈ items, Reads (text item) item) :
    Reads ('[' :: (first ++ (Chars.join (',' :: gap) (items.map text) ++ (last ++ [']'])))) (.arr items) := by
  refine ⟨⟨'[', _, rfl, by decide, by decide⟩, fun fuel rest hfuel _ => ?_⟩
  simp only [List.length_cons, List.length_append, List.length_nil] at hfuel
  obtain ⟨fuel, rfl⟩ := Nat.exists_eq_succ_of_ne_zero (show fuel ≠ 0 by omega)
  obtain ⟨item, items, rfl⟩ := List.exists_cons_of_ne_nil hne
  have hread := @readItems?_joined text gap last rest fuel hgap hlast _ hne hitems (by omega)
  obtain ⟨c, cs, hcs, hc⟩ := (hitems item List.mem_cons_self).starts
  obtain ⟨more, hmore⟩ := @exists_cons_of_join c (text item) (',' :: gap) cs hcs (items.map text)
  rw [List.map_cons, hmore, List.cons_append] at hread ⊢
  simp only [List.cons_append, List.append_assoc, List.nil_append] at hread ⊢
  rw [readValue?, skipSpace_append hfirst, skipSpace_cons hc.1]
  split
  · next heq => exact absurd (List.cons.inj heq).1 hc.2
  · rw [hread]
    rfl

/-- An object is read off its fields with white space around them. -/
theorem Reads.obj (hfirst : IsGap first) (hgap : IsGap gap) (hlast : IsGap last) {fields : Fields}
    (hne : fields ≠ []) (hnames : fields.keys.Nodup)
    (hfields : ∀ field ∈ fields, Reads (text field.2) field.2) :
    Reads ('\x7b' :: (first ++ (Chars.join (',' :: gap) (fields.map (fieldChars text)) ++ (last ++ ['\x7d']))))
      (.obj fields) := by
  refine ⟨⟨'\x7b', _, rfl, by decide, by decide⟩, fun fuel rest hfuel _ => ?_⟩
  simp only [List.length_cons, List.length_append, List.length_nil] at hfuel
  obtain ⟨fuel, rfl⟩ := Nat.exists_eq_succ_of_ne_zero (show fuel ≠ 0 by omega)
  obtain ⟨field, fields, rfl⟩ := List.exists_cons_of_ne_nil hne
  have hread := @readFields?_joined text gap last rest fuel hgap hlast [] _ hne hnames hfields (by omega)
  obtain ⟨more, hmore⟩ := @exists_cons_of_join_fieldChars text gap field fields
  rw [hmore, List.cons_append] at hread ⊢
  simp only [List.cons_append, List.append_assoc, List.nil_append] at hread ⊢
  rw [readValue?, skipSpace_append hfirst, skipSpace_cons (by decide)]
  change Option.map _ _ = _
  rw [hread]
  rfl

end Nested

/-- A text that a value is read off is a document. -/
theorem Reads.parse? {s : String} {v : Json} (h : Reads s.toList v) : parse? s = some v := by
  obtain ⟨c, cs, hcs, hc⟩ := h.starts
  have hread := h.read (2 * s.toList.length + 2) [] (by omega) ends_nil
  rw [List.append_nil] at hread
  have hspace : skipSpace s.toList = s.toList := by rw [hcs, skipSpace_cons hc.1]
  rw [Json.parse?, parseChars?, hspace, hread]
  rfl

/-! ## Values that text holds -/

/-- The values of which the text says everything. -/
inductive Exact : Json → Prop
  | null : Exact .null
  | bool (b : Bool) : Exact (.bool b)
  | int {n : Int} (h : (Nat.toDigits 10 n.natAbs).length ≤ digitLimit) : Exact (.int n)
  | float {x : Binary64} (h : x.isNaN = true → x = .nan) : Exact (.float x)
  | str (s : String) : Exact (.str s)
  | arr {items : List Json} (h : ∀ item ∈ items, Exact item) : Exact (.arr items)
  | obj {fields : Fields} (hnames : fields.keys.Nodup) (h : ∀ field ∈ fields, Exact field.2) :
    Exact (.obj fields)

theorem exact_ofText? (s : Option String) : Exact (.ofText? s) := by
  cases s with
  | none => exact .null
  | some s => exact .str s

/-! ### On one line -/

/-- The characters of a value. -/
def chars (v : Json) : List Char := (print v).toList

theorem printItems_eq (items : List Json) : printItems items = items.map print := by
  induction items with
  | nil => rfl
  | cons item items ih => rw [printItems, ih, List.map_cons]

theorem printFields_eq (fields : List (String × Json)) :
    printFields fields = fields.map fun (name, value) => printString name ++ ": " ++ print value := by
  induction fields with
  | nil => rfl
  | cons field fields ih => rw [printFields, ih, List.map_cons]

theorem chars_arr (items : List Json) :
    chars (arr items) = '[' :: (Chars.join [',', ' '] (items.map chars) ++ [']']) := by
  rw [chars, print, printItems_eq, Text.join]
  simp only [String.toList_append, String.toList_intercalate, List.map_map]
  rfl

theorem chars_obj (fields : List (String × Json)) :
    chars (obj fields) = '\x7b' :: (Chars.join [',', ' '] (fields.map (fieldChars chars)) ++ ['\x7d']) := by
  rw [chars, print, printFields_eq, Text.join]
  simp only [String.toList_append, String.toList_intercalate, List.map_map]
  have hfield : (String.toList ∘ fun (name, value) => printString name ++ ": " ++ print value) =
      fieldChars chars := by
    funext field
    simp [fieldChars, chars]
  rw [hfield]
  rfl

/-- An exact value is read off its characters. -/
theorem Exact.reads {v : Json} (h : Exact v) : Reads (chars v) v := by
  have hgap : IsGap [' '] := isGap_cons (by decide) isGap_nil
  induction h with
  | null => exact reads_null
  | bool b => exact reads_bool b
  | int h => exact reads_int h
  | float h => exact reads_float h
  | str s => exact reads_str s
  | @arr items h ih =>
    rw [chars_arr]
    by_cases hne : items = []
    · subst hne
      exact reads_arr_nil
    · exact .arr isGap_nil hgap isGap_nil hne ih
  | @obj fields hnames h ih =>
    rw [chars_obj]
    by_cases hne : fields = []
    · subst hne
      exact reads_obj_nil
    · exact .obj isGap_nil hgap isGap_nil hne hnames ih

/-- An exact value that is printed on one line reads back. -/
theorem parse?_print {v : Json} (h : Exact v) : parse? (print v) = some v := h.reads.parse?

/-! ### Over several lines -/

/-- The characters of a value that is printed over several lines. -/
def indentedChars (level : Nat) (v : Json) : List Char := (printIndentedAt level v).toList

theorem printIndentedItems_eq (level : Nat) (items : List Json) :
    printIndentedItems level items = items.map (printIndentedAt level) := by
  induction items with
  | nil => rfl
  | cons item items ih => rw [printIndentedItems, ih, List.map_cons]

theorem printIndentedFields_eq (level : Nat) (fields : List (String × Json)) :
    printIndentedFields level fields =
      fields.map fun (name, value) => printString name ++ ": " ++ printIndentedAt level value := by
  induction fields with
  | nil => rfl
  | cons field fields ih => rw [printIndentedFields, ih, List.map_cons]

theorem indentedChars_arr (level : Nat) {items : List Json} (hne : items ≠ []) :
    indentedChars level (arr items) =
      '[' :: ((newLine (level + 1)).toList ++
        (Chars.join (',' :: (newLine (level + 1)).toList) (items.map (indentedChars (level + 1))) ++
          ((newLine level).toList ++ [']']))) := by
  rw [indentedChars, printIndentedAt, if_neg (mt List.isEmpty_iff.1 hne), printIndentedItems_eq, Text.join]
  simp only [String.toList_append, String.toList_intercalate, List.map_map, List.append_assoc]
  rfl

theorem indentedChars_obj (level : Nat) {fields : Fields} (hne : fields ≠ []) :
    indentedChars level (obj fields) =
      '\x7b' :: ((newLine (level + 1)).toList ++
        (Chars.join (',' :: (newLine (level + 1)).toList)
          (fields.map (fieldChars (indentedChars (level + 1)))) ++
          ((newLine level).toList ++ ['\x7d']))) := by
  rw [indentedChars, printIndentedAt, if_neg (mt List.isEmpty_iff.1 hne), printIndentedFields_eq, Text.join]
  simp only [String.toList_append, String.toList_intercalate, List.map_map, List.append_assoc]
  have hfield : (String.toList ∘ fun (name, value) =>
      printString name ++ ": " ++ printIndentedAt (level + 1) value) =
      fieldChars (indentedChars (level + 1)) := by
    funext field
    simp [fieldChars, indentedChars]
  rw [hfield]
  rfl

theorem isGap_newLine (level : Nat) : IsGap (newLine level).toList := by
  have hcopies (n : Nat) : IsGap (copies n "  ").toList := by
    induction n with
    | zero => exact isGap_nil
    | succ n ih =>
      rw [copies, List.replicate_succ, String.join_cons, String.toList_append]
      exact isGap_append (isGap_cons rfl (isGap_cons rfl isGap_nil)) ih
  rw [newLine, String.toList_append]
  exact isGap_append (isGap_cons rfl isGap_nil) (hcopies level)

/-- An exact value is read off its lines, whatever level they stand at. -/
theorem Exact.reads_indented {v : Json} (h : Exact v) (level : Nat) : Reads (indentedChars level v) v := by
  induction h generalizing level with
  | null => exact reads_null
  | bool b => exact reads_bool b
  | int h => exact reads_int h
  | float h => exact reads_float h
  | str s => exact reads_str s
  | @arr items h ih =>
    by_cases hne : items = []
    · subst hne
      exact reads_arr_nil
    · rw [indentedChars_arr level hne]
      exact .arr (isGap_newLine _) (isGap_newLine _) (isGap_newLine _) hne fun item hitem => ih item hitem _
  | @obj fields hnames h ih =>
    by_cases hne : fields = []
    · subst hne
      exact reads_obj_nil
    · rw [indentedChars_obj level hne]
      exact .obj (isGap_newLine _) (isGap_newLine _) (isGap_newLine _) hne hnames fun field hfield =>
        ih field hfield _

/-- An exact value that is printed over several lines reads back. -/
theorem parse?_printIndented {v : Json} (h : Exact v) : parse? (printIndented v) = some v :=
  (h.reads_indented 0).parse?

/-! ## One line -/

theorem newline_notMem_escapedChar (c : Char) : '\n' ∉ escapedChar c := by
  by_cases hshort : c ∈ shortlyEscaped
  · simp only [shortlyEscaped, List.mem_cons, List.not_mem_nil, or_false] at hshort
    obtain rfl | rfl | rfl | rfl | rfl | rfl | rfl := hshort <;> decide
  rw [escapedChar_of_notMem hshort]
  split
  · next hcontrol =>
    have hdigits : ∀ n < 0x20, '\n' ∉ '\\' :: 'u' :: hex 4 n := by decide
    exact hdigits _ hcontrol
  · intro hmem
    obtain rfl := List.mem_singleton.1 hmem
    exact hshort (by decide)

theorem newline_notMem_printString (s : String) : '\n' ∉ (printString s).toList := by
  rw [toList_printString]
  simp [newline_notMem_escapedChar]

theorem newline_notMem_text {x : Binary64} (h : x.isNaN = true → x = .nan) :
    '\n' ∉ (DecimalLayout.document.text x).toList := by
  by_cases hfinite : x.isFinite = true
  · obtain ⟨numeral, -, -, htext⟩ := exists_numeral hfinite
    rw [htext, List.mem_append]
    refine not_or.2 ⟨?_, numeral.newline_notMem_chars⟩
    split <;> decide
  by_cases hnan : x.isNaN = true
  · obtain rfl := h hnan
    decide
  rw [← Binary64.infinity_negative (Binary64.isInfinite_of_not hfinite hnan)]
  cases x.negative <;> decide

/-- Joined parts hold what the parts and the separator hold. -/
theorem notMem_join {c : Char} {separator : List Char} (h : c ∉ separator) {parts : List (List Char)}
    (hparts : ∀ part ∈ parts, c ∉ part) : c ∉ Chars.join separator parts := by
  induction parts with
  | nil => exact List.not_mem_nil
  | cons part parts ih =>
    have hpart := hparts part List.mem_cons_self
    have hothers := ih fun other hother => hparts other (List.mem_cons_of_mem part hother)
    by_cases hne : parts = []
    · simpa [hne, Chars.join] using hpart
    · rw [Chars.join_cons hne]
      simp [hpart, h, hothers]

/-- A printed value stands on one line. -/
theorem newline_notMem_print {v : Json} (h : Exact v) : '\n' ∉ (print v).toList := by
  change '\n' ∉ chars v
  induction h with
  | null => decide
  | bool b => cases b <;> decide
  | @int n h =>
    intro hmem
    rw [chars, print, toList_toString, List.mem_append] at hmem
    obtain hsign | hdigit := hmem
    · split at hsign
      · exact absurd hsign (by decide)
      · exact absurd hsign List.not_mem_nil
    · exact absurd (isAsciiDigit_of_mem_toDigits hdigit) (by decide)
  | float h => exact newline_notMem_text h
  | str s => exact newline_notMem_printString s
  | arr h ih =>
    rw [chars_arr]
    have hitems := @notMem_join '\n' [',', ' '] (by decide) _ (List.forall_mem_map.2 ih)
    simp [hitems]
  | @obj fields hnames h ih =>
    rw [chars_obj]
    have hfield : ∀ field ∈ fields, '\n' ∉ fieldChars chars field := fun field hfield => by
      simp [fieldChars, newline_notMem_printString, ih field hfield]
    have hfields := @notMem_join '\n' [',', ' '] (by decide) _ (List.forall_mem_map.2 hfield)
    simp [hfields]

end CodeReview.Json
