import CodeReview.Proofs.Json.Printing
import CodeReview.Proofs.Json.Shape

/-!
# Values that are read

Whatever text a value is read off, the value is exact (`exact_of_parseChars?`): a whole number of too many
digits is an error, a field that is given twice stands in the object once, and of the not-a-numbers only
the one with a name comes in. So what was read can be printed and is read again as it was.
-/

namespace CodeReview.Json

open Number Text

/-! ## Constants and numbers -/

theorem exact_of_readConstant? {cs rest : List Char} {v : Json} (h : readConstant? cs = some (v, rest)) :
    Exact v := by
  obtain ⟨⟨word, value⟩, hmem, hword⟩ := List.exists_of_findSome?_eq_some h
  obtain ⟨after, -, heq⟩ := Option.map_eq_some_iff.1 hword
  obtain ⟨rfl, -⟩ := Prod.mk.inj heq
  have hinfinity (negative : Bool) : (Binary64.infinity negative).isNaN = true →
      Binary64.infinity negative = .nan := by
    rw [Binary64.infinity, Binary64.isNaN_ofMagnitude negative le_rfl]
    rintro ⟨⟩
  simp only [constants, List.mem_cons, List.not_mem_nil, or_false, Prod.mk.injEq] at hmem
  obtain ⟨-, rfl⟩ | ⟨-, rfl⟩ | ⟨-, rfl⟩ | ⟨-, rfl⟩ | ⟨-, rfl⟩ | ⟨-, rfl⟩ := hmem
  exacts [.null, .bool true, .bool false, .float fun _ => rfl, .float (hinfinity false), .float (hinfinity true)]

theorem lt_of_mem_spanDigits {cs : List Char} {d : Nat} (h : d ∈ (spanDigits cs).1) : d < 10 := by
  rw [spanDigits, List.span_eq_takeWhile_dropWhile] at h
  obtain ⟨c, hc, rfl⟩ := List.mem_map.1 h
  have hrange := range_of_isAsciiDigit (List.mem_takeWhile_imp hc)
  omega

theorem exact_of_readTail? {negative : Bool} {whole : List Nat} (hwhole : ∀ d ∈ whole, d < 10)
    {cs rest : List Char} {v : Json} (h : readTail? negative whole cs = some (v, rest)) : Exact v := by
  rw [readTail?] at h
  split at h
  · split at h
    · next n hn =>
      obtain ⟨rfl, -⟩ := Prod.mk.inj (Option.some.inj h)
      have habs : (if negative then -(n : Int) else n).natAbs = n := by split <;> omega
      exact .int (habs.symm ▸ length_toDigits_of_wholeOf hwhole hn)
    · cases h
  · obtain ⟨rfl, -⟩ := Prod.mk.inj (Option.some.inj h)
    refine .float fun hnan => ?_
    rw [Written.value, Binary64.isNaN_ofDecimal] at hnan
    cases hnan

theorem exact_of_readNumber? {cs rest : List Char} {v : Json}
    (h : readNumber? cs = some (v, rest)) : Exact v := by
  unfold readNumber? at h
  split at h
  next negative body hsign =>
  extract_lets tail at h
  have htail (found : List Nat × List Char) : tail found = readTail? negative found.1 found.2 := rfl
  clear_value tail
  split at h
  · rw [Option.bind_eq_bind, Option.bind_some, htail] at h
    exact exact_of_readTail? (List.forall_mem_singleton.2 (by decide)) h
  · split at h
    · exact nomatch h
    · rw [Option.bind_eq_bind, Option.bind_some, htail] at h
      exact exact_of_readTail? (fun d hd => lt_of_mem_spanDigits hd) h

/-! ## Values -/

/-- The readers of values and of what stands inside them give exact values with `fuel`. -/
structure ReadersExact (fuel : Nat) : Prop where
  value {cs v rest} : readValue? fuel cs = some (v, rest) → Exact v
  items {cs items rest} : readItems? fuel cs = some (items, rest) → ∀ item ∈ items, Exact item
  fields {fields cs all rest} : Exact (.obj fields) → readFields? fuel fields cs = some (all, rest) →
    Exact (.obj all)

theorem exact_nil : Exact (.obj []) := .obj List.nodup_nil fun _ h => absurd h List.not_mem_nil

/-- A field keeps an object exact, be its name new or not. -/
theorem Exact.put {fields : Fields} (h : Exact (.obj fields))
    {value : Json} (hvalue : Exact value) (name : String) :
    Exact (.obj (Keyed.put fields name value)) := by
  obtain ⟨hnames, hfields⟩ : fields.keys.Nodup ∧ ∀ field ∈ fields, Exact field.2 := by
    cases h with
    | obj hnames hfields => exact ⟨hnames, hfields⟩
  have hnodup : (Keyed.put fields name value).keys.Nodup := Keyed.nodup_keys_alter hnames name _
  refine .obj hnodup fun field hfield => ?_
  have hget := Keyed.get?_of_mem hnodup hfield
  rw [Keyed.get?_put] at hget
  split at hget
  · exact Option.some.inj hget ▸ hvalue
  · exact hfields _ (Keyed.mem_of_get? hget)

section Step

variable {fuel : Nat} {cs rest : List Char}

theorem ReadersExact.value_succ (ih : ReadersExact fuel) {v : Json}
    (h : readValue? (fuel + 1) cs = some (v, rest)) : Exact v := by
  unfold readValue? at h
  split at h
  · exact nomatch h
  · exact nomatch h
  · obtain ⟨⟨s, after⟩, -, heq⟩ := Option.map_eq_some_iff.1 h
    obtain ⟨rfl, -⟩ := Prod.mk.inj heq
    exact .str s
  · next heq =>
    obtain rfl := Nat.succ.inj heq
    split at h
    · obtain ⟨rfl, -⟩ := Prod.mk.inj (Option.some.inj h)
      exact .arr fun _ hitem => absurd hitem List.not_mem_nil
    · obtain ⟨⟨items, after⟩, hitems, heq⟩ := Option.map_eq_some_iff.1 h
      obtain ⟨rfl, -⟩ := Prod.mk.inj heq
      exact .arr (ih.items hitems)
  · next heq =>
    obtain rfl := Nat.succ.inj heq
    split at h
    · obtain ⟨rfl, -⟩ := Prod.mk.inj (Option.some.inj h)
      exact exact_nil
    · obtain ⟨⟨fields, after⟩, hfields, heq⟩ := Option.map_eq_some_iff.1 h
      obtain ⟨rfl, -⟩ := Prod.mk.inj heq
      exact ih.fields exact_nil hfields
  · rcases Option.or_eq_some_iff.1 h with h | ⟨-, h⟩
    · exact exact_of_readConstant? h
    · exact exact_of_readNumber? h

theorem ReadersExact.items_succ (ih : ReadersExact fuel) {items : List Json}
    (h : readItems? (fuel + 1) cs = some (items, rest)) : ∀ item ∈ items, Exact item := by
  rw [readItems?] at h
  simp only [Option.bind_eq_bind, Option.bind_eq_some_iff] at h
  obtain ⟨⟨item, after⟩, hitem, h⟩ := h
  have hitem := ih.value hitem
  split at h
  · obtain ⟨rfl, -⟩ := Prod.mk.inj (Option.some.inj h)
    exact List.forall_mem_singleton.2 hitem
  · simp only [Option.bind_eq_some_iff] at h
    obtain ⟨⟨others, after'⟩, hothers, h⟩ := h
    obtain ⟨rfl, -⟩ := Prod.mk.inj (Option.some.inj h)
    exact List.forall_mem_cons.2 ⟨hitem, ih.items hothers⟩
  · cases h

theorem ReadersExact.fields_succ (ih : ReadersExact fuel) {fields all : Fields} (hfields : Exact (.obj fields))
    (h : readFields? (fuel + 1) fields cs = some (all, rest)) : Exact (.obj all) := by
  unfold readFields? at h
  split at h
  · next heq =>
    obtain rfl := Nat.succ.inj heq
    simp only [Option.bind_eq_bind, Option.bind_eq_some_iff] at h
    obtain ⟨⟨name, afterName⟩, -, h⟩ := h
    split at h
    · simp only [Option.bind_eq_some_iff] at h
      obtain ⟨⟨value, afterValue⟩, hvalue, h⟩ := h
      have hput := hfields.put (ih.value hvalue) name
      split at h
      · obtain ⟨rfl, -⟩ := Prod.mk.inj (Option.some.inj h)
        exact hput
      · exact ih.fields hput h
      · cases h
    · cases h
  · cases h

end Step

theorem readersExact (fuel : Nat) : ReadersExact fuel := by
  induction fuel with
  | zero =>
    exact ⟨fun h => by simp [readValue?] at h, fun h => by simp [readItems?] at h,
      fun _ h => by simp [readFields?] at h⟩
  | succ fuel ih => exact ⟨ih.value_succ, ih.items_succ, ih.fields_succ⟩

/-- Whatever is read as a whole text is exact. -/
theorem exact_of_parseChars? {cs : List Char} {v : Json} (h : parseChars? cs = some v) : Exact v := by
  obtain ⟨fuel, rest, hread, -⟩ := parseChars?_eq_some h
  exact (readersExact fuel).value hread

/-- What was read and is printed again reads as it was. -/
theorem parse?_printIndented_of_parse? {s : String} {v : Json} (h : parse? s = some v) :
    parse? (printIndented v) = some v :=
  parse?_printIndented (exact_of_parseChars? h)

end CodeReview.Json
