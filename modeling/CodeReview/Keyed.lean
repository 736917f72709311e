/-!
# Keyed lists

Finite maps from texts that keep the order in which the keys first came in.

* `get?_alter`: a change reaches its own key and no other.
* `keys_alter`: the key of a change stays where it is, or comes last if it is new.
* `get?_extendAll`: values that are added pair by pair stand under their keys in order, and none is
  lost (`sum_length_extendAll`).
-/

namespace CodeReview

/-- Values by key, in the order in which the keys came in. -/
abbrev Keyed (α : Type) := List (String × α)

namespace Keyed

variable {α : Type}

/-- The value of a key. -/
def get? (m : Keyed α) (key : String) : Option α := m.lookup key

def hasKey (m : Keyed α) (key : String) : Bool := m.any (·.1 == key)

def keys (m : Keyed α) : List String := m.map (·.1)

def values (m : Keyed α) : List α := m.map (·.2)

/-- Changes the value of a key: in its place if the key is there, else at the end, from `none`. -/
def alter (m : Keyed α) (key : String) (f : Option α → α) : Keyed α :=
  match m with
  | [] => [(key, f none)]
  | (k, a) :: m => if k == key then (k, f (some a)) :: m else (k, a) :: alter m key f

/-- Gives a key a value: in its place if the key is there, else at the end. -/
def put (m : Keyed α) (key : String) (value : α) : Keyed α := m.alter key fun _ => value

/-- Gives a key a value unless it has one. -/
def putNew (m : Keyed α) (key : String) (value : α) : Keyed α := m.alter key (·.getD value)

/-- Takes a key away. -/
def erase (m : Keyed α) (key : String) : Keyed α := m.filter (·.1 != key)

/-- Puts pairs in one after the other; of one key the last value stays, at the place of the first. -/
def ofPairs (pairs : List (String × α)) : Keyed α := pairs.foldl (fun m (k, a) => m.put k a) []

/-- Adds values at the end of the list of a key. -/
def extend (m : Keyed (List α)) (key : String) (values : List α) : Keyed (List α) :=
  m.alter key fun old => old.getD [] ++ values

/-! ## Lemmas -/

theorem get?_cons (k : String) (a : α) (m : Keyed α) (key : String) :
    get? ((k, a) :: m) key = if key = k then some a else get? m key := by
  rw [get?, List.lookup_cons]
  split
  · next h => rw [if_pos (beq_iff_eq.1 h)]
  · next h => rw [if_neg (beq_eq_false_iff_ne.1 h), get?]

theorem get?_alter (m : Keyed α) (key other : String) (f : Option α → α) :
    (m.alter key f).get? other = if other = key then some (f (m.get? key)) else m.get? other := by
  induction m with
  | nil => exact get?_cons key (f none) [] other
  | cons entry m ih =>
    obtain ⟨k, a⟩ := entry
    rw [alter, get?_cons k a m key]
    by_cases h : k = key
    · rw [if_pos (beq_iff_eq.2 h), if_pos h.symm, get?_cons, get?_cons, h]
      split <;> rfl
    · rw [if_neg (mt beq_iff_eq.1 h), if_neg (Ne.symm h), get?_cons, get?_cons, ih]
      by_cases ho : other = k
      · rw [if_pos ho, if_pos ho, if_neg (ho ▸ h)]
      · rw [if_neg ho, if_neg ho]

theorem get?_put (m : Keyed α) (key other : String) (value : α) :
    (m.put key value).get? other = if other = key then some value else m.get? other :=
  get?_alter m key other fun _ => value

theorem get?_erase (m : Keyed α) (key other : String) :
    (m.erase key).get? other = if other = key then none else m.get? other := by
  induction m with
  | nil => split <;> rfl
  | cons entry m ih =>
    obtain ⟨k, a⟩ := entry
    rw [erase] at ih ⊢
    by_cases hk : k = key
    · rw [List.filter_cons_of_neg (by simp [hk]), ih, get?_cons, hk]
      split <;> rfl
    · rw [List.filter_cons_of_pos (by simp [hk]), get?_cons, get?_cons, ih]
      by_cases hother : other = k
      · rw [if_pos hother, if_pos hother, if_neg (hother ▸ hk)]
      · rw [if_neg hother, if_neg hother]

theorem keys_alter (m : Keyed α) (key : String) (f : Option α → α) :
    (m.alter key f).keys = if key ∈ m.keys then m.keys else m.keys ++ [key] := by
  induction m with
  | nil => rfl
  | cons entry m ih =>
    obtain ⟨k, a⟩ := entry
    rw [alter]
    by_cases h : k = key
    · rw [if_pos (beq_iff_eq.2 h), if_pos (h ▸ List.mem_cons_self)]
      rfl
    · have hmem : key ∈ keys ((k, a) :: m) ↔ key ∈ keys m :=
        List.mem_cons.trans (or_iff_right (Ne.symm h))
      rw [if_neg (mt beq_iff_eq.1 h)]
      change k :: (alter m key f).keys = _
      rw [ih]
      by_cases hkey : key ∈ keys m
      · rw [if_pos hkey, if_pos (hmem.2 hkey)]
        rfl
      · rw [if_neg hkey, if_neg (mt hmem.1 hkey)]
        rfl

theorem keys_put (m : Keyed α) (key : String) (value : α) :
    (m.put key value).keys = if key ∈ m.keys then m.keys else m.keys ++ [key] :=
  keys_alter m key fun _ => value

theorem nodup_keys_alter {m : Keyed α} (h : m.keys.Nodup) (key : String) (f : Option α → α) :
    (m.alter key f).keys.Nodup := by
  rw [keys_alter]
  split
  · exact h
  · next hkey =>
    refine List.nodup_append.2 ⟨h, by simp, fun k hk other hother => ?_⟩
    rintro rfl
    exact hkey (List.mem_singleton.1 hother ▸ hk)

theorem mem_of_get? {m : Keyed α} {key : String} {value : α} (h : m.get? key = some value) : (key, value) ∈ m := by
  obtain ⟨before, after, rfl, -⟩ := List.lookup_eq_some_iff.1 h
  exact List.mem_append_right before List.mem_cons_self

theorem mem_keys_of_get? {m : Keyed α} {key : String} {value : α} (h : m.get? key = some value) :
    key ∈ m.keys :=
  List.mem_map_of_mem (mem_of_get? h)

theorem get?_of_notMem {m : Keyed α} {key : String} (h : key ∉ m.keys) : m.get? key = none := by
  cases hvalue : m.get? key with
  | none => rfl
  | some value => exact absurd (mem_keys_of_get? hvalue) h

theorem get?_of_mem {m : Keyed α} (h : m.keys.Nodup) {key : String} {value : α} (hmem : (key, value) ∈ m) :
    m.get? key = some value := by
  induction m with
  | nil => cases hmem
  | cons entry m ih =>
    obtain ⟨k, a⟩ := entry
    obtain ⟨hk, hm⟩ := List.nodup_cons.1 h
    rw [get?_cons]
    cases hmem with
    | head => exact if_pos rfl
    | tail _ hmem =>
      have hne : key ≠ k := by
        rintro rfl
        exact hk (List.mem_map.2 ⟨(key, value), hmem, rfl⟩)
      rw [if_neg hne]
      exact ih hm hmem

theorem alter_of_notMem {m : Keyed α} {key : String} (h : key ∉ m.keys) (f : Option α → α) :
    m.alter key f = m ++ [(key, f none)] := by
  induction m with
  | nil => rfl
  | cons entry m ih =>
    obtain ⟨k, a⟩ := entry
    obtain ⟨hk, hm⟩ := not_or.1 (mt List.mem_cons.2 h)
    rw [alter, if_neg (mt beq_iff_eq.1 (Ne.symm hk)), ih hm, List.cons_append]

/-- Pairs with new and different keys come behind what is there, in their order. -/
theorem foldl_put_of_nodup {m : Keyed α} {pairs : List (String × α)}
    (h : (m.keys ++ pairs.map (·.1)).Nodup) :
    pairs.foldl (fun m (k, a) => m.put k a) m = m ++ pairs := by
  induction pairs generalizing m with
  | nil => exact (List.append_nil m).symm
  | cons pair pairs ih =>
    obtain ⟨k, a⟩ := pair
    have hk : k ∉ m.keys := fun hk =>
      (List.nodup_append.1 h).2.2 k hk k List.mem_cons_self rfl
    have hput : m.put k a = m ++ [(k, a)] := alter_of_notMem hk fun _ => a
    change pairs.foldl _ (m.put k a) = _
    rw [hput, ih]
    · rw [List.append_assoc]
      rfl
    · simpa [keys] using h

theorem mem_keys_foldl_put {m : Keyed α} {pairs : List (String × α)} {key : String}
    (h : key ∈ (pairs.foldl (fun m (k, a) => m.put k a) m).keys) :
    key ∈ m.keys ∨ key ∈ pairs.map (·.1) := by
  induction pairs generalizing m with
  | nil => exact .inl h
  | cons pair pairs ih =>
    obtain ⟨k, a⟩ := pair
    rcases ih h with hput | hpairs
    · rw [keys_put] at hput
      split at hput
      · exact .inl hput
      · exact (List.mem_append.1 hput).imp_right fun hk =>
          List.mem_cons.2 (.inl (List.mem_singleton.1 hk))
    · exact .inr (List.mem_cons_of_mem k hpairs)

/-- Pairs with different keys are all there, in their order. -/
theorem ofPairs_of_nodup {pairs : List (String × α)} (h : (pairs.map (·.1)).Nodup) :
    ofPairs pairs = pairs :=
  foldl_put_of_nodup (m := []) h

/-! ## Maps of lists -/

-- Sums are those of the core library, also where a file knows the monoids of numbers.
attribute [local instance (high)] Zero.ofOfNat0

theorem putNew_nil (m : Keyed (List α)) (key : String) : m.putNew key [] = m.extend key [] := by
  simp [putNew, extend]

theorem sum_length_extend (m : Keyed (List α)) (key : String) (values : List α) :
    ((m.extend key values).map fun (_, values) => values.length).sum =
      (m.map fun (_, values) => values.length).sum + values.length := by
  induction m with
  | nil => simp [extend, alter]
  | cons entry m ih =>
    obtain ⟨k, before⟩ := entry
    rw [extend, alter]
    split
    · simp only [List.map_cons, List.sum_cons, Option.getD_some, List.length_append]
      omega
    · rw [List.map_cons, List.sum_cons, List.map_cons, List.sum_cons, Nat.add_assoc, ← ih]
      rfl

/-- Adds the values of several pairs, one after the other. -/
def extendAll (m : Keyed (List α)) (pairs : List (String × List α)) : Keyed (List α) :=
  pairs.foldl (fun m (key, values) => m.extend key values) m

theorem nodup_keys_extendAll {m : Keyed (List α)} (h : m.keys.Nodup)
    (pairs : List (String × List α)) : (m.extendAll pairs).keys.Nodup := by
  induction pairs generalizing m with
  | nil => exact h
  | cons pair pairs ih => exact ih (nodup_keys_alter h pair.1 _)

/-- Under a key stand its old values and then those of its pairs, in order. -/
theorem get?_extendAll (m : Keyed (List α)) (pairs : List (String × List α)) (key : String) :
    (m.extendAll pairs).get? key =
      if key ∈ pairs.map (·.1) then
        some ((m.get? key).getD [] ++ (pairs.filter (·.1 == key)).flatMap (·.2))
      else m.get? key := by
  induction pairs generalizing m with
  | nil => rfl
  | cons pair pairs ih =>
    obtain ⟨k, values⟩ := pair
    change ((m.extend k values).extendAll pairs).get? key = _
    have hrest : key ∉ pairs.map (·.1) → pairs.filter (·.1 == key) = [] := fun hmem =>
      List.filter_eq_nil_iff.2 fun other hother hkey =>
        hmem (beq_iff_eq.1 hkey ▸ List.mem_map_of_mem hother)
    rw [ih, extend, get?_alter, List.map_cons, List.filter_cons]
    by_cases hk : key = k
    · subst hk
      by_cases hmem : key ∈ pairs.map (·.1)
      · simp [hmem]
      · simp [hmem, hrest hmem]
    · by_cases hmem : key ∈ pairs.map (·.1) <;> simp [hmem, hk, Ne.symm hk]

theorem sum_length_extendAll (m : Keyed (List α)) (pairs : List (String × List α)) :
    ((m.extendAll pairs).map fun (_, values) => values.length).sum =
      (m.map fun (_, values) => values.length).sum + (pairs.flatMap (·.2)).length := by
  induction pairs generalizing m with
  | nil => rfl
  | cons pair pairs ih =>
    obtain ⟨key, values⟩ := pair
    change (((m.extend key values).extendAll pairs).map fun (_, values) => values.length).sum = _
    rw [ih, sum_length_extend, List.flatMap_cons, List.length_append, Nat.add_assoc]

/-- No value is lost and none is made up. -/
theorem mem_extendAll {m : Keyed (List α)} {pairs : List (String × List α)} {a : α} :
    (∃ entry ∈ m.extendAll pairs, a ∈ entry.2) ↔
      (∃ entry ∈ m, a ∈ entry.2) ∨ ∃ pair ∈ pairs, a ∈ pair.2 := by
  have hextend (m : Keyed (List α)) (key : String) (values : List α) :
      (∃ entry ∈ m.extend key values, a ∈ entry.2) ↔ (∃ entry ∈ m, a ∈ entry.2) ∨ a ∈ values := by
    induction m with
    | nil => simp [extend, alter]
    | cons entry m ih =>
      rw [extend] at ih
      rw [extend, alter]
      split
      · simp only [List.mem_cons, exists_eq_or_imp, Option.getD_some, List.mem_append]
        exact or_right_comm
      · simp only [List.mem_cons, exists_eq_or_imp, ih, or_assoc]
  induction pairs generalizing m with
  | nil => simp [extendAll]
  | cons pair pairs ih =>
    refine (@ih (m.extend pair.1 pair.2)).trans ?_
    simp only [hextend, or_assoc, List.mem_cons, exists_eq_or_imp]

end Keyed

end CodeReview
