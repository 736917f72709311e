import CodeReview.Proofs.Path.Keys

/-!
# Spellings of a key

`Path.normalize` takes a path apart once, from the outside in. What is left need not have the form of a
key: behind a slash in front another `./` or white space may come to light.

* `normalizeChars_eq_self_iff`: the texts that stay as they are have the form of a key (`IsKey`).
* `normalizeChars_eq_iff`: the texts that come to a text of that form are its spellings (`Spells`).
* `settles_iff`: a path has a key that stays as it is exactly if it is a spelling of one.
-/

namespace CodeReview.Path

open Text

/-- The form of a key. -/
structure IsKey (cs : List Char) : Prop where
  no_backslash : '\\' ∉ cs
  ends : ∀ c, cs.head? = some c ∨ cs.getLast? = some c → isBlank c = false ∧ c ≠ '/'
  no_here : ¬ ['.', '/'] <+: cs

/-- The copies of `./` in front of a path. -/
def here (count : Nat) : List Char := (List.replicate count ['.', '/']).flatten

/-- A text is a key with slashes around it, behind copies of `./`, and with white space around all that.
Backslashes are slashes. No further `./` follows the copies, not even one that the slashes make. -/
inductive Spells (key cs : List Char) : Prop
  | intro {before after front back : List Char} {count : Nat}
    (hforward : forward cs = before ++ (here count ++ (front ++ key ++ back)) ++ after)
    (hbefore : ∀ c ∈ before, isBlank c = true) (hafter : ∀ c ∈ after, isBlank c = true)
    (hfront : ∀ c ∈ front, isSlash c = true) (hback : ∀ c ∈ back, isSlash c = true)
    (hstop : ¬ ['.', '/'] <+: front ++ key ++ back)

/-- The key of the path is its own key. -/
def Settles (path : String) : Prop := normalize (normalize path) = normalize path

instance (path : String) : Decidable (Settles path) := inferInstanceAs (Decidable (_ = _))

/-! ## The steps of the pass -/

section Steps

variable {p : Char → Prop} {cs more key : List Char}

/-- What holds of the ends of two texts holds of the ends of both together. -/
theorem ends_append (hcs : ∀ c, cs.head? = some c ∨ cs.getLast? = some c → p c)
    (hmore : ∀ c, more.head? = some c ∨ more.getLast? = some c → p c) (c : Char)
    (hc : (cs ++ more).head? = some c ∨ (cs ++ more).getLast? = some c) : p c := by
  rw [List.head?_append, List.getLast?_append, Option.or_eq_some_iff, Option.or_eq_some_iff] at hc
  rcases hc with (hc | ⟨-, hc⟩) | (hc | ⟨-, hc⟩)
  · exact hcs c (.inl hc)
  · exact hmore c (.inl hc)
  · exact hmore c (.inr hc)
  · exact hcs c (.inr hc)

theorem mem_of_ends {c : Char} (h : cs.head? = some c ∨ cs.getLast? = some c) : c ∈ cs :=
  h.elim List.mem_of_head? List.mem_of_getLast?

theorem dropHere_append (count : Nat) (cs : List Char) : dropHere (here count ++ cs) = dropHere cs := by
  induction count with
  | zero => rfl
  | succ count ih => exact ih

theorem exists_dropHere (cs : List Char) : ∃ count, cs = here count ++ dropHere cs := by
  fun_induction dropHere cs with
  | case1 cs ih =>
    obtain ⟨count, hcs⟩ := ih
    exact ⟨count + 1, congrArg (['.', '/'] ++ ·) hcs⟩
  | case2 cs => exact ⟨0, rfl⟩

theorem not_here_dropHere (cs : List Char) : ¬ ['.', '/'] <+: dropHere cs := by
  fun_induction dropHere cs with
  | case1 cs ih => exact ih
  | case2 cs hcs =>
    rintro ⟨rest, hrest⟩
    exact hcs rest hrest.symm

theorem dropHere_of_not_here (h : ¬ ['.', '/'] <+: cs) : dropHere cs = cs := by
  obtain ⟨count, hcs⟩ := exists_dropHere cs
  cases count with
  | zero => exact hcs.symm
  | succ count => exact absurd ⟨here count ++ dropHere cs, hcs.symm⟩ h

end Steps

/-! ## Keys and their spellings -/

section Keys

variable {cs key : List Char}

/-- A text is a spelling of what the pass makes of it, whatever form that has. -/
theorem spells_normalizeChars (cs : List Char) : Spells (normalizeChars cs) cs := by
  obtain ⟨before, after, hforward, hbefore, hafter⟩ := Chars.exists_trim (forward cs)
  obtain ⟨count, htrim⟩ := exists_dropHere (Chars.trim (forward cs))
  obtain ⟨front, back, hdrop, hfront, hback⟩ :=
    Chars.exists_trimBoth isSlash (dropHere (Chars.trim (forward cs)))
  rw [← normalizeChars_eq] at hdrop
  refine @Spells.intro _ cs before after front back count ?_ hbefore hafter hfront hback ?_
  · rw [← hdrop, ← htrim, ← hforward]
  · rw [← hdrop]
    exact not_here_dropHere _

/-- Each step takes off its part of a spelling of a key: none of them finds more than that. -/
theorem normalizeChars_of_spells (hkey : IsKey key) (h : Spells key cs) : normalizeChars cs = key := by
  obtain @⟨before, after, front, back, count, hforward, hbefore, hafter, hfront, hback, hstop⟩ := h
  have hslash (c : Char) (hc : isSlash c = true) : isBlank c = false := by
    obtain rfl := beq_iff_eq.1 hc
    decide
  have hhere : ∀ c ∈ here count, isBlank c = false := by
    have hmarks : ∀ c ∈ ['.', '/'], isBlank c = false := by decide
    intro c hc
    obtain ⟨part, hpart, hmem⟩ := List.mem_flatten.1 hc
    exact hmarks c (List.eq_of_mem_replicate hpart ▸ hmem)
  have htrim : Chars.trim (here count ++ (front ++ key ++ back)) = here count ++ (front ++ key ++ back) := by
    refine Chars.trimBoth_eq_self_iff.2 (ends_append (fun c hc => hhere c (mem_of_ends hc)) ?_)
    refine ends_append (ends_append (fun c hc => hslash c (hfront c (mem_of_ends hc)))
      fun c hc => (hkey.ends c hc).1) fun c hc => hslash c (hback c (mem_of_ends hc))
  have hends : Chars.trimBoth isSlash key = key :=
    Chars.trimBoth_eq_self_iff.2 fun c hc => beq_eq_false_iff_ne.2 (hkey.ends c hc).2
  rw [normalizeChars_eq, hforward, Chars.trim_append hbefore hafter, htrim, dropHere_append,
    dropHere_of_not_here hstop, Chars.trimBoth_append hfront hback, hends]

/-- The texts that come to a key are its spellings. -/
theorem normalizeChars_eq_iff (hkey : IsKey key) : normalizeChars cs = key ↔ Spells key cs := by
  constructor
  · rintro rfl
    exact spells_normalizeChars cs
  · exact normalizeChars_of_spells hkey

/-- The texts that stay as they are have the form of a key. -/
theorem normalizeChars_eq_self_iff : normalizeChars cs = cs ↔ IsKey cs := by
  constructor
  · intro h
    obtain ⟨hbackslash, htrim⟩ := plain_of_normalizeChars h
    have hpass := h
    rw [normalizeChars_eq, forward_eq_self_iff.2 hbackslash, htrim] at hpass
    -- no step adds anything, so the text is not shorter behind any of them
    have hdrop : dropHere cs = cs := by
      refine (dropHere_sublist cs).eq_of_length_le ?_
      have hlength := (trimBoth_sublist isSlash (dropHere cs)).length_le
      rwa [hpass] at hlength
    rw [hdrop] at hpass
    refine ⟨hbackslash, fun c hc => ⟨Chars.ends_of_trim htrim hc, ?_⟩, ?_⟩
    · exact beq_eq_false_iff_ne.1 (Chars.trimBoth_eq_self_iff.1 hpass c hc)
    · rw [← hdrop]
      exact not_here_dropHere cs
  · intro hkey
    refine normalizeChars_of_spells hkey (@Spells.intro cs cs [] [] [] [] 0 ?_ nofun nofun nofun nofun ?_)
    · simpa [here] using forward_eq_self_iff.2 hkey.no_backslash
    · simpa using hkey.no_here

end Keys

/-! ## Paths -/

variable {path : String}

theorem normalize_eq_iff {key : List Char} (hkey : IsKey key) :
    normalize path = String.ofList key ↔ Spells key path.toList := by
  rw [← normalizeChars_eq_iff hkey, normalize, onChars, String.ofList_inj]

/-- A path has a key of its own exactly if it is a spelling of a text that has the form of one. -/
theorem settles_iff : Settles path ↔ ∃ key, IsKey key ∧ Spells key path.toList := by
  rw [Settles, normalize, onChars, normalize, onChars, String.toList_ofList, String.ofList_inj,
    normalizeChars_eq_self_iff]
  constructor
  · exact fun hkey => ⟨_, hkey, spells_normalizeChars _⟩
  · rintro ⟨key, hkey, hspells⟩
    rwa [normalizeChars_of_spells hkey hspells]

example : Settles " .\\./src/a b/" ∧ ¬ Settles "/./a" ∧ ¬ Settles "/ a" := by decide

end CodeReview.Path
