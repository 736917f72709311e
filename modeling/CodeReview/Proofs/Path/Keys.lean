import CodeReview.Proofs.Path.Lexical
import CodeReview.Proofs.Text.Chars

/-!
# Paths that are keys

`normalize_eq_self_iff`: a path of names is its own key exactly if it is plain, that is, if it has no
backslash and no white space at its ends.
-/

namespace CodeReview.Path

open Text FileSystem

/-- A path without backslashes and without white space at its ends. -/
structure IsPlain (path : String) : Prop where
  no_backslash : '\\' ∉ path.toList
  front : ∀ c ∈ path.toList.head?, isBlank c = false
  back : ∀ c ∈ path.toList.getLast?, isBlank c = false

/-! ## The pass over the characters -/

section Pass

variable {cs : List Char}

/-- Slashes for backslashes. -/
def forward (cs : List Char) : List Char := cs.map fun c => if c == '\\' then '/' else c

theorem normalizeChars_eq (cs : List Char) :
    normalizeChars cs = Chars.trimBoth isSlash (dropHere (Chars.trim (forward cs))) := rfl

theorem forward_eq_self_iff : forward cs = cs ↔ '\\' ∉ cs := by
  constructor
  · intro h hmem
    rw [← h, forward] at hmem
    obtain ⟨c, -, hc⟩ := List.mem_map.1 hmem
    split at hc
    · exact absurd hc (by decide)
    · next hne => exact hne (beq_iff_eq.2 hc)
  · intro h
    refine (List.map_congr_left fun c hc => if_neg ?_).trans (List.map_id cs)
    exact fun heq => h (beq_iff_eq.1 heq ▸ hc)

theorem trimBoth_sublist (p : Char → Bool) (cs : List Char) : (Chars.trimBoth p cs).Sublist cs :=
  (List.rdropWhile_prefix p _).sublist.trans (List.dropWhile_sublist p)

theorem dropHere_sublist (cs : List Char) : (dropHere cs).Sublist cs := by
  fun_induction dropHere cs with
  | case1 cs ih => exact (ih.cons '/').cons '.'
  | case2 => exact .refl _

/-- A character that no step changes or drops stays. -/
theorem mem_normalizeChars {c : Char} (hc : c ∈ cs) (hblank : isBlank c = false) (hmark : c ∉ ['\\', '/', '.']) :
    c ∈ normalizeChars cs := by
  obtain ⟨hbackslash, hslash, hdot⟩ : c ≠ '\\' ∧ c ≠ '/' ∧ c ≠ '.' := by simpa using hmark
  have hforward : c ∈ forward cs := List.mem_map.2 ⟨c, hc, if_neg (by simpa using hbackslash)⟩
  have hdrop (cs : List Char) (hc : c ∈ cs) : c ∈ dropHere cs := by
    fun_induction dropHere cs with
    | case1 cs ih => exact ih (by simpa [hdot, hslash] using hc)
    | case2 => exact hc
  have htrim : c ∈ Chars.trim (forward cs) := by
    rwa [← List.count_pos_iff, Chars.count_trim hblank, List.count_pos_iff]
  rw [normalizeChars_eq, ← List.count_pos_iff, Chars.count_trimBoth (by simpa [isSlash] using hslash),
    List.count_pos_iff]
  exact hdrop _ htrim

/-- The pass only drops characters once the backslashes are gone, so a text that comes out as it was
went through each step as it was. -/
theorem plain_of_normalizeChars (h : normalizeChars cs = cs) : '\\' ∉ cs ∧ Chars.trim cs = cs := by
  have hdropped : cs.Sublist (Chars.trim (forward cs)) := by
    have hsub := (trimBoth_sublist isSlash _).trans (dropHere_sublist (Chars.trim (forward cs)))
    rwa [← normalizeChars_eq, h] at hsub
  have htrimmed := trimBoth_sublist isBlank (forward cs)
  have hlength : (forward cs).length ≤ cs.length := (List.length_map _).le
  have hforward : cs = forward cs := (hdropped.trans htrimmed).eq_of_length_le hlength
  rw [← hforward] at hdropped htrimmed
  exact ⟨forward_eq_self_iff.1 hforward.symm, htrimmed.eq_of_length_le hdropped.length_le⟩

theorem dropHere_eq_self (h : ∀ part ∈ Chars.splitOn '/' cs, IsStep part) : dropHere cs = cs := by
  unfold dropHere
  split
  · next rest =>
    have hsplit : Chars.splitOn '/' ('.' :: '/' :: rest) = ['.'] :: Chars.splitOn '/' rest :=
      Chars.splitOn_append '/' ['.'] rest
    exact absurd rfl (h ['.'] (hsplit ▸ List.mem_cons_self)).ne_here
  · rfl

/-- A path of steps has no slash at its ends. -/
theorem trimBoth_isSlash_eq_self (h : ∀ part ∈ Chars.splitOn '/' cs, IsStep part) :
    Chars.trimBoth isSlash cs = cs := by
  refine Chars.trimBoth_eq_self_iff.2 fun c hc => beq_eq_false_iff_ne.2 ?_
  rintro rfl
  rcases hc with hfirst | hlast
  · obtain ⟨rest, rfl⟩ := List.head?_eq_some_iff.1 hfirst
    have hsplit : Chars.splitOn '/' ('/' :: rest) = [] :: Chars.splitOn '/' rest :=
      Chars.splitOn_append '/' [] rest
    exact (h [] (hsplit ▸ List.mem_cons_self)).ne_empty rfl
  · obtain ⟨front, rfl⟩ := List.getLast?_eq_some_iff.1 hlast
    rw [Chars.splitOn_append] at h
    exact (h [] (List.mem_append_right _ List.mem_cons_self)).ne_empty rfl

end Pass

/-! ## Whole paths -/

variable {path : String}

theorem isPlain_iff : IsPlain path ↔ '\\' ∉ path.toList ∧ Chars.trim path.toList = path.toList := by
  constructor
  · intro h
    refine ⟨h.no_backslash, Chars.trimBoth_eq_self_iff.2 fun c hc => ?_⟩
    exact hc.elim (h.front c) (h.back c)
  · rintro ⟨hbackslash, htrim⟩
    exact ⟨hbackslash, fun c hc => Chars.ends_of_trim htrim (.inl hc),
      fun c hc => Chars.ends_of_trim htrim (.inr hc)⟩

instance (path : String) : Decidable (IsPlain path) := decidable_of_iff _ isPlain_iff.symm

example : IsPlain "src/a b.py" ∧ ¬ IsPlain "src\\a.py" := by decide

/-- A key is no longer than the path. -/
theorem length_normalize_le (path : String) : (normalize path).length ≤ path.length := by
  have hlength := ((trimBoth_sublist isSlash _).trans ((dropHere_sublist _).trans
    (trimBoth_sublist isBlank (forward path.toList)))).length_le
  rw [forward, List.length_map, String.length_toList] at hlength
  rw [normalize, onChars, String.length_ofList]
  exact hlength

theorem normalize_ne_empty {c : Char} (hc : c ∈ path.toList) (hblank : isBlank c = false)
    (hmark : c ∉ ['\\', '/', '.']) : normalize path ≠ "" := by
  intro hempty
  have hmem := mem_normalizeChars hc hblank hmark
  rw [normalize, onChars, String.ofList_eq_empty_iff] at hempty
  rw [hempty] at hmem
  exact List.not_mem_nil hmem

/-- A key of its own has no backslash and no white space at its ends. -/
theorem isPlain_of_normalize (h : normalize path = path) : IsPlain path := by
  have hchars := congrArg String.toList h
  rw [normalize, onChars, String.toList_ofList] at hchars
  exact isPlain_iff.2 (plain_of_normalizeChars hchars)

/-- A path of names is its own key exactly if it is plain. -/
theorem normalize_eq_self_iff (h : ∀ name ∈ namesIn path, IsName name) :
    normalize path = path ↔ IsPlain path := by
  refine ⟨isPlain_of_normalize, fun hplain => ?_⟩
  by_cases hempty : path = ""
  · rw [hempty]
    rfl
  · have hsteps : ∀ part ∈ Chars.splitOn '/' path.toList, IsStep part := descends_of_names hempty h
    obtain ⟨hbackslash, htrim⟩ := isPlain_iff.1 hplain
    rw [normalize, onChars, normalizeChars_eq, forward_eq_self_iff.2 hbackslash, htrim,
      dropHere_eq_self hsteps, trimBoth_isSlash_eq_self hsteps, String.ofList_toList]

end CodeReview.Path
