import CodeReview.Dependency.Language
import CodeReview.Proofs.Text.Chars

/-!
# Extensions

The rules for the extension of a file come to one answer (`Dependency.extensions_agree`), so a file that is
scanned as a source of a language is also labelled as one.

`HasExtension` says what the extension of a name is: what follows its last dot, if something other than
dots stands before that. Each rule looks for it in another way, and each is compared with it alone.
-/

namespace CodeReview

open Text

namespace Path

/-! ## Names -/

/-- What a name has for an extension, if it has one. -/
inductive HasExtension : List Char → Option (List Char) → Prop
  | given {stem written : List Char} (hstem : ∃ c ∈ stem, c ≠ '.') (hwritten : '.' ∉ written) :
    HasExtension (stem ++ '.' :: written) (some written)
  | missing {dots rest : List Char} (hdots : ∀ c ∈ dots, c = '.') (hrest : '.' ∉ rest) :
    HasExtension (dots ++ rest) none

theorem exists_hasExtension (name : List Char) : ∃ extension?, HasExtension name extension? := by
  by_cases hdot : '.' ∈ name
  · have hcut := Chars.beforeLast_append_afterLast hdot
    have hwritten := Chars.notMem_afterLast '.' name
    by_cases hstem : ∃ c ∈ Chars.beforeLast '.' name, c ≠ '.'
    · have hgiven := HasExtension.given hstem hwritten
      exact ⟨_, hcut ▸ hgiven⟩
    · have hdots : ∀ c ∈ Chars.beforeLast '.' name ++ ['.'], c = '.' := by
        simpa [or_imp, forall_and] using hstem
      have hmissing := HasExtension.missing hdots hwritten
      rw [List.append_assoc, List.singleton_append, hcut] at hmissing
      exact ⟨none, hmissing⟩
  · exact ⟨none, @HasExtension.missing [] name nofun hdot⟩

namespace HasExtension

variable {name written : List Char} {extension? : Option (List Char)}

/-- Without the dots in front of it, a name still has its extension. -/
theorem exists_trimStart (h : HasExtension name (some written)) :
    ∃ stem, Chars.trimStart isDot name = stem ++ '.' :: written := by
  cases h with
  | @given stem _ hstem _ =>
    obtain ⟨c, hc, hne⟩ := hstem
    have hleft : stem.dropWhile isDot ≠ [] := fun hnil =>
      hne (beq_iff_eq.1 (List.dropWhile_eq_nil_iff.1 hnil c hc))
    refine ⟨stem.dropWhile isDot, ?_⟩
    rw [Chars.trimStart, List.dropWhile_append, if_neg (by simpa using hleft)]

/-- Behind the dots in front of a name a dot is left exactly if the name has an extension. -/
theorem contains_trimStart (h : HasExtension name extension?) :
    (Chars.trimStart isDot name).contains '.' = extension?.isSome := by
  cases h with
  | given hstem hwritten =>
    obtain ⟨stem, hname⟩ := (given hstem hwritten).exists_trimStart
    rw [hname]
    simp
  | @missing dots rest hdots hrest =>
    have hall : ∀ c ∈ dots, isDot c = true := fun c hc => beq_iff_eq.2 (hdots c hc)
    have hleft : '.' ∉ rest.dropWhile isDot := fun hmem =>
      hrest ((List.dropWhile_sublist isDot).mem hmem)
    rw [Chars.trimStart, List.dropWhile_append_of_pos hall]
    simpa using hleft

theorem notMem (h : HasExtension name (some written)) : '.' ∉ written := by
  cases h with
  | given _ hwritten => exact hwritten

theorem afterLast_eq (h : HasExtension name (some written)) : Chars.afterLast '.' name = written := by
  cases h with
  | given _ hwritten => exact Chars.afterLast_append hwritten _

theorem afterLast_trimStart (h : HasExtension name (some written)) :
    Chars.afterLast '.' (Chars.trimStart isDot name) = written := by
  obtain ⟨stem, hname⟩ := h.exists_trimStart
  rw [hname, Chars.afterLast_append h.notMem]

/-- The suffix of a path is the extension of its name, with the dot. -/
theorem suffixChars_eq {path : List Char} (h : HasExtension (Chars.afterLast '/' path) extension?) :
    suffixChars path = (extension?.map ('.' :: ·)).getD [] := by
  unfold suffixChars
  generalize Chars.afterLast '/' path = name at h ⊢
  dsimp only
  cases h with
  | @given stem written hstem hwritten =>
    have hany : (Chars.beforeLast '.' (stem ++ '.' :: written)).any (!isDot ·) = true := by
      rw [Chars.beforeLast_append hwritten]
      simpa [isDot] using hstem
    rw [hany, if_pos (by simp), Chars.afterLast_append hwritten]
    rfl
  | @missing dots rest hdots hrest =>
    refine if_neg ?_
    rcases List.eq_nil_or_concat dots with rfl | ⟨before, last, rfl⟩
    · simp [hrest]
    · rw [List.concat_eq_append] at hdots ⊢
      obtain rfl := hdots last (by simp)
      rw [List.append_assoc, List.singleton_append, Chars.beforeLast_append hrest]
      have hbefore : ∀ c ∈ before, c = '.' := fun c hc => hdots c (List.mem_append_left _ hc)
      simpa [isDot] using hbefore

end HasExtension

/-! ## Paths -/

/-- A dot in front does not count for small letters. -/
theorem lower_cons_dot (cs : List Char) : lower ('.' :: cs) = '.' :: lower cs := by
  have hdot : lowerChar '.' = ['.'] := by decide
  have hcase : (if isCaseIgnorable '.' then false else isCased '.') = false := by decide
  rw [lower, lowerAfter, hcase, if_neg (by decide), hdot]
  rfl

section Paths

variable {path : String} {extension? : Option (List Char)}
  (h : HasExtension (Chars.afterLast '/' path.toList) extension?)
include h

theorem extension_eq : extension path = String.ofList (lower (extension?.getD [])) := by
  unfold extension
  dsimp only
  rw [h.contains_trimStart]
  cases extension? with
  | none => rfl
  | some written => rw [Option.isSome_some, if_pos rfl, h.afterLast_eq, Option.getD_some]

theorem nameExtension_name : nameExtension (name path) = String.ofList (lower (extension?.getD [])) := by
  unfold nameExtension name onChars
  rw [String.toList_ofList]
  dsimp only
  rw [h.contains_trimStart]
  cases extension? with
  | none => rfl
  | some written => rw [Option.isSome_some, if_pos rfl, h.afterLast_trimStart, Option.getD_some]

theorem lowercase_suffix : lowercase (suffix path) =
    String.ofList ((extension?.map fun written => '.' :: lower written).getD []) := by
  rw [lowercase, suffix, onChars, onChars, String.toList_ofList, h.suffixChars_eq]
  cases extension? with
  | none => rfl
  | some written => rw [Option.map_some, Option.map_some, Option.getD_some, Option.getD_some, lower_cons_dot]

end Paths

end Path

namespace Dependency

/-- The labels that the suffixes of a language stand for. -/
def Language.labels (language : Language) : List String :=
  language.suffixes.filterMap fun suffix => languageLabels.get? (onChars (List.drop 1) suffix)

theorem Language.exists_label (language : Language) :
    ∀ suffix ∈ language.suffixes, suffix ≠ "" ∧ ∃ label ∈ language.labels,
      languageLabels.get? (onChars (List.drop 1) suffix) = some label := by
  cases language <;> decide

theorem Language.mem_suffixes {path : String} {language : Language} (h : ofPath? path = some language) :
    lowercase (Path.suffix path) ∈ language.suffixes := by
  generalize hsuffix : lowercase (Path.suffix path) = suffix
  rw [ofPath?, hsuffix] at h
  simpa using List.find?_some h

theorem detectLanguage_eq {path : String} {written : List Char}
    (h : Path.HasExtension (Chars.afterLast '/' path.toList) (some written)) :
    detectLanguage path = some
      ((languageLabels.get? (Path.extension path)).getD (Path.extension path)) := by
  rw [detectLanguage, h.contains_trimStart]
  rfl

/-- The extension by the rule of nodes, by that of the filter and by that of suffixes is one and the same.
A file that is scanned for a language has one of the labels that belong to its suffixes. -/
theorem extensions_agree (path : String) :
    Path.nameExtension (Path.name path) = Path.extension path ∧
      onChars (List.drop 1) (lowercase (Path.suffix path)) = Path.extension path ∧
      (∀ extension?, Path.HasExtension (Chars.afterLast '/' path.toList) extension? →
        Path.extension path = String.ofList (lower (extension?.getD []))) ∧
      ∀ language, Language.ofPath? path = some language →
        ∃ label ∈ language.labels, detectLanguage path = some label := by
  obtain ⟨extension?, h⟩ := Path.exists_hasExtension (Chars.afterLast '/' path.toList)
  have hextension := Path.extension_eq h
  have hsuffix := Path.lowercase_suffix h
  have hdrop : onChars (List.drop 1) (lowercase (Path.suffix path)) = Path.extension path := by
    rw [hsuffix, hextension, onChars, String.toList_ofList]
    cases extension? <;> rfl
  refine ⟨(Path.nameExtension_name h).trans hextension.symm, hdrop, fun _ => Path.extension_eq,
    fun language hlanguage => ?_⟩
  obtain ⟨hne, label, hlabel, hget⟩ := language.exists_label _ (Language.mem_suffixes hlanguage)
  rw [hdrop] at hget
  refine ⟨label, hlabel, ?_⟩
  cases extension? with
  | none => exact absurd hsuffix hne
  | some written => rw [detectLanguage_eq h, hget, Option.getD_some]

/-- Neither dots in a folder nor capital letters come between the rules. -/
theorem extensions_agree_capitals :
    Language.ofPath? "pkg.d/Main.test.JSX" = some .javascript ∧
      ∃ label ∈ Language.javascript.labels, detectLanguage "pkg.d/Main.test.JSX" = some label := by
  have hlanguage : Language.ofPath? "pkg.d/Main.test.JSX" = some .javascript := by decide
  exact ⟨hlanguage, (extensions_agree "pkg.d/Main.test.JSX").2.2.2 .javascript hlanguage⟩

end Dependency

end CodeReview
