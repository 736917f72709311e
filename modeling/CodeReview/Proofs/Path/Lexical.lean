import CodeReview.Proofs.FileSystem.Paths
import Mathlib.Data.List.DropRight

/-!
# Simplified paths

What a path looks like when it has been simplified by its text alone: components that cancel are gone,
and what is left of `..` stands in front. A path that does not start so, and that is not absolute, stays
below the folder that it is taken from (`simplify_cases`), and simplifying it once more changes nothing
(`simplify_of_descends`).
-/

namespace CodeReview.Path

open Text FileSystem

/-- A component that names something in the folder before it. -/
structure IsStep (part : List Char) : Prop where
  ne_empty : part ≠ []
  ne_here : part ≠ ['.']
  ne_parent : part ≠ ['.', '.']
  no_slash : '/' ∉ part

instance (part : List Char) : Decidable (IsStep part) :=
  decidable_of_iff (part ≠ [] ∧ part ≠ ['.'] ∧ part ≠ ['.', '.'] ∧ '/' ∉ part)
    ⟨fun ⟨hempty, hhere, hparent, hslash⟩ => ⟨hempty, hhere, hparent, hslash⟩,
      fun ⟨hempty, hhere, hparent, hslash⟩ => ⟨hempty, hhere, hparent, hslash⟩⟩

/-- All components of the path are steps, the first of them from the folder that it is taken from. -/
def Descends (path : String) : Prop := ∀ part ∈ Chars.splitOn '/' path.toList, IsStep part

instance (path : String) : Decidable (Descends path) :=
  inferInstanceAs (Decidable (∀ part ∈ Chars.splitOn '/' path.toList, IsStep part))

section Components

variable {part : List Char} {parts before : List (List Char)} {absolute : Bool}

theorem addComponent_of_isStep (h : IsStep part) :
    addComponent absolute before part = part :: before := by
  unfold addComponent
  rw [if_neg (by simpa using ⟨h.ne_empty, h.ne_here⟩), if_neg (by simpa using h.ne_parent)]

theorem resolveDots_of_isStep (h : ∀ part ∈ parts, IsStep part) :
    resolveDots absolute parts = parts := by
  have hfold (before : List (List Char)) :
      parts.foldl (addComponent absolute) before = parts.reverse ++ before := by
    induction parts generalizing before with
    | nil => rfl
    | cons part parts ih =>
      rw [List.foldl_cons, addComponent_of_isStep (h part List.mem_cons_self),
        ih (fun other hother => h other (List.mem_cons_of_mem part hother))]
      simp
  rw [resolveDots, hfold, List.append_nil, List.reverse_reverse]

/-- Steps, the last one first, behind components that lead upwards. -/
def Upward (before : List (List Char)) : Prop :=
  ∃ steps n, before = steps ++ List.replicate n ['.', '.'] ∧ ∀ part ∈ steps, IsStep part

theorem upward_addComponent (h : Upward before) (hslash : '/' ∉ part) :
    Upward (addComponent false before part) := by
  obtain ⟨steps, n, rfl, hsteps⟩ := h
  unfold addComponent
  split
  · exact ⟨steps, n, rfl, hsteps⟩
  next hname =>
  split
  · next hparent =>
    obtain rfl := beq_iff_eq.1 hparent
    cases steps with
    | nil =>
      cases n with
      | zero => exact ⟨[], 1, rfl, nofun⟩
      | succ n => exact ⟨[], n + 2, by simp [List.replicate_succ], nofun⟩
    | cons step steps =>
      have hstep := hsteps step List.mem_cons_self
      refine ⟨steps, n, ?_, fun other hother => hsteps other (List.mem_cons_of_mem step hother)⟩
      simp [hstep.ne_parent]
  · next hparent =>
    simp only [Bool.or_eq_true, beq_iff_eq, not_or] at hname hparent
    exact ⟨part :: steps, n, rfl,
      List.forall_mem_cons.2 ⟨⟨hname.1, hname.2, hparent, hslash⟩, hsteps⟩⟩

/-- What is left of the components of a relative path leads upwards first and then down. -/
theorem exists_resolveDots (hslash : ∀ part ∈ parts, '/' ∉ part) :
    ∃ n steps, resolveDots false parts = List.replicate n ['.', '.'] ++ steps ∧
      ∀ part ∈ steps, IsStep part := by
  have hfold (before : List (List Char)) (hbefore : Upward before) :
      Upward (parts.foldl (addComponent false) before) := by
    induction parts generalizing before with
    | nil => exact hbefore
    | cons part parts ih =>
      exact ih (fun other hother => hslash other (List.mem_cons_of_mem part hother)) _
        (upward_addComponent hbefore (hslash part List.mem_cons_self))
  obtain ⟨steps, n, hsteps, hall⟩ := hfold [] ⟨[], 0, rfl, nofun⟩
  refine ⟨n, steps.reverse, ?_, by simpa using hall⟩
  rw [resolveDots, hsteps, List.reverse_append, List.reverse_replicate]

end Components

section Paths

variable {path : String}

theorem ne_empty_of_descends (h : Descends path) : path ≠ "" := by
  rintro rfl
  exact (h [] List.mem_cons_self).ne_empty rfl

theorem leadingSlashes_of_not_startsWith (h : startsWith "/" path = false) :
    leadingSlashes path.toList = 0 := by
  rw [startsWith] at h
  unfold leadingSlashes
  cases hchars : path.toList with
  | nil => rfl
  | cons c cs =>
    have hc : isSlash c = false := by
      refine beq_eq_false_iff_ne.2 ?_
      rintro rfl
      rw [hchars] at h
      cases h
    rw [List.takeWhile_cons_of_neg (by simp [hc])]
    rfl

theorem not_startsWith_of_descends (h : Descends path) : startsWith "/" path = false := by
  refine Bool.eq_false_iff.2 fun hstart => ?_
  obtain ⟨behind, hbehind⟩ := List.isPrefixOf_iff_prefix.1 hstart
  rw [Descends, ← hbehind] at h
  exact (h [] List.mem_cons_self).ne_empty rfl

theorem leadingSlashes_of_descends (h : Descends path) : leadingSlashes path.toList = 0 :=
  leadingSlashes_of_not_startsWith (not_startsWith_of_descends h)

/-- A path of steps is as simple as it can be. -/
theorem simplify_of_descends (h : Descends path) : simplify path = path := by
  have hne : path.toList ≠ [] := mt String.toList_eq_nil_iff.1 (ne_empty_of_descends h)
  rw [simplify, onChars, simplifyChars]
  rw [leadingSlashes_of_descends h, resolveDots_of_isStep h, Chars.join_splitOn, List.replicate_zero,
    List.nil_append, if_neg (by simpa using hne), String.ofList_toList]

theorem notMem_components_of_descends (h : Descends path) : ".." ∉ components path := by
  intro hmem
  obtain ⟨part, hpart, hparent⟩ := List.mem_map.1 hmem
  refine (h part hpart).ne_parent ?_
  rw [← String.toList_ofList (l := part), hparent]
  rfl

/-- A path of steps does not lead out of the folder that it is taken from. -/
theorem inside_of_descends (h : Descends path) :
    (path.isEmpty || path == ".." || startsWith "../" path) = false := by
  have hempty := ne_empty_of_descends h
  have hparent : path ≠ ".." := by
    rintro rfl
    exact (h ['.', '.'] List.mem_cons_self).ne_parent rfl
  have hstart : startsWith "../" path = false := by
    refine Bool.eq_false_iff.2 fun hstart => ?_
    obtain ⟨behind, hbehind⟩ := List.isPrefixOf_iff_prefix.1 hstart
    have hsplit : Chars.splitOn '/' ("../".toList ++ behind) =
        ['.', '.'] :: Chars.splitOn '/' behind := Chars.splitOn_append '/' ['.', '.'] behind
    rw [Descends, ← hbehind, hsplit] at h
    exact (h ['.', '.'] List.mem_cons_self).ne_parent rfl
  simp [hempty, hparent, hstart]

theorem descends_of_names (hne : path ≠ "")
    (h : ∀ name ∈ namesIn path, IsName name) : Descends path := by
  intro part hpart
  rw [namesIn, if_neg (by simpa using hne)] at h
  have hname := h (String.ofList part) (List.mem_map_of_mem hpart)
  have hchars {name : String} (hother : String.ofList part ≠ name) : part ≠ name.toList := by
    rintro rfl
    exact hother (String.ofList_toList)
  exact ⟨hchars hname.ne_empty, hchars hname.ne_here, hchars hname.ne_parent,
    Chars.notMem_of_mem_splitOn hpart⟩

theorem descends_of_name {name : String} (hslash : '/' ∉ name.toList)
    (hlong : 2 < name.utf8ByteSize) : Descends name := by
  have hne {short : List Char} (hshort : (String.ofList short).utf8ByteSize ≤ 2) :
      name.toList ≠ short := by
    rintro rfl
    rw [String.ofList_toList] at hshort
    exact Nat.not_lt.2 hshort hlong
  rw [Descends, Chars.splitOn_of_notMem hslash]
  exact fun part hpart => List.mem_singleton.1 hpart ▸
    ⟨hne (by decide), hne (by decide), hne (by decide), hslash⟩

/-- A path of steps with more characters at its end, which make the last step longer. -/
theorem descends_append {ending : String} (h : Descends path) (hslash : '/' ∉ ending.toList)
    (hlong : 2 < ending.utf8ByteSize) : Descends (path ++ ending) := by
  have hlast {last : List Char} (hlast : '/' ∉ last) : IsStep (last ++ ending.toList) := by
    have hname : Descends (String.ofList last ++ ending) := by
      refine descends_of_name ?_ ?_
      · simp [hlast, hslash]
      · rw [String.utf8ByteSize_append]
        omega
    have hnone : '/' ∉ (String.ofList last ++ ending).toList := by simp [hlast, hslash]
    rw [Descends, Chars.splitOn_of_notMem hnone, String.toList_append, String.toList_ofList] at hname
    exact hname _ List.mem_cons_self
  intro part hpart
  rw [String.toList_append] at hpart
  by_cases hmem : '/' ∈ path.toList
  · have hchars := Chars.beforeLast_append_afterLast hmem
    have hnone : '/' ∉ Chars.afterLast '/' path.toList ++ ending.toList := by
      simpa [hslash] using Chars.notMem_afterLast '/' path.toList
    rw [← hchars, List.append_assoc, List.cons_append, Chars.splitOn_append,
      Chars.splitOn_of_notMem hnone] at hpart
    rcases List.mem_append.1 hpart with hpart | hpart
    · refine h part ?_
      rw [← hchars, Chars.splitOn_append]
      exact List.mem_append_left _ hpart
    · exact List.mem_singleton.1 hpart ▸ hlast (Chars.notMem_afterLast '/' path.toList)
  · have hnone : '/' ∉ path.toList ++ ending.toList := by simp [hmem, hslash]
    rw [Chars.splitOn_of_notMem hnone] at hpart
    exact List.mem_singleton.1 hpart ▸ hlast hmem

theorem descends_child {name : String} (h : Descends path) (hname : Descends name) :
    Descends (child path name) := by
  have hchars : (path ++ "/" ++ name).toList = path.toList ++ '/' :: name.toList := by
    simp [String.toList_append]
  rw [child, if_neg (by simpa using ne_empty_of_descends h), Descends, hchars, Chars.splitOn_append]
  exact List.forall_mem_append.2 ⟨h, hname⟩

/-- A name that is taken from a path of steps stands below it. -/
theorem joinTo_of_descends {name : String} (h : Descends path) (hname : Descends name) :
    joinTo path name = child path name := by
  have hend : endsWith "/" path = false := by
    refine Bool.eq_false_iff.2 fun hend => ?_
    obtain ⟨names, hnames, -⟩ := components_of_endsWith hend ""
    rw [components, splitOn] at hnames
    have hempty : "" ∈ (Chars.splitOn '/' path.toList).map String.ofList := by simp [hnames]
    obtain ⟨part, hpart, hnone⟩ := List.mem_map.1 hempty
    exact (h part hpart).ne_empty (String.ofList_eq_empty_iff.1 hnone)
  have hne := ne_empty_of_descends h
  rw [joinTo, not_startsWith_of_descends hname, if_neg Bool.false_ne_true, if_neg (by simp [hne, hend]),
    child, if_neg (by simpa using hne)]

theorem not_startsWith_of_prefix {whole : String} (hwithin : path.toList <+: whole.toList)
    (h : startsWith "/" whole = false) : startsWith "/" path = false :=
  Bool.eq_false_iff.2 fun hstart => Bool.eq_false_iff.1 h <|
    List.isPrefixOf_iff_prefix.2 ((List.isPrefixOf_iff_prefix.1 hstart).trans hwithin)

theorem not_startsWith_trimStart (cs : List Char) :
    startsWith "/" (String.ofList (Chars.trimStart isSlash cs)) = false := by
  refine Bool.eq_false_iff.2 fun hstart => ?_
  obtain ⟨rest, hrest⟩ := List.isPrefixOf_iff_prefix.1 hstart
  have hhead := List.head?_dropWhile_not isSlash cs
  have hchars := @String.toList_ofList (Chars.trimStart isSlash cs)
  rw [← Chars.trimStart, ← hchars, ← hrest] at hhead
  cases hhead

/-- No key is an absolute path. -/
theorem not_startsWith_normalize (path : String) : startsWith "/" (normalize path) = false := by
  refine not_startsWith_of_prefix ?_ (not_startsWith_trimStart
    (dropHere (Chars.trim (path.toList.map fun c => if c == '\\' then '/' else c))))
  rw [normalize, onChars, String.toList_ofList, String.toList_ofList]
  exact List.rdropWhile_prefix isSlash _

/-- A simplified path is absolute, or it starts by leading upwards, or it is the folder that it is taken
from, or it is a path of steps. -/
theorem simplify_cases (path : String) : startsWith "/" (simplify path) = true ∨
    simplify path = ".." ∨ startsWith "../" (simplify path) = true ∨ simplify path = "." ∨
      Descends (simplify path) := by
  rw [simplify, onChars, simplifyChars]
  cases hslashes : leadingSlashes path.toList with
  | succ slashes =>
    refine .inl ?_
    rw [List.replicate_succ, List.cons_append, List.isEmpty_cons, if_neg Bool.false_ne_true]
    simp [startsWith]
  | zero =>
    refine .inr ?_
    obtain ⟨n, steps, hdots, hsteps⟩ :=
      exists_resolveDots fun part hpart => @Chars.notMem_of_mem_splitOn '/' path.toList part hpart
    rw [List.replicate_zero, List.nil_append, decide_eq_false (Nat.lt_irrefl 0), hdots]
    cases n with
    | zero =>
      rw [List.replicate_zero, List.nil_append]
      refine .inr (.inr ?_)
      by_cases hnone : steps = []
      · subst hnone
        exact .inl rfl
      · refine .inr ?_
        have hparts := Chars.splitOn_join (fun part hpart => (hsteps part hpart).no_slash) hnone
        have hne : Chars.join ['/'] steps ≠ [] := by
          intro hempty
          rw [hempty] at hparts
          exact (hsteps [] (hparts ▸ List.mem_cons_self)).ne_empty rfl
        rw [if_neg (by simpa using hne), Descends, String.toList_ofList, hparts]
        exact hsteps
    | succ n =>
      rw [List.replicate_succ, List.cons_append]
      by_cases hlast : List.replicate n ['.', '.'] ++ steps = []
      · rw [hlast]
        exact .inl rfl
      · refine .inr (.inl ?_)
        rw [Chars.join_cons hlast]
        simp [startsWith]

end Paths

end CodeReview.Path
