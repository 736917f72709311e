import CodeReview.Proofs.FileSystem.Locations

/-!
# Writing into a folder

* `resolve_put`: what is put where nothing but a file or a pipe stands changes only what stands there.
* `writeInto_cases`: a file that is written into a folder is put there under its name, or the write
  fails.
* `LeadsOutside.writeInto`: a path that leads outside of the folder leads where it did.

A file is written by the path that the folder and the name make together. What stands before the name
in that path is the tidy folder again (`Path.parent_under`).
-/

namespace CodeReview

open Text FileSystem

namespace Path

/-! ## The folder of a path -/

section Chars

variable {cs : List Char}

theorem join_concat {parts : List (List Char)} (h : parts ≠ []) (part : List Char) :
    Chars.join ['/'] (parts ++ [part]) = Chars.join ['/'] parts ++ '/' :: part := by
  induction parts with
  | nil => exact absurd rfl h
  | cons first parts ih =>
    rw [List.cons_append, Chars.join_cons (by simp)]
    cases parts with
    | nil => simp [Chars.join, List.intercalate]
    | cons next parts =>
      rw [ih (List.cons_ne_nil _ _), Chars.join_cons (List.cons_ne_nil _ _)]
      simp

theorem kept_kept (slashes : Nat) (cs : List Char) :
    kept (List.replicate slashes '/' ++ Chars.join ['/'] (kept cs)) = kept cs := by
  have hempty : (List.replicate slashes ([] : List Char)).filter
      (fun part => !(part == [] || part == ['.'])) = [] :=
    List.filter_eq_nil_iff.2 fun part hpart => by simp [List.eq_of_mem_replicate hpart]
  rw [kept, splitOn_replicate, List.filter_append, hempty, List.nil_append]
  by_cases hnone : kept cs = []
  · rw [hnone]
    rfl
  · rw [splitOn_join_kept hnone, kept, List.filter_filter]
    simp

theorem no_slash_of_mem_kept {part : List Char} (h : part ∈ kept cs) : '/' ∉ part :=
  Chars.notMem_of_mem_splitOn (List.mem_filter.1 h).1

/-- Components that count start with something else than a slash. -/
theorem takeWhile_join_kept (cs : List Char) :
    (Chars.join ['/'] (kept cs)).takeWhile isSlash = [] := by
  cases hkept : kept cs with
  | nil => rfl
  | cons part parts =>
    have hmem : part ∈ kept cs := hkept ▸ List.mem_cons_self
    obtain ⟨c, rest, rfl⟩ := List.exists_cons_of_ne_nil (ne_nil_of_mem_kept hmem)
    have hc : isSlash c = false :=
      beq_eq_false_iff_ne.2 (ne_of_mem_of_not_mem List.mem_cons_self (no_slash_of_mem_kept hmem))
    cases parts with
    | nil => simp [Chars.join, List.intercalate, hc]
    | cons next parts =>
      rw [Chars.join_cons (List.cons_ne_nil _ _)]
      simp [hc]

theorem leadingSlashes_kept (cs : List Char) :
    leadingSlashes (List.replicate (leadingSlashes cs) '/' ++ Chars.join ['/'] (kept cs)) =
      leadingSlashes cs := by
  have htake : (List.replicate (leadingSlashes cs) '/' ++ Chars.join ['/'] (kept cs)).takeWhile isSlash =
      List.replicate (leadingSlashes cs) '/' := by
    rw [List.takeWhile_append_of_pos fun c hc => List.eq_of_mem_replicate hc ▸ rfl,
      takeWhile_join_kept, List.append_nil]
  have hcount : leadingSlashes cs = 0 ∨ leadingSlashes cs = 1 ∨ leadingSlashes cs = 2 := by
    unfold leadingSlashes
    split <;> simp
  rw [leadingSlashes, htake, List.length_replicate]
  rcases hcount with hcount | hcount | hcount <;> rw [hcount] <;> rfl

/-- Components that count end in something else than a slash. -/
theorem trimEnd_append_join_kept (before : List Char) (h : kept cs ≠ []) :
    Chars.trimEnd isSlash (before ++ Chars.join ['/'] (kept cs)) =
      before ++ Chars.join ['/'] (kept cs) := by
  obtain ⟨front, part, hkept⟩ := (List.eq_nil_or_concat (kept cs)).resolve_left h
  rw [List.concat_eq_append] at hkept
  have hmem : part ∈ kept cs := by simp [hkept]
  obtain ⟨rest, last, hlast⟩ := (List.eq_nil_or_concat part).resolve_left (ne_nil_of_mem_kept hmem)
  rw [List.concat_eq_append] at hlast
  have hslash : isSlash last = false := by
    refine beq_eq_false_iff_ne.2 (ne_of_mem_of_not_mem ?_ (no_slash_of_mem_kept hmem))
    simp [hlast]
  have hjoin : ∃ body, Chars.join ['/'] (kept cs) = body ++ [last] := by
    by_cases hfront : front = []
    · exact ⟨rest, by simp [hkept, hfront, hlast, Chars.join, List.intercalate]⟩
    · exact ⟨Chars.join ['/'] front ++ '/' :: rest, by simp [hkept, join_concat hfront, hlast]⟩
  obtain ⟨body, hbody⟩ := hjoin
  rw [hbody, ← List.append_assoc, Chars.trimEnd, List.reverse_concat,
    List.dropWhile_cons_of_neg (by simp [hslash]), List.reverse_cons, List.reverse_reverse]

theorem not_isSlash_of_mem_reverse {name : List Char} (h : '/' ∉ name) :
    ∀ c ∈ name.reverse, (!isSlash c) = true := by
  intro c hc
  rw [Bool.not_eq_true']
  exact beq_eq_false_iff_ne.2 (ne_of_mem_of_not_mem (List.mem_reverse.1 hc) h)

/-- Nothing stands before a name alone. -/
theorem parent_of_no_slash {name : List Char} (h : '/' ∉ name) : parent (String.ofList name) = "" := by
  rw [parent, String.toList_ofList, List.dropWhile_eq_nil_iff.2 (not_isSlash_of_mem_reverse h)]
  rfl

/-- What stands before a name and the slash in front of it. -/
theorem parent_append {name : List Char} (h : '/' ∉ name) (front : List Char) :
    parent (String.ofList (front ++ '/' :: name)) =
      String.ofList (if front.all isSlash then front ++ ['/'] else Chars.trimEnd isSlash front) := by
  have hreverse : (front ++ '/' :: name).reverse = name.reverse ++ '/' :: front.reverse := by simp
  have htrim : Chars.trimEnd isSlash (front ++ ['/']) = Chars.trimEnd isSlash front := by
    rw [Chars.trimEnd, List.reverse_concat, List.dropWhile_cons_of_pos (by decide), Chars.trimEnd]
  have hall : (front ++ ['/']).all isSlash = front.all isSlash := by simp [isSlash]
  rw [parent, String.toList_ofList, hreverse,
    List.dropWhile_append_of_pos (not_isSlash_of_mem_reverse h),
    List.dropWhile_cons_of_neg (by decide), List.reverse_cons, List.reverse_reverse, hall, htrim]

end Chars

/-- Tidying once more changes nothing. -/
theorem tidy_tidy (path : String) : tidy (tidy path) = tidy path := by
  apply String.toList_injective
  rw [toList_tidy (tidy path), toList_tidy path]
  by_cases hnone : leadingSlashes path.toList = 0 ∧ kept path.toList = []
  · rw [tidyChars_eq path.toList, if_pos hnone]
    decide
  · rw [tidyChars_eq path.toList, if_neg hnone, tidyChars_eq, leadingSlashes_kept, kept_kept, if_neg hnone]

theorem keptNames_tidy (path : String) : keptNames (tidy path) = keptNames path := by
  rw [keptNames, toList_tidy, tidyChars_eq]
  split
  · next hnone =>
    rw [keptNames, hnone.2]
    rfl
  · rw [kept_kept, keptNames]

variable {folder name : String}

/-- The characters of the path of a name in a folder. -/
theorem toList_under (hname : Descends name) (hslash : '/' ∉ name.toList) :
    (under folder name).toList = List.replicate (leadingSlashes folder.toList) '/' ++
      Chars.join ['/'] (kept folder.toList ++ [name.toList]) := by
  obtain ⟨hkept, hslashes⟩ := kept_joinTo folder hname
  rw [Chars.splitOn_of_notMem hslash] at hkept
  rw [under, toList_tidy, tidyChars_eq, hkept, hslashes, if_neg (by simp)]

/-- The path of a name in a folder is the name alone, or has the tidy folder in front of it. -/
theorem under_cases (hname : Descends name) (hslash : '/' ∉ name.toList) :
    under folder name = name ∧ tidy folder = "." ∨
      ∃ front, (under folder name).toList = front ++ '/' :: name.toList ∧
        (tidy folder).toList =
          if front.all isSlash then front ++ ['/'] else Chars.trimEnd isSlash front := by
  have hunder := @toList_under folder name hname hslash
  have htidy := toList_tidy folder
  rw [tidyChars_eq] at htidy
  by_cases hkept : kept folder.toList = []
  · have hsingle : Chars.join ['/'] [name.toList] = name.toList := by
      simp [Chars.join, List.intercalate]
    rw [hkept, List.nil_append, hsingle] at hunder
    rw [hkept] at htidy
    cases hslashes : leadingSlashes folder.toList with
    | zero =>
      rw [hslashes, List.replicate_zero, List.nil_append] at hunder
      rw [hslashes, if_pos ⟨rfl, rfl⟩] at htidy
      exact .inl ⟨String.toList_injective hunder, String.toList_injective htidy⟩
    | succ slashes =>
      have hall : (List.replicate slashes '/').all isSlash = true := by simp [isSlash]
      rw [hslashes, List.replicate_succ', List.append_assoc, List.singleton_append] at hunder
      rw [hslashes, if_neg (by simp)] at htidy
      refine .inr ⟨_, hunder, ?_⟩
      rw [htidy, hall, if_pos rfl, ← List.replicate_succ']
      exact List.append_nil _
  · rw [join_concat hkept, ← List.append_assoc] at hunder
    rw [if_neg fun hnone => hkept hnone.2] at htidy
    have hall : (List.replicate (leadingSlashes folder.toList) '/' ++
        Chars.join ['/'] (kept folder.toList)).all isSlash = false := by
      have hnone := takeWhile_join_kept folder.toList
      refine Bool.eq_false_iff.2 fun hall => join_kept_ne_nil hkept ?_
      exact (List.takeWhile_eq_self_iff.2 fun c hc =>
        List.all_eq_true.1 hall c (List.mem_append_right _ hc)).symm.trans hnone
    refine .inr ⟨_, hunder, ?_⟩
    rw [htidy, hall, if_neg Bool.false_ne_true, trimEnd_append_join_kept _ hkept]

/-- In front of a name stands the folder that it is taken from. -/
theorem parent_under (hname : Descends name) (hslash : '/' ∉ name.toList) :
    (if parent (under folder name) == "" then "." else parent (under folder name)) = tidy folder := by
  obtain ⟨hunder, htidy⟩ | ⟨front, hunder, htidy⟩ := @under_cases folder name hname hslash
  · have hparent := parent_of_no_slash hslash
    rw [String.ofList_toList] at hparent
    rw [hunder, hparent, htidy]
    rfl
  · have hparent := parent_append hslash front
    rw [← hunder, ← htidy, String.ofList_toList, String.ofList_toList] at hparent
    rw [hparent, if_neg (by simpa using tidy_ne_empty folder)]

theorem tidy_parent_under (hname : Descends name) (hslash : '/' ∉ name.toList) :
    tidy (parent (under folder name)) = tidy folder := by
  have hparent := @parent_under folder name hname hslash
  split at hparent
  · next hempty =>
    rw [beq_iff_eq.1 hempty, ← hparent]
    decide
  · rw [hparent, tidy_tidy]

theorem name_under (hname : Descends name) (hslash : '/' ∉ name.toList) :
    Path.name (under folder name) = name := by
  obtain ⟨hunder, -⟩ | ⟨front, hunder, -⟩ := @under_cases folder name hname hslash
  · rw [hunder, Path.name, onChars, Chars.afterLast_of_notMem hslash, String.ofList_toList]
  · rw [Path.name, onChars, hunder, Chars.afterLast_append hslash, String.ofList_toList]

end Path

namespace FileSystem

variable {fs : FileSystem} {place found : Place} {entry : Entry} {links : Nat}
  {folder name path : String} {names before rest : List String}

/-! ## Folders that are there -/

theorem filter_components (path : String) :
    (components path).filter (fun name => !(name == "" || name == ".")) = Path.keptNames path := by
  have hdot : String.ofList ['.'] = "." := rfl
  rw [components, splitOn, List.filter_map, Path.keptNames, Path.kept]
  refine congrArg _ (List.filter_congr fun part _ => ?_)
  have hsame (other : List Char) : (String.ofList part == String.ofList other) = (part == other) := by
    rw [Bool.eq_iff_iff, beq_iff_eq, beq_iff_eq]
    exact ⟨fun h => String.ofList_injective h, fun h => h ▸ rfl⟩
  exact congrArg (! ·) (congrArg₂ (· || ·) (hsame []) (hsame ['.']))

/-- Names lead to a folder by way of folders. -/
theorem exists_folder_of_append
    (h : fs.resolveFrom links place (before ++ rest) = .ok (found, .folder)) :
    ∃ middle, fs.resolveFrom links place before = .ok (middle, .folder) := by
  cases hbefore : fs.resolveFrom links place before with
  | error error =>
    rw [resolveFrom_append_of_error hbefore] at h
    cases h
  | ok reached =>
    obtain ⟨middle, entry⟩ := reached
    obtain ⟨hentry, left, -, hrest⟩ := exists_left_of_resolveFrom hbefore
    rw [← Nat.add_zero links, hrest] at h
    refine ⟨middle, congrArg (fun entry => Except.ok (middle, entry)) ?_⟩
    cases rest with
    | nil =>
      rw [resolveFrom_nil, hentry] at h
      exact (Prod.mk.inj (Except.ok.inj h)).2
    | cons name rest =>
      rw [resolveFrom_cons, follow, hentry] at h
      cases entry with
      | folder => rfl
      | file | link | pipe => cases h

theorem join_append (names : List String) (name : String) (h : names ≠ []) :
    join "/" (names ++ [name]) = join "/" names ++ "/" ++ name := by
  induction names with
  | nil => exact absurd rfl h
  | cons first names ih =>
    cases names with
    | nil => simp [join]
    | cons next names =>
      have hrest := ih (List.cons_ne_nil _ _)
      simp only [join, List.cons_append, String.intercalate_cons_cons, String.append_assoc] at hrest ⊢
      rw [hrest]

/-- The path of names from the top, or from the folder that relative paths start from. -/
def pathFrom (absolute : Bool) (names : List String) : String :=
  if absolute then pathOf names else join "/" names

/-- Components of a path, which are looked at one by one. -/
def AreNames (names : List String) : Prop := ∀ name ∈ names, name ≠ "" ∧ '/' ∉ name.toList

theorem components_pathFrom (absolute : Bool) (hnames : AreNames names) (hne : names ≠ []) :
    components (pathFrom absolute names) = if absolute then "" :: names else names := by
  have hslash : ∀ name ∈ names, '/' ∉ name.toList := fun name hname => (hnames name hname).2
  cases absolute with
  | true => exact components_pathOf hslash hne
  | false => exact components_join hslash hne

theorem pathFrom_ne_empty (absolute : Bool) (hnames : AreNames names) (hne : names ≠ []) :
    pathFrom absolute names ≠ "" := by
  intro hempty
  have hcomponents := components_pathFrom absolute hnames hne
  have hnone : components "" = [""] := components_of_no_slash (by decide)
  rw [hempty, hnone] at hcomponents
  cases absolute with
  | true => exact hne (List.cons.inj hcomponents).2.symm
  | false =>
    have hone : [""] = names := hcomponents
    exact (hnames "" (hone ▸ List.mem_cons_self)).1 rfl

/-- The path of names is followed name by name. -/
theorem resolve_pathFrom (absolute : Bool) (hnames : AreNames names) (hne : names ≠ []) :
    fs.resolve (pathFrom absolute names) =
      if pathLimit ≤ (pathFrom absolute names).utf8ByteSize then .error .nameTooLong
      else fs.resolveFrom linkLimit (if absolute then [] else fs.workingFolder) names := by
  have hcomponents := components_pathFrom absolute hnames hne
  have hnonempty : (pathFrom absolute names).isEmpty = false :=
    Bool.eq_false_iff.2 fun hempty =>
      pathFrom_ne_empty absolute hnames hne (String.isEmpty_iff.1 hempty)
  rw [resolve, hnonempty, if_neg Bool.false_ne_true, hcomponents]
  cases absolute with
  | true =>
    have hstart : startsWith "/" (pathFrom true names) = true := startsWith_pathOf names
    rw [hstart, if_pos rfl, if_pos rfl, WellFormed.resolveFrom_empty rfl]
  | false =>
    have hstart : startsWith "/" (pathFrom false names) = false := by
      refine Bool.eq_false_iff.2 fun hstart => ?_
      obtain ⟨rest, hrest⟩ := components_of_startsWith hstart
      have hfirst : names = "" :: rest := hcomponents.symm.trans hrest
      exact (hnames "" (hfirst ▸ List.mem_cons_self)).1 rfl
    rw [hstart]
    rfl

/-- One name more at the end of a path of names. -/
theorem pathFrom_concat (absolute : Bool) (hnames : AreNames names) (name : String) :
    (if pathFrom absolute names == "" then name
      else if endsWith "/" (pathFrom absolute names) then pathFrom absolute names ++ name
      else pathFrom absolute names ++ "/" ++ name) = pathFrom absolute (names ++ [name]) := by
  by_cases hne : names = []
  · subst hne
    cases absolute <;> simp [pathFrom, pathOf, join, endsWith]
  · have hcomponents := components_pathFrom absolute hnames hne
    have hempty := pathFrom_ne_empty absolute hnames hne
    have hend : endsWith "/" (pathFrom absolute names) = false := by
      refine Bool.eq_false_iff.2 fun hend => ?_
      obtain ⟨front, hfront, -⟩ := components_of_endsWith hend ""
      have hlast : names.getLast? = some "" := by
        rw [hcomponents] at hfront
        cases absolute with
        | true =>
          have hlast := congrArg List.getLast? (show [""] ++ names = front ++ [""] from hfront)
          rwa [List.getLast?_append_of_ne_nil _ hne, List.getLast?_concat] at hlast
        | false =>
          have hnames : names = front ++ [""] := hfront
          rw [hnames, List.getLast?_concat]
      exact (hnames "" (List.mem_of_getLast? hlast)).1 rfl
    rw [if_neg (by simpa using hempty), if_neg (by simp [hend])]
    cases absolute with
    | true => simp only [pathFrom, if_true, pathOf, join_append _ _ hne, String.append_assoc]
    | false => exact (join_append _ _ hne).symm

/-- A path of names is as long as what it starts with, or longer. -/
theorem utf8ByteSize_pathFrom_le (absolute : Bool) (before rest : List String) :
    (pathFrom absolute before).utf8ByteSize ≤ (pathFrom absolute (before ++ rest)).utf8ByteSize := by
  have hjoin : (join "/" before).utf8ByteSize ≤ (join "/" (before ++ rest)).utf8ByteSize := by
    induction rest using List.reverseRecOn with
    | nil => rw [List.append_nil]
    | append_singleton rest name ih =>
      refine Nat.le_trans ih ?_
      rw [← List.append_assoc]
      by_cases hne : before ++ rest = []
      · rw [hne]
        exact Nat.zero_le _
      · rw [join_append _ _ hne, String.utf8ByteSize_append, String.utf8ByteSize_append]
        omega
  cases absolute with
  | true =>
    simp only [pathFrom, if_true, pathOf, String.utf8ByteSize_append]
    omega
  | false => exact hjoin

/-- Folders that are there need not be made. -/
theorem makeFoldersFrom_of_folders (absolute : Bool) (hnames : AreNames (before ++ names))
    (hshort : (pathFrom absolute (before ++ names)).utf8ByteSize < pathLimit)
    (h : fs.resolveFrom linkLimit (if absolute then [] else fs.workingFolder) (before ++ names) =
      .ok (found, .folder)) (path : String) :
    fs.makeFoldersFrom path (pathFrom absolute before) names = .ok fs := by
  induction names generalizing before with
  | nil => rfl
  | cons name names ih =>
    have hsplit : before ++ name :: names = (before ++ [name]) ++ names := by simp
    rw [hsplit] at hnames hshort h
    have hbefore : AreNames (before ++ [name]) := fun other hother =>
      hnames other (List.mem_append_left _ hother)
    have hfront : AreNames before := fun other hother => hbefore other (List.mem_append_left _ hother)
    have hlong : ¬ pathLimit ≤ (pathFrom absolute (before ++ [name])).utf8ByteSize :=
      Nat.not_le.2 (Nat.lt_of_le_of_lt (utf8ByteSize_pathFrom_le absolute _ names) hshort)
    obtain ⟨middle, hmiddle⟩ := exists_folder_of_append h
    have hresolve := @resolve_pathFrom fs _ absolute hbefore (by simp)
    rw [makeFoldersFrom, pathFrom_concat absolute hfront name, hresolve, hmiddle, if_neg hlong]
    exact ih hnames hshort h

/-- The path of the names of a location is no longer than the location. -/
theorem utf8ByteSize_pathFrom_keptNames_le (absolute : Bool) (folder : String)
    (habsolute : absolute = true → 0 < Path.leadingSlashes folder.toList) :
    (pathFrom absolute (Path.keptNames folder)).utf8ByteSize ≤ (Path.tidy folder).utf8ByteSize := by
  have hchars := Path.toList_tidy folder
  rw [Path.tidyChars_eq] at hchars
  split at hchars
  · next hnone =>
    obtain rfl : absolute = false := by simpa [hnone.1] using habsolute
    rw [Path.keptNames, hnone.2]
    exact Nat.zero_le _
  · have hjoin : join "/" (Path.keptNames folder) =
        String.ofList (Chars.join ['/'] (Path.kept folder.toList)) := by
      apply String.toList_injective
      have hparts : String.toList ∘ String.ofList = id := funext fun _ => String.toList_ofList
      rw [join, String.toList_intercalate, Path.keptNames, List.map_map, hparts, List.map_id]
      exact String.toList_ofList.symm
    have htidy : Path.tidy folder =
        String.ofList (List.replicate (Path.leadingSlashes folder.toList) '/') ++
          join "/" (Path.keptNames folder) := by
      apply String.toList_injective
      rw [hchars, hjoin, String.toList_append, String.toList_ofList, String.toList_ofList]
    rw [htidy, String.utf8ByteSize_append]
    cases absolute with
    | false => exact Nat.le_add_left _ _
    | true =>
      obtain ⟨slashes, hslashes⟩ := Nat.exists_eq_add_of_lt (habsolute rfl)
      have hone : "/" ++ String.ofList (List.replicate slashes '/') =
          String.ofList (List.replicate (Path.leadingSlashes folder.toList) '/') := by
        apply String.toList_injective
        simp [hslashes, List.replicate_succ]
      rw [← hone, String.utf8ByteSize_append, pathFrom, if_pos rfl, pathOf, String.utf8ByteSize_append]
      omega

theorem makeFolders_of_folder (h : fs.resolve (Path.tidy folder) = .ok (place, .folder)) :
    fs.makeFolders (Path.tidy folder) = .ok fs := by
  have hstart := resolveFrom_start h
  have hnames : AreNames (Path.keptNames folder) := by
    intro name hname
    refine ⟨Path.ne_empty_of_mem_keptNames hname, ?_⟩
    obtain ⟨part, hpart, rfl⟩ := List.mem_map.1 hname
    rw [String.toList_ofList]
    exact Path.no_slash_of_mem_kept hpart
  have hshort : (Path.tidy folder).utf8ByteSize < pathLimit := by
    unfold resolve at h
    split at h
    · cases h
    split at h
    · cases h
    · next hshort => exact Nat.not_le.1 hshort
  have hfolders (absolute : Bool) (habsolute : absolute = true → 0 < Path.leadingSlashes folder.toList) :=
    @makeFoldersFrom_of_folders fs place _ [] absolute hnames
      (Nat.lt_of_le_of_lt (utf8ByteSize_pathFrom_keptNames_le absolute folder habsolute) hshort)
  rw [makeFolders, filter_components, Path.keptNames_tidy, Path.startsWith_tidy]
  rw [start] at hstart
  by_cases habsolute : 0 < Path.leadingSlashes folder.toList
  · rw [if_pos habsolute] at hstart
    rw [if_pos (decide_eq_true habsolute)]
    exact hfolders true (fun _ => habsolute) hstart _
  · rw [if_neg habsolute] at hstart
    rw [if_neg (by simpa using habsolute)]
    exact hfolders false (absurd · Bool.false_ne_true) hstart _

/-! ## Files that are written -/

section Named

variable (hname : Path.Descends name) (hslash : '/' ∉ name.toList)
include hname hslash

/-- Where one name leads from a folder that has no link under it. -/
theorem resolveFrom_name (hplace : fs.entry? place = some .folder)
    (hlink : ∀ target, fs.entry? (place ++ [name]) ≠ some (.link target)) :
    fs.resolveFrom links place [name] =
      if nameLimit < name.utf8ByteSize then .error .nameTooLong
      else match fs.entry? (place ++ [name]) with
        | none => .error .notFound
        | some entry => .ok (place ++ [name], entry) := by
  have hstep : Path.IsStep name.toList :=
    hname name.toList (by rw [Chars.splitOn_of_notMem hslash]; exact List.mem_singleton.2 rfl)
  have hempty : name ≠ "" := fun h => hstep.ne_empty (h ▸ rfl)
  have hhere : name ≠ "." := fun h => hstep.ne_here (h ▸ rfl)
  have hparent : name ≠ ".." := fun h => hstep.ne_parent (h ▸ rfl)
  rw [resolveFrom_cons, follow, hplace]
  dsimp only
  rw [if_neg (by simp [hempty, hhere]), if_neg (by simp [hparent])]
  by_cases hlong : nameLimit < name.utf8ByteSize
  · rw [if_pos hlong, if_pos hlong]
  · rw [if_neg hlong, if_neg hlong]
    cases hentry : fs.entry? (place ++ [name]) with
    | none => rfl
    | some entry =>
      cases entry with
      | link target => exact absurd hentry (hlink target)
      | file | folder | pipe =>
        dsimp only
        rw [List.append_nil, resolveFrom_nil, hentry]

variable (hfolder : fs.resolve (Path.tidy folder) = .ok (place, .folder))
include hfolder

theorem target_under : fs.target (Path.under folder name) =
    if nameLimit < name.utf8ByteSize then .error .nameTooLong else .ok (place ++ [name]) := by
  unfold target target.parent
  rw [Path.parent_under hname hslash, hfolder, Path.name_under hname hslash]
  rfl

/-- A file is put into the folder that it is written to, or the write fails. -/
theorem writeBytes_cases (hlink : ∀ target, fs.entry? (place ++ [name]) ≠ some (.link target))
    (bytes : List UInt8) :
    (∃ failure, fs.writeBytes (Path.under folder name) bytes = .error failure) ∨
      fs.entry? (place ++ [name]) ≠ some .folder ∧
        fs.writeBytes (Path.under folder name) bytes = .ok (fs.put (place ++ [name]) (.file bytes)) := by
  obtain ⟨left, -, hresolve⟩ := resolve_under hfolder hname
  rw [components_of_no_slash hslash,
    resolveFrom_name hname hslash (entry?_of_resolve hfolder) hlink] at hresolve
  rw [writeBytes, hresolve, target_under hname hslash hfolder]
  by_cases hpath : pathLimit ≤ (Path.under folder name).utf8ByteSize
  · rw [if_pos hpath]
    exact .inl ⟨_, rfl⟩
  by_cases hlong : nameLimit < name.utf8ByteSize
  · rw [if_neg hpath, if_pos hlong]
    exact .inl ⟨_, rfl⟩
  rw [if_neg hpath, if_neg hlong, if_neg hlong]
  cases fs.entry? (place ++ [name]) with
  | none => exact .inr ⟨by simp, rfl⟩
  | some entry =>
    cases entry with
    | folder => exact .inl ⟨_, rfl⟩
    | file | link | pipe => exact .inr ⟨by simp, rfl⟩

theorem writeInto_cases (hlink : ∀ target, fs.entry? (place ++ [name]) ≠ some (.link target))
    (text : String) :
    (∃ failure, fs.writeInto (Path.under folder name) text = .error failure) ∨
      fs.entry? (place ++ [name]) ≠ some .folder ∧
        fs.writeInto (Path.under folder name) text =
          .ok (fs.put (place ++ [name]) (.file (Utf8.encode text.toList))) := by
  unfold writeInto writeInto.folderOf
  rw [Path.tidy_parent_under hname hslash, makeFolders_of_folder hfolder]
  dsimp only [bind, Except.bind]
  exact writeBytes_cases hname hslash hfolder hlink _

end Named

/-! ## What a write leaves as it was -/

theorem entry?_put_of_ne {other : Place} (h : other ≠ place) (entry : Entry) :
    entry? (fs.put place entry) other = fs.entry? other := by
  have hlookup (entries : List (Place × Entry)) :
      (entries.map fun e => if e.1 == place then (place, entry) else e).lookup other =
        entries.lookup other := by
    induction entries with
    | nil => rfl
    | cons first entries ih =>
      rw [List.map_cons]
      split
      · next hfirst =>
        rw [List.lookup_cons, List.lookup_cons, ih, beq_iff_eq.1 hfirst, beq_false_of_ne h]
      · rw [List.lookup_cons, List.lookup_cons, ih]
  unfold entry? put
  dsimp only
  split
  · rfl
  split
  · exact hlookup fs.entries
  · rw [List.lookup_append, List.lookup_cons, beq_false_of_ne h, List.lookup_nil, Option.or_none]

theorem entry?_put_self (hne : place ≠ []) (entry : Entry) :
    entry? (fs.put place entry) place = some entry := by
  have hlookup (entries : List (Place × Entry)) (h : entries.any (·.1 == place) = true) :
      (entries.map fun e => if e.1 == place then (place, entry) else e).lookup place = some entry := by
    induction entries with
    | nil => exact nomatch h
    | cons first entries ih =>
      rw [List.map_cons]
      split
      · rw [List.lookup_cons, beq_self_eq_true]
      · next hfirst =>
        rw [List.any_cons, Bool.eq_false_iff.2 hfirst, Bool.false_or] at h
        rw [List.lookup_cons, beq_false_of_ne (ne_of_beq_false (Bool.eq_false_iff.2 hfirst)).symm]
        exact ih h
  unfold entry? put
  dsimp only
  rw [if_neg (by simpa using hne)]
  split
  · next hany => exact hlookup fs.entries hany
  · next hnone =>
    have hfresh : fs.entries.lookup place = none := by
      refine List.lookup_eq_none_iff.2 fun e he => ?_
      refine bne_iff_ne.2 fun heq => hnone (List.any_eq_true.2 ⟨e, he, beq_iff_eq.2 heq.symm⟩)
    rw [List.lookup_append, hfresh, List.lookup_cons, beq_self_eq_true, Option.none_or]

/-- What is put over what has just been put replaces it. -/
theorem put_put (fs : FileSystem) (place : Place) (first second : Entry) :
    (fs.put place first).put place second = fs.put place second := by
  have hmap (e : Place × Entry) :
      (if (if e.1 == place then (place, first) else e).1 == place then (place, second)
        else if e.1 == place then (place, first) else e) =
      if e.1 == place then (place, second) else e := by
    cases hplace : e.1 == place <;> simp [hplace]
  unfold put
  dsimp only
  by_cases hany : fs.entries.any (·.1 == place) = true
  · have hstill : (fs.entries.map fun e => if e.1 == place then (place, first) else e).any
        (·.1 == place) = true := by
      obtain ⟨e, he, hplace⟩ := List.any_eq_true.1 hany
      exact List.any_eq_true.2 ⟨_, List.mem_map_of_mem he, by simp [hplace]⟩
    rw [if_pos hany, if_pos hany, if_pos hstill, List.map_map]
    exact congrArg (FileSystem.mk · fs.workingFolder) (List.map_congr_left fun e _ => hmap e)
  · have hnone : fs.entries.map (fun e => if e.1 == place then (place, second) else e) = fs.entries := by
      refine (List.map_congr_left fun e he => ?_).trans (List.map_id _)
      exact if_neg fun hplace => hany (List.any_eq_true.2 ⟨e, he, hplace⟩)
    have hlast : (fs.entries ++ [(place, first)]).any (·.1 == place) = true := by simp
    rw [if_neg hany, if_neg hany, if_pos hlast, List.map_append, hnone]
    simp

/-- A place by way of which no path goes: if something stands there, it is neither a folder nor a link. -/
def IsEnd (fs : FileSystem) (place : Place) : Prop :=
  ∀ entry, fs.entry? place = some entry → entry.isFolder = false ∧ entry.isLink = false

section Put

variable (hend : fs.IsEnd place) {here : Place}
include hend

theorem IsEnd.eq_of_resolveFrom (h : fs.resolveFrom links place names = .ok (found, entry)) :
    found = place := by
  cases names with
  | nil =>
    rw [resolveFrom_nil] at h
    split at h
    · cases h
    · exact (Prod.mk.inj (Except.ok.inj h)).1.symm
  | cons name rest =>
    rw [resolveFrom_cons, follow] at h
    cases hentry : fs.entry? place with
    | none =>
      rw [hentry] at h
      cases h
    | some entry =>
      rw [hentry] at h
      cases entry with
      | folder => cases (hend _ hentry).1
      | file | link | pipe => cases h

/-- What is put at an end changes nothing for a name that is followed, unless it makes a link of that end. -/
theorem follow_put {next : Place} {left : Nat} {front : List String} {new : Entry}
    (h : fs.follow links here name = .ok (left, next, front)) (hnew : next = place → new.isLink = false) :
    (fs.put place new).follow links here name = .ok (left, next, front) := by
  obtain ⟨hfolder, h⟩ := follow_eq_ok_iff.1 h
  have hhere : here ≠ place := by
    rintro rfl
    exact nomatch (hend _ hfolder).1
  refine follow_eq_ok_iff.2 ⟨by rwa [entry?_put_of_ne hhere], ?_⟩
  cases h with
  | here hname => exact .here hname
  | parent hname => exact .parent hname
  | entry hname hentry hlink =>
    by_cases hplace : here ++ [name] = place
    · subst hplace
      exact .entry hname (entry?_put_self (by simp) new) (hnew rfl)
    · exact .entry hname (by rwa [entry?_put_of_ne hplace]) hlink
  | link hname hentry hlinks =>
    have hplace : here ++ [name] ≠ place := by
      rintro rfl
      exact nomatch (hend _ hentry).2
    exact .link hname (by rwa [entry?_put_of_ne hplace]) hlinks

/-- A path leads nowhere else for what is put at a place by way of which it does not go. -/
theorem resolveFrom_put (h : fs.resolveFrom links here names = .ok (found, entry)) (hne : found ≠ place)
    (new : Entry) : (fs.put place new).resolveFrom links here names = .ok (found, entry) := by
  induction links, here, names using resolveFrom_induction fs with
  | nil links here =>
    rw [resolveFrom_nil] at h ⊢
    split at h
    · exact nomatch h
    · next hentry =>
      cases h
      rw [entry?_put_of_ne hne, hentry]
  | refused links here name rest error hfollow =>
    rw [resolveFrom_cons, hfollow] at h
    exact nomatch h
  | followed links here name rest left next front hfollow ih =>
    rw [resolveFrom_cons, hfollow] at h
    have hnext : next ≠ place := by
      rintro rfl
      exact hne (hend.eq_of_resolveFrom h)
    rw [resolveFrom_cons, follow_put hend hfollow fun heq => absurd heq hnext]
    exact ih h

theorem resolve_put (h : fs.resolve path = .ok (found, entry)) (hne : found ≠ place) (new : Entry) :
    (fs.put place new).resolve path = .ok (found, entry) := by
  unfold resolve at h ⊢
  split at h
  · exact nomatch h
  next hempty =>
  split at h
  · exact nomatch h
  next hlong =>
  rw [if_neg hempty, if_neg hlong]
  exact resolveFrom_put hend h hne new

end Put

/-- A path leads to something outside of a folder in which no links stand. -/
structure LeadsOutside (fs : FileSystem) (folder : String) (place : Place) (path : String)
    (found : Place) (entry : Entry) : Prop where
  folder : fs.resolve (Path.tidy folder) = .ok (place, .folder)
  not_link (name target : String) : fs.entry? (place ++ [name]) ≠ some (.link target)
  leadsTo : fs.resolve path = .ok (found, entry)
  outside (name : String) : found ≠ place ++ [name]

/-- What is written into the folder does not change that. -/
theorem LeadsOutside.writeInto (h : fs.LeadsOutside folder place path found entry)
    (hname : Path.Descends name) (hslash : '/' ∉ name.toList) {text : String} {later : FileSystem}
    (hwritten : fs.writeInto (Path.under folder name) text = .ok later) :
    later.LeadsOutside folder place path found entry := by
  obtain ⟨failure, hfailure⟩ | ⟨hentry, hput⟩ :=
    writeInto_cases hname hslash h.folder (h.not_link name) text
  · exact nomatch hwritten.symm.trans hfailure
  obtain rfl := Except.ok.inj (hwritten.symm.trans hput)
  have hend : fs.IsEnd (place ++ [name]) := by
    intro entry hthere
    cases entry with
    | folder => exact absurd hthere hentry
    | link target => exact absurd hthere (h.not_link name target)
    | file | pipe => exact ⟨rfl, rfl⟩
  refine ⟨resolve_put hend h.folder (by simp) _, fun other target => ?_,
    resolve_put hend h.leadsTo (h.outside name) _, h.outside⟩
  by_cases hother : other = name
  · rw [hother, entry?_put_self (by simp)]
    simp
  · rw [entry?_put_of_ne (by simpa using hother)]
    exact h.not_link other target

end FileSystem

end CodeReview
