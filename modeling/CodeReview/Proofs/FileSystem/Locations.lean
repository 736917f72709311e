import CodeReview.Proofs.FileSystem.Resolution
import CodeReview.Proofs.Path.Lexical

/-!
# Paths below a location

Files of a repository are opened by the root and a path put together, and the whole is tidied first:
components that are empty or a dot do not count. Where a path below a root leads depends on the names
that are left, and on the folder that the root leads to.

* `Path.kept_joinTo`: the components below a location are those of the location and then those of the
  path.
* `resolve_under`: a path below a root leads where its names lead from the folder of the root.
* `resolveFrom_of_location`: so does the path by which a walk comes to an entry, although it is not
  tidied.
-/

namespace CodeReview

open Text FileSystem

namespace Path

/-! ## Tidy locations -/

/-- The components of a location that count: those that are neither empty nor a dot. -/
def kept (cs : List Char) : List (List Char) :=
  (Chars.splitOn '/' cs).filter fun part => !(part == [] || part == ['.'])

theorem kept_append (before behind : List Char) :
    kept (before ++ '/' :: behind) = kept before ++ kept behind := by
  rw [kept, Chars.splitOn_append, List.filter_append]
  rfl

theorem kept_of_descends {path : String} (h : Descends path) :
    kept path.toList = Chars.splitOn '/' path.toList := by
  refine List.filter_eq_self.2 fun part hpart => ?_
  simpa using ⟨(h part hpart).ne_empty, (h part hpart).ne_here⟩

theorem leadingSlashes_append {before behind : List Char}
    (h : before.takeWhile isSlash = before → behind.takeWhile isSlash = []) :
    leadingSlashes (before ++ behind) = leadingSlashes before := by
  have htake : (before ++ behind).takeWhile isSlash = before.takeWhile isSlash := by
    rw [List.takeWhile_append]
    split
    · next hall =>
      have hslashes := (List.takeWhile_prefix isSlash).eq_of_length hall
      rw [h hslashes, hslashes, List.append_nil]
    · rfl
  rw [leadingSlashes, htake, leadingSlashes]

theorem takeWhile_of_descends {path : String} (h : Descends path) :
    path.toList.takeWhile isSlash = [] := by
  have hslashes := leadingSlashes_of_descends h
  unfold leadingSlashes at hslashes
  split at hslashes
  · next hnone => exact List.eq_nil_of_length_eq_zero hnone
  · exact nomatch hslashes
  · exact nomatch hslashes

/-- Below a location stand the components of the location, and then those of the path. -/
theorem kept_joinTo (base : String) {path : String} (h : Descends path) :
    kept (joinTo base path).toList = kept base.toList ++ Chars.splitOn '/' path.toList ∧
      leadingSlashes (joinTo base path).toList = leadingSlashes base.toList := by
  rw [joinTo, not_startsWith_of_descends h, if_neg Bool.false_ne_true, ← kept_of_descends h]
  by_cases hempty : base = ""
  · subst hempty
    rw [if_pos (by decide), String.empty_append, leadingSlashes_of_descends h]
    exact ⟨rfl, rfl⟩
  by_cases hend : endsWith "/" base = true
  · obtain ⟨before, hbefore⟩ := List.isSuffixOf_iff_suffix.1 hend
    rw [if_pos (by simp [hend]), String.toList_append]
    refine ⟨?_, leadingSlashes_append fun _ => takeWhile_of_descends h⟩
    have hbase : base.toList = before ++ '/' :: [] := hbefore.symm
    rw [hbase, kept_append, List.append_assoc, List.cons_append, List.nil_append, kept_append,
      List.append_assoc]
    rfl
  · rw [if_neg (by simp [hempty, hend]), String.toList_append, String.toList_append, List.append_assoc]
    refine ⟨kept_append _ _, leadingSlashes_append fun hall => ?_⟩
    obtain ⟨front, last, hlast⟩ :=
      (List.eq_nil_or_concat base.toList).resolve_left (mt String.toList_eq_nil_iff.1 hempty)
    have hslash : isSlash last = true :=
      List.takeWhile_eq_self_iff.1 hall last (by simp [hlast])
    refine absurd (List.isSuffixOf_iff_suffix.2 ⟨front, ?_⟩) hend
    rw [hlast, beq_iff_eq.1 hslash, List.concat_eq_append]
    rfl

theorem splitOn_replicate (n : Nat) (cs : List Char) :
    Chars.splitOn '/' (List.replicate n '/' ++ cs) = List.replicate n [] ++ Chars.splitOn '/' cs := by
  induction n with
  | zero => rfl
  | succ n ih =>
    rw [List.replicate_succ, List.cons_append, Chars.splitOn_cons, if_pos (beq_self_eq_true '/'), ih]
    rfl

theorem ne_nil_of_mem_kept {cs part : List Char} (h : part ∈ kept cs) : part ≠ [] := by
  have hkept := (List.mem_filter.1 h).2
  rintro rfl
  exact nomatch hkept

theorem splitOn_join_kept {cs : List Char} (h : kept cs ≠ []) :
    Chars.splitOn '/' (Chars.join ['/'] (kept cs)) = kept cs :=
  Chars.splitOn_join (fun _ hpart => Chars.notMem_of_mem_splitOn (List.mem_filter.1 hpart).1) h

theorem join_kept_ne_nil {cs : List Char} (h : kept cs ≠ []) : Chars.join ['/'] (kept cs) ≠ [] := by
  intro hjoin
  have hparts := splitOn_join_kept h
  rw [hjoin, Chars.splitOn_nil] at hparts
  have hempty : [] ∈ kept cs := hparts.symm ▸ List.mem_cons_self
  exact ne_nil_of_mem_kept hempty rfl

/-- What is left of a location: its slashes in front, and the components that count. -/
theorem tidyChars_eq (cs : List Char) : tidyChars cs =
    if leadingSlashes cs = 0 ∧ kept cs = [] then ['.']
    else List.replicate (leadingSlashes cs) '/' ++ Chars.join ['/'] (kept cs) := by
  have hempty : (List.replicate (leadingSlashes cs) '/' ++ Chars.join ['/'] (kept cs)).isEmpty = true ↔
      leadingSlashes cs = 0 ∧ kept cs = [] := by
    rw [List.isEmpty_iff, List.append_eq_nil_iff, List.replicate_eq_nil_iff]
    refine and_congr_right fun _ => ⟨fun hjoin => ?_, fun hnone => hnone ▸ rfl⟩
    exact by_contra fun hne => join_kept_ne_nil hne hjoin
  change (if (List.replicate (leadingSlashes cs) '/' ++ Chars.join ['/'] (kept cs)).isEmpty = true
    then _ else _) = _
  simp only [hempty]
  rfl

theorem toList_tidy (path : String) : (tidy path).toList = tidyChars path.toList := by
  rw [tidy, onChars, String.toList_ofList]

theorem tidy_ne_empty (path : String) : tidy path ≠ "" := by
  intro hempty
  have hchars := toList_tidy path
  rw [hempty, tidyChars_eq] at hchars
  split at hchars
  · exact nomatch hchars
  · next hsome =>
    obtain ⟨hslashes, hjoin⟩ := List.append_eq_nil_iff.1 hchars.symm
    refine hsome ⟨(List.replicate_eq_nil_iff _).1 hslashes, by_contra fun hne => ?_⟩
    exact join_kept_ne_nil hne hjoin

/-- The names of the components that count. -/
def keptNames (path : String) : List String := (kept path.toList).map String.ofList

theorem ne_empty_of_mem_keptNames {path name : String} (h : name ∈ keptNames path) : name ≠ "" := by
  obtain ⟨part, hpart, rfl⟩ := List.mem_map.1 h
  exact mt String.ofList_eq_empty_iff.1 (ne_nil_of_mem_kept hpart)

/-- The components of a tidy location, without an empty one at its end. -/
def front (path : String) : List String :=
  if leadingSlashes path.toList = 0 ∧ kept path.toList = [] then ["."]
  else List.replicate (leadingSlashes path.toList) "" ++ keptNames path

/-- A location of slashes alone. -/
def IsTop (path : String) : Prop := leadingSlashes path.toList ≠ 0 ∧ kept path.toList = []

theorem toList_tidy_of_isTop {path : String} (h : IsTop path) :
    (tidy path).toList = List.replicate (leadingSlashes path.toList) '/' := by
  rw [toList_tidy, tidyChars_eq, if_neg fun hnone => h.1 hnone.1, h.2]
  exact List.append_nil _

theorem front_of_isTop {path : String} (h : IsTop path) :
    front path = List.replicate (leadingSlashes path.toList) "" := by
  rw [front, if_neg fun hnone => h.1 hnone.1, keptNames, h.2]
  exact List.append_nil _

theorem components_tidy_of_isTop {path : String} (h : IsTop path) :
    components (tidy path) = front path ++ [""] := by
  have hsplit := splitOn_replicate (leadingSlashes path.toList) []
  rw [List.append_nil] at hsplit
  rw [components, splitOn, toList_tidy_of_isTop h, hsplit, List.map_append, List.map_replicate,
    front_of_isTop h]
  rfl

theorem getLast?_front {path : String} (h : ¬ IsTop path) : (front path).getLast? ≠ some "" := by
  rw [front]
  split
  · decide
  · next hsome =>
    have hnames : keptNames path ≠ [] := fun hnone =>
      h ⟨fun hslashes => hsome ⟨hslashes, List.map_eq_nil_iff.1 hnone⟩, List.map_eq_nil_iff.1 hnone⟩
    rw [List.getLast?_append_of_ne_nil _ hnames]
    exact fun hlast => ne_empty_of_mem_keptNames (List.mem_of_getLast? hlast) rfl

theorem components_tidy {path : String} (h : ¬ IsTop path) : components (tidy path) = front path := by
  rw [components, splitOn, toList_tidy, tidyChars_eq, front]
  split
  · rfl
  · next hsome =>
    have hkept : kept path.toList ≠ [] := fun hnone =>
      h ⟨fun hslashes => hsome ⟨hslashes, hnone⟩, hnone⟩
    rw [splitOn_replicate, splitOn_join_kept hkept, List.map_append, List.map_replicate]
    rfl

/-- Below a tidy location stand its components, and then those of the path. -/
theorem components_joinTo_tidy (root : String) {path : String} (h : startsWith "/" path = false) :
    components (joinTo (tidy root) path) = front root ++ components path := by
  rw [joinTo, h, if_neg Bool.false_ne_true]
  by_cases htop : IsTop root
  · have hend : endsWith "/" (tidy root) = true := by
      refine List.isSuffixOf_iff_suffix.2 ?_
      obtain ⟨slashes, hslashes⟩ := Nat.exists_eq_succ_of_ne_zero htop.1
      rw [toList_tidy_of_isTop htop, hslashes]
      exact ⟨List.replicate slashes '/', List.replicate_succ'.symm⟩
    rw [if_pos (by simp [hend]), components, splitOn, String.toList_append, toList_tidy_of_isTop htop,
      splitOn_replicate, List.map_append, List.map_replicate, front_of_isTop htop]
    rfl
  · have hend : ¬ endsWith "/" (tidy root) = true := by
      intro hend
      obtain ⟨names, hnames, -⟩ := components_of_endsWith hend ""
      refine getLast?_front htop ?_
      rw [← components_tidy htop, hnames, List.getLast?_concat]
    rw [if_neg (by simpa [tidy_ne_empty] using hend), components_append, components_tidy htop]

theorem startsWith_tidy (path : String) :
    startsWith "/" (tidy path) = decide (0 < leadingSlashes path.toList) := by
  cases hslashes : leadingSlashes path.toList with
  | succ slashes =>
    rw [startsWith, toList_tidy, tidyChars_eq, hslashes, if_neg (by simp), List.replicate_succ]
    simp
  | zero =>
    rw [decide_eq_false (Nat.lt_irrefl 0)]
    by_cases hnone : kept path.toList = []
    · rw [startsWith, toList_tidy, tidyChars_eq, if_pos ⟨hslashes, hnone⟩]
      rfl
    · refine Bool.eq_false_iff.2 fun hstart => ?_
      obtain ⟨rest, hrest⟩ := components_of_startsWith hstart
      rw [components_tidy fun htop => hnone htop.2, front, if_neg fun hnil => hnone hnil.2, hslashes,
        List.replicate_zero, List.nil_append] at hrest
      exact ne_empty_of_mem_keptNames (hrest ▸ List.mem_cons_self) rfl

/-- No character of a path below a root is new, slashes and dots apart. -/
theorem notMem_under {c : Char} {root path : String} (hslash : c ≠ '/') (hdot : c ≠ '.')
    (hroot : c ∉ root.toList) (hpath : c ∉ path.toList) : c ∉ (under root path).toList := by
  have hjoined : c ∉ (joinTo root path).toList := by
    unfold joinTo
    split
    · exact hpath
    split
    · simp [hroot, hpath]
    · simp [hroot, hpath, hslash]
  rw [under, toList_tidy, tidyChars_eq]
  split
  · simpa using hdot
  · intro hmem
    rcases List.mem_append.1 hmem with hmem | hmem
    · exact hslash (List.eq_of_mem_replicate hmem)
    · obtain ⟨part, hpart, hc⟩ := (Chars.mem_join_iff hslash).1 hmem
      refine hjoined ?_
      rw [← Chars.join_splitOn '/' (joinTo root path).toList]
      exact (Chars.mem_join_iff hslash).2 ⟨part, (List.mem_filter.1 hpart).1, hc⟩

end Path

namespace FileSystem

/-! ## Where locations lead -/

variable {fs : FileSystem} {place : Place} {links : Nat} {root path : String} {found : Place × Entry}

theorem resolveFrom_replicate (h : fs.entry? place = some .folder) (n : Nat) (rest : List String) :
    fs.resolveFrom links place (List.replicate n "" ++ rest) = fs.resolveFrom links place rest := by
  induction n with
  | zero => rfl
  | succ n ih =>
    rw [List.replicate_succ, List.cons_append, WellFormed.resolveFrom_empty h, ih]

/-- A dot leads on from the same place. -/
theorem resolveFrom_of_here {rest : List String}
    (h : fs.resolveFrom links place ("." :: rest) = .ok found) :
    fs.resolveFrom links place rest = .ok found := by
  rw [resolveFrom_cons, follow] at h
  cases hentry : fs.entry? place with
  | none =>
    rw [hentry] at h
    cases h
  | some entry =>
    rw [hentry] at h
    cases entry with
    | folder => exact h
    | file | link | pipe => cases h

/-- The folder that a location is looked for from. -/
def start (fs : FileSystem) (path : String) : Place :=
  if 0 < Path.leadingSlashes path.toList then [] else fs.workingFolder

/-- The names of a tidy location lead on from its start. -/
theorem resolveFrom_of_front {rest : List String}
    (h : fs.resolveFrom links (fs.start root) (Path.front root ++ rest) = .ok found) :
    fs.resolveFrom links (fs.start root) (Path.keptNames root ++ rest) = .ok found := by
  rw [Path.front] at h
  split at h
  · next hnone =>
    rw [Path.keptNames, hnone.2]
    exact resolveFrom_of_here h
  · rw [List.append_assoc] at h
    by_cases hslashes : Path.leadingSlashes root.toList = 0
    · rwa [hslashes] at h
    · rw [start, if_pos (Nat.pos_of_ne_zero hslashes)] at h ⊢
      rwa [resolveFrom_replicate rfl] at h

/-- Where a location leads to a folder, its components do. -/
theorem resolveFrom_of_tidy (h : fs.resolve (Path.tidy root) = .ok (place, .folder)) :
    fs.resolveFrom linkLimit (fs.start root) (Path.front root) = .ok (place, .folder) := by
  rw [resolve, if_neg (by simpa using Path.tidy_ne_empty root), Path.startsWith_tidy] at h
  split at h
  · cases h
  by_cases htop : Path.IsTop root
  -- Slashes alone have one empty component more than `front`, and it leads to the top as they do.
  · have hstart : fs.start root = [] := if_pos (Nat.pos_of_ne_zero htop.1)
    rw [Path.components_tidy_of_isTop htop, Path.front_of_isTop htop,
      if_pos (decide_eq_true (Nat.pos_of_ne_zero htop.1)), resolveFrom_replicate rfl,
      WellFormed.resolveFrom_empty rfl] at h
    rw [hstart, Path.front_of_isTop htop, ← List.append_nil (List.replicate _ _),
      resolveFrom_replicate rfl]
    exact h
  · rw [Path.components_tidy htop] at h
    simpa [start] using h

/-- Where a location leads to a folder, its names do. -/
theorem resolveFrom_start (h : fs.resolve (Path.tidy root) = .ok (place, .folder)) :
    fs.resolveFrom linkLimit (fs.start root) (Path.keptNames root) = .ok (place, .folder) := by
  have hfront := resolveFrom_of_tidy h
  rw [← List.append_nil (Path.front root)] at hfront
  exact List.append_nil (Path.keptNames root) ▸ resolveFrom_of_front hfront

/-- A path below a root follows the names of the root, and then its own. -/
theorem resolve_under_eq (fs : FileSystem) (root : String) (h : Path.Descends path) :
    fs.resolve (Path.under root path) =
      if pathLimit ≤ (Path.under root path).utf8ByteSize then .error .nameTooLong
      else fs.resolveFrom linkLimit (fs.start root) (Path.keptNames root ++ components path) := by
  obtain ⟨hkept, hslashes⟩ := Path.kept_joinTo root h
  have hnames : Path.keptNames (Path.joinTo root path) = Path.keptNames root ++ components path := by
    rw [Path.keptNames, hkept, List.map_append]
    rfl
  have hne : Path.kept (Path.joinTo root path).toList ≠ [] := by
    rw [hkept]
    exact List.append_ne_nil_of_right_ne_nil _ (Chars.splitOn_ne_nil '/' path.toList)
  have hfront : Path.front (Path.joinTo root path) =
      List.replicate (Path.leadingSlashes root.toList) "" ++ (Path.keptNames root ++ components path) := by
    rw [Path.front, if_neg fun hnone => hne hnone.2, hnames, hslashes]
  rw [Path.under, resolve, if_neg (by simpa using Path.tidy_ne_empty _), Path.startsWith_tidy,
    Path.components_tidy fun htop => hne htop.2, hfront, hslashes, start]
  refine if_congr Iff.rfl rfl ?_
  cases Path.leadingSlashes root.toList with
  | zero => rfl
  | succ slashes =>
    have hpos : 0 < slashes + 1 := slashes.succ_pos
    rw [if_pos (decide_eq_true hpos), if_pos hpos, resolveFrom_replicate rfl]

/-- A path below a root leads where its names lead from the folder of the root, unless it is too long. -/
theorem resolve_under (hroot : fs.resolve (Path.tidy root) = .ok (place, .folder))
    (h : Path.Descends path) : ∃ left ≤ linkLimit, fs.resolve (Path.under root path) =
      if pathLimit ≤ (Path.under root path).utf8ByteSize then .error .nameTooLong
      else fs.resolveFrom left place (components path) := by
  obtain ⟨-, left, hleft, hrest⟩ := exists_left_of_resolveFrom (resolveFrom_start hroot)
  refine ⟨left, hleft, ?_⟩
  rw [resolve_under_eq fs root h]
  exact congrArg _ (hrest 0 (components path))

/-! ### Paths of a walk -/

theorem startsWith_joinTo_tidy (root : String) (hpath : startsWith "/" path = false) :
    startsWith "/" (Path.joinTo (Path.tidy root) path) = startsWith "/" (Path.tidy root) := by
  rw [Path.joinTo, hpath, if_neg Bool.false_ne_true]
  split
  · exact startsWith_slash_append (Path.tidy_ne_empty root) path
  · rw [String.append_assoc]
    exact startsWith_slash_append (Path.tidy_ne_empty root) _

/-- A path by which a walk comes to a folder leads there by the names of the root and its own. -/
theorem resolveFrom_of_location (hnames : ∀ name ∈ namesIn path, IsName name)
    (h : fs.resolve (Walk.location (Path.tidy root) path) = .ok (place, .folder)) :
    fs.resolveFrom linkLimit (fs.start root) (Path.keptNames root ++ namesIn path) =
      .ok (place, .folder) := by
  unfold Walk.location at h
  split at h
  · next hempty =>
    rw [namesIn, if_pos hempty, List.append_nil]
    exact resolveFrom_start h
  · next hne =>
    have hrelative := Bool.eq_false_iff.2 (not_startsWith_of_names hnames)
    rw [namesIn, if_neg hne]
    refine resolveFrom_of_front ?_
    rw [resolve, startsWith_joinTo_tidy root hrelative, Path.startsWith_tidy,
      Path.components_joinTo_tidy root hrelative] at h
    split at h
    · cases h
    split at h
    · cases h
    · simpa [start] using h

/-- A path by which a walk comes to an entry leads where its names lead from the folder of the root, if it
is not too long. -/
theorem resolve_location_tidy (hroot : fs.resolve (Path.tidy root) = .ok (place, .folder))
    (hnames : ∀ name ∈ namesIn path, IsName name)
    (hshort : (Walk.location (Path.tidy root) path).utf8ByteSize < pathLimit) : ∃ left ≤ linkLimit,
      fs.resolve (Walk.location (Path.tidy root) path) = fs.resolveFrom left place (namesIn path) := by
  obtain ⟨hplace, left, hleft, hrest⟩ := exists_left_of_resolveFrom (resolveFrom_of_tidy hroot)
  refine ⟨left, hleft, ?_⟩
  unfold Walk.location at hshort ⊢
  by_cases hempty : path.isEmpty = true
  · rw [if_pos hempty, hroot, namesIn, if_pos hempty, resolveFrom_nil, hplace]
  · rw [if_neg hempty] at hshort ⊢
    have hrelative := Bool.eq_false_iff.2 (not_startsWith_of_names hnames)
    have hstart := startsWith_joinTo_tidy root hrelative
    have hne : (Path.joinTo (Path.tidy root) path).isEmpty = false := by
      rw [Path.joinTo, hrelative, if_neg Bool.false_ne_true]
      split <;> simp [Path.tidy_ne_empty]
    have hfollowed := hrest 0 (components path)
    rw [resolve, hne, if_neg Bool.false_ne_true, if_neg (Nat.not_le.2 hshort), hstart, Path.startsWith_tidy,
      Path.components_joinTo_tidy root hrelative, namesIn, if_neg hempty]
    simpa [start] using hfollowed

end FileSystem

end CodeReview
