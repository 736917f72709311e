import CodeReview.Proofs.Text.Chars
import CodeReview.Repository.Walk

/-!
# The names in a path

A path of names is taken apart into them again: the path of a place (`components_pathOf`), a path
below a folder (`namesIn_child`), and the path by which a walk comes to it (`components_location`).
-/

namespace CodeReview.FileSystem

open Text

/-- A name that an entry of a folder may have. -/
structure IsName (name : String) : Prop where
  ne_empty : name ≠ ""
  ne_here : name ≠ "."
  ne_parent : name ≠ ".."
  no_slash : '/' ∉ name.toList
  short : name.utf8ByteSize ≤ nameLimit

instance (name : String) : Decidable (IsName name) :=
  decidable_of_iff
    (name ≠ "" ∧ name ≠ "." ∧ name ≠ ".." ∧ '/' ∉ name.toList ∧ name.utf8ByteSize ≤ nameLimit)
    ⟨fun ⟨hempty, hhere, hparent, hslash, hshort⟩ => ⟨hempty, hhere, hparent, hslash, hshort⟩,
      fun ⟨hempty, hhere, hparent, hslash, hshort⟩ => ⟨hempty, hhere, hparent, hslash, hshort⟩⟩

/-- The names in a path below a folder; the folder itself has none. -/
def namesIn (path : String) : List String := if path.isEmpty then [] else components path

section Components

variable {name path : String} {place : Place}

theorem components_append (before behind : String) :
    components (before ++ "/" ++ behind) = components before ++ components behind := by
  have hlist : (before ++ "/" ++ behind).toList = before.toList ++ '/' :: behind.toList := by
    simp [String.toList_append]
  rw [components, components, components, splitOn, splitOn, splitOn, hlist, Chars.splitOn_append,
    List.map_append]

theorem components_of_no_slash (h : '/' ∉ name.toList) : components name = [name] := by
  rw [components, splitOn, Chars.splitOn_of_notMem h, List.map_singleton, String.ofList_toList]

theorem components_join {names : List String} (h : ∀ name ∈ names, '/' ∉ name.toList)
    (hne : names ≠ []) : components (join "/" names) = names := by
  induction names with
  | nil => exact absurd rfl hne
  | cons name names ih =>
    have hname := h name List.mem_cons_self
    cases names with
    | nil => rw [join, String.intercalate_singleton, components_of_no_slash hname]
    | cons next names =>
      rw [join, String.intercalate_cons_cons, components_append, components_of_no_slash hname,
        ← join, ih (fun other hother => h other (List.mem_cons_of_mem name hother))
          (List.cons_ne_nil next names)]
      rfl

/-- The path of a place has the names of the place, behind the empty one in front of the slash. -/
theorem components_pathOf (h : ∀ name ∈ place, '/' ∉ name.toList) (hne : place ≠ []) :
    components (pathOf place) = "" :: place := by
  have hpath : pathOf place = "" ++ "/" ++ join "/" place := by
    rw [pathOf, String.empty_append]
  rw [hpath, components_append, components_join h hne, components_of_no_slash (by decide)]
  rfl

theorem eq_empty_of_namesIn (h : namesIn path = []) : path = "" := by
  unfold namesIn at h
  split at h
  · next hempty => exact String.isEmpty_iff.1 hempty
  · rw [components, splitOn, List.map_eq_nil_iff] at h
    exact absurd h (Chars.splitOn_ne_nil '/' path.toList)

theorem namesIn_of_name (h : IsName name) : namesIn name = [name] := by
  rw [namesIn, if_neg (by simpa using h.ne_empty), components_of_no_slash h.no_slash]

/-- A path below a folder has the names of the folder, and one more. -/
theorem namesIn_child (h : IsName name) : namesIn (Path.child path name) = namesIn path ++ [name] := by
  unfold Path.child
  split
  · next hempty => rw [namesIn_of_name h, namesIn, if_pos hempty, List.nil_append]
  · next hne =>
    have hchild : (path ++ "/" ++ name).isEmpty = false := by simp
    rw [namesIn, if_neg (by simp [hchild]), components_append, components_of_no_slash h.no_slash,
      namesIn, if_neg hne]

theorem isName_of_child (hpath : ∀ name ∈ namesIn path, IsName name) (hname : IsName name) :
    ∀ other ∈ namesIn (Path.child path name), IsName other := by
  rw [namesIn_child hname]
  exact List.forall_mem_append.2 ⟨hpath, by simpa using hname⟩

theorem name_child (h : IsName name) : Path.name (Path.child path name) = name := by
  unfold Path.child Path.name onChars
  split
  · rw [Chars.afterLast_of_notMem h.no_slash, String.ofList_toList]
  · have hlist : (path ++ "/" ++ name).toList = path.toList ++ '/' :: name.toList := by
      simp [String.toList_append]
    rw [hlist, Chars.afterLast_append h.no_slash, String.ofList_toList]

theorem child_ne_empty (h : IsName name) : Path.child path name ≠ "" := by
  unfold Path.child
  split
  · exact h.ne_empty
  · simp

/-! ### Paths of a walk -/

theorem components_of_startsWith {path : String} (h : startsWith "/" path = true) :
    ∃ rest, components path = "" :: rest := by
  obtain ⟨behind, hbehind⟩ := List.isPrefixOf_iff_prefix.1 h
  have hpath : path = "" ++ "/" ++ String.ofList behind := by
    apply String.toList_injective
    simp [String.toList_append, ← hbehind]
  refine ⟨components (String.ofList behind), ?_⟩
  rw [hpath, components_append, components_of_no_slash (by decide)]
  rfl

theorem not_startsWith_of_names (hpath : ∀ name ∈ namesIn path, IsName name) :
    ¬ startsWith "/" path = true := by
  intro hstart
  obtain ⟨rest, hrest⟩ := components_of_startsWith hstart
  have hne : ¬ path.isEmpty = true := by
    intro hempty
    rw [String.isEmpty_iff.1 hempty] at hstart
    exact absurd hstart (by decide)
  rw [namesIn, if_neg hne, hrest] at hpath
  exact (hpath "" List.mem_cons_self).ne_empty rfl

theorem components_of_endsWith {path : String} (h : endsWith "/" path = true) (behind : String) :
    ∃ names, components path = names ++ [""] ∧
      components (path ++ behind) = names ++ components behind := by
  obtain ⟨before, hbefore⟩ := List.isSuffixOf_iff_suffix.1 h
  have hpath : path = String.ofList before ++ "/" ++ "" := by
    apply String.toList_injective
    simp [String.toList_append, ← hbefore]
  refine ⟨components (String.ofList before), ?_, ?_⟩
  · have hempty : components "" = [""] := components_of_no_slash (by decide)
    rw [hpath, components_append, hempty]
  · rw [hpath, String.append_empty, components_append]

theorem startsWith_append {start path : String} (h : startsWith start path = true) (behind : String) :
    startsWith start (path ++ behind) = true := by
  obtain ⟨rest, hrest⟩ := List.isPrefixOf_iff_prefix.1 h
  refine List.isPrefixOf_iff_prefix.2 ⟨rest ++ behind.toList, ?_⟩
  rw [String.toList_append, ← hrest, List.append_assoc]

theorem startsWith_slash_append {path : String} (h : path ≠ "") (behind : String) :
    startsWith "/" (path ++ behind) = startsWith "/" path := by
  rw [startsWith, startsWith, String.toList_append]
  cases hchars : path.toList with
  | nil => exact absurd (String.toList_eq_nil_iff.1 hchars) h
  | cons c cs => rfl

theorem startsWith_pathOf (place : Place) : startsWith "/" (pathOf place) = true :=
  startsWith_append (by decide) _

theorem startsWith_location (place : Place) (path : String) :
    startsWith "/" (Walk.location (pathOf place) path) = true := by
  unfold Walk.location Path.joinTo
  split
  · exact startsWith_pathOf place
  split
  · next hstart => exact hstart
  split
  · exact startsWith_append (startsWith_pathOf place) _
  · exact startsWith_append (startsWith_append (startsWith_pathOf place) _) _

theorem components_location (hplace : ∀ name ∈ place, IsName name)
    (hpath : ∀ name ∈ namesIn path, IsName name) (hne : place ++ namesIn path ≠ []) :
    components (Walk.location (pathOf place) path) = "" :: (place ++ namesIn path) := by
  have hslash : ∀ name ∈ place, '/' ∉ name.toList := fun name hname => (hplace name hname).no_slash
  unfold Walk.location
  split
  · next hempty =>
    rw [namesIn, if_pos hempty, List.append_nil] at hne ⊢
    exact components_pathOf hslash hne
  · next hpathNe =>
    rw [Path.joinTo, if_neg (not_startsWith_of_names hpath), namesIn, if_neg hpathNe]
    cases place with
    | nil =>
      have htop : pathOf [] = "/" := rfl
      obtain ⟨names, hnames, hall⟩ := @components_of_endsWith "/" (by decide) path
      have hnames' : names = [""] := by
        have : components "/" = ["", ""] := by decide
        rw [this] at hnames
        exact (List.append_inj_left' (hnames : [""] ++ [""] = _) rfl).symm
      rw [htop, if_pos (by decide), hall, hnames']
      rfl
    | cons first rest =>
      have hcomponents := components_pathOf hslash (List.cons_ne_nil first rest)
      have hend : endsWith "/" (pathOf (first :: rest)) = false := by
        refine Bool.eq_false_iff.2 fun hend => ?_
        obtain ⟨names, hnames, -⟩ := components_of_endsWith hend ""
        have hlast := congrArg List.getLast? (hcomponents.symm.trans hnames)
        rw [List.getLast?_concat, List.getLast?_cons_cons] at hlast
        exact (hplace "" (List.mem_of_getLast? hlast)).ne_empty rfl
      have hbase : (pathOf (first :: rest)).isEmpty = false := by simp [pathOf]
      rw [if_neg (by simp [hbase, hend]), components_append, hcomponents]
      rfl

/-- The location of a folder is no longer than those below it. -/
theorem size_location_le {root : String} (hpath : ∀ name ∈ namesIn path, IsName name)
    (hname : IsName name) : (Walk.location root path).utf8ByteSize ≤
      (Walk.location root (Path.child path name)).utf8ByteSize := by
  have hchild := isName_of_child hpath hname
  have hne : ¬ (Path.child path name).isEmpty = true := by
    simpa using child_ne_empty hname
  rw [Walk.location, Walk.location, if_neg hne, Path.joinTo, Path.joinTo,
    if_neg (not_startsWith_of_names hpath), if_neg (not_startsWith_of_names hchild)]
  have hle : path.utf8ByteSize ≤ (Path.child path name).utf8ByteSize := by
    unfold Path.child
    split
    · next hempty => simp [String.isEmpty_iff.1 hempty]
    · simp only [String.utf8ByteSize_append]
      omega
  split <;> split <;> simp only [String.utf8ByteSize_append] <;> omega

end Components

end CodeReview.FileSystem
