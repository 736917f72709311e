import CodeReview.Proofs.FileSystem.Writing

/-!
# Where a relative path leads by its text

Following a path from a folder without looking at a file system: an empty component and a dot stay, two
dots take back the name before them, or lead one folder further up where there is none, and any other
component is one name more. `Relative` is what one comes to.

* `simplify_eq_text`: simplifying a path that does not start with a slash is following it.
* `follow_joinTo`: a path that is taken from another is followed from where that one leads.
* `follow_parent`: the folder of a file is what stands before its last slash, however many slashes
  stand there.
-/

namespace CodeReview.Path

open Text FileSystem

/-- A location as seen from a folder: so many folders above it, and down from there by names. -/
structure Relative where
  up : Nat := 0
  names : List String := []
  deriving DecidableEq, Repr

namespace Relative

/-- Follows one component of a path. -/
def step (here : Relative) (part : String) : Relative :=
  if part = "" ∨ part = "." then here
  else if part = ".." then
    if here.names = [] then { here with up := here.up + 1 }
    else { here with names := here.names.dropLast }
  else { here with names := here.names ++ [part] }

/-- Follows a path. -/
def follow (here : Relative) (path : String) : Relative := (components path).foldl step here

/-- The components of the shortest path to a location. -/
def parts (here : Relative) : List String := List.replicate here.up ".." ++ here.names

/-- The path of the names alone, which is empty where there are none. -/
def path (here : Relative) : String := join "/" here.names

/-- The shortest path to a location; a dot for the folder itself. -/
def text (here : Relative) : String := if here.parts = [] then "." else join "/" here.parts

/-- Every name leads one folder down. -/
def IsDown (here : Relative) : Prop := ∀ name ∈ here.names, IsStep name.toList

section Following

variable {here : Relative} {part : String}

theorem step_of_skip (h : part = "" ∨ part = ".") (here : Relative) : here.step part = here := if_pos h

theorem step_empty (here : Relative) : here.step "" = here := step_of_skip (.inl rfl) here

theorem follow_empty (here : Relative) : here.follow "" = here := by
  rw [follow, components_of_no_slash (by decide), List.foldl_cons, List.foldl_nil, step_empty]

theorem follow_append (here : Relative) (before behind : String) :
    here.follow (before ++ "/" ++ behind) = (here.follow before).follow behind := by
  rw [follow, components_append, List.foldl_append, follow, follow]

theorem follow_append_slash (here : Relative) (before : String) :
    here.follow (before ++ "/") = here.follow before := by
  rw [← String.append_empty (s := before ++ "/"), follow_append, follow_empty]

theorem follow_slash_append (here : Relative) (behind : String) :
    here.follow ("/" ++ behind) = here.follow behind := by
  have happend := here.follow_append "" behind
  rwa [String.empty_append, follow_empty] at happend

/-- Slashes at the end lead nowhere. -/
theorem follow_trimEnd (here : Relative) (cs : List Char) :
    here.follow (String.ofList (Chars.trimEnd isSlash cs)) = here.follow (String.ofList cs) := by
  induction cs using List.reverseRecOn with
  | nil => rfl
  | append_singleton cs c ih =>
    by_cases hc : isSlash c = true
    · have hslash : String.ofList (cs ++ [c]) = String.ofList cs ++ "/" := by
        rw [beq_iff_eq.1 hc, String.ofList_append]
      rw [hslash, follow_append_slash, ← ih, Chars.trimEnd, List.reverse_concat,
        List.dropWhile_cons_of_pos hc, Chars.trimEnd]
    · rw [Chars.trimEnd, List.reverse_concat, List.dropWhile_cons_of_neg hc, ← List.reverse_concat,
        List.reverse_reverse]

/-- Slashes in front lead nowhere either. -/
theorem follow_trimStart (here : Relative) (cs : List Char) :
    here.follow (String.ofList (Chars.trimStart isSlash cs)) = here.follow (String.ofList cs) := by
  induction cs with
  | nil => rfl
  | cons c cs ih =>
    by_cases hc : isSlash c = true
    · have hslash : String.ofList (c :: cs) = "/" ++ String.ofList cs := by
        rw [beq_iff_eq.1 hc, ← List.singleton_append, String.ofList_append]
      rw [hslash, follow_slash_append, ← ih, Chars.trimStart, List.dropWhile_cons_of_pos hc,
        Chars.trimStart]
    · rw [Chars.trimStart, List.dropWhile_cons_of_neg hc]

/-- A path that is taken from another is followed from where that one leads. -/
theorem follow_joinTo (here : Relative) (base : String) {path : String}
    (h : startsWith "/" path = false) : here.follow (joinTo base path) = (here.follow base).follow path := by
  rw [joinTo, h, if_neg Bool.false_ne_true]
  by_cases hempty : base = ""
  · subst hempty
    rw [if_pos (by decide), String.empty_append, follow_empty]
  by_cases hend : endsWith "/" base = true
  · obtain ⟨names, hbase, happend⟩ := components_of_endsWith hend path
    have hempties : here.follow base = names.foldl step here := by
      rw [follow, hbase, List.foldl_append, List.foldl_cons, List.foldl_nil, step_empty]
    rw [if_pos (by simp [hend]), follow, happend, List.foldl_append, hempties, follow]
  · rw [if_neg (by simp [hempty, hend]), follow_append]

/-- What stands before the last slash of a relative path leads to the folder of the path. -/
theorem follow_parent (here : Relative) {path : String} (h : startsWith "/" path = false) :
    here.follow (parent path) = here.follow (folder path) := by
  by_cases hslash : '/' ∈ path.toList
  · have hchars := Chars.beforeLast_append_afterLast hslash
    have hparent := parent_append (Chars.notMem_afterLast '/' path.toList) (Chars.beforeLast '/' path.toList)
    rw [hchars, String.ofList_toList] at hparent
    have hfront : (Chars.beforeLast '/' path.toList).all isSlash = false := by
      refine Bool.eq_false_iff.2 fun hall => ?_
      have hstart : startsWith "/" path = true := by
        rw [startsWith, ← hchars]
        cases hbefore : Chars.beforeLast '/' path.toList with
        | nil => simp
        | cons c cs =>
          have hc := List.all_eq_true.1 hall c (hbefore ▸ List.mem_cons_self)
          simp [beq_iff_eq.1 hc]
      exact Bool.false_ne_true (h.symm.trans hstart)
    rw [hparent, hfront, if_neg Bool.false_ne_true, follow_trimEnd, folder, onChars]
  · have hparent := parent_of_no_slash hslash
    rw [String.ofList_toList] at hparent
    rw [hparent, folder, onChars, Chars.beforeLast_of_notMem hslash]

/-! ### Paths that do not start with a slash -/

theorem parent_prefix (path : String) : (parent path).toList <+: path.toList := by
  have hhead : (path.toList.reverse.dropWhile (!isSlash ·)).reverse <+: path.toList :=
    List.rdropWhile_prefix _ _
  rw [parent, String.toList_ofList]
  split
  · exact hhead
  · exact (List.rdropWhile_prefix isSlash _).trans hhead

theorem not_startsWith_joinTo {base path : String} (hbase : startsWith "/" base = false)
    (hpath : startsWith "/" path = false) : startsWith "/" (joinTo base path) = false := by
  rw [joinTo, hpath, if_neg Bool.false_ne_true]
  by_cases hempty : base = ""
  · subst hempty
    rwa [if_pos (by decide), String.empty_append]
  · split
    · rw [startsWith_slash_append hempty, hbase]
    · rw [String.append_assoc, startsWith_slash_append hempty, hbase]

end Following

/-! ## Simplified paths -/

section Simplified

variable {here : Relative} {part : String}

theorem isDown_here : IsDown {} := List.forall_mem_nil _

theorem isDown_step (h : here.IsDown) (hslash : '/' ∉ part.toList) : (here.step part).IsDown := by
  unfold step
  split
  · exact h
  next hskip =>
  split
  · split
    · exact h
    · exact fun name hname => h name (List.dropLast_subset _ hname)
  · next hparent =>
    rw [not_or] at hskip
    have hne {name : String} (hother : part ≠ name) : part.toList ≠ name.toList :=
      mt String.toList_inj.1 hother
    refine List.forall_mem_append.2 ⟨h, List.forall_mem_singleton.2 ?_⟩
    exact ⟨hne hskip.1, hne hskip.2, hne hparent, hslash⟩

/-- What one component does to components that are already simplified. -/
theorem addComponent_eq (h : here.IsDown) (part : String) :
    addComponent false (here.parts.map String.toList).reverse part.toList =
      ((here.step part).parts.map String.toList).reverse := by
  have hpart (name : String) : (part.toList == name.toList) = true ↔ part = name := by
    rw [beq_iff_eq, String.toList_inj]
  have hempty : (part.toList == []) = true ↔ part = "" := hpart ""
  have hhere : (part.toList == ['.']) = true ↔ part = "." := hpart "."
  have hup : (part.toList == ['.', '.']) = true ↔ part = ".." := hpart ".."
  unfold addComponent step
  simp only [Bool.or_eq_true, hempty, hhere, hup]
  by_cases hskip : part = "" ∨ part = "."
  · rw [if_pos hskip, if_pos hskip]
  rw [if_neg hskip, if_neg hskip]
  by_cases hparent : part = ".."
  · subst hparent
    rw [if_pos rfl, if_pos rfl]
    by_cases hnone : here.names = []
    · rw [if_pos hnone, parts, parts, hnone, List.append_nil, List.append_nil, List.map_replicate,
        List.map_replicate, List.reverse_replicate, List.reverse_replicate]
      cases here.up with
      | zero => rfl
      | succ up => rfl
    · obtain ⟨names, last, hnames⟩ := (List.eq_nil_or_concat here.names).resolve_left hnone
      rw [List.concat_eq_append] at hnames
      have hlast : last.toList ≠ ['.', '.'] := (h last (by simp [hnames])).ne_parent
      rw [if_neg hnone, parts, parts, hnames, List.dropLast_concat, ← List.append_assoc, List.map_append,
        List.map_singleton, List.reverse_concat]
      simp [hlast]
  · rw [if_neg hparent, if_neg hparent, parts, parts]
    simp

theorem isDown_foldl {names : List String} (h : here.IsDown) (hslash : ∀ name ∈ names, '/' ∉ name.toList) :
    (names.foldl step here).IsDown := by
  induction names generalizing here with
  | nil => exact h
  | cons name names ih =>
    obtain ⟨hname, hslash⟩ := List.forall_mem_cons.1 hslash
    exact ih (isDown_step h hname) hslash

theorem foldl_addComponent {names : List String} (h : here.IsDown)
    (hslash : ∀ name ∈ names, '/' ∉ name.toList) :
    (names.map String.toList).foldl (addComponent false) (here.parts.map String.toList).reverse =
      ((names.foldl step here).parts.map String.toList).reverse := by
  induction names generalizing here with
  | nil => rfl
  | cons name names ih =>
    obtain ⟨hname, hslash⟩ := List.forall_mem_cons.1 hslash
    rw [List.map_cons, List.foldl_cons, addComponent_eq h, ih (isDown_step h hname) hslash, List.foldl_cons]

theorem no_slash_of_mem_components {name path : String} (h : name ∈ components path) :
    '/' ∉ name.toList := by
  obtain ⟨part, hpart, rfl⟩ := List.mem_map.1 h
  rw [String.toList_ofList]
  exact Chars.notMem_of_mem_splitOn hpart

theorem splitOn_eq_components (path : String) :
    Chars.splitOn '/' path.toList = (components path).map String.toList := by
  rw [components, splitOn, List.map_map]
  exact (List.map_id'' (fun part => String.toList_ofList) _).symm

theorem isDown_follow (h : here.IsDown) (path : String) : (here.follow path).IsDown :=
  isDown_foldl h fun _ hname => no_slash_of_mem_components hname

/-- The components that are left of a relative path are those of the shortest path. -/
theorem resolveDots_eq (path : String) : resolveDots false (Chars.splitOn '/' path.toList) =
    (follow {} path).parts.map String.toList := by
  have hfold := @foldl_addComponent {} (components path) isDown_here fun _ hname =>
    no_slash_of_mem_components hname
  rw [resolveDots, splitOn_eq_components]
  exact (congrArg List.reverse hfold).trans (List.reverse_reverse _)

/-! ### The shortest path -/

/-- Every part of the shortest path is there to be read. -/
theorem ne_empty_of_mem_parts (h : here.IsDown) (hpart : part ∈ here.parts) : part ≠ "" := by
  rcases List.mem_append.1 hpart with hup | hname
  · exact List.eq_of_mem_replicate hup ▸ (by decide)
  · exact fun hempty => (h part hname).ne_empty (String.toList_eq_nil_iff.2 hempty)

theorem join_ne_empty {parts : List String} (hne : parts ≠ []) (h : ∀ part ∈ parts, part ≠ "") :
    join "/" parts ≠ "" := by
  obtain ⟨part, rest, rfl⟩ := List.exists_cons_of_ne_nil hne
  cases rest with
  | nil =>
    rw [join, String.intercalate_singleton]
    exact h part List.mem_cons_self
  | cons next rest => simp [join, String.intercalate_cons_cons]

/-- Simplifying a path that does not start with a slash is following it. -/
theorem simplify_eq_text {path : String} (h : startsWith "/" path = false) :
    simplify path = (follow {} path).text := by
  have hdown : (follow {} path).IsDown := isDown_follow isDown_here path
  have hbody : Chars.join ['/'] ((follow {} path).parts.map String.toList) =
      (join "/" (follow {} path).parts).toList := by
    rw [join, String.toList_intercalate]
    rfl
  rw [simplify, onChars, simplifyChars]
  rw [leadingSlashes_of_not_startsWith h, decide_eq_false (Nat.lt_irrefl 0), resolveDots_eq, hbody,
    List.replicate_zero, List.nil_append, text]
  by_cases hnone : (follow {} path).parts = []
  · rw [if_pos hnone, hnone]
    rfl
  · have hne := join_ne_empty hnone fun part hpart => ne_empty_of_mem_parts hdown hpart
    rw [if_neg hnone, if_neg (by simpa using hne), String.ofList_toList]

/-- A location that is not above the folder is written by its names. -/
theorem text_eq_path (hup : here.up = 0) (hne : here.names ≠ []) : here.text = here.path := by
  rw [text, parts, hup, List.replicate_zero, List.nil_append, if_neg hne, path]

theorem text_eq_dot (hup : here.up = 0) (hnone : here.names = []) : here.text = "." := by
  rw [text, parts, hup, hnone]
  rfl

/-- A path of names leads down. -/
theorem descends_path (h : here.IsDown) (hne : here.names ≠ []) : Descends here.path := by
  have hparts := components_join (fun name hname => (h name hname).no_slash) hne
  rw [Descends, splitOn_eq_components, path, hparts]
  exact List.forall_mem_map.2 h

/-- The shortest path leads out of the folder if the location is above it. -/
theorem text_outside_iff (h : here.IsDown) :
    (here.text == ".." || startsWith "../" here.text) = true ↔ here.up ≠ 0 := by
  cases hup : here.up with
  | zero =>
    refine iff_of_false ?_ (not_not_intro rfl)
    by_cases hnone : here.names = []
    · rw [text_eq_dot hup hnone]
      decide
    · have hinside := inside_of_descends (descends_path h hnone)
      rw [text_eq_path hup hnone]
      rw [Bool.or_assoc, Bool.or_eq_false_iff] at hinside
      exact Bool.eq_false_iff.1 hinside.2
  | succ up =>
    refine iff_of_true ?_ (Nat.succ_ne_zero up)
    rw [text, parts, hup, List.replicate_succ, List.cons_append, if_neg (List.cons_ne_nil _ _), join]
    cases List.replicate up ".." ++ here.names with
    | nil => rfl
    | cons next rest =>
      rw [String.intercalate_cons_cons]
      exact Bool.or_eq_true_iff.2 (.inr (startsWith_append (by decide) _))

end Simplified

end Relative

end CodeReview.Path
