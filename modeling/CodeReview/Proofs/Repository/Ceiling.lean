import CodeReview.Proofs.Repository.Walk
import Mathlib.Data.List.Permutation

/-!
# Limits of size

Which folders a walk enters, and under which of their names, does not depend on the files that it lists.
So a limit of size takes files away and changes nothing else.

* `Walk.step_of_le`: what a lower limit makes of an entry.
* `Walk.Listed.of_le`: a walk with a lower limit enters the same places, and lists what keeps to the limit.
* `Checkout.walk_of_le`: of a root that can be walked, all limits give the same folders, and a lower limit
  gives those files of a higher one that keep to it.
-/

namespace CodeReview

open FileSystem

/-- A folder, or a file of no more than this size. -/
def Node.fits (limit : Int) (node : Node) : Bool := node.isFolder || decide (node.size ≤ limit)

namespace Filter

/-- What a filter takes under a lower limit is what it takes under a higher one, if it is small enough. -/
theorem includes_of_le {fs : FileSystem} {path : String} {size small large : Int} (h : small ≤ large) :
    includes fs path (some size) small = (includes fs path (some size) large && decide (size ≤ small)) := by
  unfold includes
  dsimp only
  by_cases hhidden : isHidden (Path.name path) = true
  · rw [if_pos hhidden, if_pos hhidden, Bool.false_and]
  rw [if_neg hhidden, if_neg hhidden]
  by_cases hsmall : size ≤ small
  · rw [if_neg (Int.not_lt.2 hsmall), if_neg (Int.not_lt.2 (Int.le_trans hsmall h)), decide_eq_true hsmall,
      Bool.and_true]
  · rw [if_pos (Int.not_le.1 hsmall), decide_eq_false hsmall, Bool.and_false]

end Filter

namespace Walk

variable {fs : FileSystem} {root : String} {small large : Int}

/-- A step without the file, if that is above a limit. -/
def Step.within (limit : Int) : Step → Step
  | .list size => if (size : Int) ≤ limit then .list size else .skip
  | .skip => .skip
  | .enter place => .enter place

theorem step_of_le (h : small ≤ large) (place : Place) (location name : String) (entry : Entry) :
    step fs small place location name entry = (step fs large place location name entry).within small := by
  by_cases hentry : entry.isFile = true ∨ entry.isLink = true
  · rw [step_of_followed hentry, step_of_followed hentry]
    rcases fs.resolve location with error | ⟨found, seen⟩
    · rfl
    cases seen with
    | folder =>
      dsimp only
      split <;> rfl
    | file | link | pipe =>
      dsimp only
      rw [Filter.includes_of_le h]
      cases Filter.includes fs location _ large with
      | false => rfl
      | true => simp only [Bool.true_and, decide_eq_true_eq, if_true, Step.within]
  · cases entry with
    | folder =>
      rw [step_folder, step_folder]
      split <;> rfl
    | file | link => simp [Entry.isFile, Entry.isLink] at hentry
    | pipe => rfl

theorem step_within (h : small ≤ large) {place : Place} {location name : String} {entry : Entry} {made : Step}
    (hstep : step fs large place location name entry = made) :
    step fs small place location name entry = made.within small := by
  rw [step_of_le h, hstep]

section Walks

variable {place : Place} {path : String} {es : List (String × Entry)} {entered after : List Place}
  {trees : List Tree}

/-- The nodes under a folder that fit, each with the path of the folder it stands in. -/
def fitting (limit : Int) (path : String) (trees : List Tree) : List (Node × Option String) :=
  (Tree.withParentsOf path trees).filter fun inside => inside.1.fits limit

/-- A walk with a lower limit enters the same places. It lists what fits of the other walk, in the same
order and in the same folders. -/
theorem Listed.of_le (h : small ≤ large)
    (hlisted : Listed fs large root place path es entered trees after) :
    ∃ lesser, Listed fs small root place path es entered lesser after ∧
      Tree.withParentsOf path lesser = fitting small path trees := by
  induction hlisted with
  | nil => exact ⟨[], .nil, rfl⟩
  | skip hstep _ ih =>
    obtain ⟨lesser, hlesser, hnodes⟩ := ih
    exact ⟨lesser, .skip (step_within h hstep) hlesser, hnodes⟩
  | @list _ _ _ _ _ _ size _ _ hstep _ ih =>
    obtain ⟨lesser, hlesser, hnodes⟩ := ih
    have hwithin := step_within h hstep
    rw [Step.within] at hwithin
    by_cases hsize : (size : Int) ≤ small
    · rw [if_pos hsize] at hwithin
      refine ⟨_, .list hwithin hlesser, ?_⟩
      rw [Tree.withParentsOf, hnodes, fitting, fitting, Tree.withParentsOf, List.filter_append]
      simp [Tree.withParents, Tree.withParentsOf, Node.fits, hsize]
    · rw [if_neg hsize] at hwithin
      refine ⟨lesser, .skip hwithin hlesser, ?_⟩
      rw [hnodes, fitting, fitting, Tree.withParentsOf, List.filter_append]
      simp [Tree.withParents, Tree.withParentsOf, Node.fits, hsize]
  | known hstep hknown _ ih =>
    obtain ⟨lesser, hlesser, hnodes⟩ := ih
    exact ⟨lesser, .known (step_within h hstep) hknown hlesser, hnodes⟩
  | enter hstep hnew hread _ _ ihbelow ihrest =>
    obtain ⟨children, hchildren, hinside⟩ := ihbelow
    obtain ⟨lesser, hlesser, hnodes⟩ := ihrest
    refine ⟨_, .enter (step_within h hstep) hnew hread hchildren hlesser, ?_⟩
    rw [Tree.withParentsOf, Tree.withParents, hinside, hnodes, fitting, fitting, fitting, Tree.withParentsOf,
      Tree.withParents, List.filter_append, List.filter_cons_of_pos (by simp [Node.fits])]
  | closed hstep hnew hread _ ih =>
    obtain ⟨lesser, hlesser, hnodes⟩ := ih
    refine ⟨_, .closed (step_within h hstep) hnew hread hlesser, ?_⟩
    rw [Tree.withParentsOf, hnodes, fitting, fitting, Tree.withParentsOf, List.filter_append]
    simp [Tree.withParents, Tree.withParentsOf, Node.fits]

end Walks

/-- The tree of a folder under a lower limit has the nodes that fit, where they stood. -/
theorem withParents_tree_of_le (h : small ≤ large) {place : Place}
    (hplace : fs.entry? place = some .folder) :
    (tree fs place small).withParents none =
      ((tree fs place large).withParents none).filter fun inside => inside.1.fits small := by
  obtain ⟨after, hlarge⟩ := @exists_listedBelow fs large place hplace
  obtain ⟨after', hsmall⟩ := @exists_listedBelow fs small place hplace
  have hbelow : Tree.withParentsOf "" (tree fs place small).children =
      fitting small "" (tree fs place large).children := by
    cases hread : folderAt? fs (location (pathOf place) "") with
    | none =>
      rw [((listedBelow_iff_of_closed hread).1 hlarge).1, ((listedBelow_iff_of_closed hread).1 hsmall).1]
      rfl
    | some found =>
      obtain ⟨lesser, hlesser, hnodes⟩ := ((listedBelow_iff_of_read hread).1 hlarge).of_le h
      rw [(hlesser.unique ((listedBelow_iff_of_read hread).1 hsmall)).1, hnodes]
  exact congrArg (({ path := "", isFolder := true }, none) :: ·) hbelow

end Walk

namespace Checkout

variable {fs : FileSystem} {root : String} {small large limit : Int} {checkout : Checkout}

/-- A root that can be walked with one limit can be walked with any two. They give the same folders, and
of the files the lower limit gives those that the higher one gives and that keep to it, all in the same order
and in the same folders. -/
theorem walk_of_le (h : small ≤ large) (hwalk : walk fs root limit = .ok checkout) :
    ∃ lesser greater, walk fs root small = .ok lesser ∧ walk fs root large = .ok greater ∧
      lesser.root = greater.root ∧
      lesser.tree.nodes.filter (·.isFolder) = greater.tree.nodes.filter (·.isFolder) ∧
      lesser.files = greater.files.filter (fun node => decide (node.size ≤ small)) ∧
      lesser.tree.withParents none =
        (greater.tree.withParents none).filter fun inside => inside.1.fits small := by
  obtain ⟨hlocal, hhome, hfolder, place, hresolve, -⟩ := walk_eq_ok_iff.1 hwalk
  have hparents := Walk.withParents_tree_of_le h (entry?_of_resolve hresolve)
  have hnodes : (Walk.tree fs place small).nodes =
      (Walk.tree fs place large).nodes.filter (·.fits small) := by
    rw [← Tree.map_withParents _ none, ← Tree.map_withParents _ none, hparents, List.filter_map]
    rfl
  refine ⟨_, _, walk_eq_ok_iff.2 ⟨hlocal, hhome, hfolder, place, hresolve, rfl⟩,
    walk_eq_ok_iff.2 ⟨hlocal, hhome, hfolder, place, hresolve, rfl⟩, rfl, ?_, ?_, hparents⟩
  · rw [hnodes, List.filter_filter]
    refine List.filter_congr fun node _ => ?_
    cases hkind : node.isFolder <;> simp [Node.fits, hkind]
  · rw [files, files, Tree.files, Tree.files, hnodes, List.filter_filter, List.filter_filter]
    refine List.filter_congr fun node _ => ?_
    cases hkind : node.isFolder <;> simp [Node.fits, hkind]

/-! ### Two sizes -/

/-- A repository with two files of different size, and a link back to its top. -/
def sized : FileSystem where
  entries := [(["repo"], .folder), (["repo", "again"], .link "."),
    (["repo", "package.json"], .file [0x7B, 0x7D, 0x0A]), (["repo", "pom.xml"], .file [0x0A])]

/-- What paths of `sized` lead to. -/
def sizedPaths : List (String × Place × Entry) :=
  [("repo", ["repo"], .folder), ("/repo", ["repo"], .folder), ("/repo/again", ["repo"], .folder),
    ("/repo/package.json", ["repo", "package.json"], .file [0x7B, 0x7D, 0x0A]),
    ("/repo/pom.xml", ["repo", "pom.xml"], .file [0x0A])]

theorem resolve_sized {path : String} {found : Place × Entry} (h : (path, found) ∈ sizedPaths) :
    sized.resolve path = .ok found :=
  resolve_of_known 9 (by decide) h

theorem tree_sized : Walk.tree sized ["repo"] 3 = .node { path := "", isFolder := true }
    [.node { path := "package.json", size := 3 } [], .node { path := "pom.xml", size := 1 } []] := by
  have hwalk : Walk.Listed sized 3 "/repo" ["repo"] "" (sized.listing ["repo"]) [["repo"]]
      [.node { path := "package.json", size := 3 } [], .node { path := "pom.xml", size := 1 } []]
      [["repo"]] := by
    have htop : sized.listing ["repo"] = [("again", .link "."),
        ("package.json", .file [0x7B, 0x7D, 0x0A]), ("pom.xml", .file [0x0A])] := by cbv
    have hagain : Walk.step sized 3 ["repo"] "/repo/again" "again" (.link ".") = .enter ["repo"] :=
      Walk.step_link (by decide) (resolve_sized (by decide))
    rw [htop]
    refine .known hagain (by decide) (.list ?_ (.list ?_ .nil))
    · exact Walk.step_eq_list_iff.2 ⟨.inl rfl, ["repo", "package.json"], .file [0x7B, 0x7D, 0x0A],
        resolve_sized (by decide), rfl, by decide, rfl⟩
    · exact Walk.step_eq_list_iff.2 ⟨.inl rfl, ["repo", "pom.xml"], .file [0x0A],
        resolve_sized (by decide), rfl, by decide, rfl⟩
  have hread : Walk.folderAt? sized "/repo" = some ["repo"] :=
    Walk.folderAt?_eq_some_iff.2 (resolve_sized (by decide))
  obtain ⟨after, hlisted⟩ := @Walk.exists_listedBelow sized 3 ["repo"] rfl
  replace hlisted := (Walk.listedBelow_iff_of_read hread).1 hlisted
  exact congrArg (Tree.node _) (hwalk.unique hlisted).1

theorem walk_sized :
    walk sized "repo" 3 = .ok { root := "/repo", tree := Walk.tree sized ["repo"] 3 } := by
  have hresolve : sized.resolve (Path.tidy "repo") = .ok (["repo"], .folder) := resolve_sized (by decide)
  refine walk_eq_ok_iff.2 ⟨by decide, by decide, ?_, ["repo"], hresolve, rfl⟩
  exact isFolder_eq_true_iff.2 ⟨by cbv, _, hresolve⟩

theorem walk_of_le_sized : (2 : Int) ≤ 3 ∧ (∃ checkout, walk sized "repo" 3 = .ok checkout) ∧
    ∃ lesser greater, walk sized "repo" 2 = .ok lesser ∧ walk sized "repo" 3 = .ok greater ∧
      lesser.files.map (·.path) = ["pom.xml"] ∧
      greater.files.map (·.path) = ["package.json", "pom.xml"] := by
  obtain ⟨lesser, greater, hlesser, hgreater, -, -, hfiles, -⟩ :=
    walk_of_le (show (2 : Int) ≤ 3 by decide) walk_sized
  obtain rfl := Except.ok.inj (walk_sized.symm.trans hgreater)
  refine ⟨by decide, ⟨_, walk_sized⟩, lesser, _, hlesser, walk_sized, ?_, ?_⟩
  · rw [hfiles, files, tree_sized]
    decide
  · rw [files, tree_sized]
    rfl

end Checkout

end CodeReview
