import CodeReview.Proofs.FileSystem.Paths
import CodeReview.Proofs.Sorting
import Mathlib.Data.List.Induction

/-!
# Resolving paths

In a well-formed file system every entry stands in a folder under a name. There a place is found by its
own names (`resolveFrom_place`), and a path goes on from where its front leads
(`exists_left_of_resolveFrom`). How many links may be followed decides whether a path is refused, and
nothing else (`resolveFrom_add`, `resolveFrom_of_add`). Whoever looks for a file takes most refusals to
mean that there is none; what is too long is a failure instead (`probe_eq_error_iff`).

`follow` is what one name does to a path, in one of four ways (`Follows`); everything here is an induction
on it (`resolveFrom_induction`).
-/

namespace CodeReview.FileSystem

open Text

/-- Every place has one entry, which stands in a folder under a name. -/
structure WellFormed (fs : FileSystem) : Prop where
  nodup : (fs.entries.map (·.1)).Nodup
  inFolder {place : Place} {entry : Entry} (h : (place, entry) ∈ fs.entries) :
    ∃ folder name, place = folder ++ [name] ∧ IsName name ∧ fs.entry? folder = some .folder

/-- A place is that of a name in a folder. -/
theorem exists_folder_iff {fs : FileSystem} {place : Place} :
    (∃ folder name, place = folder ++ [name] ∧ IsName name ∧ fs.entry? folder = some .folder) ↔
      ∃ name ∈ place.getLast?, IsName name ∧ fs.entry? place.dropLast = some .folder := by
  constructor
  · rintro ⟨folder, name, rfl, hname, hfolder⟩
    exact ⟨name, by simp, hname, by simpa using hfolder⟩
  · rintro ⟨name, hlast, hname, hfolder⟩
    obtain ⟨front, rfl⟩ := List.getLast?_eq_some_iff.1 hlast
    exact ⟨front, name, rfl, hname, by simpa using hfolder⟩

instance (fs : FileSystem) : Decidable fs.WellFormed :=
  decidable_of_iff ((fs.entries.map (·.1)).Nodup ∧ ∀ inside ∈ fs.entries,
      ∃ name ∈ inside.1.getLast?, IsName name ∧ fs.entry? inside.1.dropLast = some .folder)
    ⟨fun ⟨hnodup, hall⟩ => ⟨hnodup, fun hmem => exists_folder_iff.2 (hall _ hmem)⟩,
      fun ⟨hnodup, hall⟩ => ⟨hnodup, fun _ hmem => exists_folder_iff.1 (hall hmem)⟩⟩

/-- Names lead to a place, if as many links as it takes may be followed. -/
def Denotes (fs : FileSystem) (place : Place) (names : List String) (found : Place × Entry) : Prop :=
  ∃ links, fs.resolveFrom links place names = .ok found

/-- Follows one name: the links that are left, the place it leads to, and the names that a link puts in
front of those that are still to come. -/
def follow (fs : FileSystem) (links : Nat) (place : Place) (name : String) :
    Except SystemError (Nat × Place × List String) :=
  match fs.entry? place with
  | none => .error .notFound
  | some .folder =>
    if name == "" || name == "." then .ok (links, place, [])
    else if name == ".." then .ok (links, place.dropLast, [])
    else if nameLimit < name.utf8ByteSize then .error .nameTooLong
    else
      match fs.entry? (place ++ [name]) with
      | none => .error .notFound
      | some (.link target) =>
        match links with
        | 0 => .error .tooManyLinks
        | links + 1 =>
          .ok (links, if startsWith "/" target then [] else place, components target)
      | some _ => .ok (links, place ++ [name], [])
  | some _ => .error .notDirectory

/-- A name that leads down: it says neither to stay nor to go up, and is not too long. -/
structure GoesDown (name : String) : Prop where
  ne_empty : name ≠ ""
  ne_here : name ≠ "."
  ne_parent : name ≠ ".."
  short : name.utf8ByteSize ≤ nameLimit

/-- What becomes of a name that is not refused: it stays, goes up, goes down, or makes way for the names
of a link. -/
inductive Follows (fs : FileSystem) (links : Nat) (place : Place) (name : String) :
    Nat → Place → List String → Prop
  | here (hname : name = "" ∨ name = ".") : Follows fs links place name links place []
  | parent (hname : name = "..") : Follows fs links place name links place.dropLast []
  | entry {entry : Entry} (hname : GoesDown name) (hentry : fs.entry? (place ++ [name]) = some entry)
    (hlink : entry.isLink = false) : Follows fs links place name links (place ++ [name]) []
  | link {target : String} {left : Nat} (hname : GoesDown name)
    (hentry : fs.entry? (place ++ [name]) = some (.link target)) (hlinks : links = left + 1) :
    Follows fs links place name left (if startsWith "/" target then [] else place) (components target)

/-- Why a name is refused: where it is followed from, its length, nothing there, or too many links. -/
inductive Refuses (fs : FileSystem) (links : Nat) (place : Place) (name : String) : SystemError → Prop
  | nowhere (hplace : fs.entry? place = none) : Refuses fs links place name .notFound
  | noFolder {entry : Entry} (hplace : fs.entry? place = some entry) (hentry : entry ≠ .folder) :
    Refuses fs links place name .notDirectory
  | tooLong (hplace : fs.entry? place = some .folder) (hempty : name ≠ "") (hhere : name ≠ ".")
    (hparent : name ≠ "..") (hlong : nameLimit < name.utf8ByteSize) :
    Refuses fs links place name .nameTooLong
  | missing (hplace : fs.entry? place = some .folder) (hname : GoesDown name)
    (hentry : fs.entry? (place ++ [name]) = none) : Refuses fs links place name .notFound
  | tooManyLinks {target : String} (hplace : fs.entry? place = some .folder) (hname : GoesDown name)
    (hentry : fs.entry? (place ++ [name]) = some (.link target)) (hlinks : links = 0) :
    Refuses fs links place name .tooManyLinks

/-- Every folder stands in a folder. -/
def Founded (fs : FileSystem) : Prop :=
  ∀ place, fs.entry? place = some .folder → fs.entry? place.dropLast = some .folder

variable {fs : FileSystem} {place next found : Place} {entry : Entry} {name : String}
  {names front : List String} {links left more : Nat} {error : SystemError}

/-! ## One name -/

theorem IsName.goesDown (h : IsName name) : GoesDown name := ⟨h.ne_empty, h.ne_here, h.ne_parent, h.short⟩

/-- A name that is not refused is followed from a folder. -/
theorem follows_of_follow (h : fs.follow links place name = .ok (left, next, front)) :
    fs.entry? place = some .folder ∧ Follows fs links place name left next front := by
  unfold follow at h
  split at h
  · cases h
  · next hplace =>
    refine ⟨hplace, ?_⟩
    split at h
    · next hhere =>
      cases h
      exact .here (by simpa using hhere)
    next hhere =>
    obtain ⟨hempty, hdot⟩ : name ≠ "" ∧ name ≠ "." := by simpa using hhere
    split at h
    · next hparent =>
      cases h
      exact .parent (beq_iff_eq.1 hparent)
    next hparent =>
    split at h
    · cases h
    next hlong =>
    have hname : GoesDown name := ⟨hempty, hdot, by simpa using hparent, Nat.not_lt.1 hlong⟩
    split at h
    · cases h
    · next hentry =>
      split at h
      · cases h
      · cases h
        exact .link hname hentry rfl
    · next entry hlink hentry =>
      cases h
      refine .entry hname hentry ?_
      cases entry with
      | link target => exact absurd rfl (hlink target)
      | file | folder | pipe => rfl
  · cases h

/-- A name that leads down is looked up in the folder. -/
theorem GoesDown.follow_eq (h : GoesDown name) (hplace : fs.entry? place = some .folder) :
    fs.follow links place name =
      match fs.entry? (place ++ [name]) with
      | none => .error .notFound
      | some (.link target) =>
        match links with
        | 0 => .error .tooManyLinks
        | links + 1 => .ok (links, if startsWith "/" target then [] else place, components target)
      | some _ => .ok (links, place ++ [name], []) := by
  unfold follow
  rw [hplace]
  dsimp only
  rw [if_neg (by simpa using ⟨h.ne_empty, h.ne_here⟩), if_neg (by simpa using h.ne_parent),
    if_neg (Nat.not_lt.2 h.short)]

theorem Follows.follow_eq (h : Follows fs links place name left next front)
    (hplace : fs.entry? place = some .folder) :
    fs.follow links place name = .ok (left, next, front) := by
  cases h with
  | here hname =>
    unfold follow
    rw [hplace]
    exact if_pos (by simpa using hname)
  | parent hname =>
    subst hname
    unfold follow
    rw [hplace]
    rfl
  | @entry entry hname hentry hlink =>
    rw [hname.follow_eq hplace, hentry]
    cases entry with
    | link target => cases hlink
    | file | folder | pipe => rfl
  | link hname hentry hlinks => rw [hname.follow_eq hplace, hentry, hlinks]

/-- A name is followed from a folder, in one of four ways. -/
theorem follow_eq_ok_iff : fs.follow links place name = .ok (left, next, front) ↔
    fs.entry? place = some .folder ∧ Follows fs links place name left next front :=
  ⟨follows_of_follow, fun ⟨hplace, h⟩ => h.follow_eq hplace⟩

theorem refuses_of_follow (h : fs.follow links place name = .error error) :
    Refuses fs links place name error := by
  cases hplace : fs.entry? place with
  | none =>
    unfold follow at h
    rw [hplace] at h
    cases h
    exact .nowhere hplace
  | some entry =>
    by_cases hfolder : entry = .folder
    · subst hfolder
      by_cases hhere : name = "" ∨ name = "."
      · exact nomatch h.symm.trans ((Follows.here hhere).follow_eq hplace)
      by_cases hparent : name = ".."
      · exact nomatch h.symm.trans ((Follows.parent hparent).follow_eq hplace)
      obtain ⟨hempty, hdot⟩ := not_or.1 hhere
      by_cases hlong : nameLimit < name.utf8ByteSize
      · unfold follow at h
        rw [hplace] at h
        dsimp only at h
        rw [if_neg (by simpa using hhere), if_neg (by simpa using hparent), if_pos hlong] at h
        cases h
        exact .tooLong hplace hempty hdot hparent hlong
      have hname : GoesDown name := ⟨hempty, hdot, hparent, Nat.not_lt.1 hlong⟩
      rw [hname.follow_eq hplace] at h
      split at h
      · next hentry =>
        cases h
        exact .missing hplace hname hentry
      · next hentry =>
        split at h
        · cases h
          exact .tooManyLinks hplace hname hentry rfl
        · cases h
      · cases h
    · unfold follow at h
      rw [hplace] at h
      cases entry with
      | folder => exact absurd rfl hfolder
      | file | link | pipe =>
        cases h
        exact .noFolder hplace hfolder

theorem Refuses.follow_eq (h : Refuses fs links place name error) :
    fs.follow links place name = .error error := by
  cases h with
  | nowhere hplace =>
    unfold follow
    rw [hplace]
  | @noFolder entry hplace hentry =>
    unfold follow
    rw [hplace]
    cases entry with
    | folder => exact absurd rfl hentry
    | file | link | pipe => rfl
  | tooLong hplace hempty hhere hparent hlong =>
    unfold follow
    rw [hplace]
    dsimp only
    rw [if_neg (by simpa using ⟨hempty, hhere⟩), if_neg (by simpa using hparent), if_pos hlong]
  | missing hplace hname hentry => rw [hname.follow_eq hplace, hentry]
  | tooManyLinks hplace hname hentry hlinks => rw [hname.follow_eq hplace, hentry, hlinks]

/-- A name is refused in one of five ways. -/
theorem follow_eq_error_iff : fs.follow links place name = .error error ↔
    Refuses fs links place name error :=
  ⟨refuses_of_follow, Refuses.follow_eq⟩

theorem resolveFrom_cons (fs : FileSystem) (links : Nat) (place : Place) (name : String)
    (rest : List String) : fs.resolveFrom links place (name :: rest) =
      match fs.follow links place name with
      | .ok (left, next, front) => fs.resolveFrom left next (front ++ rest)
      | .error error => .error error := by
  rw [resolveFrom.eq_def, follow]
  cases hentry : fs.entry? place with
  | none => rfl
  | some entry =>
    cases entry with
    | file | link | pipe => rfl
    | folder =>
      dsimp only
      split
      · rfl
      split
      · rfl
      split
      · rfl
      cases fs.entry? (place ++ [name]) with
      | none => rfl
      | some entry => cases entry <;> cases links <;> rfl

theorem resolveFrom_nil (fs : FileSystem) (links : Nat) (place : Place) :
    fs.resolveFrom links place [] =
      match fs.entry? place with
      | none => .error .notFound
      | some entry => .ok (place, entry) := by
  rw [resolveFrom.eq_def]
  cases fs.entry? place <;> rfl

/-- A name spends a link or leaves no names behind, and does the same when there are more links. -/
theorem follow_ok (h : fs.follow links place name = .ok (left, next, front)) :
    (left = links ∧ front = [] ∨ left < links) ∧
      ∀ more, fs.follow (links + more) place name = .ok (left + more, next, front) := by
  obtain ⟨hplace, h⟩ := follow_eq_ok_iff.1 h
  simp only [follow_eq_ok_iff]
  cases h with
  | here hname => exact ⟨.inl ⟨rfl, rfl⟩, fun more => ⟨hplace, .here hname⟩⟩
  | parent hname => exact ⟨.inl ⟨rfl, rfl⟩, fun more => ⟨hplace, .parent hname⟩⟩
  | entry hname hentry hlink => exact ⟨.inl ⟨rfl, rfl⟩, fun more => ⟨hplace, .entry hname hentry hlink⟩⟩
  | link hname hentry hlinks =>
    refine ⟨.inr (by omega), fun more => ⟨hplace, .link hname hentry ?_⟩⟩
    rw [hlinks, Nat.succ_add]

/-- A name that is refused for another reason than too many links is refused with more of them. -/
theorem follow_error (h : fs.follow links place name = .error error) (herror : error ≠ .tooManyLinks) :
    fs.follow (links + more) place name = .error error := by
  refine follow_eq_error_iff.2 ?_
  cases follow_eq_error_iff.1 h with
  | nowhere hplace => exact .nowhere hplace
  | noFolder hplace hentry => exact .noFolder hplace hentry
  | tooLong hplace hempty hhere hparent hlong => exact .tooLong hplace hempty hhere hparent hlong
  | missing hplace hname hentry => exact .missing hplace hname hentry
  | tooManyLinks => exact absurd rfl herror

/-! ## Names one after the other -/

/-- What holds of no names, of names the first of which is refused, and of names of which the first has
been followed, holds of all names. -/
theorem resolveFrom_induction (fs : FileSystem) {motive : Nat → Place → List String → Prop}
    (nil : ∀ links place, motive links place [])
    (refused : ∀ links place name rest error, fs.follow links place name = .error error →
      motive links place (name :: rest))
    (followed : ∀ links place name rest left next front,
      fs.follow links place name = .ok (left, next, front) → motive left next (front ++ rest) →
      motive links place (name :: rest))
    (links : Nat) (place : Place) (names : List String) : motive links place names := by
  induction links using Nat.strongRec generalizing place names with
  | ind links ihlinks =>
    induction names generalizing place with
    | nil => exact nil links place
    | cons name rest ih =>
      cases hfollow : fs.follow links place name with
      | error error => exact refused links place name rest error hfollow
      | ok found =>
        obtain ⟨left, next, front⟩ := found
        refine followed links place name rest left next front hfollow ?_
        rcases (follow_ok hfollow).1 with ⟨rfl, rfl⟩ | hless
        · exact ih next
        · exact ihlinks left hless next (front ++ rest)

/-- A path goes on from where its front leads, with the links that are left. -/
theorem exists_left_of_resolveFrom (h : fs.resolveFrom links place names = .ok (found, entry)) :
    fs.entry? found = some entry ∧ ∃ left ≤ links, ∀ more rest,
      fs.resolveFrom (links + more) place (names ++ rest) = fs.resolveFrom (left + more) found rest := by
  induction links, place, names using resolveFrom_induction fs with
  | nil links place =>
    rw [resolveFrom_nil] at h
    split at h
    · exact nomatch h
    · next hentry =>
      cases h
      exact ⟨hentry, links, Nat.le_refl links, fun more rest => rfl⟩
  | refused links place name rest error hfollow =>
    rw [resolveFrom_cons, hfollow] at h
    exact nomatch h
  | followed links place name names left next front hfollow ih =>
    rw [resolveFrom_cons, hfollow] at h
    obtain ⟨hentry, last, hle, hrest⟩ := ih h
    have hspent : left ≤ links := by
      rcases (follow_ok hfollow).1 with ⟨rfl, -⟩ | hless
      · exact Nat.le_refl left
      · exact Nat.le_of_lt hless
    refine ⟨hentry, last, Nat.le_trans hle hspent, fun more rest => ?_⟩
    rw [List.cons_append, resolveFrom_cons, (follow_ok hfollow).2 more]
    dsimp only
    rw [← List.append_assoc, hrest]

theorem entry?_of_resolveFrom (h : fs.resolveFrom links place names = .ok (found, entry)) :
    fs.entry? found = some entry :=
  (exists_left_of_resolveFrom h).1

/-- What is found with some links is found with more. -/
theorem resolveFrom_add (h : fs.resolveFrom links place names = .ok (found, entry)) (more : Nat) :
    fs.resolveFrom (links + more) place names = .ok (found, entry) := by
  obtain ⟨hentry, left, -, hrest⟩ := exists_left_of_resolveFrom h
  have hnone := hrest more []
  rw [List.append_nil, resolveFrom_nil, hentry] at hnone
  exact hnone

/-- What is found with more links is found, or the links are too many. -/
theorem resolveFrom_of_add (h : fs.resolveFrom (links + more) place names = .ok (found, entry)) :
    fs.resolveFrom links place names = .ok (found, entry) ∨
      fs.resolveFrom links place names = .error .tooManyLinks := by
  induction links, place, names using resolveFrom_induction fs with
  | nil links place => exact .inl (by rwa [resolveFrom_nil] at h ⊢)
  | refused links place name rest error hfollow =>
    rw [resolveFrom_cons] at h ⊢
    rw [hfollow]
    by_cases herror : error = .tooManyLinks
    · exact .inr (herror ▸ rfl)
    · rw [follow_error hfollow herror] at h
      exact nomatch h
  | followed links place name names left next front hfollow ih =>
    rw [resolveFrom_cons, (follow_ok hfollow).2 more] at h
    rw [resolveFrom_cons, hfollow]
    exact ih h

/-- What is refused at its front is refused. -/
theorem resolveFrom_append_of_error (h : fs.resolveFrom links place names = .error error)
    (rest : List String) : fs.resolveFrom links place (names ++ rest) = .error error := by
  induction links, place, names using resolveFrom_induction fs with
  | nil links place =>
    rw [resolveFrom_nil] at h
    split at h
    · next hnone =>
      cases h
      cases rest with
      | nil => rw [List.append_nil, resolveFrom_nil, hnone]
      | cons name rest => rw [List.nil_append, resolveFrom_cons, follow, hnone]
    · exact nomatch h
  | refused links place name names error' hfollow =>
    rw [resolveFrom_cons, hfollow] at h
    rw [List.cons_append, resolveFrom_cons, hfollow]
    exact h
  | followed links place name names left next front hfollow ih =>
    rw [resolveFrom_cons, hfollow] at h
    rw [List.cons_append, resolveFrom_cons, hfollow]
    dsimp only
    rw [← List.append_assoc]
    exact ih h

/-- With a limit, names lead where they lead, or the links are too many. -/
theorem Denotes.resolveFrom (h : fs.Denotes place names (found, entry)) (links : Nat) :
    fs.resolveFrom links place names = .ok (found, entry) ∨
      fs.resolveFrom links place names = .error .tooManyLinks := by
  obtain ⟨enough, h⟩ := h
  exact resolveFrom_of_add (Nat.add_comm enough links ▸ resolveFrom_add h links)

/-- Of names that lead to two things with any number of links, the two are the same. -/
theorem Denotes.unique {other : Place × Entry} (h : fs.Denotes place names (found, entry))
    (hother : fs.Denotes place names other) : other = (found, entry) := by
  obtain ⟨links, h⟩ := h
  obtain ⟨links', hother⟩ := hother
  obtain ⟨more, hmore⟩ | ⟨more, hmore⟩ :=
    (Nat.le_total links links').imp Nat.exists_eq_add_of_le Nat.exists_eq_add_of_le
  · exact Except.ok.inj (hother.symm.trans (hmore ▸ resolveFrom_add h more))
  · exact Except.ok.inj ((hmore ▸ resolveFrom_add hother more).symm.trans h)

theorem denotes_nil (h : fs.entry? place = some entry) : fs.Denotes place [] (place, entry) :=
  ⟨0, by rw [resolveFrom_nil, h]⟩

/-- What names lead to goes on with further names. -/
theorem Denotes.append {rest : List String} {last : Place × Entry}
    (h : fs.Denotes place names (found, entry)) (hrest : fs.Denotes found rest last) :
    fs.Denotes place (names ++ rest) last := by
  obtain ⟨links, h⟩ := h
  obtain ⟨links', hrest⟩ := hrest
  obtain ⟨-, left, -, happend⟩ := exists_left_of_resolveFrom h
  refine ⟨links + links', ?_⟩
  rw [happend, Nat.add_comm]
  exact resolveFrom_add hrest left

/-! ### Links -/

/-- A name that is followed does not lead to a link. -/
theorem Founded.not_link_of_follow (hfs : fs.Founded)
    (h : fs.follow links place name = .ok (left, next, front)) (hnext : fs.entry? next = some entry) :
    entry.isLink = false := by
  obtain ⟨hplace, h⟩ := follow_eq_ok_iff.1 h
  cases h with
  | here => exact Option.some.inj (hplace.symm.trans hnext) ▸ rfl
  | parent => exact Option.some.inj ((hfs place hplace).symm.trans hnext) ▸ rfl
  | entry hname hentry hlink => exact Option.some.inj (hentry.symm.trans hnext) ▸ hlink
  | link hname hentry hlinks =>
    split at hnext
    · exact Option.some.inj hnext ▸ rfl
    · exact Option.some.inj (hplace.symm.trans hnext) ▸ rfl

/-- Names that are followed to their end do not end in a link. -/
theorem Founded.not_link_of_resolveFrom (hfs : fs.Founded)
    (hplace : ∀ entry, fs.entry? place = some entry → entry.isLink = false)
    (h : fs.resolveFrom links place names = .ok (found, entry)) : entry.isLink = false := by
  induction links, place, names using resolveFrom_induction fs with
  | nil links place =>
    rw [resolveFrom_nil] at h
    split at h
    · exact nomatch h
    · next hentry =>
      cases h
      exact hplace _ hentry
  | refused links place name rest error hfollow =>
    rw [resolveFrom_cons, hfollow] at h
    exact nomatch h
  | followed links place name rest left next front hfollow ih =>
    rw [resolveFrom_cons, hfollow] at h
    exact ih (fun entry => hfs.not_link_of_follow hfollow) h

/-! ### Computing -/

/-- What names lead to, found by following no more names than `steps`. -/
def resolveWithin (fs : FileSystem) :
    (steps links : Nat) → Place → List String → Option (Except SystemError (Place × Entry))
  | 0, _, _, _ => none
  | _ + 1, _, place, [] => (fs.entry? place).map fun entry => .ok (place, entry)
  | steps + 1, links, place, name :: rest =>
    match fs.follow links place name with
    | .ok (left, next, front) => fs.resolveWithin steps left next (front ++ rest)
    | .error error => some (.error error)

theorem resolveFrom_of_within (steps : Nat) {result : Except SystemError (Place × Entry)}
    (h : fs.resolveWithin steps links place names = some result) :
    fs.resolveFrom links place names = result := by
  induction steps generalizing links place names with
  | zero => exact nomatch h
  | succ steps ih =>
    cases names with
    | nil =>
      obtain ⟨entry, hentry, rfl⟩ := Option.map_eq_some_iff.1 h
      rw [resolveFrom_nil, hentry]
    | cons name rest =>
      rw [resolveWithin] at h
      rw [resolveFrom_cons]
      split at h
      · exact ih h
      · exact Option.some.inj h

theorem resolve_of_within (steps : Nat) {path : String}
    {result : Except SystemError (Place × Entry)}
    (hpath : path.isEmpty = false ∧ path.utf8ByteSize < pathLimit)
    (h : fs.resolveWithin steps linkLimit (if startsWith "/" path then [] else fs.workingFolder)
      (components path) = some result) : fs.resolve path = result := by
  rw [resolve, if_neg (by simp [hpath.1]), if_neg (Nat.not_le.2 hpath.2)]
  exact resolveFrom_of_within steps h

/-- Paths of a table lead where it says, if they are short and that is what comes out. -/
theorem resolve_of_known (steps : Nat) {table : List (String × Place × Entry)}
    (hall : ∀ known ∈ table, (known.1.isEmpty = false ∧ known.1.utf8ByteSize < pathLimit) ∧
      fs.resolveWithin steps linkLimit (if startsWith "/" known.1 then [] else fs.workingFolder)
        (components known.1) = some (.ok known.2))
    {path : String} {found : Place × Entry} (h : (path, found) ∈ table) : fs.resolve path = .ok found :=
  resolve_of_within steps (hall _ h).1 (hall _ h).2

/-! ## Refusals -/

theorem Refuses.absent_or_tooLong (h : Refuses fs links place name error) :
    isAbsence error = true ∨ error = .nameTooLong := by
  cases h with
  | nowhere | noFolder | missing | tooManyLinks => exact .inl rfl
  | tooLong => exact .inr rfl

/-- What the file system says when it refuses a path. -/
theorem error_of_resolve {path : String} {error : SystemError} (h : fs.resolve path = .error error) :
    isAbsence error = true ∨ error = .nameTooLong := by
  have hfrom (links : Nat) (place : Place) (names : List String)
      (h : fs.resolveFrom links place names = .error error) :
      isAbsence error = true ∨ error = .nameTooLong := by
    induction links, place, names using resolveFrom_induction fs with
    | nil links place =>
      rw [resolveFrom_nil] at h
      split at h
      · exact .inl (Except.error.inj h ▸ rfl)
      · cases h
    | refused links place name rest error' hrefused =>
      rw [resolveFrom_cons, hrefused] at h
      exact Except.error.inj h ▸ (follow_eq_error_iff.1 hrefused).absent_or_tooLong
    | followed links place name rest left next front hnext ih =>
      rw [resolveFrom_cons, hnext] at h
      exact ih h
  unfold resolve at h
  split at h
  · exact .inl (Except.error.inj h ▸ rfl)
  split at h
  · exact .inr (Except.error.inj h).symm
  · exact hfrom _ _ _ h

/-- Looking for something at a path fails where the path is too long, and nowhere else. -/
theorem probe_eq_error_iff {p : Entry → Bool} {path : String} {failure : Failure} :
    fs.probe p path = .error failure ↔ path.contains '\x00' = false ∧
      fs.resolve path = .error .nameTooLong ∧ failure = .system .nameTooLong path := by
  unfold probe
  cases path.contains '\x00' with
  | true => simp
  | false =>
    cases hresolve : fs.resolve path with
    | ok found => simp
    | error error =>
      rcases error_of_resolve hresolve with habsence | rfl
      · have hne : error ≠ .nameTooLong := by
          rintro rfl
          exact nomatch habsence
        simp [habsence, hne]
      · simp [isAbsence, eq_comm]

/-- Reading a file fails in the words of the system, unless its path is none. -/
theorem readBytes_cases (fs : FileSystem) (path : String) :
    (path.contains '\x00' = true ∧ fs.readBytes path = .error .nullInPath) ∨
      path.contains '\x00' = false ∧ ((∃ bytes, fs.readBytes path = .ok bytes) ∨
        ∃ error, fs.readBytes path = .error (.system error path)) := by
  unfold readBytes
  cases path.contains '\x00' with
  | true => exact .inl ⟨rfl, rfl⟩
  | false =>
    refine .inr ⟨rfl, ?_⟩
    rw [if_neg Bool.false_ne_true]
    rcases fs.resolve path with error | ⟨place, entry⟩
    · exact .inr ⟨error, rfl⟩
    · cases entry with
      | file bytes => exact .inl ⟨bytes, rfl⟩
      | folder => exact .inr ⟨.isDirectory, rfl⟩
      | link | pipe => exact .inl ⟨[], rfl⟩

/-- A name that is too long is refused in every folder. -/
theorem follow_of_long (hplace : fs.entry? place = some .folder)
    (hlong : nameLimit < name.utf8ByteSize) (links : Nat) :
    fs.follow links place name = .error .nameTooLong := by
  have hne (short : String) (hshort : short.utf8ByteSize ≤ nameLimit) : name ≠ short := by
    rintro rfl
    exact Nat.not_lt.2 hshort hlong
  rw [follow, hplace]
  dsimp only
  rw [if_neg (by simpa using ⟨hne "" (by decide), hne "." (by decide)⟩),
    if_neg (by simpa using hne ".." (by decide)), if_pos hlong]

/-! ## Well-formed file systems -/

theorem entry?_of_resolve {path : String} (h : fs.resolve path = .ok (found, entry)) :
    fs.entry? found = some entry := by
  unfold resolve at h
  split at h
  · exact nomatch h
  split at h
  · exact nomatch h
  · exact entry?_of_resolveFrom h

/-- What a path leads to is no link. -/
theorem Founded.not_link_of_resolve (hfs : fs.Founded) {path : String}
    (h : fs.resolve path = .ok (found, entry)) : entry.isLink = false := by
  unfold resolve at h
  split at h
  · cases h
  split at h
  · cases h
  obtain ⟨name, rest, hnames⟩ : ∃ name rest, components path = name :: rest := by
    refine List.exists_cons_of_ne_nil fun hnil => Chars.splitOn_ne_nil '/' path.toList ?_
    rwa [components, splitOn, List.map_eq_nil_iff] at hnil
  rw [hnames, resolveFrom_cons] at h
  split at h
  · next hfollow => exact hfs.not_link_of_resolveFrom (fun entry => hfs.not_link_of_follow hfollow) h
  · cases h

/-- An entry of a folder is found by its name, unless it is a link. -/
theorem resolveFrom_last (hplace : fs.entry? place = some .folder) (hname : GoesDown name)
    (hentry : fs.entry? (place ++ [name]) = some entry) (hlink : entry.isLink = false) (links : Nat) :
    fs.resolveFrom links place [name] = .ok (place ++ [name], entry) := by
  have hfollow : fs.follow links place name = .ok (links, place ++ [name], []) :=
    follow_eq_ok_iff.2 ⟨hplace, .entry hname hentry hlink⟩
  rw [resolveFrom_cons, hfollow]
  dsimp only
  rw [List.nil_append, resolveFrom_nil, hentry]

theorem mem_entries_of_found (h : fs.entry? place = some entry) (hne : place ≠ []) :
    (place, entry) ∈ fs.entries := by
  unfold entry? at h
  rw [if_neg (by simpa using hne)] at h
  obtain ⟨before, after, hentries, -⟩ := List.lookup_eq_some_iff.1 h
  simp [hentries]

/-- A path is that of a folder exactly if it leads to one. -/
theorem isFolder_eq_true_iff {path : String} :
    fs.isFolder path = .ok true ↔
      path.contains '\x00' = false ∧ ∃ place, fs.resolve path = .ok (place, .folder) := by
  unfold isFolder probe
  cases path.contains '\x00' with
  | true => simp
  | false =>
    rcases fs.resolve path with error | ⟨place, entry⟩
    · simp only [Bool.false_eq_true, if_false]
      split <;> simp
    · cases entry <;> simp [Entry.isFolder]

theorem isThere_of_isFolder {path : String} (h : fs.isFolder path = .ok true) :
    fs.isThere path = .ok true := by
  obtain ⟨hnull, place, hplace⟩ := isFolder_eq_true_iff.1 h
  simp [isThere, probe, hnull, hplace]

theorem eq_of_inside {inside : Place × Entry} {listed : String × Entry}
    (h : (match inside.1.getLast? with
      | some name => if inside.1.dropLast == place then some (name, inside.2) else none
      | none => none) = some listed) : inside = (place ++ [listed.1], listed.2) := by
  split at h
  · next last hlast =>
    obtain ⟨front, hfront⟩ := List.getLast?_eq_some_iff.1 hlast
    split at h
    · next hfolder =>
      obtain rfl := Option.some.inj h
      rw [hfront, List.dropLast_concat, beq_iff_eq] at hfolder
      exact Prod.ext (hfront.trans (hfolder ▸ rfl)) rfl
    · exact nomatch h
  · exact nomatch h

/-- An entry of a folder comes from its place. -/
theorem mem_entries_of_mem_listing (hmem : (name, entry) ∈ fs.listing place) :
    (place ++ [name], entry) ∈ fs.entries := by
  obtain ⟨inside, hinside, hname⟩ := List.mem_filterMap.1 (List.mem_mergeSort.1 hmem)
  exact eq_of_inside hname ▸ hinside

namespace WellFormed

variable (h : fs.WellFormed)
include h

theorem mem_iff (hne : place ≠ []) :
    (place, entry) ∈ fs.entries ↔ fs.entry? place = some entry := by
  refine ⟨fun hmem => ?_, fun hentry => mem_entries_of_found hentry hne⟩
  unfold entry?
  rw [if_neg (by simpa using hne), List.lookup_eq_some_iff]
  obtain ⟨before, after, hentries⟩ := List.append_of_mem hmem
  refine ⟨before, after, hentries, fun other hother => ?_⟩
  have hnodup := h.nodup
  rw [hentries, List.map_append, List.nodup_append] at hnodup
  exact bne_iff_ne.2 (Ne.symm
    (hnodup.2.2 other.1 (List.mem_map_of_mem hother) place List.mem_cons_self))

/-- What stands at a place other than the top stands in a folder. -/
theorem exists_folder (hentry : fs.entry? place = some entry) (hne : place ≠ []) :
    ∃ folder name, place = folder ++ [name] ∧ IsName name ∧ fs.entry? folder = some .folder :=
  h.inFolder ((h.mem_iff hne).2 hentry)

theorem founded : fs.Founded := by
  intro place hplace
  by_cases hne : place = []
  · rw [hne]
    rfl
  · obtain ⟨folder, last, rfl, -, hfolder⟩ := h.exists_folder hplace hne
    rwa [List.dropLast_concat]

theorem isName_of_found (hentry : fs.entry? place = some entry) : ∀ name ∈ place, IsName name := by
  induction place using List.reverseRecOn generalizing entry with
  | nil => exact fun name hname => nomatch hname
  | append_singleton front last ih =>
    obtain ⟨folder, name, hplace, hname, hfolder⟩ :=
      h.exists_folder hentry (List.append_ne_nil_of_right_ne_nil _ (List.cons_ne_nil _ _))
    obtain ⟨rfl, hlast⟩ := List.append_inj' hplace rfl
    obtain rfl := List.head_eq_of_cons_eq hlast
    intro other hother
    rcases List.mem_append.1 hother with hother | hother
    · exact ih hfolder other hother
    · exact List.mem_singleton.1 hother ▸ hname

/-- Everything on the way to a place is a folder. -/
theorem folder_of_append {rest : List String} (hentry : fs.entry? (place ++ rest) = some entry)
    (hne : rest ≠ []) : fs.entry? place = some .folder := by
  induction rest using List.reverseRecOn generalizing entry with
  | nil => exact absurd rfl hne
  | append_singleton front last ih =>
    rw [← List.append_assoc] at hentry
    obtain ⟨folder, name, hplace, -, hfolder⟩ :=
      h.exists_folder hentry (List.append_ne_nil_of_right_ne_nil _ (List.cons_ne_nil _ _))
    obtain ⟨rfl, -⟩ := List.append_inj' hplace rfl
    rcases front with - | ⟨first, front⟩
    · rwa [List.append_nil] at hfolder
    · exact ih hfolder (List.cons_ne_nil first front)

theorem follow_entry (hentry : fs.entry? (place ++ [name]) = some entry) (hlink : entry.isLink = false) :
    fs.follow links place name = .ok (links, place ++ [name], []) := by
  have hname := h.isName_of_found hentry name (by simp)
  exact follow_eq_ok_iff.2
    ⟨h.folder_of_append hentry (List.cons_ne_nil name []), .entry hname.goesDown hentry hlink⟩

/-- An entry other than a link is found by its name. -/
theorem resolveFrom_entry (hentry : fs.entry? (place ++ [name]) = some entry)
    (hlink : entry.isLink = false) :
    fs.resolveFrom links place [name] = .ok (place ++ [name], entry) :=
  resolveFrom_last (h.folder_of_append hentry (List.cons_ne_nil name []))
    (h.isName_of_found hentry name (by simp)).goesDown hentry hlink links

/-- A folder is found by its own names. -/
theorem resolveFrom_place {rest behind : List String}
    (hentry : fs.entry? (place ++ rest) = some .folder) :
    fs.resolveFrom links place (rest ++ behind) = fs.resolveFrom links (place ++ rest) behind := by
  induction rest generalizing place with
  | nil => rw [List.append_nil, List.nil_append]
  | cons name rest ih =>
    have hfolder : fs.entry? (place ++ [name]) = some .folder := by
      rcases rest with - | ⟨next, rest⟩
      · exact hentry
      · have hrest : fs.entry? ((place ++ [name]) ++ next :: rest) = some .folder := by
          simpa using hentry
        exact h.folder_of_append hrest (List.cons_ne_nil next rest)
    rw [List.cons_append, resolveFrom_cons, h.follow_entry hfolder rfl]
    dsimp only
    rw [List.nil_append, ih (by simpa using hentry), List.append_assoc, List.singleton_append]

/-! ### Listings -/

theorem mem_listing_iff :
    (name, entry) ∈ fs.listing place ↔ fs.entry? (place ++ [name]) = some entry := by
  have hne : place ++ [name] ≠ [] := by simp
  refine ⟨fun hmem => (h.mem_iff hne).1 (mem_entries_of_mem_listing hmem), fun hentry => ?_⟩
  refine List.mem_mergeSort.2 (List.mem_filterMap.2 ⟨_, (h.mem_iff hne).2 hentry, ?_⟩)
  simp

theorem isName_of_mem_listing (hlisted : (name, entry) ∈ fs.listing place) : IsName name :=
  h.isName_of_found (h.mem_listing_iff.1 hlisted) name (by simp)

/-- The names in a listing go up. -/
theorem listing_sorted (place : Place) :
    (fs.listing place).Pairwise fun entry other => entry.1 < other.1 := by
  refine pairwise_lt_mergeSort ?_
  rw [List.pairwise_filterMap]
  refine (List.pairwise_map.1 h.nodup).imp fun hplaces entry hentry other hother hsame => ?_
  rw [eq_of_inside hentry, eq_of_inside hother, hsame] at hplaces
  exact hplaces rfl

/-! ### Paths of a walk -/

omit h in
theorem resolveFrom_empty {rest : List String} (hfolder : fs.entry? place = some .folder) :
    fs.resolveFrom links place ("" :: rest) = fs.resolveFrom links place rest := by
  rw [resolveFrom_cons, follow, hfolder]
  rfl

/-- A path below a folder leads where its names lead from there, unless it is too long. -/
theorem resolve_location {path : String} (hplace : fs.entry? place = some .folder)
    (hpath : ∀ name ∈ namesIn path, IsName name) :
    fs.resolve (Walk.location (pathOf place) path) =
      if pathLimit ≤ (Walk.location (pathOf place) path).utf8ByteSize then .error .nameTooLong
      else fs.resolveFrom linkLimit place (namesIn path) := by
  have hstart := startsWith_location place path
  have hne : (Walk.location (pathOf place) path).isEmpty = false := by
    refine Bool.eq_false_iff.2 fun hempty => ?_
    rw [String.isEmpty_iff.1 hempty] at hstart
    exact absurd hstart (by decide)
  have hnames : fs.resolveFrom linkLimit [] (components (Walk.location (pathOf place) path)) =
      fs.resolveFrom linkLimit place (namesIn path) := by
    by_cases hall : place ++ namesIn path = []
    · obtain ⟨rfl, hnil⟩ := List.append_eq_nil_iff.1 hall
      obtain rfl := eq_empty_of_namesIn hnil
      have htop : components (Walk.location (pathOf []) "") = ["", ""] := by decide
      rw [htop, resolveFrom_empty rfl, resolveFrom_empty rfl]
      rfl
    · rw [components_location (h.isName_of_found hplace) hpath hall, resolveFrom_empty rfl,
        h.resolveFrom_place (by simpa using hplace), List.nil_append]
  rw [resolve, if_neg (by simp [hne]), if_pos hstart, hnames]

end WellFormed

end CodeReview.FileSystem
