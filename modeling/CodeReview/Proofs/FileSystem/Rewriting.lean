import CodeReview.Proofs.FileSystem.Filling

/-!
# What is written is what is read

* `exists_resolve_writeBytes`: a file that has been written is at its path, whatever stood in its way
  before: another file, a pipe, nothing, or a link that leads nowhere.
* `resolve_put_self`: a file that is there and is written over is at its path.
* `Founded.makeFolders`: making folders leaves every folder in a folder.

The path of the folder leads where it did, because it does not go by way of what is written: a name that
does not lead anywhere (`IsLost`) does not help to find a folder.
-/

namespace CodeReview

open Text

namespace FileSystem

variable {fs later : FileSystem} {place here found folder : Place} {entry : Entry} {links : Nat}
  {name last path : String} {names : List String} {bytes : List UInt8}

/-! ## Files that are there -/

section There

variable (hend : fs.IsEnd place)
include hend

/-- Names that lead to an end lead to what is written there. -/
theorem resolveFrom_put_self (hne : place ≠ [])
    (h : fs.resolveFrom links here names = .ok (place, entry)) (bytes : List UInt8) :
    (fs.put place (.file bytes)).resolveFrom links here names = .ok (place, .file bytes) := by
  induction links, here, names using resolveFrom_induction fs with
  | nil links here =>
    rw [resolveFrom_nil] at h
    split at h
    · exact nomatch h
    · cases h
      rw [resolveFrom_nil, entry?_put_self hne]
  | refused links here name rest error hfollow =>
    rw [resolveFrom_cons, hfollow] at h
    exact nomatch h
  | followed links here name rest left next front hfollow ih =>
    rw [resolveFrom_cons, hfollow] at h
    rw [resolveFrom_cons, follow_put hend hfollow fun _ => rfl]
    exact ih h

theorem resolve_put_self (h : fs.resolve path = .ok (place, entry)) (bytes : List UInt8) :
    (fs.put place (.file bytes)).resolve path = .ok (place, .file bytes) := by
  have hne : place ≠ [] := by
    rintro rfl
    exact nomatch (hend .folder rfl).1
  unfold resolve at h ⊢
  split at h
  · exact nomatch h
  next hempty =>
  split at h
  · exact nomatch h
  next hlong =>
  rw [if_neg hempty, if_neg hlong]
  exact resolveFrom_put_self hend hne h bytes

end There

/-! ## Files that are not there -/

/-- A name that leads nowhere from a folder: nothing stands there, or a link that leads nowhere. -/
structure IsLost (fs : FileSystem) (folder : Place) (last : String) : Prop where
  leads : fs.entry? folder = some .folder
  isName : IsName last
  lost (found : Place × Entry) : ¬ fs.Denotes folder [last] found

namespace IsLost

variable (h : fs.IsLost folder last)
include h

theorem isLink (hentry : fs.entry? (folder ++ [last]) = some entry) : entry.isLink = true := by
  by_contra hlink
  exact h.lost (folder ++ [last], entry)
    ⟨0, resolveFrom_last h.leads h.isName.goesDown hentry (by simpa using hlink) 0⟩

theorem ne_of_folder (hfolder : fs.entry? place = some .folder) : place ≠ folder ++ [last] := by
  rintro rfl
  exact nomatch h.isLink hfolder

/-- A name by which one comes to a folder is not the lost one, so it is followed as before. -/
theorem follow_put {left : Nat} {next : Place} {front rest : List String} (new : Entry)
    (hfollow : fs.follow links here name = .ok (left, next, front))
    (hfound : fs.resolveFrom left next (front ++ rest) = .ok (found, .folder)) :
    (fs.put (folder ++ [last]) new).follow links here name = .ok (left, next, front) := by
  obtain ⟨hhere, hfollows⟩ := follow_eq_ok_iff.1 hfollow
  refine follow_eq_ok_iff.2 ⟨by rwa [entry?_put_of_ne (h.ne_of_folder hhere)], ?_⟩
  cases hfollows with
  | here hname => exact .here hname
  | parent hname => exact .parent hname
  | entry hname hentry hlink =>
    have hother : here ++ [name] ≠ folder ++ [last] := by
      intro heq
      rw [heq] at hentry
      exact absurd (h.isLink hentry) (by simp [hlink])
    exact .entry hname (by rwa [entry?_put_of_ne hother]) hlink
  | @link target left hname hentry hlinks =>
    -- the names of a link are followed first, and those of the lost name lead nowhere
    have hother : here ++ [name] ≠ folder ++ [last] := by
      intro heq
      obtain ⟨rfl, hlast⟩ := List.append_inj' heq rfl
      obtain rfl := List.head_eq_of_cons_eq hlast
      cases hfront : fs.resolveFrom left (if startsWith "/" target then [] else here)
          (components target) with
      | ok reached =>
        refine h.lost reached ⟨links, ?_⟩
        rw [resolveFrom_cons, hfollow]
        dsimp only
        rw [List.append_nil, hfront]
      | error error =>
        rw [resolveFrom_append_of_error hfront] at hfound
        exact nomatch hfound
    exact .link hname (by rwa [entry?_put_of_ne hother]) hlinks

/-- Names that lead to a folder do not need a name that leads nowhere. -/
theorem resolveFrom_put (new : Entry)
    (hfound : fs.resolveFrom links here names = .ok (found, .folder)) :
    (fs.put (folder ++ [last]) new).resolveFrom links here names = .ok (found, .folder) := by
  induction links, here, names using resolveFrom_induction fs with
  | nil links here =>
    rw [resolveFrom_nil] at hfound
    split at hfound
    · exact nomatch hfound
    · next hentry =>
      cases hfound
      rw [resolveFrom_nil, entry?_put_of_ne (h.ne_of_folder hentry), hentry]
  | refused links here name rest error hfollow =>
    rw [resolveFrom_cons, hfollow] at hfound
    exact nomatch hfound
  | followed links here name rest left next front hfollow ih =>
    rw [resolveFrom_cons, hfollow] at hfound
    rw [resolveFrom_cons, h.follow_put new hfollow hfound]
    exact ih hfound

/-- What is written under a lost name is found by it. -/
theorem resolveFrom_put_last (bytes : List UInt8)
    (hfound : fs.resolveFrom links here names = .ok (folder, .folder)) :
    (fs.put (folder ++ [last]) (.file bytes)).resolveFrom links here (names ++ [last]) =
      .ok (folder ++ [last], .file bytes) := by
  obtain ⟨hfolder, left, -, hrest⟩ := exists_left_of_resolveFrom (h.resolveFrom_put (.file bytes) hfound)
  have hentry : entry? (fs.put (folder ++ [last]) (.file bytes)) (folder ++ [last]) = some (.file bytes) :=
    entry?_put_self (by simp) _
  exact (hrest 0 [last]).trans (resolveFrom_last hfolder h.isName.goesDown hentry rfl left)

end IsLost

/-! ## The folder of a path -/

/-- Slashes at the end of a path are empty components. -/
theorem components_replicate (cs : List Char) (count : Nat) :
    components (String.ofList (cs ++ List.replicate count '/')) =
      components (String.ofList cs) ++ List.replicate count "" := by
  induction count with
  | zero => simp
  | succ count ih =>
    have hpath : String.ofList (cs ++ List.replicate (count + 1) '/') =
        String.ofList (cs ++ List.replicate count '/') ++ "/" ++ "" := by
      apply String.toList_injective
      simp [List.replicate_succ']
    have hempty : components "" = [""] := components_of_no_slash (by decide)
    rw [hpath, components_append, ih, hempty, List.append_assoc, ← List.replicate_succ']

/-- Empty components at the end do not change which folder names lead to. -/
theorem resolveFrom_append_replicate (count : Nat) :
    fs.resolveFrom links here (names ++ List.replicate count "") = .ok (found, .folder) ↔
      fs.resolveFrom links here names = .ok (found, .folder) := by
  have hstays {middle : Place} (h : fs.resolveFrom links here names = .ok (middle, .folder)) :
      fs.resolveFrom links here (names ++ List.replicate count "") = .ok (middle, .folder) := by
    obtain ⟨hmiddle, left, -, hrest⟩ := exists_left_of_resolveFrom h
    have hempties := hrest 0 (List.replicate count "")
    rw [Nat.add_zero, Nat.add_zero] at hempties
    rw [hempties, ← List.append_nil (List.replicate count ""), resolveFrom_replicate hmiddle,
      resolveFrom_nil, hmiddle]
  refine ⟨fun h => ?_, hstays⟩
  obtain ⟨middle, hmiddle⟩ := exists_folder_of_append h
  obtain ⟨rfl, -⟩ := Prod.mk.inj (Except.ok.inj ((hstays hmiddle).symm.trans h))
  exact hmiddle

theorem startsWith_append_of_slashes (hall : path.toList.all Path.isSlash = true) :
    startsWith "/" (path ++ "/") = true := by
  cases hpath : path.toList with
  | nil => simp [startsWith, hpath]
  | cons c cs =>
    have hc : c = '/' := beq_iff_eq.1 (List.all_eq_true.1 hall c (hpath ▸ List.mem_cons_self))
    simp [startsWith, hpath, hc]

/-- What is trimmed off the end of a path is slashes. -/
theorem exists_trimEnd_slashes (cs : List Char) :
    ∃ count, cs = Chars.trimEnd Path.isSlash cs ++ List.replicate count '/' := by
  obtain ⟨after, hcs, hafter⟩ := Chars.exists_trimEnd Path.isSlash cs
  have hslashes : after = List.replicate after.length '/' :=
    List.eq_replicate_of_mem fun c hc => beq_iff_eq.1 (hafter c hc)
  exact ⟨after.length, hslashes ▸ hcs⟩

/-- What stands before a name in a path is the folder, up to slashes. -/
theorem exists_parent (hslash : '/' ∉ last.toList) (folder : String) : ∃ count more,
    components (Path.parent (folder ++ "/" ++ last)) ++ List.replicate count "" =
        components folder ++ List.replicate more "" ∧
      Path.parent (folder ++ "/" ++ last) ≠ "" ∧
      startsWith "/" (Path.parent (folder ++ "/" ++ last)) = startsWith "/" (folder ++ "/" ++ last) := by
  have hpath : folder ++ "/" ++ last = String.ofList (folder.toList ++ '/' :: last.toList) := by
    apply String.toList_injective
    simp
  have hparent := Path.parent_append hslash folder.toList
  rw [← hpath] at hparent
  rw [hparent]
  split
  · next hall =>
    refine ⟨0, 1, ?_, by simp, ?_⟩
    · have hslash := components_replicate folder.toList 1
      rw [String.ofList_toList] at hslash
      exact (List.append_nil _).trans hslash
    · have hstart := startsWith_append_of_slashes hall
      have hfolder : String.ofList (folder.toList ++ ['/']) = folder ++ "/" := by
        apply String.toList_injective
        simp
      rw [hfolder, hstart, startsWith_append hstart]
  · next hall =>
    obtain ⟨count, hfolder⟩ := exists_trimEnd_slashes folder.toList
    have hne : Chars.trimEnd Path.isSlash folder.toList ≠ [] := by
      intro hnil
      rw [hnil, List.nil_append] at hfolder
      exact hall (by simp [hfolder, Path.isSlash])
    refine ⟨count, 0, ?_, by simpa using hne, ?_⟩
    · rw [← components_replicate, ← hfolder, String.ofList_toList]
      exact (List.append_nil _).symm
    · have hwhole : folder ++ "/" ++ last = String.ofList (Chars.trimEnd Path.isSlash folder.toList) ++
          String.ofList (List.replicate count '/' ++ '/' :: last.toList) := by
        apply String.toList_injective
        rw [hpath, String.toList_append, String.toList_ofList, String.toList_ofList, String.toList_ofList,
          ← List.append_assoc, ← hfolder]
      rw [hwhole, startsWith_slash_append (by simpa using hne)]

/-- Where the folder of a path is found, its components lead. -/
theorem resolveFrom_of_parent (hslash : '/' ∉ last.toList) {folder : String}
    (h : fs.resolve (Path.parent (folder ++ "/" ++ last)) = .ok (found, .folder)) :
    fs.resolveFrom linkLimit (if startsWith "/" (folder ++ "/" ++ last) then [] else fs.workingFolder)
      (components folder) = .ok (found, .folder) := by
  obtain ⟨count, more, hcomponents, hne, hstart⟩ := exists_parent hslash folder
  unfold resolve at h
  split at h
  · exact nomatch h
  split at h
  · exact nomatch h
  rw [hstart, ← resolveFrom_append_replicate count, hcomponents, resolveFrom_append_replicate more] at h
  exact h

/-! ## Writing -/

variable {folderPath : String}

/-- A new file is found at its path. -/
theorem resolve_put_new (hname : IsName last)
    (habsent : fs.resolve (folderPath ++ "/" ++ last) = .error .notFound)
    (hfolder : fs.resolve (Path.parent (folderPath ++ "/" ++ last)) = .ok (folder, .folder)) (bytes : List UInt8) :
    (fs.put (folder ++ [last]) (.file bytes)).resolve (folderPath ++ "/" ++ last) =
      .ok (folder ++ [last], .file bytes) := by
  have hcomponents : components (folderPath ++ "/" ++ last) = components folderPath ++ [last] := by
    rw [components_append, components_of_no_slash hname.no_slash]
  have hreached := resolveFrom_of_parent hname.no_slash hfolder
  unfold resolve at habsent ⊢
  rw [hcomponents] at habsent ⊢
  have hempty : (folderPath ++ "/" ++ last).isEmpty = false := by simp
  rw [hempty, if_neg Bool.false_ne_true] at habsent ⊢
  split at habsent
  · exact nomatch habsent
  next hlong =>
  rw [if_neg hlong]
  obtain ⟨hentry, left, -, hrest⟩ := exists_left_of_resolveFrom hreached
  have hlast : fs.resolveFrom left folder [last] = .error .notFound := (hrest 0 [last]).symm.trans habsent
  have hlost : fs.IsLost folder last := by
    refine ⟨hentry, hname, fun found hdenotes => ?_⟩
    rcases hdenotes.resolveFrom left with hfound | hfound
    · exact nomatch hlast.symm.trans hfound
    · exact nomatch hlast.symm.trans hfound
  exact hlost.resolveFrom_put_last bytes hreached

theorem target_eq_ok (h : fs.target path = .ok place) : ∃ folder,
    fs.resolve (if Path.parent path == "" then "." else Path.parent path) = .ok (folder, .folder) ∧
      place = folder ++ [Path.name path] := by
  unfold target target.parent at h
  cases hfolder : fs.resolve (if Path.parent path == "" then "." else Path.parent path) with
  | error error =>
    rw [hfolder] at h
    exact nomatch h
  | ok found =>
    obtain ⟨folder, entry⟩ := found
    rw [hfolder] at h
    dsimp only [bind, Except.bind] at h
    split at h
    · split at h
      · exact nomatch h
      · exact ⟨folder, rfl, (Except.ok.inj h).symm⟩
    · exact nomatch h

/-- A file that has been written is at its path. -/
theorem exists_resolve_writeBytes (hfs : fs.Founded) (hname : IsName last)
    (h : fs.writeBytes (folderPath ++ "/" ++ last) bytes = .ok later) :
    ∃ place, later.resolve (folderPath ++ "/" ++ last) = .ok (place, .file bytes) := by
  unfold writeBytes at h
  split at h
  · cases h
  · next place entry hfolder hresolve =>
    obtain rfl := Except.ok.inj h
    have hend : fs.IsEnd place := by
      intro other hother
      obtain rfl := Option.some.inj ((entry?_of_resolve hresolve).symm.trans hother)
      refine ⟨?_, hfs.not_link_of_resolve hresolve⟩
      cases entry with
      | folder => exact (hfolder rfl).elim
      | file | link | pipe => rfl
    exact ⟨place, resolve_put_self hend hresolve bytes⟩
  · next hresolve =>
    split at h
    · next place htarget =>
      obtain rfl := Except.ok.inj h
      obtain ⟨folder, hfolder, rfl⟩ := target_eq_ok htarget
      obtain ⟨-, -, -, hne, -⟩ := exists_parent hname.no_slash folderPath
      rw [if_neg (by simpa using hne)] at hfolder
      have hlast : Path.name (folderPath ++ "/" ++ last) = last := by
        have hlist : (folderPath ++ "/" ++ last).toList = folderPath.toList ++ '/' :: last.toList := by simp
        rw [Path.name, onChars, hlist, Chars.afterLast_append hname.no_slash, String.ofList_toList]
      rw [hlast]
      exact ⟨_, resolve_put_new hname hresolve hfolder bytes⟩
    · cases h
  · cases h

/-- Writing over a file that is there puts the new one in its place. -/
theorem writeBytes_of_file {before : List UInt8} (h : fs.resolve path = .ok (place, .file before))
    (bytes : List UInt8) : ∃ later, fs.writeBytes path bytes = .ok later ∧
      later.resolve path = .ok (place, .file bytes) := by
  have hend : fs.IsEnd place := by
    intro other hother
    obtain rfl := Option.some.inj ((entry?_of_resolve h).symm.trans hother)
    exact ⟨rfl, rfl⟩
  refine ⟨fs.put place (.file bytes), ?_, resolve_put_self hend h bytes⟩
  rw [writeBytes, h]

theorem readBytes_of_resolve (hnull : path.contains '\x00' = false)
    (h : fs.resolve path = .ok (place, .file bytes)) : fs.readBytes path = .ok bytes := by
  rw [readBytes, hnull, if_neg Bool.false_ne_true, h]

/-! ## Making folders -/

/-- A folder that is made stands in a folder. -/
theorem Founded.put (hfs : fs.Founded) (hfolder : fs.entry? folder = some .folder) (name : String) :
    (fs.put (folder ++ [name]) .folder).Founded := by
  have hkeeps {other : Place} (hother : fs.entry? other = some .folder) :
      entry? (fs.put (folder ++ [name]) .folder) other = some .folder := by
    by_cases heq : other = folder ++ [name]
    · rw [heq, entry?_put_self (by simp)]
    · rwa [entry?_put_of_ne heq]
  intro other hother
  by_cases heq : other = folder ++ [name]
  · rw [heq, List.dropLast_concat]
    exact hkeeps hfolder
  · rw [entry?_put_of_ne heq] at hother
    exact hkeeps (hfs other hother)

theorem Founded.makeFolders (hfs : fs.Founded) (h : fs.makeFolders path = .ok later) : later.Founded := by
  unfold FileSystem.makeFolders at h
  generalize (if startsWith "/" path then "/" else "") = made at h
  generalize (components path).filter (fun name => !(name == "" || name == ".")) = names at h
  induction names generalizing fs made with
  | nil => exact Except.ok.inj h ▸ hfs
  | cons name names ih =>
    rw [makeFoldersFrom] at h
    split at h
    · exact ih hfs _ h
    · cases h
    · split at h
      · next place htarget =>
        obtain ⟨folder, hfolder, rfl⟩ := target_eq_ok htarget
        exact ih (hfs.put (entry?_of_resolve hfolder) _) _ h
      · cases h
    · cases h

end FileSystem

end CodeReview
