import CodeReview.Proofs.FileSystem.Writing

/-!
# Folders that take files

* `Takes`: under some names in a folder files can be written, whatever they hold. The folder is there.
* `Accepts`: the folder is there or can be made, and takes files under the names then.
* `Takes.writeInto_eq`: no write of such a file fails, and it puts the file in its place.
* `Takes.put`: what has been written keeps nothing from being written later.
-/

namespace CodeReview.FileSystem

open Text

variable {fs ready : FileSystem} {folder name other : String} {names : List String} {place : Place}
  {bytes : List UInt8}

/-! ## One name -/

theorem IsName.descends (h : IsName name) : Path.Descends name :=
  Path.descends_of_names h.ne_empty fun other hother => by
    rw [namesIn_of_name h, List.mem_singleton] at hother
    exact hother ▸ h

/-- The path of a name in a folder leads to what stands there under that name. -/
theorem resolve_under_name (hname : IsName name)
    (hfolder : fs.resolve (Path.tidy folder) = .ok (place, .folder))
    (hshort : (Path.under folder name).utf8ByteSize < pathLimit)
    (hlink : ∀ target, fs.entry? (place ++ [name]) ≠ some (.link target)) :
    fs.resolve (Path.under folder name) =
      match fs.entry? (place ++ [name]) with
      | none => .error .notFound
      | some entry => .ok (place ++ [name], entry) := by
  obtain ⟨left, -, hresolve⟩ := resolve_under hfolder hname.descends
  rw [hresolve, if_neg (Nat.not_le.2 hshort), components_of_no_slash hname.no_slash]
  refine (resolveFrom_name hname.descends hname.no_slash (entry?_of_resolve hfolder) hlink).trans ?_
  refine (if_neg (Nat.not_lt.2 hname.short)).trans ?_
  cases fs.entry? (place ++ [name]) <;> rfl

/-! ## Several names -/

/-- A folder is there, and files can be written in it under these names. -/
structure Takes (fs : FileSystem) (folder : String) (place : Place) (names : List String) : Prop where
  leads : fs.resolve (Path.tidy folder) = .ok (place, .folder)
  isName {name : String} (h : name ∈ names) : IsName name
  short {name : String} (h : name ∈ names) : (Path.under folder name).utf8ByteSize < pathLimit
  no_null {name : String} (h : name ∈ names) : (Path.under folder name).contains '\x00' = false
  /-- What stands under one of the names is a file or a pipe. -/
  isEnd {name : String} (h : name ∈ names) : fs.IsEnd (place ++ [name])

/-- Files can be written under these names in a folder, which is made as needed. -/
def Accepts (fs : FileSystem) (folder : String) (names : List String) : Prop :=
  ∃ ready place, fs.makeFolders (Path.tidy folder) = .ok ready ∧ ready.Takes folder place names

namespace Takes

section Name

variable (h : fs.Takes folder place names) (hname : name ∈ names)
include h hname

theorem not_link (target : String) : fs.entry? (place ++ [name]) ≠ some (.link target) := fun hlink =>
  nomatch (h.isEnd hname _ hlink).2

theorem resolve_eq : fs.resolve (Path.under folder name) =
    match fs.entry? (place ++ [name]) with
    | none => .error .notFound
    | some entry => .ok (place ++ [name], entry) :=
  resolve_under_name (h.isName hname) h.leads (h.short hname) (h.not_link hname)

/-- A file is written in its place. -/
theorem writeInto_eq (text : String) : fs.writeInto (Path.under folder name) text =
    .ok (fs.put (place ++ [name]) (.file (Utf8.encode text.toList))) := by
  have hvalid := h.isName hname
  unfold writeInto writeInto.folderOf
  rw [Path.tidy_parent_under hvalid.descends hvalid.no_slash, makeFolders_of_folder h.leads]
  dsimp only [bind, Except.bind]
  rw [writeBytes, h.resolve_eq hname, target_under hvalid.descends hvalid.no_slash h.leads,
    if_neg (Nat.not_lt.2 hvalid.short)]
  cases hentry : fs.entry? (place ++ [name]) with
  | none => rfl
  | some entry =>
    cases entry with
    | folder => cases (h.isEnd hname _ hentry).1
    | file | link | pipe => rfl

/-- What is written leaves the folder as ready for files as it was. -/
theorem put (bytes : List UInt8) : (fs.put (place ++ [name]) (.file bytes)).Takes folder place names where
  leads := resolve_put (h.isEnd hname) h.leads (by simp) _
  isName := h.isName
  short := h.short
  no_null := h.no_null
  isEnd {other} hother entry hentry := by
    by_cases heq : other = name
    · rw [heq, entry?_put_self (by simp)] at hentry
      obtain rfl := Option.some.inj hentry
      exact ⟨rfl, rfl⟩
    · rw [entry?_put_of_ne (by simpa using heq)] at hentry
      exact h.isEnd hother entry hentry

theorem readBytes_eq (hfile : fs.entry? (place ++ [name]) = some (.file bytes)) :
    fs.readBytes (Path.under folder name) = .ok bytes := by
  rw [readBytes, h.no_null hname, if_neg Bool.false_ne_true, h.resolve_eq hname, hfile]

/-- The folder is made with the first file. -/
theorem writeInto_made {before : FileSystem} (hmade : before.makeFolders (Path.tidy folder) = .ok fs)
    (text : String) :
    before.writeInto (Path.under folder name) text = fs.writeInto (Path.under folder name) text := by
  have hvalid := h.isName hname
  unfold writeInto writeInto.folderOf
  rw [Path.tidy_parent_under hvalid.descends hvalid.no_slash, hmade, makeFolders_of_folder h.leads]

end Name

end Takes

end CodeReview.FileSystem
