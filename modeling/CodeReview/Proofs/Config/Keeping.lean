import CodeReview.Proofs.Completion.Choosing
import CodeReview.Proofs.Config.Storing
import CodeReview.Proofs.FileSystem.Rewriting

/-!
# What a change of the settings keeps

A change reads the whole settings file, changes the section for the provider and writes the rest back
(`stored?_run`). A file that is there and cannot be read as settings counts as empty in this, so a change
that works replaces it, with all that stood in it: what the file held is kept exactly if it was no such
file (`keeps_iff`).
-/

namespace CodeReview.Config

open Text FileSystem

/-- The table that the settings file holds, if it is there and holds one. -/
def stored? (fs : FileSystem) (env : Environment) : Option Toml.Table :=
  match fs.readBytes env.configFile with
  | .ok bytes =>
    (Utf8.decode? bytes).bind fun cs => (Toml.parse (String.ofList (Utf8.unifyLineEnds cs))).toOption
  | .error _ => none

/-- A change of the section for the provider. -/
inductive Change
  | save (provider model : String) (apiKey : Toml.Value) (endpoint : String)
  | clear

namespace Change

/-- The section that a change leaves. -/
def newSection? : Change → Option Toml.Value
  | save provider model apiKey endpoint => some (.table (sectionFor provider model apiKey endpoint))
  | clear => none

/-- What a change makes of a table. -/
def apply : Change → Toml.Table → Toml.Table
  | save provider model apiKey endpoint =>
    fun table => table.put "llm" (.table (sectionFor provider model apiKey endpoint))
  | clear => fun table => table.erase "llm"

def run (fs : FileSystem) (env : Environment) : Change → Except Failure Bool × FileSystem
  | save provider model apiKey endpoint => Config.save fs env provider model apiKey endpoint
  | clear => Config.clear fs env

theorem run_eq (change : Change) (fs : FileSystem) (env : Environment) :
    change.run fs env = Config.change fs env change.apply := by
  cases change <;> rfl

/-- Every other section is what it was. -/
theorem get?_apply (change : Change) (table : Toml.Table) (key : String) :
    (change.apply table).get? key = if key = "llm" then change.newSection? else table.get? key := by
  cases change with
  | save => exact Keyed.get?_put ..
  | clear => exact Keyed.get?_erase ..

/-- What the settings file held is kept in a change. -/
structure Keeps (change : Change) (fs later : FileSystem) (env : Environment) : Prop where
  /-- A table still has its sections, besides the one that is changed. -/
  parsed (table : Toml.Table) (h : stored? fs env = some table) :
    ∃ changed, stored? later env = some changed ∧
      ∀ key, changed.get? key = if key = "llm" then change.newSection? else table.get? key
  /-- What could not be read as settings has not been replaced. -/
  unparsed (hthere : fs.isThere env.configFile = .ok true) (hnone : stored? fs env = none) :
    later.readBytes env.configFile = fs.readBytes env.configFile

end Change

variable {fs later : FileSystem} {env : Environment} {place : Place} {table : Toml.Table}

/-! ## Reading -/

theorem configFile_eq (env : Environment) : env.configFile = env.home ++ "/" ++ fileName := by
  apply String.toList_injective
  simp [Environment.configFile, fileName]

/-- A file that is not there holds no table. -/
theorem stored?_of_absent (h : fs.isThere env.configFile = .ok false) : stored? fs env = none := by
  have hfailed : ∃ failure, fs.readBytes env.configFile = .error failure := by
    unfold isThere probe at h
    unfold readBytes
    split at h
    · next hnull => exact ⟨_, if_pos hnull⟩
    · next hnull =>
      rw [if_neg hnull]
      split at h
      · exact nomatch h
      · next hresolve =>
        rw [hresolve]
        exact ⟨_, rfl⟩
  obtain ⟨failure, hfailure⟩ := hfailed
  rw [stored?, hfailure]

/-- Unless it fails, reading gives what the file holds, and no settings if it holds no table. -/
theorem eq_stored?_of_read (h : read fs env = .ok table) : table = (stored? fs env).getD [] := by
  unfold read at h
  obtain ⟨there, hthere, h⟩ := exists_of_bind_ok h
  cases there with
  | false =>
    rw [stored?_of_absent hthere]
    exact (Except.ok.inj h).symm
  | true =>
    unfold stored?
    cases hbytes : fs.readBytes env.configFile with
    | error failure =>
      rw [hbytes] at h
      cases failure with
      | system => exact (Except.ok.inj h).symm
      | _ => exact nomatch h
    | ok bytes =>
      rw [hbytes] at h
      dsimp only at h ⊢
      cases hcs : Utf8.decode? bytes with
      | none =>
        rw [hcs] at h
        exact nomatch h
      | some cs =>
        rw [hcs] at h
        dsimp only [Option.bind_some] at h ⊢
        cases hparse : Toml.parse (String.ofList (Utf8.unifyLineEnds cs)) with
        | ok parsed =>
          rw [hparse] at h
          exact (Except.ok.inj h).symm
        | error fault =>
          rw [hparse] at h
          cases fault with
          | malformed => exact (Except.ok.inj h).symm
          | broken failure => exact nomatch h

/-! ## Writing -/

/-- What has been written is what the file holds. -/
theorem readBytes_of_write (hfs : fs.Founded) (hnull : env.configFile.contains '\x00' = false)
    (h : write fs env table = (.ok true, later)) : ∃ text, Toml.write table = .ok text ∧
      later.readBytes env.configFile = .ok (Utf8.encode text.toList) := by
  unfold write at h
  dsimp only at h
  split at h
  · exact nomatch h
  · exact nomatch h
  next empty hempty =>
  obtain ⟨made, hmade, hemptied⟩ := exists_of_bind_ok hempty
  split at h
  · exact nomatch h
  next text htext =>
  refine ⟨text, htext, ?_⟩
  obtain ⟨place, hplace⟩ : ∃ place, empty.resolve env.configFile = .ok (place, .file []) := by
    rw [configFile_eq] at hemptied ⊢
    exact exists_resolve_writeBytes (hfs.makeFolders hmade) (by decide) hemptied
  obtain ⟨written, hwritten, hresolve⟩ := writeBytes_of_file hplace (Utf8.encode text.toList)
  rw [hwritten] at h
  obtain rfl := (Prod.mk.inj h).2
  exact readBytes_of_resolve hnull hresolve

/-- After a change that has worked, the file holds the changed table, made from no table if it held none. -/
theorem stored?_run (change : Change) (hfs : fs.Founded) (hnull : env.configFile.contains '\x00' = false)
    (hback : Toml.ReadsBack (change.apply ((stored? fs env).getD [])))
    (hdone : change.run fs env = (.ok true, later)) :
    stored? later env = some (change.apply ((stored? fs env).getD [])) := by
  rw [Change.run_eq] at hdone
  unfold Config.change at hdone
  split at hdone
  · next table hread =>
    obtain rfl := eq_stored?_of_read hread
    obtain ⟨text, htext, hbytes⟩ := readBytes_of_write hfs hnull hdone
    obtain ⟨written, hwritten, hparse⟩ := hback
    obtain rfl := Except.ok.inj (htext.symm.trans hwritten)
    rw [stored?, hbytes]
    dsimp only
    rw [Utf8.decode?_encode, Option.bind_some, hparse]
    rfl
  · exact nomatch hdone

/-- A change that has worked keeps what the file held unless the file was there and held no table. -/
theorem keeps_iff (change : Change) (hfs : fs.Founded) (hnull : env.configFile.contains '\x00' = false)
    (hback : Toml.ReadsBack (change.apply ((stored? fs env).getD [])))
    (hdone : change.run fs env = (.ok true, later)) :
    stored? later env = some (change.apply ((stored? fs env).getD [])) ∧
      (change.Keeps fs later env ↔
        (fs.isThere env.configFile = .ok true → (stored? fs env).isSome = true)) := by
  have hlater := stored?_run change hfs hnull hback hdone
  refine ⟨hlater, fun hkeeps hthere => ?_, fun hsome => ⟨fun table htable => ?_, fun hthere hnone => ?_⟩⟩
  · by_contra hlost
    have hnone : stored? fs env = none := by simpa using hlost
    -- a table has been written, so what was no table is gone
    have hsame : stored? later env = stored? fs env := by
      rw [stored?, hkeeps.unparsed hthere hnone, ← stored?]
    rw [hlater, hnone] at hsame
    exact nomatch hsame
  · refine ⟨_, hlater, fun key => ?_⟩
    rw [htable]
    exact change.get?_apply table key
  · rw [hnone] at hsome
    exact nomatch hsome hthere

/-! ## Files with a section on reviews -/

section Files

open Service

/-- The file holds what its text is parsed to. -/
theorem stored?_withSettings (text : String) : stored? (withSettings text) { home := "" } =
    (Toml.parse (String.ofList (Utf8.unifyLineEnds text.toList))).toOption := by
  rw [stored?, readBytes_withSettings]
  dsimp only
  rw [Utf8.decode?_encode, Option.bind_some]

theorem founded_withSettings (text : String) : (withSettings text).Founded := by
  intro place hplace
  by_cases hne : place = []
  · rw [hne]
    rfl
  · exact absurd (mem_entries_of_found hplace hne) (by simp [withSettings])

/-- A change of a file that can be read works. -/
theorem run_withSettings (change : Change) {text written : String}
    (hread : read (withSettings text) { home := "" } = .ok table)
    (hwritten : Toml.write (change.apply table) = .ok written) :
    change.run (withSettings text) { home := "" } = (.ok true, withSettings written) := by
  have hmade : (withSettings text).makeFolders "" = .ok (withSettings text) := rfl
  have hput (before after : String) : (withSettings before).writeBytes
      ({ home := "" } : Environment).configFile (Utf8.encode after.toList) = .ok (withSettings after) := by
    rw [writeBytes, resolve_withSettings]
    rfl
  rw [Change.run_eq, Config.change, hread]
  exact write_eq (by rw [hmade]; exact hput text "") hwritten (hput "" written)

/-- A section on reviews, as it is written. -/
def reviewText : String := "[review]\nworkers = 3\n"

def reviewTable : Toml.Table := [("review", .table [("workers", .int 3)])]

set_option maxRecDepth 20000 in
theorem parse_reviewText :
    Toml.parse (String.ofList (Utf8.unifyLineEnds reviewText.toList)) = .ok reviewTable := by
  cbv

theorem keeps_iff_reviews :
    (withSettings reviewText).Founded ∧
      ({ home := "" } : Environment).configFile.contains '\x00' = false ∧
      Toml.ReadsBack (Change.clear.apply ((stored? (withSettings reviewText) { home := "" }).getD [])) ∧
      Change.clear.run (withSettings reviewText) { home := "" } = (.ok true, withSettings reviewText) ∧
      Change.clear.Keeps (withSettings reviewText) (withSettings reviewText) { home := "" } := by
  have hwritten : Toml.write (Change.clear.apply reviewTable) = .ok reviewText :=
    ok_of_toOption (by decide)
  have hstored : stored? (withSettings reviewText) { home := "" } = some reviewTable := by
    rw [stored?_withSettings, parse_reviewText]
    rfl
  have hback : Toml.ReadsBack
      (Change.clear.apply ((stored? (withSettings reviewText) { home := "" }).getD [])) := by
    rw [hstored]
    exact ⟨reviewText, hwritten, parse_reviewText⟩
  have hdone := run_withSettings .clear (read_withSettings parse_reviewText) hwritten
  refine ⟨founded_withSettings _, no_null_withSettings, hback, hdone, ?_⟩
  refine (keeps_iff .clear (founded_withSettings _) no_null_withSettings hback hdone).2.2 fun _ => ?_
  rw [hstored]
  rfl

/-- The same section in front of a bracket that was left open. -/
def malformedText : String := "[review]\nworkers = 3\n[llm\n"

set_option maxRecDepth 20000 in
theorem parse_malformedText :
    Toml.parse (String.ofList (Utf8.unifyLineEnds malformedText.toList)) = .error .malformed := by
  cbv

/-- It is lost when a provider is saved. -/
theorem not_keeps_malformed : ∃ later,
    (Change.save "groq" "m" (.text "") "").run (withSettings malformedText) { home := "" } = (.ok true, later) ∧
      later.readBytes ({ home := "" } : Environment).configFile =
        .ok (Utf8.encode "[llm]\nprovider = \"groq\"\nmodel = \"m\"\n".toList) ∧
      ¬ (Change.save "groq" "m" (.text "") "").Keeps (withSettings malformedText) later { home := "" } := by
  have hread : read (withSettings malformedText) { home := "" } = .ok [] := by
    rw [read_withSettings_eq, parse_malformedText]
  have hnone : stored? (withSettings malformedText) { home := "" } = none := by
    rw [stored?_withSettings, parse_malformedText]
    rfl
  refine ⟨_, run_withSettings _ hread (ok_of_toOption (by decide +kernel)), readBytes_withSettings _,
    fun hkeeps => ?_⟩
  have hbytes := hkeeps.unparsed (isThere_withSettings malformedText) hnone
  rw [readBytes_withSettings, readBytes_withSettings] at hbytes
  exact absurd (Utf8.encode_injective (Except.ok.inj hbytes)) (by decide)

end Files

end CodeReview.Config
