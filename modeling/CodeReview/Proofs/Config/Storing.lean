import CodeReview.Config
import CodeReview.Proofs.Record.Log

/-!
# What a settings file holds

* `Config.Holding`: a file system differs from one without a settings file in nothing but such a file,
  which reads as a given table.
* `Holding.change`: a change of the settings leaves the file as it is, or makes it hold the changed
  settings, if these read back (`Toml.ReadsBack`).

A settings file can be made unless there is no way to write it (`Config.Fresh`), and then it is never
there.
-/

namespace CodeReview

open Text

/-- A table reads back: what is written for it is read as the same table. -/
def Toml.ReadsBack (table : Toml.Table) : Prop :=
  ∃ text, Toml.write table = .ok text ∧
    Toml.parse (String.ofList (Utf8.unifyLineEnds text.toList)) = .ok table

/-- A result that can be computed, without the failure it might have been. -/
theorem ok_of_toOption {α : Type} {result : Except Failure α} {a : α} (h : result.toOption = some a) :
    result = .ok a := by
  cases result with
  | ok other => exact congrArg _ (Option.some.inj h)
  | error failure => exact nomatch h

namespace FileSystem

variable {fs ready : FileSystem} {folder name : String} {place : Place}

theorem Admits.isThere_put (h : fs.Admits folder name ready place) (bytes : List UInt8) :
    (ready.put (place ++ [name]) (.file bytes)).isThere (Path.under folder name) = .ok true := by
  have hentry : entry? (ready.put (place ++ [name]) (.file bytes)) (place ++ [name]) =
      some (.file bytes) := entry?_put_self (by simp) _
  have hresolve := resolve_under_name h.isName (h.folder_put bytes) h.short (by simp [hentry])
  rw [hentry] at hresolve
  rw [isThere, probe, h.no_null, if_neg Bool.false_ne_true, hresolve]

theorem Admits.writeBytes_new (h : fs.Admits folder name ready place) (bytes : List UInt8) :
    ready.writeBytes (Path.under folder name) bytes =
      .ok (ready.put (place ++ [name]) (.file bytes)) := by
  have hresolve := resolve_under_name h.isName h.leads h.short (by simp [h.new])
  rw [h.new] at hresolve
  rw [writeBytes, hresolve, target_under h.isName.descends h.isName.no_slash h.leads,
    if_neg (Nat.not_lt.2 h.isName.short)]

theorem Admits.writeBytes_put (h : fs.Admits folder name ready place) (before bytes : List UInt8) :
    (ready.put (place ++ [name]) (.file before)).writeBytes (Path.under folder name) bytes =
      .ok (ready.put (place ++ [name]) (.file bytes)) := by
  have hentry : entry? (ready.put (place ++ [name]) (.file before)) (place ++ [name]) =
      some (.file before) := entry?_put_self (by simp) _
  have hresolve := resolve_under_name h.isName (h.folder_put before) h.short (by simp [hentry])
  rw [hentry] at hresolve
  rw [writeBytes, hresolve]
  dsimp only
  rw [put_put]

end FileSystem

namespace Config

open FileSystem

/-- The name of the settings file in its folder. -/
def fileName : String := "config.toml"

/-- The settings file is not there and can be made, together with the folders it stands in. -/
structure Makeable (fs : FileSystem) (env : Environment) (ready : FileSystem) (place : Place) : Prop where
  tidy : Path.tidy env.home = env.home
  isUnder : env.configFile = Path.under env.home fileName
  admits : fs.Admits env.home fileName ready place

/-- No attempt to make the settings file succeeds. -/
def IsRefused (fs : FileSystem) (env : Environment) : Prop :=
  ∀ made later, fs.makeFolders env.home = .ok made → made.writeBytes env.configFile [] ≠ .ok later

/-- There is no settings file, and it can be made or no attempt to make it succeeds. -/
structure Fresh (fs : FileSystem) (env : Environment) : Prop where
  absent : fs.isThere env.configFile = .ok false
  decided : (∃ ready place, Makeable fs env ready place) ∨ IsRefused fs env

/-- A file system with a settings file that holds a table, beside one without. -/
inductive Holding (fs : FileSystem) (env : Environment) : Toml.Table → FileSystem → Prop
  | fresh (h : Fresh fs env) : Holding fs env [] fs
  | stored {ready : FileSystem} {place : Place} (h : Makeable fs env ready place) {text : String}
    {table : Toml.Table}
    (hparse : Toml.parse (String.ofList (Utf8.unifyLineEnds text.toList)) = .ok table) :
    Holding fs env table (ready.put (place ++ [fileName]) (.file (Utf8.encode text.toList)))

variable {fs ready later : FileSystem} {env : Environment} {place : Place} {table other : Toml.Table}

/-- What the settings file holds is what is read. -/
theorem Holding.read_eq (h : Holding fs env table later) : read later env = .ok table := by
  cases h with
  | fresh h =>
    unfold read
    rw [h.absent, ok_bind]
    rfl
  | stored h hparse =>
    unfold read
    rw [h.isUnder, h.admits.isThere_put, ok_bind, h.admits.readBytes_put]
    dsimp only
    rw [if_neg (by decide), Utf8.decode?_encode]
    dsimp only
    rw [hparse]
    rfl

/-- A write into the file that has been emptied for it. -/
theorem write_eq {empty written : FileSystem} {text : String}
    (hempty : (fs.makeFolders env.home >>= (·.writeBytes env.configFile [])) = .ok empty)
    (htext : Toml.write table = .ok text)
    (hwritten : empty.writeBytes env.configFile (Utf8.encode text.toList) = .ok written) :
    write fs env table = (.ok true, written) := by
  unfold write
  simp only [hempty, htext, hwritten]

/-- What is written is what the file holds, unless it is left as it is. -/
theorem Holding.write (h : Holding fs env table later) (hback : Toml.ReadsBack other) :
    (Config.write later env other).2 = later ∨
      Holding fs env other (Config.write later env other).2 := by
  obtain ⟨text, htext, hparse⟩ := hback
  cases h with
  | fresh h =>
    obtain ⟨ready, place, h⟩ | hrefused := h.decided
    · have hempty : (fs.makeFolders env.home >>= (·.writeBytes env.configFile [])) =
          .ok (ready.put (place ++ [fileName]) (.file [])) := by
        rw [← h.tidy, h.admits.made, ok_bind, h.isUnder]
        exact h.admits.writeBytes_new []
      rw [write_eq hempty htext (by rw [h.isUnder]; exact h.admits.writeBytes_put _ _)]
      exact .inr (.stored h hparse)
    · left
      unfold Config.write
      cases hempty : (fs.makeFolders env.home >>= (·.writeBytes env.configFile [])) with
      | ok empty =>
        obtain ⟨made, hmade, hwritten⟩ := exists_of_bind_ok hempty
        exact absurd hwritten (hrefused made empty hmade)
      | error failure =>
        dsimp only
        cases failure <;> rfl
  | @stored ready place h before _ _ =>
    have hempty : ((ready.put (place ++ [fileName]) (.file (Utf8.encode before.toList))).makeFolders env.home
        >>= (·.writeBytes env.configFile [])) = .ok (ready.put (place ++ [fileName]) (.file [])) := by
      rw [← h.tidy, makeFolders_of_folder (h.admits.folder_put _), ok_bind, h.isUnder]
      exact h.admits.writeBytes_put _ _
    rw [write_eq hempty htext (by rw [h.isUnder]; exact h.admits.writeBytes_put _ _)]
    exact .inr (.stored h hparse)

/-- After a change the file holds the changed settings or is what it was. -/
theorem Holding.change (h : Holding fs env table later) {f : Toml.Table → Toml.Table}
    (hback : Toml.ReadsBack (f table)) :
    (Config.change later env f).2 = later ∨ Holding fs env (f table) (Config.change later env f).2 := by
  unfold Config.change
  rw [h.read_eq]
  exact h.write hback

end Config

end CodeReview
