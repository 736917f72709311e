import CodeReview.Settings
import CodeReview.Proofs.Number.Rounding
import CodeReview.Proofs.Steps

/-!
# What a table makes of the settings

Each setting takes the value of its own entry, converted, or stays as it is (`Settings.withTable`). The
conversion of one value breaks the reading off: an infinite number for a whole one, and a whole number
that no number of the format is near to (`Settings.Overflows`).
-/

namespace CodeReview.Settings

open Number

/-! ## Conversions -/

/-- The whole number that a value is converted to, if it can be. -/
def toWhole? : Toml.Value → Option Int
  | .int n => some n
  | .bool b => some (if b then 1 else 0)
  | .text s => (readInteger s.toList).toOption
  | .float x => x.toInt?
  | _ => none

/-- The number that a value is converted to, if it can be. -/
def toReal? : Toml.Value → Option Binary64
  | .float x => some x
  | .bool b => some (if b then .ofRatio false 1 1 else .zero)
  | .text s => readFloat? s.toList
  | .int n => Binary64.ofInt? n
  | _ => none

/-- An infinite number has no integer part. -/
def IsInfinite (value : Toml.Value) : Prop := ∃ x, value = .float x ∧ x.isInfinite = true

/-- A whole number that is past all finite numbers of the format. -/
def IsHuge (value : Toml.Value) : Prop := ∃ n, value = .int n ∧ 2 ^ 1024 - 2 ^ 970 ≤ n.natAbs

theorem wholeNumber?_of_isInfinite {value : Toml.Value} (h : IsInfinite value) :
    wholeNumber? value = .error .infiniteWhole := by
  obtain ⟨x, rfl, hx⟩ := h
  have hfinite : x.isFinite = false := by
    rw [Binary64.isInfinite, Bool.and_eq_true, beq_iff_eq] at hx
    rw [Binary64.isFinite, hx.1]
    rfl
  simp only [wholeNumber?, Binary64.toInt?, hfinite, hx, Bool.false_eq_true, if_false, if_true]

theorem wholeNumber?_of_not_isInfinite {value : Toml.Value} (h : ¬ IsInfinite value) :
    wholeNumber? value = .ok (toWhole? value) := by
  cases value with
  | float x =>
    have hx : ¬ x.isInfinite = true := fun hx => h ⟨x, rfl, hx⟩
    rw [wholeNumber?, toWhole?]
    cases x.toInt? with
    | some n => rfl
    | none => exact if_neg hx
  | _ => rfl

theorem number?_of_isHuge {value : Toml.Value} (h : IsHuge value) :
    number? value = .error .tooLargeForFloat := by
  obtain ⟨n, rfl, hn⟩ := h
  rw [number?, (Binary64.ofInt?_eq_none_iff n).2 hn]

theorem number?_of_not_isHuge {value : Toml.Value} (h : ¬ IsHuge value) :
    number? value = .ok (toReal? value) := by
  cases value with
  | int n =>
    rw [number?, toReal?]
    cases hn : Binary64.ofInt? n with
    | some x => rfl
    | none => exact absurd ⟨n, rfl, (Binary64.ofInt?_eq_none_iff n).1 hn⟩ h
  | _ => rfl

/-! ## The settings of a table -/

/-- What a setting becomes: its entry converted, if there is one that can be, and else what it is. -/
def taken {α : Type} (convert : Toml.Value → Option α) (table : Toml.Table) (name : String) (before : α) :
    α :=
  ((Keyed.get? table name).bind convert).getD before

/-- The settings with the entries of a table, each by itself. -/
def withTable (settings : Settings) (table : Toml.Table) : Settings where
  workers := taken toWhole? table "workers" settings.workers
  batchTimeout := taken toReal? table "batch_timeout" settings.batchTimeout
  resultTimeout := taken toReal? table "result_timeout" settings.resultTimeout
  maxChars := taken toWhole? table "max_chars" settings.maxChars
  maxFileSize := taken toWhole? table "max_file_size" settings.maxFileSize
  maxEvalBytes := taken toWhole? table "max_eval_bytes" settings.maxEvalBytes
  tokensPerMinute := taken toWhole? table "tokens_per_minute" settings.tokensPerMinute
  maxTokens := taken toWhole? table "max_tokens" settings.maxTokens
  temperature := taken (fun value => (toReal? value).map .real) table "temperature" settings.temperature

/-- The settings that are whole numbers. -/
def wholeNames : List String :=
  ["workers", "max_chars", "max_file_size", "max_eval_bytes", "tokens_per_minute", "max_tokens"]

/-- The settings that are numbers of any kind. -/
def realNames : List String := ["batch_timeout", "result_timeout", "temperature"]

/-- A setting has an entry with a value of a kind. -/
def Has (table : Toml.Table) (name : String) (kind : Toml.Value → Prop) : Prop :=
  ∃ value, Keyed.get? table name = some value ∧ kind value

/-- Some setting has an entry whose conversion breaks off. -/
def Overflows (table : Toml.Table) : Prop :=
  (∃ name ∈ wholeNames, Has table name IsInfinite) ∨ ∃ name ∈ realNames, Has table name IsHuge

/-- What a table makes of one setting. -/
def take (table : Toml.Table) (settings : Settings) (setting : Setting) : Except Failure Settings :=
  match Keyed.get? table setting.name with
  | some value => setting.read value settings
  | none => .ok settings

section Take

variable {table : Toml.Table} {settings : Settings} {name : String}

section Whole

variable {set : Int → Settings → Settings} {get : Settings → Int}

theorem take_wholeSetting_of_has (h : Has table name IsInfinite) :
    take table settings (wholeSetting name set get) = .error .infiniteWhole := by
  obtain ⟨value, hvalue, hinfinite⟩ := h
  simp only [take, wholeSetting, hvalue, wholeNumber?_of_isInfinite hinfinite, error_bind]

theorem take_wholeSetting (h : ¬ Has table name IsInfinite)
    (hkeep : ∀ settings, set (get settings) settings = settings) :
    take table settings (wholeSetting name set get) =
      .ok (set (taken toWhole? table name (get settings)) settings) := by
  simp only [take, wholeSetting, taken]
  cases hvalue : Keyed.get? table name with
  | none => exact congrArg Except.ok (hkeep settings).symm
  | some value =>
    have hfinite : ¬ IsInfinite value := fun hinfinite => h ⟨value, hvalue, hinfinite⟩
    rw [Option.bind_some]
    simp only [wholeNumber?_of_not_isInfinite hfinite, ok_bind]
    cases toWhole? value with
    | some n => rfl
    | none => exact congrArg Except.ok (hkeep settings).symm

end Whole

section Real

variable {set : Binary64 → Settings → Settings} {get : Settings → Json}

theorem take_realSetting_of_has (h : Has table name IsHuge) :
    take table settings (realSetting name set get) = .error .tooLargeForFloat := by
  obtain ⟨value, hvalue, hhuge⟩ := h
  simp only [take, realSetting, hvalue, number?_of_isHuge hhuge, error_bind]

theorem take_realSetting_eq (h : ¬ Has table name IsHuge) :
    take table settings (realSetting name set get) =
      .ok ((((Keyed.get? table name).bind toReal?).map (set · settings)).getD settings) := by
  simp only [take, realSetting]
  cases hvalue : Keyed.get? table name with
  | none => rfl
  | some value =>
    have hfits : ¬ IsHuge value := fun hhuge => h ⟨value, hvalue, hhuge⟩
    simp only [number?_of_not_isHuge hfits, ok_bind, Option.bind_some]
    rfl

/-- The number is kept as it is or in another form. -/
theorem take_realSetting {α : Type} (h : ¬ Has table name IsHuge) (convert : Toml.Value → Option α)
    (put : α → Settings → Settings) (current : Settings → α)
    (hput : ∀ value, (toReal? value).map (set · settings) = (convert value).map (put · settings))
    (hkeep : put (current settings) settings = settings) :
    take table settings (realSetting name set get) =
      .ok (put (taken convert table name (current settings)) settings) := by
  rw [take_realSetting_eq h, taken]
  cases Keyed.get? table name with
  | none => exact congrArg Except.ok hkeep.symm
  | some value =>
    rw [Option.bind_some, Option.bind_some, hput]
    cases convert value with
    | some a => rfl
    | none => exact congrArg Except.ok hkeep.symm

end Real

end Take

/-! ## All settings -/

theorem ofTable_eq_foldlM (settings : Settings) (table : Toml.Table) :
    settings.ofTable table = all.foldlM (take table) settings := rfl

/-- A setting is read as a whole number or as a number of any kind. -/
inductive IsRead : Setting → Prop
  | whole {name : String} (hname : name ∈ wholeNames) {set : Int → Settings → Settings}
    {get : Settings → Int} (hkeep : ∀ settings, set (get settings) settings = settings) :
    IsRead (wholeSetting name set get)
  | real {name : String} (hname : name ∈ realNames) {set : Binary64 → Settings → Settings}
    {get : Settings → Json} : IsRead (realSetting name set get)

theorem isRead_of_mem {setting : Setting} (h : setting ∈ all) : IsRead setting := by
  revert setting
  simp only [all, List.forall_mem_cons]
  exact ⟨.whole (by decide) fun _ => rfl, .real (by decide), .real (by decide),
    .whole (by decide) fun _ => rfl, .whole (by decide) fun _ => rfl, .whole (by decide) fun _ => rfl,
    .whole (by decide) fun _ => rfl, .whole (by decide) fun _ => rfl, .real (by decide), nofun⟩

/-- The entry of a setting breaks its conversion off. -/
def Stops (table : Toml.Table) (name : String) : Prop :=
  (name ∈ wholeNames ∧ Has table name IsInfinite) ∨ (name ∈ realNames ∧ Has table name IsHuge)

theorem notMem_realNames {name : String} (h : name ∈ wholeNames) : name ∉ realNames := by
  revert name
  decide

variable {table : Toml.Table} {setting : Setting}

/-- One setting is taken, or it breaks the reading off, whatever came before it. -/
theorem IsRead.take_cases (h : IsRead setting) (table : Toml.Table) (settings : Settings) :
    (¬ Stops table setting.name ∧ ∃ next, take table settings setting = .ok next) ∨
      (Stops table setting.name ∧
        ∃ failure, take table settings setting = .error failure ∧ failure.kind = .overflow) := by
  cases h with
  | @whole name hname _ _ hkeep =>
    by_cases hstop : Has table name IsInfinite
    · exact .inr ⟨.inl ⟨hname, hstop⟩, _, take_wholeSetting_of_has hstop, rfl⟩
    · refine .inl ⟨?_, _, take_wholeSetting hstop hkeep⟩
      rintro (⟨-, h⟩ | ⟨hreal, -⟩)
      · exact hstop h
      · exact notMem_realNames hname hreal
  | @real name hname =>
    by_cases hstop : Has table name IsHuge
    · exact .inr ⟨.inr ⟨hname, hstop⟩, _, take_realSetting_of_has hstop, rfl⟩
    · refine .inl ⟨?_, _, take_realSetting_eq hstop⟩
      rintro (⟨hwhole, -⟩ | ⟨-, h⟩)
      · exact notMem_realNames hwhole hname
      · exact hstop h

theorem IsRead.succeeds_iff (h : IsRead setting) (table : Toml.Table) (settings : Settings) :
    Succeeds (take table settings setting) ↔ ¬ Stops table setting.name := by
  obtain ⟨hstop, next, htake⟩ | ⟨hstop, failure, htake, -⟩ := h.take_cases table settings
  · exact iff_of_true ⟨next, htake⟩ hstop
  · refine iff_of_false ?_ (not_not_intro hstop)
    rintro ⟨next, hnext⟩
    exact nomatch htake.symm.trans hnext

theorem IsRead.failsWith (h : IsRead setting) (table : Toml.Table) (settings : Settings) :
    FailsWith (·.kind = .overflow) (take table settings setting) := by
  intro failure hfailure
  obtain ⟨-, next, htake⟩ | ⟨-, other, htake, hkind⟩ := h.take_cases table settings
  · exact nomatch hfailure.symm.trans htake
  · obtain rfl := Except.error.inj (hfailure.symm.trans htake)
    exact hkind

theorem exists_mem_all : ∀ name ∈ wholeNames ++ realNames, ∃ setting ∈ all, setting.name = name := by
  decide

theorem forall_not_stops_iff : (∀ setting ∈ all, ¬ Stops table setting.name) ↔ ¬ Overflows table := by
  constructor
  · rintro h (⟨name, hname, hhas⟩ | ⟨name, hname, hhas⟩)
    · obtain ⟨setting, hmem, rfl⟩ := exists_mem_all name (List.mem_append_left _ hname)
      exact h setting hmem (.inl ⟨hname, hhas⟩)
    · obtain ⟨setting, hmem, rfl⟩ := exists_mem_all name (List.mem_append_right _ hname)
      exact h setting hmem (.inr ⟨hname, hhas⟩)
  · rintro h setting - (⟨hname, hhas⟩ | ⟨hname, hhas⟩)
    · exact h (.inl ⟨_, hname, hhas⟩)
    · exact h (.inr ⟨_, hname, hhas⟩)

theorem succeeds_ofTable_iff (settings : Settings) (table : Toml.Table) :
    Succeeds (settings.ofTable table) ↔ ¬ Overflows table := by
  rw [ofTable_eq_foldlM, ← forall_not_stops_iff]
  exact Succeeds.foldlM_iff (fun settings _ h => (isRead_of_mem h).succeeds_iff table settings) settings

theorem failsWith_ofTable (settings : Settings) (table : Toml.Table) :
    FailsWith (·.kind = .overflow) (settings.ofTable table) :=
  FailsWith.foldlM_of_mem (fun settings _ h => (isRead_of_mem h).failsWith table settings) settings

theorem ofTable_of_not_overflows (settings : Settings) (h : ¬ Overflows table) :
    settings.ofTable table = .ok (settings.withTable table) := by
  have hwhole : ∀ name ∈ wholeNames, ¬ Has table name IsInfinite := fun name hname hhas =>
    h (.inl ⟨name, hname, hhas⟩)
  have hreal : ∀ name ∈ realNames, ¬ Has table name IsHuge := fun name hname hhas =>
    h (.inr ⟨name, hname, hhas⟩)
  rw [ofTable_eq_foldlM, all]
  rw [List.foldlM_cons, take_wholeSetting (hwhole _ (by decide)) fun _ => rfl, ok_bind]
  rw [List.foldlM_cons, take_realSetting (hreal _ (by decide)) toReal? _ batchTimeout (fun _ => rfl) rfl,
    ok_bind]
  rw [List.foldlM_cons, take_realSetting (hreal _ (by decide)) toReal? _ resultTimeout (fun _ => rfl) rfl,
    ok_bind]
  rw [List.foldlM_cons, take_wholeSetting (hwhole _ (by decide)) fun _ => rfl, ok_bind]
  rw [List.foldlM_cons, take_wholeSetting (hwhole _ (by decide)) fun _ => rfl, ok_bind]
  rw [List.foldlM_cons, take_wholeSetting (hwhole _ (by decide)) fun _ => rfl, ok_bind]
  rw [List.foldlM_cons, take_wholeSetting (hwhole _ (by decide)) fun _ => rfl, ok_bind]
  rw [List.foldlM_cons, take_wholeSetting (hwhole _ (by decide)) fun _ => rfl, ok_bind]
  rw [List.foldlM_cons, take_realSetting (hreal _ (by decide)) (fun value => (toReal? value).map .real)
    (fun a s => { s with temperature := a }) temperature (fun value => (Option.map_map ..).symm) rfl, ok_bind]
  rfl

/-- Only the entries of the settings are looked at. -/
theorem foldlM_take_congr {other : Toml.Table} {items : List Setting}
    (h : ∀ setting ∈ items, Keyed.get? table setting.name = Keyed.get? other setting.name)
    (settings : Settings) : items.foldlM (take table) settings = items.foldlM (take other) settings := by
  induction items generalizing settings with
  | nil => rfl
  | cons setting items ih =>
    have htake : take table settings setting = take other settings setting := by
      rw [take, h setting List.mem_cons_self, take]
    rw [List.foldlM_cons, List.foldlM_cons, htake]
    congr 1
    exact funext fun next => ih (fun setting hmem => h setting (List.mem_cons_of_mem _ hmem)) next

end CodeReview.Settings
