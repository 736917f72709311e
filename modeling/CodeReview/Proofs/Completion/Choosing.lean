import CodeReview.Completion.Service
import CodeReview.Proofs.FileSystem.Resolution
import CodeReview.Proofs.Steps
import CodeReview.Proofs.Text.Utf8
import Mathlib

/-!
# Where the settings of a client come from

The settings of a client (`Service.settingsOf`) are taken from the caller, the key then from the
environment, then from the section of the settings file, and then from the defaults of the provider. A
section counts for the provider that it is meant for (`Service.isFor`), in capitals or small letters.

* `settingsOf_choose`: what is used of the section depends on whether it has the name of the provider
  letter by letter (`Service.names`), which says less.
* `settings_chosen_iff`: so the settings are these exactly if a name in other letters makes no
  difference, and if the section can be read (`Service.IsUnreadable`).
-/

namespace CodeReview

open Text

namespace Config

/-- The section of a settings file about the provider; without one, it has no entries. -/
inductive HasSection (table : Toml.Table) : Fields → Prop
  | absent (h : Keyed.get? table "llm" = none) : HasSection table []
  | stored {entries : List (String × Toml.Value)} (h : Keyed.get? table "llm" = some (.table entries)) :
    HasSection table (entriesToJson entries)

end Config

namespace Service

/-! ## What a caller may expect -/

/-- The name of the provider that is asked: the one that the caller gives, else the one in the section, else
that of `ollama`. -/
inductive AsksFor (stored : Fields) (choice : Choice) : String → Prop
  | chosen {name : String} (h : choice.provider = some name) (hne : name ≠ "") :
    AsksFor stored choice (lowercase name)
  | stored {name : String} (hnone : choice.provider.bind nonEmpty? = none)
    (h : Keyed.get? stored "provider" = some (.str name)) (hne : name ≠ "") :
    AsksFor stored choice (lowercase name)
  | unnamed (hnone : choice.provider.bind nonEmpty? = none)
    (h : (Keyed.get? stored "provider").filter Json.isTruthy = none) :
    AsksFor stored choice Provider.ollama.name

/-- Whether a section is meant for a provider: it has its name, in capitals or small letters; one without a
name is meant for `ollama`. -/
def isFor (stored : Fields) (provider : Provider) : Bool :=
  match (Keyed.get? stored "provider").filter Json.isTruthy with
  | none => provider == .ollama
  | some (.str name) => lowercase name == provider.name
  | some _ => false

/-- Whether a section has the name of a provider letter by letter; one without an entry for it names
`ollama`. -/
def names (stored : Fields) (provider : Provider) : Bool :=
  ((Keyed.get? stored "provider").getD (.str Provider.ollama.name)).str? == some provider.name

/-- An entry of a section, or null. -/
def entryOf (stored : Fields) (key : String) : Json := (Keyed.get? stored key).getD .null

/-- The settings of a client, each from the first source that has one. -/
def settingsOf (env : Environment) (stored : Fields) (choice : Choice) (provider : Provider) : Target where
  model := firstTruthy [.ofText? choice.model, entryOf stored "model"] (.str provider.model)
  apiKey := firstTruthy
    [.ofText? choice.apiKey, .ofText? (env.valueOf? Environment.commonKeyVariable),
      .ofText? (provider.keyVariable?.bind env.valueOf?), entryOf stored "api_key"] (.str "")
  endpoint := firstTruthy [.ofText? choice.endpoint, entryOf stored "endpoint"]
    (.str (provider.endpoint?.getD ""))

/-- A section cannot be read: instead of the name of a provider it has a list or a table, and the key is
looked for under that name. -/
def IsUnreadable (env : Environment) (stored : Fields) : Prop :=
  env.valueOf? Environment.commonKeyVariable = none ∧
    ((∃ items, Keyed.get? stored "provider" = some (.arr items)) ∨
      ∃ fields, Keyed.get? stored "provider" = some (.obj fields))

/-- The client of a caller, with the settings file that is there. -/
def ofSettings (fs : FileSystem) (env : Environment) (choice : Choice) : Except Failure Service := do
  choose env (← Config.load fs env) choice

/-! ## Sources -/

section Sources

variable {env : Environment} {stored : Fields} {choice : Choice} {provider : Provider}

theorem firstTruthy_cons (value : Json) (values : List Json) (last : Json) :
    firstTruthy (value :: values) last =
      if value.isTruthy then value else firstTruthy values last := by
  unfold firstTruthy
  by_cases h : value.isTruthy = true <;> simp [h]

/-- A text that is not given counts as an empty one. -/
theorem firstTruthy_text (text : Option String) (values : List Json) (last : Json) :
    firstTruthy (.str (text.getD "") :: values) last = firstTruthy (.ofText? text :: values) last := by
  cases text <;> rfl

theorem ofName?_name (provider : Provider) : Provider.ofName? provider.name = some provider := by
  cases provider <;> decide

theorem lowercase_name (provider : Provider) : lowercase provider.name = provider.name := by
  cases provider <;> decide

theorem name_ne_empty (provider : Provider) : provider.name ≠ "" := by
  cases provider <;> decide

theorem isTruthy_of_valueOf? {named value : String} (h : env.valueOf? named = some value) :
    (Json.str value).isTruthy = true := by
  obtain ⟨text, -, hvalue⟩ := Option.bind_eq_some_iff.1 h
  unfold nonEmpty? at hvalue
  split at hvalue
  · exact nomatch hvalue
  · next hne =>
    obtain rfl := Option.some.inj hvalue
    simpa [Json.isTruthy] using hne

/-- The key in the environment comes from the variable for all providers, else from that of the provider. -/
theorem firstTruthy_apiKey (provider : Provider) (values : List Json) (last : Json) :
    firstTruthy (.str (env.apiKey provider.name) :: values) last =
      firstTruthy (.ofText? (env.valueOf? Environment.commonKeyVariable) ::
        .ofText? (provider.keyVariable?.bind env.valueOf?) :: values) last := by
  unfold Environment.apiKey
  rw [ofName?_name]
  dsimp only [Option.bind_some]
  cases hcommon : env.valueOf? Environment.commonKeyVariable with
  | none =>
    rw [Option.none_or, firstTruthy_text]
    rfl
  | some key =>
    have htruthy := isTruthy_of_valueOf? hcommon
    rw [Option.some_or, Option.getD_some, Json.ofText?, firstTruthy_cons, firstTruthy_cons,
      if_pos htruthy, if_pos htruthy]

/-- A section that has the name of a provider is meant for it. -/
theorem isFor_of_names (h : names stored provider = true) : isFor stored provider = true := by
  unfold names at h
  unfold isFor
  cases hname : Keyed.get? stored "provider" with
  | none =>
    rw [hname] at h
    cases provider <;> revert h <;> decide
  | some value =>
    rw [hname, Option.getD_some, beq_iff_eq] at h
    cases value with
    | str name =>
      obtain rfl := Option.some.inj h
      simp [Option.filter, Json.isTruthy, name_ne_empty, lowercase_name]
    | null | bool | int | float | arr | obj => exact nomatch h

theorem providerName_eq {name : String} (h : AsksFor stored choice name) :
    providerName stored choice = .ok name := by
  cases h with
  | @chosen name h hne =>
    have hchosen : nonEmpty? name = some name := if_neg (by simpa using hne)
    rw [providerName, h, Option.bind_some, hchosen]
  | @stored name hnone h hne =>
    rw [providerName, hnone, h]
    simp [Option.filter, Json.isTruthy, hne]
  | unnamed hnone h => rw [providerName, hnone, h]

end Sources

/-! ## What is loaded -/

section Loading

variable {fs : FileSystem} {env : Environment} {table : Toml.Table} {stored : Fields}
  {choice : Choice} {provider : Provider} {key : String}

/-- An empty section is taken for the defaults of `ollama`. -/
def orDefaults (stored : Fields) : Fields :=
  if stored.isEmpty then Provider.ollama.defaults else stored

/-- A section with a key from the environment, if there is one. -/
def withKey (stored : Fields) (key : String) : Fields :=
  if key.isEmpty then stored else Keyed.put stored "api_key" (.str key)

theorem get?_withKey {entry : String} (h : entry ≠ "api_key") :
    Keyed.get? (withKey stored key) entry = Keyed.get? stored entry := by
  unfold withKey
  split
  · rfl
  · rw [Keyed.get?_put, if_neg h]

theorem names_withKey : names (withKey stored key) provider = names stored provider := by
  unfold names
  rw [get?_withKey (by decide)]

theorem providerName_withKey :
    providerName (withKey stored key) choice = providerName stored choice := by
  unfold providerName
  rw [get?_withKey (by decide)]

theorem names_orDefaults : names (orDefaults stored) provider = names stored provider := by
  cases stored with
  | nil => cases provider <;> decide
  | cons entry stored => rfl

theorem providerName_orDefaults :
    providerName (orDefaults stored) choice = providerName stored choice := by
  cases stored with
  | nil =>
    unfold providerName
    cases choice.provider.bind nonEmpty? <;> rfl
  | cons entry stored => rfl

theorem isUnreadable_orDefaults : IsUnreadable env (orDefaults stored) ↔ IsUnreadable env stored := by
  cases stored with
  | nil =>
    have hdefaults : Keyed.get? (orDefaults []) "provider" = some (.str "ollama") := rfl
    rw [IsUnreadable, IsUnreadable, hdefaults]
    simp [Keyed.get?]
  | cons entry stored => rfl

/-- The section of a file that can be read. -/
theorem providerSection_eq (h : Config.HasSection table stored) :
    Config.providerSection table = .ok (orDefaults stored) := by
  unfold Config.providerSection
  cases h with
  | absent h =>
    rw [h]
    rfl
  | @stored entries h =>
    rw [h]
    cases entries <;> rfl

theorem keyFor_of_names (h : names stored provider = true) :
    Config.keyFor env stored = .ok (env.apiKey provider.name) := by
  unfold names at h
  unfold Config.keyFor
  revert h
  cases (Keyed.get? stored "provider").getD (.str Provider.ollama.name) with
  | str name =>
    intro h
    rw [Option.some.inj (beq_iff_eq.1 h)]
  | null | bool | int | float | arr | obj => exact fun h => nomatch h

theorem succeeds_keyFor_iff : Succeeds (Config.keyFor env stored) ↔ ¬ IsUnreadable env stored := by
  unfold Config.keyFor IsUnreadable
  cases hname : Keyed.get? stored "provider" with
  | none => exact iff_of_true ⟨_, rfl⟩ (by simp)
  | some value =>
    rw [Option.getD_some]
    cases value with
    | arr | obj =>
      cases env.valueOf? Environment.commonKeyVariable with
      | none => exact iff_of_false (fun ⟨_, h⟩ => nomatch h) (by simp)
      | some key => exact iff_of_true ⟨key, rfl⟩ (by simp)
    | null | bool | int | float | str => exact iff_of_true ⟨_, rfl⟩ (by simp)

/-- A file is loaded with its section and the key in the environment. -/
theorem load_eq (hread : Config.read fs env = .ok table) (hsection : Config.HasSection table stored) :
    Config.load fs env =
      (Config.keyFor env (orDefaults stored)).map (withKey (orDefaults stored)) := by
  unfold Config.load
  rw [hread, ok_bind, providerSection_eq hsection, ok_bind]
  cases Config.keyFor env (orDefaults stored) <;> rfl

end Loading

/-! ## What is chosen -/

section Choosing

variable {fs : FileSystem} {env : Environment} {table : Toml.Table} {stored : Fields}
  {choice : Choice} {provider : Provider}

/-- The entries of an empty section are the defaults. -/
theorem settingsOf_orDefaults (h : names stored provider = true) :
    settingsOf env (orDefaults stored) choice provider = settingsOf env stored choice provider := by
  cases stored with
  | nil =>
    have hprovider : provider = .ollama := by cases provider <;> revert h <;> decide
    subst hprovider
    have hagain (value : Json) {text : String} (htext : (Json.str text).isTruthy = true) :
        firstTruthy [value, .str text] (.str text) = firstTruthy [value, .null] (.str text) := by
      rw [firstTruthy_cons, firstTruthy_cons, firstTruthy_cons, if_pos htext]
      rfl
    unfold settingsOf
    congr 1
    · exact hagain _ (show (Json.str Provider.ollama.model).isTruthy = true by decide)
    · exact hagain _ (show (Json.str "http://127.0.0.1:11434/api/chat").isTruthy = true by decide)
  | cons entry stored => rfl

/-- The service that is chosen with a section, whose entries count if it has the name of the provider. -/
theorem choose_eq (h : providerName stored choice = .ok provider.name) :
    ∃ service, choose env stored choice = .ok service ∧ service.provider = provider ∧
      let inherited := if names stored provider then stored else []
      service.target =
        { model := firstTruthy [.ofText? choice.model, entryOf inherited "model"] (.str provider.model)
          apiKey := firstTruthy [.ofText? choice.apiKey, entryOf inherited "api_key"]
            (.str (env.apiKey provider.name))
          endpoint := firstTruthy [.ofText? choice.endpoint, entryOf inherited "endpoint"]
            (.str (provider.endpoint?.getD "")) } := by
  unfold choose
  rw [h, ok_bind, ofName?_name]
  refine ⟨_, rfl, rfl, ?_⟩
  simp only [firstTruthy_text, names, beq_iff_eq]
  rfl

/-- A key from the environment comes before the one in a section. -/
theorem firstTruthy_withKey (value : Json) (provider : Provider) :
    firstTruthy [value, entryOf (withKey stored (env.apiKey provider.name)) "api_key"]
        (.str (env.apiKey provider.name)) =
      firstTruthy [value, .ofText? (env.valueOf? Environment.commonKeyVariable),
        .ofText? (provider.keyVariable?.bind env.valueOf?), entryOf stored "api_key"] (.str "") := by
  rw [firstTruthy_cons, firstTruthy_cons value, ← firstTruthy_apiKey]
  generalize env.apiKey provider.name = key
  by_cases hkey : key = ""
  · subst hkey
    rfl
  · have htruthy : (Json.str key).isTruthy = true := by simp [Json.isTruthy, hkey]
    have hentry : entryOf (withKey stored key) "api_key" = .str key := by
      rw [entryOf, withKey, if_neg (by simpa using hkey), Keyed.get?_put, if_pos rfl]
      rfl
    rw [hentry, firstTruthy_cons, firstTruthy_cons, if_pos htruthy, if_pos htruthy]

/-- A key from the environment is used without a section, too. -/
theorem firstTruthy_withoutSection (value : Json) (provider : Provider) :
    firstTruthy [value, .null] (.str (env.apiKey provider.name)) =
      firstTruthy [value, .ofText? (env.valueOf? Environment.commonKeyVariable),
        .ofText? (provider.keyVariable?.bind env.valueOf?), .null] (.str "") := by
  rw [firstTruthy_cons, firstTruthy_cons value, ← firstTruthy_apiKey, firstTruthy_cons (.str _)]
  by_cases hkey : env.apiKey provider.name = ""
  · rw [hkey]
    rfl
  · rw [if_pos (c := (Json.str _).isTruthy = true) (by simp [Json.isTruthy, hkey])]
    rfl

/-- What a client uses: of the section only if it has the name of the provider letter by letter. -/
theorem settingsOf_choose (h : providerName stored choice = .ok provider.name)
    {key : String} (hkey : Config.keyFor env (orDefaults stored) = .ok key) :
    ∃ service, choose env (withKey (orDefaults stored) key) choice = .ok service ∧
      service.provider = provider ∧
      service.target =
        settingsOf env (if names stored provider then stored else []) choice provider := by
  have hname : providerName (withKey (orDefaults stored) key) choice = .ok provider.name := by
    rw [providerName_withKey, providerName_orDefaults, h]
  obtain ⟨service, hservice, hprovider, htarget⟩ := @choose_eq env _ _ _ hname
  refine ⟨service, hservice, hprovider, htarget.trans ?_⟩
  rw [names_withKey, names_orDefaults]
  by_cases hnames : names stored provider = true
  · obtain rfl : key = env.apiKey provider.name := by
      rw [keyFor_of_names (names_orDefaults.trans hnames)] at hkey
      exact (Except.ok.inj hkey).symm
    rw [if_pos hnames, if_pos hnames, ← settingsOf_orDefaults hnames, firstTruthy_withKey, settingsOf]
    unfold entryOf
    rw [get?_withKey (by decide), get?_withKey (by decide)]
  · rw [if_neg hnames, if_neg hnames, settingsOf]
    exact congrArg (Target.mk _ · _) (firstTruthy_withoutSection _ provider)

variable (hread : Config.read fs env = .ok table) (hsection : Config.HasSection table stored)
  (hname : AsksFor stored choice provider.name)
include hread hsection hname

/-- A client is found unless the section cannot be read. -/
theorem ofSettings_cases :
    (IsUnreadable env stored ∧ ∀ service, ofSettings fs env choice ≠ .ok service) ∨
    (¬ IsUnreadable env stored ∧ ∃ service, ofSettings fs env choice = .ok service ∧
      service.provider = provider ∧
      service.target =
        settingsOf env (if names stored provider then stored else []) choice provider) := by
  have hloaded : ofSettings fs env choice = (Config.keyFor env (orDefaults stored)).map
      (withKey (orDefaults stored)) >>= fun loaded => choose env loaded choice := by
    rw [ofSettings, load_eq hread hsection]
  rw [hloaded, ← isUnreadable_orDefaults]
  have hsucceeds := @succeeds_keyFor_iff env (orDefaults stored)
  cases hkey : Config.keyFor env (orDefaults stored) with
  | error failure =>
    rw [hkey] at hsucceeds
    refine .inl ⟨?_, fun service h => nomatch h⟩
    by_contra hreadable
    obtain ⟨key, h⟩ := hsucceeds.2 hreadable
    exact nomatch h
  | ok key =>
    exact .inr ⟨hsucceeds.1 ⟨key, hkey⟩, settingsOf_choose (providerName_eq hname) hkey⟩

/-- A client has the settings that its caller may expect exactly if the section can be read and, if it is
meant for the provider, either has its name letter by letter or makes no difference. -/
theorem settings_chosen_iff :
    ((∃ service, ofSettings fs env choice = .ok service ∧ service.provider = provider ∧
        service.target =
          settingsOf env (if isFor stored provider then stored else []) choice provider) ↔
      ¬ IsUnreadable env stored ∧ (isFor stored provider = true → names stored provider = true ∨
        settingsOf env stored choice provider = settingsOf env [] choice provider)) ∧
    ∀ service, ofSettings fs env choice = .ok service → service.provider = provider ∧
      service.target =
        settingsOf env (if names stored provider then stored else []) choice provider := by
  obtain ⟨hunreadable, hnone⟩ | ⟨hreadable, service, hservice, hprovider, htarget⟩ :=
    ofSettings_cases hread hsection hname
  · refine ⟨iff_of_false ?_ fun h => h.1 hunreadable, fun service h => absurd h (hnone service)⟩
    exact fun ⟨service, h, _⟩ => hnone service h
  refine ⟨?_, fun other hother => ?_⟩
  · have hsame : service.target =
        settingsOf env (if isFor stored provider then stored else []) choice provider ↔
        (isFor stored provider = true → names stored provider = true ∨
          settingsOf env stored choice provider = settingsOf env [] choice provider) := by
      rw [htarget]
      by_cases hnames : names stored provider = true
      · simp [hnames, isFor_of_names hnames]
      · by_cases hfor : isFor stored provider = true
        · simp [hnames, hfor, eq_comm]
        · simp [hnames, hfor]
    rw [← hsame]
    constructor
    · rintro ⟨other, hother, -, hexpected⟩
      obtain rfl := Except.ok.inj (hservice.symm.trans hother)
      exact ⟨hreadable, hexpected⟩
    · exact fun h => ⟨service, hservice, hprovider, h.2⟩
  · obtain rfl := Except.ok.inj (hservice.symm.trans hother)
    exact ⟨hprovider, htarget⟩

end Choosing

/-! ## Settings files -/

section Files

/-- A file system with nothing but a settings file. -/
def withSettings (text : String) : FileSystem :=
  { entries := [(["config.toml"], .file (Utf8.encode text.toList))] }

theorem resolve_withSettings (text : String) :
    (withSettings text).resolve ({ home := "" } : Environment).configFile =
      .ok (["config.toml"], .file (Utf8.encode text.toList)) :=
  FileSystem.resolve_of_within 4 (by decide) rfl

theorem no_null_withSettings : ({ home := "" } : Environment).configFile.contains '\x00' = false := by
  rw [String.contains_char_eq, decide_eq_false_iff_not]
  decide

theorem isThere_withSettings (text : String) :
    (withSettings text).isThere ({ home := "" } : Environment).configFile = .ok true := by
  rw [FileSystem.isThere, FileSystem.probe, no_null_withSettings, if_neg Bool.false_ne_true,
    resolve_withSettings]

theorem readBytes_withSettings (text : String) :
    (withSettings text).readBytes ({ home := "" } : Environment).configFile =
      .ok (Utf8.encode text.toList) := by
  rw [FileSystem.readBytes, no_null_withSettings, if_neg Bool.false_ne_true, resolve_withSettings]

/-- A settings file that is malformed counts as empty. -/
theorem read_withSettings_eq (text : String) : Config.read (withSettings text) { home := "" } =
    match Toml.parse (String.ofList (Utf8.unifyLineEnds text.toList)) with
    | .ok table => .ok table
    | .error .malformed => .ok []
    | .error (.broken failure) => .error failure := by
  unfold Config.read
  rw [isThere_withSettings, ok_bind, readBytes_withSettings]
  dsimp only
  rw [if_neg (by decide), Utf8.decode?_encode]
  rfl

theorem read_withSettings {text : String} {table : Toml.Table}
    (h : Toml.parse (String.ofList (Utf8.unifyLineEnds text.toList)) = .ok table) :
    Config.read (withSettings text) { home := "" } = .ok table := by
  rw [read_withSettings_eq, h]

/-- A section without a name. -/
def unnamed : FileSystem := withSettings "[llm]\nmodel=\"m\""

theorem hasSection_unnamed :
    Config.HasSection [("llm", .table [("model", .text "m")])] [("model", .str "m")] :=
  @Config.HasSection.stored _ [("model", .text "m")] rfl

set_option maxRecDepth 5000 in
theorem read_unnamed :
    Config.read unnamed { home := "" } = .ok [("llm", .table [("model", .text "m")])] :=
  read_withSettings (by cbv)

theorem settings_chosen_unnamed :
    Config.read unnamed { home := "" } = .ok [("llm", .table [("model", .text "m")])] ∧
    AsksFor [("model", .str "m")] { provider := some "Ollama" } Provider.ollama.name ∧
    ∃ service, ofSettings unnamed { home := "" } { provider := some "Ollama" } = .ok service ∧
      service.provider = .ollama ∧ service.target.model = .str "m" := by
  have hname : AsksFor [("model", .str "m")] { provider := some "Ollama" } Provider.ollama.name :=
    @AsksFor.chosen _ _ "Ollama" rfl (by decide)
  refine ⟨read_unnamed, hname, ?_⟩
  obtain ⟨service, hservice, hprovider, htarget⟩ :=
    (settings_chosen_iff read_unnamed hasSection_unnamed hname).1.2
      ⟨fun h => h.2.elim nofun nofun, fun _ => .inl (by decide)⟩
  refine ⟨service, hservice, hprovider, ?_⟩
  rw [htarget]
  rfl

/-- A section that has the name of its provider in capitals. -/
def inCapitals : FileSystem := withSettings "[llm]\nprovider=\"Groq\"\nmodel=\"m\""

theorem hasSection_inCapitals :
    Config.HasSection [("llm", .table [("provider", .text "Groq"), ("model", .text "m")])]
      [("provider", .str "Groq"), ("model", .str "m")] :=
  @Config.HasSection.stored _ [("provider", .text "Groq"), ("model", .text "m")] rfl

set_option maxRecDepth 5000 in
theorem read_inCapitals :
    Config.read inCapitals { home := "" } =
      .ok [("llm", .table [("provider", .text "Groq"), ("model", .text "m")])] :=
  read_withSettings (by cbv)

/-- Not so in general: the section is meant for the provider, and its model is not asked. -/
theorem settings_not_chosen :
    ¬ ∀ (fs : FileSystem) (env : Environment) (table : Toml.Table) (stored : Fields) (choice : Choice)
        (provider : Provider), Config.read fs env = .ok table → Config.HasSection table stored →
      AsksFor stored choice provider.name → ∃ service, ofSettings fs env choice = .ok service ∧
        service.target = settingsOf env (if isFor stored provider then stored else []) choice provider := by
  intro h
  have hname : AsksFor [("provider", .str "Groq"), ("model", .str "m")] {} Provider.groq.name :=
    @AsksFor.stored _ _ "Groq" rfl rfl (by decide)
  obtain ⟨service, hservice, htarget⟩ := h _ _ _ _ _ .groq read_inCapitals hasSection_inCapitals hname
  obtain ⟨-, hnone⟩ | ⟨-, other, hother, -, hused⟩ :=
    ofSettings_cases read_inCapitals hasSection_inCapitals hname
  · exact hnone service hservice
  · obtain rfl := Except.ok.inj (hservice.symm.trans hother)
    have hmodel : Json.str "m" = Json.str "llama-3.3-70b-versatile" :=
      congrArg Target.model (htarget.symm.trans hused)
    exact absurd (Json.str.inj hmodel) (by decide)

end Files

end Service

end CodeReview
