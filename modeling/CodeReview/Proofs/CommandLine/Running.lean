import CodeReview.CommandLine.Run

/-!
# What the commands about the provider leave

* `CommandM.runFrom`: what a command comes to with a console, and the console that it leaves. There is one
  lemma for each way of building a command.
* `CommandM.KeepsFiles`: a command leaves the files as they are, which all do that only read and write on
  the console.
* `fs_runSetProvider`, `fs_runUnsetProvider`, `keepsFiles_runShowProvider`: the files that the commands about
  the provider leave.
-/

namespace CodeReview

open Text

namespace CommandM

variable {α β : Type} {console : Console}

/-! ## Ways of building a command -/

/-- What a command comes to, and the console after it. -/
def runFrom (command : CommandM α) (console : Console) : Except Stop α × Console :=
  command.run.run console

@[simp] theorem runFrom_pure (a : α) (console : Console) :
    (pure a : CommandM α).runFrom console = (.ok a, console) := rfl

@[simp] theorem runFrom_throw (stop : Stop) (console : Console) :
    (throw stop : CommandM α).runFrom console = (.error stop, console) := rfl

@[simp] theorem runFrom_get (console : Console) :
    (get : CommandM Console).runFrom console = (.ok console, console) := rfl

@[simp] theorem runFrom_modify (f : Console → Console) (console : Console) :
    (modify f : CommandM PUnit).runFrom console = (.ok ⟨⟩, f console) := rfl

@[simp] theorem runFrom_lift (result : Except Failure α) (console : Console) :
    (lift result).runFrom console = (result.mapError .failed, console) := rfl

theorem runFrom_bind (command : CommandM α) (next : α → CommandM β) (console : Console) :
    (command >>= next).runFrom console = match command.runFrom console with
      | (.ok a, later) => (next a).runFrom later
      | (.error stop, later) => (.error stop, later) := by
  unfold runFrom
  rw [ExceptT.run_bind, StateT.run_bind]
  cases command.run.run console with
  | mk result later => cases result <;> rfl

theorem runFrom_bind_of_ok {command : CommandM α} {later : Console} {a : α}
    (h : command.runFrom console = (.ok a, later)) (next : α → CommandM β) :
    (command >>= next).runFrom console = (next a).runFrom later := by
  rw [runFrom_bind, h]

theorem runFrom_bind_of_error {command : CommandM α} {later : Console} {stop : Stop}
    (h : command.runFrom console = (.error stop, later)) (next : α → CommandM β) :
    (command >>= next).runFrom console = (.error stop, later) := by
  rw [runFrom_bind, h]

/-! ## Files that are kept -/

/-- Whatever the command comes to, the files are as before. -/
def KeepsFiles (command : CommandM α) : Prop :=
  ∀ console, (command.runFrom console).2.fs = console.fs

theorem keepsFiles_pure (a : α) : KeepsFiles (pure a) := fun _ => rfl

theorem keepsFiles_throw (stop : Stop) : KeepsFiles (throw stop : CommandM α) := fun _ => rfl

theorem keepsFiles_get : KeepsFiles get := fun _ => rfl

theorem keepsFiles_lift (result : Except Failure α) : KeepsFiles (lift result) := fun _ => rfl

theorem keepsFiles_write (text : String) : KeepsFiles (write text) := fun _ => rfl

theorem keepsFiles_echo (line : String) : KeepsFiles (echo line) := fun _ => rfl

theorem keepsFiles_complain (line : String) : KeepsFiles (complain line) := fun _ => rfl

/-- After the command, commands that keep the files change nothing more. -/
theorem fs_bind {command : CommandM α} {next : α → CommandM β} (h : ∀ a, KeepsFiles (next a))
    (console : Console) : ((command >>= next).runFrom console).2.fs = (command.runFrom console).2.fs := by
  rw [runFrom_bind]
  cases command.runFrom console with
  | mk result later =>
    cases result with
    | ok a => exact h a later
    | error stop => rfl

theorem KeepsFiles.bind {command : CommandM α} {next : α → CommandM β} (h : KeepsFiles command)
    (hnext : ∀ a, KeepsFiles (next a)) : KeepsFiles (command >>= next) := fun console =>
  (fs_bind hnext console).trans (h console)

/-! ## Answers -/

/-- The answer that is not shown is the first line with something in it. -/
theorem runFrom_readSecret (question : String) (lines : List String) (console : Console) :
    ∃ later, later.fs = console.fs ∧ (readSecret question lines).runFrom console =
      ((match lines.find? fun line => !line.isEmpty with
        | some answer => .ok answer
        | none => .error (.exit 1)), later) := by
  induction lines generalizing console with
  | nil => exact ⟨((readSecret question []).runFrom console).2, rfl, rfl⟩
  | cons line lines ih =>
    cases hline : line.isEmpty with
    | true =>
      obtain ⟨later, hfs, hlater⟩ := ih { console with out := console.out ++ (question ++ ": \n") }
      refine ⟨later, hfs, ?_⟩
      rw [List.find?_cons_of_neg (by simp [hline]), ← hlater, readSecret, hline]
      rfl
    | false =>
      refine ⟨{ console with out := console.out ++ (question ++ ": \n"), input := lines }, rfl, ?_⟩
      rw [List.find?_cons_of_pos (by simp [hline]), readSecret, hline]
      rfl

theorem keepsFiles_readConsent (question : String) (lines : List String) :
    KeepsFiles (readConsent question lines) := by
  induction lines with
  | nil => exact fun _ => rfl
  | cons line lines ih =>
    refine (keepsFiles_write _).bind fun _ => ?_
    refine KeepsFiles.bind (fun _ => rfl) fun _ => ?_
    dsimp only
    split
    · exact keepsFiles_pure true
    · split
      · exact keepsFiles_pure false
      · exact (keepsFiles_echo _).bind fun _ => ih

theorem keepsFiles_askConsent (question : String) : KeepsFiles (askConsent question) :=
  keepsFiles_get.bind fun console => keepsFiles_readConsent question console.input

end CommandM

namespace ProviderRequest

/-- The provider that is asked for; its name may stand in capitals and between blanks. -/
def provider? (request : ProviderRequest) : Option Provider :=
  Provider.ofName? (trim (lowercase request.provider))

/-- The key that is given with the request. -/
def key? (request : ProviderRequest) : Option String := request.apiKey.bind nonEmpty?

/-- What a request stores about its provider with a key. -/
def toSection (request : ProviderRequest) (provider : Provider) (key : Toml.Value) : Toml.Table :=
  Config.sectionFor provider.name ((request.model.bind nonEmpty?).getD provider.model) key
    ((request.endpoint.bind nonEmpty?).getD (provider.endpoint?.getD ""))

/-- The key that is stored with the provider of a request, unless the command ends before. -/
def keyToStore? (request : ProviderRequest) (provider : Provider) (env : Environment) (table : Toml.Table)
    (typed : List String) : Option Toml.Value :=
  match request.key? with
  | some key => some (.text key)
  | none =>
    if provider.needsKey then
      match Config.storedKey? provider.name table with
      | .error _ => none
      | .ok (some key) => some key
      | .ok none =>
        if (env.apiKey provider.name).isEmpty then (typed.find? fun line => !line.isEmpty).map .text
        else some (.text "")
    else some (.text "")

/-- The files that a request leaves: they change if its provider is known, the settings file can be read,
and there is a key to store. -/
def leaves (request : ProviderRequest) (env : Environment) (fs : FileSystem) (typed : List String) :
    FileSystem :=
  match request.provider? with
  | none => fs
  | some provider =>
    match Config.read fs env with
    | .error _ => fs
    | .ok table =>
      match request.keyToStore? provider env table typed with
      | none => fs
      | some key => (Config.change fs env (·.put "llm" (.table (request.toSection provider key)))).2

end ProviderRequest

namespace Command

open CommandM

variable {env : Environment} {console : Console} {provider : Provider} {table : Toml.Table}

/-! ## Commands about the provider -/

/-- What a change of the settings file leaves. -/
theorem fs_changeConfig (complaint : String) (change : FileSystem → Except Failure Bool × FileSystem)
    (console : Console) :
    ((changeConfig complaint change).runFrom console).2.fs = (change console.fs).2 := by
  have hkeeps (result : Except Failure Bool) :
      KeepsFiles (lift result >>= fun changed => if !changed then fail complaint else pure ()) := by
    refine (keepsFiles_lift result).bind fun changed => ?_
    split
    · exact (keepsFiles_complain _).bind fun _ => keepsFiles_throw _
    · exact keepsFiles_pure ()
  exact hkeeps (change console.fs).1 { console with fs := (change console.fs).2 }

/-- A provider that needs a key gets the one that is stored, none if the environment has one, or the one
that is typed. -/
theorem runFrom_keyFor (request : ProviderRequest) (hkey : request.key? = none)
    (hneeds : provider.needsKey = true) :
    ∃ result later, later.fs = console.fs ∧ (keyFor env provider table).runFrom console = (result, later) ∧
      result.toOption = request.keyToStore? provider env table console.input := by
  unfold keyFor ProviderRequest.keyToStore?
  rw [hkey, if_pos hneeds]
  cases hstored : Config.storedKey? provider.name table with
  | error failure => exact ⟨.error (.failed failure), console, rfl, rfl, rfl⟩
  | ok stored =>
    cases stored with
    | some key =>
      let later := ((inform ("Reusing existing API key for " ++ provider.name)).runFrom console).2
      exact ⟨.ok key, later, rfl, rfl, rfl⟩
    | none =>
      rw [runFrom_bind_of_ok (runFrom_lift _ console)]
      dsimp only
      by_cases hempty : (env.apiKey provider.name).isEmpty = true
      · rw [if_pos hempty, if_pos hempty]
        obtain ⟨later, hfs, hasked⟩ :=
          runFrom_readSecret s!"Enter your {provider.name} API key" console.input console
        cases hanswer : console.input.find? fun line => !line.isEmpty with
        | none =>
          rw [hanswer] at hasked
          exact ⟨.error (.exit 1), later, hfs, runFrom_bind_of_error hasked _, rfl⟩
        | some answer =>
          rw [hanswer] at hasked
          exact ⟨.ok (.text answer), later, hfs, runFrom_bind_of_ok hasked _, rfl⟩
      · rw [if_neg hempty, if_neg hempty]
        let later := ((inform (s!"Using the API key from the environment ({Environment.commonKeyVariable} or " ++
          provider.keyVariable?.getD Environment.commonKeyVariable ++ ")")).runFrom console).2
        exact ⟨.ok (.text ""), later, rfl, rfl, rfl⟩

/-- What is said after a change does not touch the files. -/
theorem fs_save (env : Environment) (provider : Provider) (model endpoint : String) (key : Toml.Value)
    (console : Console) :
    ((do
      changeConfig "Failed to save configuration!" fun fs =>
        Config.save fs env provider.name model key endpoint
      succeed ("LLM provider set to: " ++ provider.name)
      echo ("  Provider: " ++ provider.name)
      echo ("  Model:    " ++ model)
      if !endpoint.isEmpty then echo ("  Endpoint: " ++ endpoint) : CommandM Unit).runFrom console).2.fs =
      (Config.save console.fs env provider.name model key endpoint).2 := by
  refine (fs_bind (fun _ => ?_) console).trans (fs_changeConfig _ _ console)
  refine (keepsFiles_echo _).bind fun _ => (keepsFiles_echo _).bind fun _ => (keepsFiles_echo _).bind fun _ => ?_
  split
  · exact keepsFiles_echo _
  · exact keepsFiles_pure _

theorem fs_runSetProvider (env : Environment) (request : ProviderRequest) (console : Console) :
    ((runSetProvider env request).runFrom console).2.fs = request.leaves env console.fs console.input := by
  unfold runSetProvider ProviderRequest.leaves ProviderRequest.provider?
  dsimp only
  cases Provider.ofName? (trim (lowercase request.provider)) with
  | none => rfl
  | some provider =>
    dsimp only
    rw [runFrom_bind_of_ok (runFrom_get console)]
    cases Config.read console.fs env with
    | error failure => rfl
    | ok table =>
      dsimp only
      rw [runFrom_bind_of_ok (runFrom_lift _ console)]
      cases hkey : request.apiKey.bind nonEmpty? with
      | some key =>
        rw [ProviderRequest.keyToStore?, ProviderRequest.key?, hkey]
        exact fs_save env provider _ _ (.text key) console
      | none =>
        dsimp only
        by_cases hneeds : provider.needsKey = true
        · obtain ⟨result, later, hfs, hrun, hresult⟩ :=
            @runFrom_keyFor env console provider table request hkey hneeds
          rw [if_pos hneeds, ← hresult, ← hfs]
          cases result with
          | error stop => rw [runFrom_bind_of_error hrun]; rfl
          | ok key =>
            rw [runFrom_bind_of_ok hrun]
            exact fs_save env provider _ _ key later
        · rw [if_neg hneeds, ProviderRequest.keyToStore?, ProviderRequest.key?, hkey]
          dsimp only
          rw [if_neg hneeds]
          exact fs_save env provider _ _ (.text "") console

theorem fs_clear (env : Environment) (agreed : Bool) (console : Console) :
    ((if agreed then do
        changeConfig "Failed to update configuration!" fun fs => Config.clear fs env
        succeed "LLM configuration removed; Ollama defaults apply."
      else inform "Cancelled." : CommandM Unit).runFrom console).2.fs =
      if agreed then (Config.change console.fs env (·.erase "llm")).2 else console.fs := by
  cases agreed with
  | false => rfl
  | true => exact (fs_bind (fun _ => keepsFiles_echo _) console).trans (fs_changeConfig _ _ console)

/-- What is stored about a provider is removed, or the files are left as they are. -/
theorem fs_runUnsetProvider (env : Environment) (confirmed : Bool) (console : Console) :
    ((runUnsetProvider env confirmed).runFrom console).2.fs = console.fs ∨
      ((runUnsetProvider env confirmed).runFrom console).2.fs =
        (Config.change console.fs env (·.erase "llm")).2 := by
  unfold runUnsetProvider
  rw [runFrom_bind_of_ok (runFrom_get console)]
  cases console.fs.isThere env.configFile with
  | error failure => exact .inl rfl
  | ok there =>
    rw [runFrom_bind_of_ok (runFrom_lift _ console)]
    cases there with
    | false => exact .inl rfl
    | true =>
      cases confirmed with
      | true => exact .inr (fs_clear env true console)
      | false =>
        have hasked := keepsFiles_askConsent "Remove the stored LLM configuration?" console
        change ((askConsent _ >>= fun agreed => _).runFrom console).2.fs = _ ∨
          ((askConsent _ >>= fun agreed => _).runFrom console).2.fs = _
        rw [runFrom_bind]
        cases hrun : (askConsent "Remove the stored LLM configuration?").runFrom console with
        | mk result later =>
          rw [hrun] at hasked
          cases result with
          | error stop => exact .inl hasked
          | ok agreed =>
            have hafter := fs_clear env agreed later
            rw [hasked] at hafter
            cases agreed with
            | false => exact .inl hafter
            | true => exact .inr hafter

theorem keepsFiles_runShowProvider (env : Environment) : KeepsFiles (runShowProvider env) := by
  unfold runShowProvider
  refine keepsFiles_get.bind fun console => (keepsFiles_lift _).bind fun stored => ?_
  have hkey (key : Json) : KeepsFiles (if key.isTruthy then do
        echo ("  API Key   " ++ (← lift (maskValue key)))
        echo ("  Config    " ++ env.configFile)
      else do
        echo "  API Key   (not set)"
        echo ("  Config    " ++ env.configFile)) := by
    split
    · exact (keepsFiles_lift _).bind fun _ => (keepsFiles_echo _).bind fun _ => keepsFiles_echo _
    · exact (keepsFiles_echo _).bind fun _ => keepsFiles_echo _
  dsimp only
  -- Whether the section names its provider or not, what follows is the same.
  split
  all_goals
    refine KeepsFiles.bind (fun _ => rfl) fun _ => (keepsFiles_echo _).bind fun _ => ?_
    split
    · exact (keepsFiles_echo _).bind fun _ => hkey _
    · exact hkey _

end Command

end CodeReview
