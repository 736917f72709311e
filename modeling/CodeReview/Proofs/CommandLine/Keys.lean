import CodeReview.Proofs.CommandLine.Running
import CodeReview.Proofs.Config.Storing
import Mathlib

/-!
# Whose key is stored

The commands about the provider, carried out one after the other (`Invocation.leavesAll`), each with
variables of its own and with lines that are typed.

* `keys_given`: a key that is in the settings file was given by the user, and for the provider that is
  stored with it.
* Keys in the environment are not written: if they are there for the same providers, the files are the same.

`Origin` is what is known of the settings file after each command: it is empty, or holds what one request
stores about its provider, with no key or one that was given for that provider.
-/

namespace CodeReview

open Text CommandM

/-- A command about the provider. -/
inductive ProviderCommand
  | set (request : ProviderRequest)
  | unset (confirmed : Bool)
  | look

def ProviderCommand.toCommand : ProviderCommand → Command
  | set request => .setProvider request
  | unset confirmed => .unsetProvider confirmed
  | look => .showProvider

/-- A command about the provider, with the variables of its shell and what is typed while it runs. -/
structure Invocation where
  command : ProviderCommand
  shell : Keyed String := []
  typed : List String := []

namespace Invocation

/-- What surrounds an invocation. -/
def environment (env : Environment) (invocation : Invocation) : Environment :=
  { env with shellVariables := invocation.shell }

/-- The files that an invocation leaves. -/
def leaves (env : Environment) (connector : Connector) (fs : FileSystem) (invocation : Invocation) :
    FileSystem :=
  ((invocation.command.toCommand.run (invocation.environment env) connector).runFrom
    { fs, input := invocation.typed }).2.fs

/-- The files that invocations leave, one after the other. -/
def leavesAll (env : Environment) (connector : Connector) (fs : FileSystem)
    (invocations : List Invocation) : FileSystem :=
  invocations.foldl (leaves env connector) fs

/-- The provider is one that an invocation asks for. -/
def Requests (provider : Provider) (request : ProviderRequest) (invocation : Invocation) : Prop :=
  invocation.command = .set request ∧ request.provider? = some provider

/-- The user gives a key for a provider, with the request for it or by typing it. -/
def Gives (provider : Provider) (key : String) (invocation : Invocation) : Prop :=
  ∃ request, invocation.Requests provider request ∧ (request.key? = some key ∨
    request.key? = none ∧ (invocation.typed.find? fun line => !line.isEmpty) = some key)

/-- The same command with the same lines typed, where the environment has keys for the same providers. -/
structure Alike (env : Environment) (invocation other : Invocation) : Prop where
  command : other.command = invocation.command
  typed : other.typed = invocation.typed
  keys (provider : Provider) : ((other.environment env).apiKey provider.name).isEmpty =
    ((invocation.environment env).apiKey provider.name).isEmpty

/-- A key is empty, or was given for a provider. -/
def Known (invocations : List Invocation) (provider : Provider) (key : String) : Prop :=
  key = "" ∨ ∃ invocation ∈ invocations, invocation.Gives provider key

/-- Settings are empty or come from one of the requests. -/
inductive Origin (invocations : List Invocation) : Toml.Table → Prop
  | empty : Origin invocations []
  | request {provider : Provider} {request : ProviderRequest} {key : String}
    (hrequest : ∃ invocation ∈ invocations, invocation.Requests provider request)
    (hkey : Known invocations provider key) :
    Origin invocations [("llm", .table (request.toSection provider (.text key)))]

variable {fs later : FileSystem} {env : Environment} {connector : Connector} {table : Toml.Table}
  {invocation other : Invocation} {earlier invocations others : List Invocation}
  {provider : Provider} {request : ProviderRequest} {key : String}

/-! ## Keys in the environment -/

/-- Of the environment, a command asks only whether there is a key for its provider. -/
theorem keyToStore?_congr {env₁ env₂ : Environment}
    (h : (env₁.apiKey provider.name).isEmpty = (env₂.apiKey provider.name).isEmpty)
    (typed : List String) :
    request.keyToStore? provider env₁ table typed = request.keyToStore? provider env₂ table typed := by
  unfold ProviderRequest.keyToStore?
  rw [h]

theorem read_environment : Config.read fs (invocation.environment env) = Config.read fs env := rfl

theorem change_environment (f : Toml.Table → Toml.Table) :
    Config.change fs (invocation.environment env) f = Config.change fs env f := rfl

theorem leaves_set (h : invocation.command = .set request) (fs : FileSystem) :
    invocation.leaves env connector fs =
      request.leaves (invocation.environment env) fs invocation.typed := by
  unfold leaves
  rw [h]
  dsimp only [ProviderCommand.toCommand, Command.run]
  exact Command.fs_runSetProvider _ request { fs, input := invocation.typed }

theorem leaves_unset {confirmed : Bool} (h : invocation.command = .unset confirmed) (fs : FileSystem) :
    invocation.leaves env connector fs = fs ∨
      invocation.leaves env connector fs = (Config.change fs env (·.erase "llm")).2 := by
  unfold leaves
  rw [h, ← change_environment]
  dsimp only [ProviderCommand.toCommand, Command.run]
  exact Command.fs_runUnsetProvider _ confirmed { fs, input := invocation.typed }

theorem leaves_look (h : invocation.command = .look) (fs : FileSystem) :
    invocation.leaves env connector fs = fs := by
  unfold leaves
  rw [h]
  dsimp only [ProviderCommand.toCommand, Command.run]
  exact Command.keepsFiles_runShowProvider _ { fs, input := invocation.typed }

theorem Alike.leaves_eq (h : Alike env invocation other) (fs : FileSystem) :
    other.leaves env connector fs = invocation.leaves env connector fs := by
  cases hcommand : invocation.command with
  | set request =>
    have hsame (provider : Provider) (table : Toml.Table) :
        request.keyToStore? provider (other.environment env) table other.typed =
          request.keyToStore? provider (invocation.environment env) table invocation.typed := by
      rw [h.typed]
      exact keyToStore?_congr (h.keys provider) _
    rw [leaves_set hcommand, leaves_set (h.command.trans hcommand)]
    unfold ProviderRequest.leaves
    simp only [read_environment, change_environment, hsame]
  | unset confirmed =>
    unfold leaves
    rw [h.command, h.typed, hcommand]
    rfl
  | look => rw [leaves_look hcommand, leaves_look (h.command.trans hcommand)]

/-- Invocations that are alike leave the same files. -/
theorem leavesAll_eq (h : List.Forall₂ (Alike env) invocations others) (fs : FileSystem) :
    leavesAll env connector fs others = leavesAll env connector fs invocations := by
  unfold leavesAll
  induction h generalizing fs with
  | nil => rfl
  | cons hfirst _ ih =>
    rw [List.foldl_cons, List.foldl_cons, hfirst.leaves_eq]
    exact ih _

/-! ## Keys in the settings file -/

theorem Known.mono (h : Known earlier provider key) (invocation : Invocation) :
    Known (earlier ++ [invocation]) provider key := by
  refine h.imp_right fun ⟨giver, hgiver, hgives⟩ => ⟨giver, ?_, hgives⟩
  exact List.mem_append_left _ hgiver

theorem Origin.mono (h : Origin earlier table) (invocation : Invocation) :
    Origin (earlier ++ [invocation]) table := by
  cases h with
  | empty => exact .empty
  | request hrequest hkey =>
    obtain ⟨asker, hasker, hrequests⟩ := hrequest
    exact .request ⟨asker, List.mem_append_left _ hasker, hrequests⟩ (hkey.mono invocation)

theorem eq_of_name {asked : Provider} (h : asked.name = provider.name) : asked = provider := by
  cases asked <;> cases provider <;> first | rfl | exact absurd h (by decide)

/-- A section that a request stores names its provider, and has a key unless that is empty. -/
theorem get?_toSection (request : ProviderRequest) (provider : Provider) (key : Toml.Value) :
    Keyed.get? (request.toSection provider key) "provider" = some (.text provider.name) ∧
      Keyed.get? (request.toSection provider key) "api_key" = if key.isTruthy then some key else none := by
  unfold ProviderRequest.toSection Config.sectionFor
  generalize (request.endpoint.bind nonEmpty?).getD (provider.endpoint?.getD "") = endpoint
  refine ⟨rfl, ?_⟩
  cases key.isTruthy with
  | true => rfl
  | false => cases endpoint.isEmpty <;> rfl

/-- A key that is used again is the one that was given for the same provider. -/
theorem storedKey?_toSection (request : ProviderRequest) (asked provider : Provider) (key : Toml.Value) :
    Config.storedKey? provider.name [("llm", .table (request.toSection asked key))] =
      .ok (if asked.name == provider.name then
        (Keyed.get? (request.toSection asked key) "api_key").filter Toml.Value.isTruthy else none) := by
  have hstored : (Keyed.get? [("llm", Toml.Value.table (request.toSection asked key))] "llm").filter
      Toml.Value.isTruthy = some (.table (request.toSection asked key)) := rfl
  unfold Config.storedKey?
  rw [hstored]
  dsimp only
  rw [(get?_toSection request asked key).1]

theorem known_of_storedKey? (h : Origin earlier table) {value : Toml.Value}
    (hstored : Config.storedKey? provider.name table = .ok (some value)) :
    ∃ key, value = .text key ∧ Known earlier provider key := by
  cases h with
  | empty => cases hstored
  | @request asked request key _ hknown =>
    rw [storedKey?_toSection, (get?_toSection request asked (.text key)).2] at hstored
    have hfound := Except.ok.inj hstored
    split at hfound
    · next hsame =>
      obtain rfl := eq_of_name (beq_iff_eq.1 hsame)
      split at hfound
      · obtain ⟨hvalue, -⟩ := Option.filter_eq_some_iff.1 hfound
        exact ⟨key, (Option.some.inj hvalue).symm, hknown⟩
      · cases hfound
    · cases hfound

/-- A command comes to a key that is empty or given, be it before or now. -/
theorem known_of_keyToStore? (h : Origin earlier table) (hrequests : invocation.Requests provider request)
    {value : Toml.Value}
    (hkey : request.keyToStore? provider (invocation.environment env) table invocation.typed = some value) :
    ∃ key, value = .text key ∧ Known (earlier ++ [invocation]) provider key := by
  have hmem : invocation ∈ earlier ++ [invocation] := List.mem_append_right _ List.mem_cons_self
  unfold ProviderRequest.keyToStore? at hkey
  cases hgiven : request.key? with
  | some key =>
    rw [hgiven] at hkey
    exact ⟨key, (Option.some.inj hkey).symm, .inr ⟨invocation, hmem, request, hrequests, .inl hgiven⟩⟩
  | none =>
    rw [hgiven] at hkey
    dsimp only at hkey
    have hempty : some (Toml.Value.text "") = some value →
        ∃ key, value = .text key ∧ Known (earlier ++ [invocation]) provider key :=
      fun heq => ⟨"", (Option.some.inj heq).symm, .inl rfl⟩
    split at hkey
    · cases hstored : Config.storedKey? provider.name table with
      | error failure =>
        rw [hstored] at hkey
        exact nomatch hkey
      | ok stored =>
        rw [hstored] at hkey
        cases stored with
        | some before =>
          obtain rfl := Option.some.inj hkey
          obtain ⟨key, hvalue, hknown⟩ := known_of_storedKey? h hstored
          exact ⟨key, hvalue, hknown.mono invocation⟩
        | none =>
          dsimp only at hkey
          split at hkey
          · obtain ⟨key, htyped, hvalue⟩ := Option.map_eq_some_iff.1 hkey
            exact ⟨key, hvalue.symm, .inr ⟨invocation, hmem, request, hrequests, .inr ⟨hgiven, htyped⟩⟩⟩
          · exact hempty hkey
    · exact hempty hkey

/-- The settings file holds nothing or what comes from one of the requests. -/
def HoldsRequested (fs : FileSystem) (env : Environment) (invocations : List Invocation)
    (later : FileSystem) : Prop :=
  ∃ table, Config.Holding fs env table later ∧ Origin invocations table

theorem HoldsRequested.of_leaves_eq (h : HoldsRequested fs env earlier later)
    (heq : invocation.leaves env connector later = later) :
    HoldsRequested fs env (earlier ++ [invocation]) (invocation.leaves env connector later) := by
  obtain ⟨table, hholds, horigin⟩ := h
  rw [heq]
  exact ⟨table, hholds, horigin.mono invocation⟩

/-- Whatever table is written, the file holds it or was left as it is. -/
theorem holdsRequested_of_change (h : Config.Holding fs env table later) (horigin : Origin earlier table)
    {f : Toml.Table → Toml.Table} (hf : Origin (earlier ++ [invocation]) (f table))
    (hback : Toml.ReadsBack (f table))
    (heq : invocation.leaves env connector later = (Config.change later env f).2) :
    HoldsRequested fs env (earlier ++ [invocation]) (invocation.leaves env connector later) := by
  obtain hkept | hholds := h.change hback
  · exact HoldsRequested.of_leaves_eq ⟨table, h, horigin⟩ (heq.trans hkept)
  · rw [heq]
    exact ⟨f table, hholds, hf⟩

theorem Origin.put_llm (h : Origin earlier table) (entry : Toml.Value) :
    Keyed.put table "llm" entry = [("llm", entry)] := by
  cases h <;> rfl

theorem Origin.erase_llm (h : Origin earlier table) : Keyed.erase table "llm" = [] := by
  cases h <;> rfl

/-- After one more invocation the settings file still holds what comes from a request. -/
theorem HoldsRequested.leaves (h : HoldsRequested fs env earlier later)
    (hback : ∀ table, Origin (earlier ++ [invocation]) table → Toml.ReadsBack table) :
    HoldsRequested fs env (earlier ++ [invocation]) (invocation.leaves env connector later) := by
  have ⟨table, hholds, horigin⟩ := h
  cases hcommand : invocation.command with
  | set request =>
    have hleaves := @leaves_set env connector invocation request hcommand later
    unfold ProviderRequest.leaves at hleaves
    cases hprovider : request.provider? with
    | none =>
      rw [hprovider] at hleaves
      exact h.of_leaves_eq hleaves
    | some provider =>
      rw [hprovider, read_environment, hholds.read_eq] at hleaves
      dsimp only at hleaves
      cases hkey : request.keyToStore? provider (invocation.environment env) table invocation.typed with
      | none =>
        rw [hkey] at hleaves
        exact h.of_leaves_eq hleaves
      | some value =>
        rw [hkey] at hleaves
        obtain ⟨key, rfl, hknown⟩ := known_of_keyToStore? horigin ⟨hcommand, hprovider⟩ hkey
        have hnext : Origin (earlier ++ [invocation])
            (Keyed.put table "llm" (.table (request.toSection provider (.text key)))) := by
          rw [horigin.put_llm]
          exact .request ⟨invocation, List.mem_append_right _ List.mem_cons_self, hcommand, hprovider⟩
            hknown
        exact holdsRequested_of_change hholds horigin hnext (hback _ hnext) hleaves
  | unset confirmed =>
    obtain heq | heq := @leaves_unset env connector invocation confirmed hcommand later
    · exact h.of_leaves_eq heq
    · have hnext : Origin (earlier ++ [invocation]) (Keyed.erase table "llm") := by
        rw [horigin.erase_llm]
        exact .empty
      exact holdsRequested_of_change hholds horigin hnext (hback _ hnext) heq
  | look => exact h.of_leaves_eq (leaves_look hcommand later)

theorem holdsRequested_leavesAll (hfresh : Config.Fresh fs env)
    (hback : ∀ table, Origin invocations table → Toml.ReadsBack table) :
    HoldsRequested fs env invocations (leavesAll env connector fs invocations) := by
  induction invocations using List.reverseRecOn with
  | nil => exact ⟨[], .fresh hfresh, .empty⟩
  | append_singleton earlier invocation ih =>
    have h := ih fun table h => hback table (h.mono invocation)
    unfold leavesAll at h ⊢
    rw [List.foldl_append]
    exact h.leaves hback

/-- A stored key was given for the provider that it is stored with, if what is written for the requests is
read back. What the environment has for keys does not show in the files. -/
theorem keys_given (env : Environment) (connector : Connector) (fs : FileSystem)
    (invocations : List Invocation) :
    (Config.Fresh fs env → (∀ table, Origin invocations table → Toml.ReadsBack table) →
      ∃ table, Config.read (leavesAll env connector fs invocations) env = .ok table ∧
        ∀ entries value, Keyed.get? table "llm" = some (.table entries) →
          Keyed.get? entries "api_key" = some value → ∃ provider key,
            Keyed.get? entries "provider" = some (.text provider.name) ∧ value = .text key ∧
            ∃ invocation ∈ invocations, invocation.Gives provider key) ∧
    ∀ others, List.Forall₂ (Alike env) invocations others →
      leavesAll env connector fs others = leavesAll env connector fs invocations := by
  refine ⟨fun hfresh hback => ?_, fun others halike => leavesAll_eq halike fs⟩
  obtain ⟨table, hholds, horigin⟩ := @holdsRequested_leavesAll fs env connector invocations hfresh hback
  refine ⟨table, hholds.read_eq, fun entries value hsection hvalue => ?_⟩
  cases horigin with
  | empty => exact nomatch hsection
  | @request provider request key _ hknown =>
    obtain rfl := Toml.Value.table.inj (Option.some.inj hsection)
    obtain ⟨hname, hkey⟩ := get?_toSection request provider (.text key)
    rw [hkey] at hvalue
    split at hvalue
    · next htruthy =>
      refine ⟨provider, key, hname, (Option.some.inj hvalue).symm, hknown.resolve_left ?_⟩
      rintro rfl
      exact nomatch htruthy
    · exact nomatch hvalue

/-! ## Two requests -/

/-- A home without a settings file. -/
def emptyHome : FileSystem := { entries := [(["h"], .folder)] }

theorem resolve_emptyHome : emptyHome.resolve (Path.tidy "/h") = .ok (["h"], .folder) ∧
    emptyHome.resolve "/h/config.toml" = .error .notFound := by
  constructor <;> exact FileSystem.resolve_of_within 4 (by decide) (by decide)

theorem makeable_emptyHome : Config.Makeable emptyHome { home := "/h" } emptyHome ["h"] where
  tidy := by decide
  isUnder := by decide
  admits :=
    { made := FileSystem.makeFolders_of_folder resolve_emptyHome.1
      leads := resolve_emptyHome.1
      isName := by decide
      new := by decide
      short := by decide
      no_null := by
        have hunder : Path.under "/h" Config.fileName = "/h/config.toml" := by decide
        rw [hunder]
        cbv }

theorem fresh_emptyHome : Config.Fresh emptyHome { home := "/h" } where
  absent := by
    change emptyHome.isThere "/h/config.toml" = _
    rw [FileSystem.isThere, FileSystem.probe, if_neg (by cbv; decide), resolve_emptyHome.2]
    rfl
  decided := .inl ⟨emptyHome, ["h"], makeable_emptyHome⟩

/-- A request with a key, and one without it in a shell that has one. -/
def twoRequests (key : String) : List Invocation :=
  [{ command := .set { provider := "Gemini", model := some "m", apiKey := some "k" } },
   { command := .set { provider := "gemini", model := some "m" }, shell := [("GEMINI_API_KEY", key)] }]

theorem readsBack_empty : Toml.ReadsBack [] := ⟨"", by cbv, by cbv⟩

set_option maxRecDepth 20000 in
theorem readsBack_without_key :
    Toml.ReadsBack [("llm", .table [("provider", .text "gemini"), ("model", .text "m")])] :=
  ⟨"[llm]\nprovider = \"gemini\"\nmodel = \"m\"\n", ok_of_toOption (by decide +kernel), by cbv⟩

set_option maxRecDepth 20000 in
theorem readsBack_with_key :
    Toml.ReadsBack
      [("llm", .table [("provider", .text "gemini"), ("model", .text "m"), ("api_key", .text "k")])] :=
  ⟨"[llm]\nprovider = \"gemini\"\nmodel = \"m\"\napi_key = \"k\"\n", ok_of_toOption (by decide +kernel),
    by cbv⟩

/-- The key that the first request gives is the only one. -/
theorem eq_of_gives {value key : String} {provider : Provider}
    (h : ∃ invocation ∈ twoRequests value, invocation.Gives provider key) : key = "k" := by
  obtain ⟨invocation, hmem, request, ⟨hcommand, -⟩, hgives⟩ := h
  simp only [twoRequests, List.mem_cons, List.not_mem_nil, or_false] at hmem
  obtain rfl | rfl := hmem
  · obtain rfl := ProviderCommand.set.inj hcommand
    obtain hkey | ⟨hnone, -⟩ := hgives
    · exact (Option.some.inj hkey).symm
    · exact nomatch hnone
  · obtain rfl := ProviderCommand.set.inj hcommand
    obtain hkey | ⟨-, htyped⟩ := hgives
    · exact nomatch hkey
    · exact nomatch htyped

theorem toSection_of_requests {value : String} {provider : Provider} {request : ProviderRequest}
    (h : ∃ invocation ∈ twoRequests value, invocation.Requests provider request) (key : Toml.Value) :
    request.toSection provider key = Config.sectionFor "gemini" "m" key "" := by
  obtain ⟨invocation, hmem, hcommand, hprovider⟩ := h
  simp only [twoRequests, List.mem_cons, List.not_mem_nil, or_false] at hmem
  have hgemini (request : ProviderRequest) (hname : trim (lowercase request.provider) = "gemini")
      (h : request.provider? = some provider) : provider = .gemini := by
    rw [ProviderRequest.provider?, hname] at h
    exact (Option.some.inj h).symm
  obtain rfl | rfl := hmem
  · obtain rfl := ProviderCommand.set.inj hcommand
    obtain rfl := hgemini _ (by decide) hprovider
    rfl
  · obtain rfl := ProviderCommand.set.inj hcommand
    obtain rfl := hgemini _ (by decide) hprovider
    rfl

theorem readsBack_of_origin {value : String} (h : Origin (twoRequests value) table) :
    Toml.ReadsBack table := by
  cases h with
  | empty => exact readsBack_empty
  | request hrequest hknown =>
    rw [toSection_of_requests hrequest]
    obtain rfl | hgiven := hknown
    · exact readsBack_without_key
    · obtain rfl := eq_of_gives hgiven
      exact readsBack_with_key

theorem keys_given_gemini :
    Config.Fresh emptyHome { home := "/h" } ∧
    (∀ table, Origin (twoRequests "a") table → Toml.ReadsBack table) ∧
    List.Forall₂ (Alike { home := "/h" }) (twoRequests "a") (twoRequests "b") ∧
    ∀ connector : Connector,
      (∃ table, Config.read (leavesAll { home := "/h" } connector emptyHome (twoRequests "a"))
          { home := "/h" } = .ok table) ∧
      leavesAll { home := "/h" } connector emptyHome (twoRequests "b") =
        leavesAll { home := "/h" } connector emptyHome (twoRequests "a") := by
  have hback : ∀ table, Origin (twoRequests "a") table → Toml.ReadsBack table :=
    fun table h => readsBack_of_origin h
  have halike : List.Forall₂ (Alike { home := "/h" }) (twoRequests "a") (twoRequests "b") :=
    .cons ⟨rfl, rfl, fun _ => rfl⟩ (.cons ⟨rfl, rfl, fun provider => by cases provider <;> decide⟩ .nil)
  refine ⟨fresh_emptyHome, hback, halike, fun connector => ?_⟩
  obtain ⟨hgiven, hsame⟩ := keys_given { home := "/h" } connector emptyHome (twoRequests "a")
  obtain ⟨table, hread, -⟩ := hgiven fresh_emptyHome hback
  exact ⟨⟨table, hread⟩, hsame _ halike⟩

end Invocation

end CodeReview
