import CodeReview.Proofs.Evaluation.Invariants
import CodeReview.Proofs.Evaluation.Isolation
import CodeReview.Proofs.FileSystem.Filling
import CodeReview.Proofs.Response.Exact
import CodeReview.Proofs.Text.Utf8

/-!
# Saved evaluations

* `savedIn`: what a batch has to save, in order.
* `triple_evaluateAll_saved`: a batch changes the files by what it saves and by nothing else, however it
  goes on, and all of that can be written and read again.
* `dumped?_savedAll`: a file of saved evaluations holds the one that was saved last under its name.
* `dispatch_dumps`: every file finds its own evaluation again exactly if files with one name for what is
  saved of them have the same evaluation.
* `agreesByName_of_no_lowLine`: among paths without a low line no two files have one name.
-/

namespace CodeReview

open ReviewM Text

/-! ## Names -/

theorem dumpName_eq_iff {path other : String} :
    dumpName path = dumpName other ↔ replaceChar '/' '_' path = replaceChar '/' '_' other := by
  rw [dumpName, dumpName, String.append_left_inj]

/-- Two paths have one name only if there is a low line in one of them. -/
theorem eq_of_dumpName_eq {path other : String} (hpath : '_' ∉ path.toList) (hother : '_' ∉ other.toList)
    (h : dumpName path = dumpName other) : path = other := by
  have hchars := congrArg String.toList (dumpName_eq_iff.1 h)
  rw [replaceChar, replaceChar, onChars, onChars, String.toList_ofList, String.toList_ofList] at hchars
  have hback (text : List Char) (htext : '_' ∉ text) :
      (text.map fun c => if c == '/' then '_' else c).map (fun c => if c == '_' then '/' else c) = text := by
    rw [List.map_map]
    refine (List.map_congr_left fun c hc => ?_).trans (List.map_id text)
    have hne : c ≠ '_' := ne_of_mem_of_not_mem hc htext
    by_cases hslash : c = '/'
    · simp [hslash]
    · simp [hslash, hne]
  exact String.toList_injective ((hback _ hpath).symm.trans ((congrArg _ hchars).trans (hback _ hother)))

namespace Evaluation

/-- What was read out of the response about a file, if its evaluation has come to that. -/
def parsed? : Evaluation → Option Fields
  | done outcome => outcome.findings.parsed
  | _ => none

end Evaluation

/-- What a batch has to save, in order. -/
def savedIn (evaluations : Keyed Evaluation) : List (String × Fields) :=
  evaluations.flatMap fun (path, evaluation) => evaluation.parsed?.toList.map (path, ·)

theorem savedIn_append (evaluations others : Keyed Evaluation) :
    savedIn (evaluations ++ others) = savedIn evaluations ++ savedIn others :=
  List.flatMap_append

theorem mem_savedIn {evaluations : Keyed Evaluation} {save : String × Fields} :
    save ∈ savedIn evaluations ↔
      ∃ evaluation, (save.1, evaluation) ∈ evaluations ∧ evaluation.parsed? = some save.2 := by
  obtain ⟨path, fields⟩ := save
  simp only [savedIn, List.mem_flatMap, List.mem_map, Option.mem_toList, Prod.mk.injEq, Prod.exists]
  constructor
  · rintro ⟨path', evaluation, hmem, fields', hfields, rfl, rfl⟩
    exact ⟨evaluation, hmem, hfields⟩
  · rintro ⟨evaluation, hmem, hfields⟩
    exact ⟨path, evaluation, hmem, fields, hfields, rfl, rfl⟩

/-- What an outcome keeps of its response can be written and read again. -/
def Outcome.IsExact (outcome : Outcome) : Prop :=
  ∀ fields, outcome.findings.parsed = some fields → Json.Exact (.obj fields)

namespace Evaluator

variable {evaluator : Evaluator} {fs : FileSystem}

/-! ## What a batch does to files -/

theorem preserves_purchase_fs (late : Bool) (path prompt : String) :
    Preserves (·.fs = fs) (evaluator.purchase late path prompt) := by
  rw [purchase]
  refine Triple.bind (Q := fun _ s => s.fs = fs) (triple_pay (fun _ _ _ h _ => h) fun _ _ _ h _ => h)
    fun _ => ?_
  refine preserves_checkpoint.bind fun _ => ?_
  cases late with
  | false => exact triple_ask_of_log fun _ => id
  | true =>
    exact Triple.bind (Q := fun _ s => s.fs = fs) (triple_modify fun _ => id) fun _ =>
      triple_ask_of_log fun _ => id

theorem triple_read_saved (node : Node) (response : String) :
    Triple (·.fs = fs) (evaluator.read node response)
      (fun outcome s => s.fs = evaluator.filed fs outcome ∧ outcome.path = node.path ∧ outcome.IsExact)
      fun _ s => s.fs = fs := by
  rw [read]
  refine preserves_checkpoint.bind fun _ => ?_
  refine Triple.bind (Q := fun outcome s => s.fs = fs ∧ outcome.path = node.path ∧ outcome.IsExact)
    (triple_lift (fun outcome houtcome s h => ⟨h, path_of_outcome houtcome, fun fields hfields =>
      Response.exact_of_outcome houtcome hfields⟩) fun _ _ _ => id) fun outcome => ?_
  refine Triple.bind
    (Q := fun _ s => s.fs = evaluator.filed fs outcome ∧ outcome.path = node.path ∧ outcome.IsExact)
    ?_ fun _ => triple_pure fun _ => id
  rintro session ⟨hfs, hpath, hexact⟩
  obtain ⟨later, hkeep, hlater, -⟩ := evaluator.runFrom_keep node outcome hpath session
  rw [hkeep, hlater]
  exact ⟨congrArg (evaluator.filed · outcome) hfs, hpath, hexact⟩

/-- An evaluation changes the files by what is saved of its outcome. One that fails changes nothing. -/
theorem triple_evaluate_saved (late : Bool) (node : Node) :
    Triple (·.fs = fs) (evaluator.evaluate (if late then some .asking else none) node)
      (fun outcome s => s.fs = evaluator.filed fs outcome ∧ outcome.path = node.path ∧ outcome.IsExact)
      fun _ s => s.fs = fs := by
  have hload : Preserves (·.fs = fs) (ReviewM.load evaluator.root node) := by
    intro session hsession
    rw [runFrom_load]
    cases (session.known node).load session.fs evaluator.root with
    | ok loaded => exact hsession
    | error failure => exact hsession
  rw [evaluate_eq]
  refine hload.bind fun content => ?_
  refine preserves_checkpoint.bind fun _ => ?_
  exact (preserves_purchase_fs late node.path _).bind fun response => triple_read_saved node response

theorem triple_contained_saved (isLate : String → Bool) (node : Node) :
    Triple (·.fs = fs) (evaluator.contained isLate node)
      (fun outcome s => s.fs = evaluator.filed fs outcome ∧ outcome.path = node.path ∧ outcome.IsExact)
      fun _ _ => False := by
  intro session hsession
  have hevaluate := @triple_evaluate_saved evaluator fs (isLate node.path) node session hsession
  rw [runFrom_contained]
  split at hevaluate
  · next heq => rw [heq]; exact hevaluate
  · next heq => rw [heq]; exact ⟨hevaluate, rfl, nofun⟩

/-- A batch changes the files by what it saves, one after the other. -/
theorem triple_evaluateAll_saved (isLate : String → Bool) (nodes : List Node)
    (saves : List (String × Fields)) :
    Triple (·.fs = evaluator.savedAll fs saves) (evaluator.evaluateAll isLate nodes)
      (fun pairs s => s.fs = evaluator.savedAll fs (saves ++ savedIn pairs) ∧
        pairs.map (·.1) = nodes.map (·.path) ∧ ∀ save ∈ savedIn pairs, Json.Exact (.obj save.2))
      fun _ _ => False := by
  induction nodes generalizing saves with
  | nil => exact triple_pure fun s hs => ⟨by rw [hs, savedIn, List.flatMap_nil, List.append_nil], rfl, nofun⟩
  | cons node nodes ih =>
    rw [evaluateAll]
    refine (triple_contained_saved isLate node).bind fun outcome => triple_get ?_
    rintro session ⟨hfs, hpath, hexact⟩
    have hsaves : outcome.saves = savedIn [(node.path, .done outcome)] := by
      rw [Outcome.saves, hpath]
      exact (List.append_nil _).symm
    rw [filed_savedAll, hsaves] at hfs
    have hown : ∀ save ∈ savedIn [(node.path, .done outcome)], Json.Exact (.obj save.2) := by
      intro save hsave
      obtain ⟨evaluation, hmem, hfields⟩ := mem_savedIn.1 hsave
      obtain ⟨-, rfl⟩ := Prod.mk.inj (List.mem_singleton.1 hmem)
      exact hexact _ hfields
    split
    · refine Triple.bind (Q := fun _ s => s.fs = session.fs) (triple_modify fun s hs => by rw [← hs])
        fun _ => triple_pure fun s hs => ?_
      have hcancelled : savedIn (nodes.map fun node => (node.path, Evaluation.cancelled)) = [] :=
        List.flatMap_eq_nil_iff.2 (List.forall_mem_map.2 fun _ _ => rfl)
      rw [← List.singleton_append, savedIn_append, hcancelled, List.append_nil]
      exact ⟨hs.trans hfs, by simp, hown⟩
    · refine ((ih (saves ++ savedIn [(node.path, .done outcome)])).pre fun s hs => ?_).bind fun pairs =>
        triple_pure fun s hs => ?_
      · rw [hs, hfs]
      · obtain ⟨hlater, hpaths, hothers⟩ := hs
        rw [← List.singleton_append, savedIn_append, ← List.append_assoc, List.map_append, hpaths]
        exact ⟨hlater, rfl, List.forall_mem_append.2 ⟨hown, hothers⟩⟩

/-! ## What is found again -/

section Folder

variable {folder : String} {place : Place} {names : List String} {saves : List (String × Fields)}
  (hfolder : evaluator.dumpFolder = some folder)

/-- The value in the file that is saved for a path. -/
def dumped? (fs : FileSystem) (folder path : String) : Option Json :=
  (fs.readBytes (Path.under folder (dumpName path))).toOption.bind fun bytes =>
    Json.parseChars? (Utf8.decode bytes)

/-- The bytes that fields are saved as. -/
def dumpBytes (fields : Fields) : List UInt8 := Utf8.encode (Json.obj fields).printIndented.toList

include hfolder

theorem saved_of_takes (h : fs.Takes folder place names) {path : String} (hname : dumpName path ∈ names)
    (fields : Fields) :
    evaluator.saved fs path fields = fs.put (place ++ [dumpName path]) (.file (dumpBytes fields)) := by
  rw [saved, hfolder]
  dsimp only
  rw [h.writeInto_eq hname]
  rfl

theorem takes_savedAll (h : fs.Takes folder place names)
    (hsaves : ∀ save ∈ saves, dumpName save.1 ∈ names) :
    (evaluator.savedAll fs saves).Takes folder place names := by
  induction saves generalizing fs with
  | nil => exact h
  | cons save saves ih =>
    obtain ⟨hname, hothers⟩ := List.forall_mem_cons.1 hsaves
    refine @ih (evaluator.saved fs save.1 save.2) ?_ hothers
    rw [saved_of_takes hfolder h hname]
    exact h.put hname _

/-- What is saved under other names leaves a file as it was. -/
theorem entry?_savedAll (h : fs.Takes folder place names)
    (hsaves : ∀ save ∈ saves, dumpName save.1 ∈ names)
    {name : String} (hother : ∀ save ∈ saves, dumpName save.1 ≠ name) :
    FileSystem.entry? (evaluator.savedAll fs saves) (place ++ [name]) = fs.entry? (place ++ [name]) := by
  induction saves generalizing fs with
  | nil => rfl
  | cons save saves ih =>
    obtain ⟨hname, hnames⟩ := List.forall_mem_cons.1 hsaves
    obtain ⟨hne, hothers⟩ := List.forall_mem_cons.1 hother
    have hsaved := saved_of_takes hfolder h hname save.2
    refine (@ih (evaluator.saved fs save.1 save.2) (hsaved ▸ h.put hname _) hnames hothers).trans ?_
    rw [hsaved]
    exact FileSystem.entry?_put_of_ne (by simpa using hne.symm) _

/-- The folder is made with the first evaluation that is saved. -/
theorem savedAll_made {ready : FileSystem} (hmade : fs.makeFolders (Path.tidy folder) = .ok ready)
    (h : ready.Takes folder place names) (hsaves : ∀ save ∈ saves, dumpName save.1 ∈ names)
    (hne : saves ≠ []) :
    evaluator.savedAll fs saves = evaluator.savedAll ready saves := by
  obtain ⟨save, saves, rfl⟩ := List.exists_cons_of_ne_nil hne
  have hsaved : evaluator.saved fs save.1 save.2 = evaluator.saved ready save.1 save.2 := by
    have hwrite := h.writeInto_made (hsaves save List.mem_cons_self) hmade (Json.obj save.2).printIndented
    rw [saved, saved, hfolder]
    dsimp only
    rw [hwrite, h.writeInto_eq (hsaves save List.mem_cons_self)]
    rfl
  exact congrArg (evaluator.savedAll · saves) hsaved

/-- The file of a path holds the evaluation that was saved last under its name. -/
theorem dumped?_savedAll (haccepts : fs.Accepts folder names)
    (hsaves : ∀ save ∈ saves, dumpName save.1 ∈ names)
    (hexact : ∀ save ∈ saves, Json.Exact (.obj save.2)) {before after : List (String × Fields)}
    {owner : String × Fields} (hsplit : saves = before ++ owner :: after) {path : String}
    (howner : dumpName owner.1 = dumpName path) (hlast : ∀ save ∈ after, dumpName save.1 ≠ dumpName path) :
    dumped? (evaluator.savedAll fs saves) folder path = some (.obj owner.2) := by
  obtain ⟨ready, place, hmade, h⟩ := haccepts
  have hmem : owner ∈ saves := hsplit ▸ List.mem_append_right before List.mem_cons_self
  have hname : dumpName path ∈ names := howner ▸ hsaves owner hmem
  have htakes := takes_savedAll hfolder h hsaves
  have hentry : FileSystem.entry? (evaluator.savedAll ready saves) (place ++ [dumpName path]) =
      some (.file (dumpBytes owner.2)) := by
    rw [hsplit] at hsaves ⊢
    obtain ⟨hbefore, hrest⟩ := List.forall_mem_append.1 hsaves
    obtain ⟨hthis, hafter⟩ := List.forall_mem_cons.1 hrest
    have hready := takes_savedAll hfolder h hbefore
    rw [savedAll, List.foldl_append, List.foldl_cons]
    change FileSystem.entry? (evaluator.savedAll (evaluator.saved (evaluator.savedAll ready before) owner.1 owner.2)
      after) _ = _
    rw [saved_of_takes hfolder hready hthis, entry?_savedAll hfolder (hready.put hthis _) hafter hlast,
      howner]
    exact FileSystem.entry?_put_self (by simp) _
  rw [savedAll_made hfolder hmade h hsaves (List.ne_nil_of_mem hmem),
    dumped?, htakes.readBytes_eq hname hentry]
  change Json.parseChars? (Utf8.decode (Utf8.encode _)) = _
  rw [Utf8.decode_encode]
  exact Json.parse?_printIndented (hexact owner hmem)

end Folder

/-! ## Dispatches -/

/-- Every file with a parsed evaluation finds this evaluation in the file that is saved for it. -/
def KeepsEach (folder : String) (evaluations : Keyed Evaluation) (fs : FileSystem) : Prop :=
  ∀ path outcome fields, evaluations.get? path = some (.done outcome) →
    outcome.findings.parsed = some fields →
    dumped? fs folder path = some (.obj fields)

/-- Files with one name for what is saved of them have the same parsed evaluation. -/
def AgreesByName (evaluations : Keyed Evaluation) : Prop :=
  ∀ save ∈ savedIn evaluations, ∀ other ∈ savedIn evaluations,
    dumpName save.1 = dumpName other.1 → save.2 = other.2

/-- Something was saved last under the name of a path. -/
structure IsLastSaved (saves : List (String × Fields)) (path : String) (owner : String × Fields) : Prop where
  name_eq : dumpName owner.1 = dumpName path
  split : ∃ before after, saves = before ++ owner :: after ∧ ∀ save ∈ after, dumpName save.1 ≠ dumpName path

theorem exists_isLastSaved {saves : List (String × Fields)} {path : String}
    (h : ∃ save ∈ saves, dumpName save.1 = dumpName path) : ∃ owner, IsLastSaved saves path owner := by
  induction saves with
  | nil =>
    obtain ⟨save, hsave, -⟩ := h
    exact absurd hsave List.not_mem_nil
  | cons save saves ih =>
    by_cases hlater : ∃ other ∈ saves, dumpName other.1 = dumpName path
    · obtain ⟨owner, hname, before, after, hsplit, hlast⟩ := ih hlater
      exact ⟨owner, hname, save :: before, after, by rw [hsplit, List.cons_append], hlast⟩
    · have hnone : ∀ other ∈ saves, dumpName other.1 ≠ dumpName path := fun other hother hname =>
        hlater ⟨other, hother, hname⟩
      obtain ⟨found, hfound, hname⟩ := h
      obtain rfl | hfound := List.mem_cons.1 hfound
      · exact ⟨found, hname, [], saves, rfl, hnone⟩
      · exact absurd hname (hnone found hfound)

theorem IsLastSaved.mem {saves : List (String × Fields)} {path : String} {owner : String × Fields}
    (h : IsLastSaved saves path owner) : owner ∈ saves := by
  obtain ⟨before, after, rfl, -⟩ := h.split
  exact List.mem_append_right before List.mem_cons_self

/-- Files without a low line in their paths share no name. -/
theorem agreesByName_of_no_lowLine {evaluations : Keyed Evaluation} (hkeys : evaluations.keys.Nodup)
    (h : ∀ path ∈ evaluations.keys, '_' ∉ path.toList) : AgreesByName evaluations := by
  intro save hsave other hother hname
  obtain ⟨evaluation, hmem, hfields⟩ := mem_savedIn.1 hsave
  obtain ⟨evaluation', hmem', hfields'⟩ := mem_savedIn.1 hother
  have hpath := eq_of_dumpName_eq (h _ (List.mem_map_of_mem hmem)) (h _ (List.mem_map_of_mem hmem')) hname
  have hget := Keyed.get?_of_mem hkeys hmem
  rw [hpath, Keyed.get?_of_mem hkeys hmem'] at hget
  obtain rfl := Option.some.inj hget
  exact Option.some.inj (hfields.symm.trans hfields')

/-- If files hold what was saved last under their names, every evaluation is found again exactly if no two
evaluations of one name differ. -/
theorem keepsEach_iff {folder : String} {evaluations : Keyed Evaluation} (hkeys : evaluations.keys.Nodup)
    (hlast : ∀ path owner, IsLastSaved (savedIn evaluations) path owner →
      dumped? fs folder path = some (.obj owner.2)) :
    KeepsEach folder evaluations fs ↔ AgreesByName evaluations := by
  have hsaved {path : String} {outcome : Outcome} {fields : Fields}
      (hdone : evaluations.get? path = some (.done outcome)) (hfields : outcome.findings.parsed = some fields) :
      (path, fields) ∈ savedIn evaluations :=
    mem_savedIn.2 ⟨.done outcome, Keyed.mem_of_get? hdone, hfields⟩
  have hdone {save : String × Fields} (h : save ∈ savedIn evaluations) : ∃ outcome,
      evaluations.get? save.1 = some (.done outcome) ∧ outcome.findings.parsed = some save.2 := by
    obtain ⟨evaluation, hmem, hfields⟩ := mem_savedIn.1 h
    cases evaluation with
    | done outcome => exact ⟨outcome, Keyed.get?_of_mem hkeys hmem, hfields⟩
    | broken | cancelled | pending => exact nomatch hfields
  constructor
  · intro h save hsave other hother hname
    obtain ⟨outcome, hget, hfields⟩ := hdone hsave
    obtain ⟨outcome', hget', hfields'⟩ := hdone hother
    have hfirst := h _ _ _ hget hfields
    have hsecond := h _ _ _ hget' hfields'
    rw [dumped?, hname, ← dumped?] at hfirst
    exact Json.obj.inj (Option.some.inj (hfirst.symm.trans hsecond))
  · intro h path outcome fields hget hfields
    have hmem := hsaved hget hfields
    obtain ⟨owner, howner⟩ := exists_isLastSaved ⟨_, hmem, rfl⟩
    rw [hlast path owner howner, h owner howner.mem _ hmem howner.name_eq]

section Dispatch

variable {folder : String} (hfolder : evaluator.dumpFolder = some folder)
  (hworkers : 0 < evaluator.settings.workers) (isLate : String → Bool) {files : List Node}
  (hpaths : ((evaluator.eligible files).map (·.path)).Nodup) {session : Session}
  (haccepts : session.fs.Accepts folder ((evaluator.eligible files).map fun node => dumpName node.path))

include hfolder hworkers hpaths haccepts

/-- A dispatch comes to an end, and the file of a path holds what was saved last under its name. -/
theorem runFrom_dispatch_saved :
    ∃ evaluations later, (evaluator.dispatch isLate files).runFrom session = (.ok evaluations, later) ∧
      evaluations.keys = (evaluator.eligible files).map (·.path) ∧
      ∀ path owner, IsLastSaved (savedIn evaluations) path owner →
        dumped? later.fs folder path = some (.obj owner.2) := by
  obtain ⟨pairs, later, hrun, hfs, hkeys, hexact⟩ :=
    (@triple_evaluateAll_saved evaluator session.fs isLate (evaluator.eligible files) []).exists_ok
      (show session.fs = evaluator.savedAll session.fs [] from rfl)
  refine ⟨pairs, later, ?_, hkeys, fun path owner howner => ?_⟩
  · rw [dispatch, if_neg hworkers.not_ge]
    change (evaluator.evaluateAll isLate (evaluator.eligible files) >>= _).runFrom session = _
    rw [runFrom_bind_of_ok hrun, Keyed.ofPairs_of_nodup (hkeys ▸ hpaths)]
    rfl
  · obtain ⟨before, after, hsplit, hafter⟩ := howner.split
    rw [hfs, List.nil_append]
    refine dumped?_savedAll hfolder haccepts (fun save hsave => ?_) hexact hsplit howner.name_eq hafter
    obtain ⟨evaluation, hmem, -⟩ := mem_savedIn.1 hsave
    have hpath : save.1 ∈ (evaluator.eligible files).map (·.path) := hkeys ▸ List.mem_map_of_mem hmem
    obtain ⟨node, hnode, hname⟩ := List.mem_map.1 hpath
    exact hname ▸ List.mem_map_of_mem hnode

/-- In a folder that takes files, a dispatch saves the evaluation of every file whose response could be
parsed. The file of a path holds the evaluation that came last under its name, so each evaluation is found
again exactly if no two of one name differ. -/
theorem dispatch_dumps :
    ∃ evaluations later, (evaluator.dispatch isLate files).runFrom session = (.ok evaluations, later) ∧
      evaluations.keys = (evaluator.eligible files).map (·.path) ∧
      (∀ path owner, IsLastSaved (savedIn evaluations) path owner →
        dumped? later.fs folder path = some (.obj owner.2)) ∧
      (KeepsEach folder evaluations later.fs ↔ AgreesByName evaluations) := by
  obtain ⟨evaluations, later, hrun, hkeys, hlast⟩ :=
    runFrom_dispatch_saved hfolder hworkers isLate hpaths haccepts
  exact ⟨evaluations, later, hrun, hkeys, hlast, keepsEach_iff (hkeys ▸ hpaths) hlast⟩

end Dispatch

/-! ## Two files with one name -/

/-- An evaluator that saves evaluations in a folder. One file is answered about in another way than the rest. -/
def telling : Evaluator where
  client _ call := .ok (if call.purpose = .evaluation "a/b.py" then "\x7b\"summary\": \"one\"\x7d"
    else "\x7b\"summary\": \"two\"\x7d")
  settings := { workers := 1 }
  graph := {}
  root := "/r"
  dumpFolder := some "/d"

/-- A file in a folder, and one whose name looks like its path. -/
def oneNamed : List Node :=
  [{ path := "a/b.py", content := some "x = 1\n" }, { path := "a_b.py", content := some "y = 2\n" }]

theorem eligible_oneNamed : telling.eligible oneNamed = oneNamed := by decide

theorem dumpNames_oneNamed : oneNamed.map (fun node => dumpName node.path) =
    ["a_b.py.json", "a_b.py.json"] := by
  cbv

theorem takes_twoFiles (bytes : List UInt8) :
    (twoFiles bytes).Takes "/d" ["d"] ["a_b.py.json", "a_b.py.json"] := by
  have hone {name : String} (h : name ∈ ["a_b.py.json", "a_b.py.json"]) :
      name = "a_b.py.json" := by simpa using h
  refine ⟨(leadsOutside_twoFiles bytes).folder, fun h => ?_, fun h => ?_, fun h => ?_, fun h entry hentry => ?_⟩
  all_goals obtain rfl := hone h
  · decide
  · decide
  · rw [String.contains_char_eq]
    decide
  · have hmem := FileSystem.mem_entries_of_found hentry (by simp)
    simp [twoFiles] at hmem

theorem accepts_twoFiles (bytes : List UInt8) :
    (twoFiles bytes).Accepts "/d" ["a_b.py.json", "a_b.py.json"] :=
  ⟨_, _, FileSystem.makeFolders_of_folder (leadsOutside_twoFiles bytes).folder, takes_twoFiles bytes⟩

/-- What is read in the two responses. -/
def told (path summary : String) : Outcome :=
  ⟨path, .reviewed { summary := some summary, parsed := some [("summary", .str summary)] }⟩

set_option maxRecDepth 2000 in
theorem outcome_told : Response.outcome "\x7b\"summary\": \"one\"\x7d" "a/b.py" = .ok (told "a/b.py" "one") ∧
    Response.outcome "\x7b\"summary\": \"two\"\x7d" "a_b.py" = .ok (told "a_b.py" "two") := by
  rw [told, told]
  constructor <;> cbv

/-- The two files are done, each with what was said about it. -/
theorem turns_telling (fs : FileSystem) :
    telling.turns fs [] oneNamed = [told "a/b.py" "one", told "a_b.py" "two"] := by
  have hfirst (prompt : String) : telling.answer [] "a/b.py" prompt = .ok (told "a/b.py" "one") :=
    (telling.answer_of_ok (by simp [telling, call])).trans outcome_told.1
  have hsecond (earlier : List Call) (prompt : String) :
      telling.answer earlier "a_b.py" prompt = .ok (told "a_b.py" "two") :=
    (telling.answer_of_ok (by simp [telling, call])).trans outcome_told.2
  rw [oneNamed, turns, turns, turns, turn_of_question rfl, turn_of_question rfl]
  dsimp only
  rw [hfirst, hsecond, settled, settled]

/-- What there is to save of the two files. -/
theorem savedIn_told : savedIn (evaluations [told "a/b.py" "one", told "a_b.py" "two"]) =
    [("a/b.py", [("summary", .str "one")]), ("a_b.py", [("summary", .str "two")])] := rfl

theorem hypotheses_oneNamed : ((telling.eligible oneNamed).map (·.path)).Nodup ∧
    twoFilesSession.fs.Accepts "/d" ((telling.eligible oneNamed).map fun node => dumpName node.path) := by
  rw [eligible_oneNamed, dumpNames_oneNamed]
  exact ⟨by decide, accepts_twoFiles [49]⟩

theorem dispatch_dumps_oneNamed : ((telling.eligible oneNamed).map (·.path)).Nodup ∧
    twoFilesSession.fs.Accepts "/d" ((telling.eligible oneNamed).map fun node => dumpName node.path) ∧
    ∃ evaluations later,
      (telling.dispatch (fun _ => false) oneNamed).runFrom twoFilesSession = (.ok evaluations, later) ∧
      (KeepsEach "/d" evaluations later.fs ↔ AgreesByName evaluations) := by
  obtain ⟨hpaths, haccepts⟩ := hypotheses_oneNamed
  obtain ⟨evaluations, later, hrun, -, -, hiff⟩ :=
    @dispatch_dumps telling "/d" rfl Int.one_pos (fun _ => false) oneNamed hpaths twoFilesSession haccepts
  exact ⟨hpaths, haccepts, evaluations, later, hrun, hiff⟩

/-- Both evaluations are saved under one name, and the first is lost. -/
theorem dispatch_loses_first : ∃ later,
    (telling.dispatch (fun _ => false) oneNamed).runFrom twoFilesSession =
      (.ok [("a/b.py", .done (told "a/b.py" "one")), ("a_b.py", .done (told "a_b.py" "two"))], later) ∧
    dumped? later.fs "/d" "a/b.py" = some (.obj [("summary", .str "two")]) ∧
    ¬ KeepsEach "/d" [("a/b.py", .done (told "a/b.py" "one")), ("a_b.py", .done (told "a_b.py" "two"))]
      later.fs := by
  obtain ⟨hpaths, haccepts⟩ := hypotheses_oneNamed
  obtain ⟨evaluations, later, hrun, -, hlast⟩ :=
    @runFrom_dispatch_saved telling "/d" rfl Int.one_pos (fun _ => false) oneNamed hpaths twoFilesSession haccepts
  obtain ⟨later', hdispatch, -⟩ := telling.runFrom_dispatch Int.one_pos calm_twoFilesSession
    (show (oneNamed.map (·.path)).Nodup by decide)
  have hfiles : (telling.eligible oneNamed).map twoFilesSession.known = oneNamed := by decide
  rw [hfiles] at hdispatch
  change _ = (Except.ok (Evaluator.evaluations (telling.turns twoFilesSession.fs [] oneNamed)), later') at hdispatch
  rw [turns_telling] at hdispatch
  obtain ⟨hevaluations, rfl⟩ := Prod.mk.inj (hrun.symm.trans hdispatch)
  obtain rfl := Except.ok.inj hevaluations
  have hdumped : dumped? later.fs "/d" "a/b.py" = some (.obj [("summary", .str "two")]) :=
    hlast "a/b.py" ("a_b.py", [("summary", .str "two")])
      ⟨by cbv, [("a/b.py", [("summary", .str "one")])], [], savedIn_told, nofun⟩
  refine ⟨later, hrun, hdumped, fun hkeeps => ?_⟩
  have hown := hkeeps "a/b.py" (told "a/b.py" "one") [("summary", .str "one")] rfl rfl
  exact absurd (hown.symm.trans hdumped) (by simp)

end Evaluator

end CodeReview
