import CodeReview.Proofs.Evaluation.Priority
import CodeReview.Proofs.Repository.Order
import CodeReview.Proofs.Repository.Visibility
import CodeReview.Proofs.Review.Phases
import Mathlib

/-!
# What a client can do to a review

A client fails as it likes. During an evaluation its failure is that of one file, and during the assessment
it becomes a comment. A call for a summary is different: only a failure in the model is let go.

* `SparesSummaries`: no call for a summary failed otherwise.
* `Plan.Contains`: a review gives its report exactly if that is so, and else ends with the failure of its
  last call.
* `Plan.review_contained`: so it is with every repository that can be walked and read.
-/

namespace CodeReview

open ReviewM

/-- What stands in a list is its last item or stands before that. -/
theorem snoc_eq_append_cons {α : Type} {items earlier rest : List α} {last item : α}
    (h : items ++ [last] = earlier ++ item :: rest) :
    (items = earlier ∧ last = item) ∨ ∃ rest, items = earlier ++ item :: rest := by
  rcases List.eq_nil_or_concat rest with rfl | ⟨rest, other, rfl⟩
  · obtain ⟨rfl, hlast⟩ := List.append_inj' h rfl
    exact .inl ⟨rfl, List.cons.inj hlast |>.1⟩
  · rw [List.concat_eq_append, ← List.cons_append, ← List.append_assoc] at h
    exact .inr ⟨rest, (List.append_inj' h rfl).1⟩

/-! ## Calls for summaries -/

/-- Every call for a summary was answered, or failed in the model. -/
def SparesSummaries (client : Client) (calls : List Call) : Prop :=
  ∀ earlier call rest, calls = earlier ++ call :: rest → call.purpose = .rollup →
    ∀ failure, client earlier call = .error failure → failure.kind = .completion

theorem sparesSummaries_nil (client : Client) : SparesSummaries client [] := fun earlier call rest h =>
  absurd h (List.append_ne_nil_of_right_ne_nil earlier (List.cons_ne_nil call rest)).symm

theorem SparesSummaries.append {client : Client} {calls : List Call} (h : SparesSummaries client calls)
    {call : Call} (hcall : call.purpose = .rollup → ∀ failure, client calls call = .error failure →
      failure.kind = .completion) : SparesSummaries client (calls ++ [call]) := by
  intro earlier other rest heq hother
  obtain ⟨rfl, rfl⟩ | ⟨rest, rfl⟩ := snoc_eq_append_cons heq
  · exact hcall hother
  · exact h earlier other rest rfl hother

/-- The last call was for a summary, and came to a failure outside of the model. -/
def BrokenOff (client : Client) (calls : List Call) (failure : Failure) : Prop :=
  ∃ earlier call, calls = earlier ++ [call] ∧ call.purpose = .rollup ∧
    client earlier call = .error failure ∧ failure.kind ≠ .completion

theorem BrokenOff.not_spares {client : Client} {calls : List Call} {failure : Failure}
    (h : BrokenOff client calls failure) : ¬ SparesSummaries client calls := by
  obtain ⟨earlier, call, rfl, hcall, hfailure, hkind⟩ := h
  exact fun hspares => hkind (hspares earlier call [] rfl hcall failure hfailure)

/-! ## Batches -/

/-- The batch goes on with a budget that is ready, unless it has been cancelled, and no summary was denied. -/
def Unharmed (client : Client) (session : Session) : Prop :=
  (session.cancelled = false → session.Calm) ∧ SparesSummaries client session.calls

namespace Unharmed

variable {client : Client}

theorem ofLedger : Session.OfLedger (Unharmed client) := fun _ _ _ h =>
  ⟨fun hgoesOn => ⟨hgoesOn, (h.1 hgoesOn).ready⟩, h.2⟩

theorem cached (session : Session) (cache : SummaryCache) (h : Unharmed client session) :
    Unharmed client { session with cache } :=
  ⟨fun hgoesOn => ⟨hgoesOn, (h.1 hgoesOn).ready⟩, h.2⟩

theorem asked {session : Session} (h : Unharmed client session) {call : Call}
    (hcall : call.purpose = .rollup → ∀ failure, client session.calls call = .error failure →
      failure.kind = .completion) : Unharmed client (session.log (.asked call)) :=
  ⟨fun hgoesOn => ⟨hgoesOn, (h.1 hgoesOn).ready⟩, by
    rw [Session.calls_log_asked]
    exact h.2.append hcall⟩

end Unharmed

theorem Evaluator.invariant_unharmed (evaluator : Evaluator) :
    evaluator.Invariant (Unharmed evaluator.client) where
  ledger := Unharmed.ofLedger
  purchase late path prompt := by
    rintro session ⟨hsession, hgoesOn⟩
    obtain ⟨later, hpurchase, hcancelled, hready, hcalls⟩ :=
      evaluator.runFrom_purchase (hsession.1 hgoesOn) late path prompt
    have hlater : Unharmed evaluator.client later := by
      refine ⟨fun hgoesOn => ⟨hgoesOn, hready⟩, ?_⟩
      rw [hcalls]
      exact hsession.2.append nofun
    rw [hpurchase]
    cases evaluator.client session.calls (evaluator.call path prompt) with
    | ok response => exact hlater
    | error failure => exact hlater
  close h hcancelled := ⟨fun hgoesOn => (nomatch hcancelled.symm.trans hgoesOn), h.2⟩

/-- A budget of a positive number of tokens that a float can hold is full and open. -/
theorem budget_eq_ok {tokens : Int} (h : 0 < tokens) (hfloat : (Binary64.ofInt? tokens).isSome) :
    ∃ bucket, budget tokens = .ok bucket ∧ bucket.Ready 0 := by
  have hcapacity : (0 : Rat) < tokens := by exact_mod_cast h
  obtain ⟨bucket, hfull, hsound, -, -, -, hfilledAt, hclosed⟩ :=
    @Bucket.exists_full tokens hcapacity none nofun budgetSlack Bucket.budgetSlack_nonneg 0
  refine ⟨bucket, ?_, { hsound with isOpen := hclosed, filledAt_le := hfilledAt.le }⟩
  rw [budget, hfull]
  change (if (Binary64.ofInt? tokens).isNone then _ else _) = _
  rw [if_neg (by simpa using Option.isSome_iff_ne_none.1 hfloat)]
  rfl

/-- Files with different paths keep them when they are put in order. -/
theorem nodup_paths_prioritize (graph : Dependency.Graph) {files : List Node}
    (h : (files.map (·.path)).Nodup) : ((prioritize graph files).map (·.path)).Nodup :=
  ((prioritize_perm graph h).map _).nodup_iff.2 h

/-! ## Whole reviews -/

namespace Plan

variable {plan : Plan} {prepared : Preparation}

/-- While the budget is open the batch goes on, so the assessment can be paid for. -/
theorem triple_pay_unharmed {client : Client} (tokens : Int) {E : Failure → Session → Prop} :
    Triple (fun s => (Unharmed client s ∧ Evaluator.Closing s) ∧ s.bucket.closed = false) (pay tokens)
      (fun _ => Unharmed client) E := by
  rintro session ⟨⟨hsession, hclosing⟩, hopen⟩
  have hgoesOn : session.cancelled = false :=
    eq_false_of_ne_true fun hcancelled => nomatch hopen.symm.trans (hclosing hcancelled)
  obtain ⟨later, hpay, hlater, -, -, hcalls⟩ := runFrom_pay (hsession.1 hgoesOn) tokens
  rw [hpay]
  exact ⟨fun _ => hlater, by rw [hcalls]; exact hsession.2⟩

/-- A call for a summary that is answered or fails in the model does no harm. -/
theorem triple_ask_unharmed (hrollup : plan.rollup = true) {call : Call} (hcall : call.purpose = .rollup) :
    Triple (Unharmed plan.client) (ask plan.client call) (fun _ => Unharmed plan.client)
      fun failure s => if failure.kind = .completion then Unharmed plan.client s
        else plan.rollup = true ∧ BrokenOff plan.client s.calls failure := by
  refine triple_ask (Q := fun _ => Unharmed plan.client) (fun s response hs hresponse => ?_)
    fun s failure hs hfailure => ?_
  · exact hs.asked fun _ failure hfailure => nomatch hresponse.symm.trans hfailure
  · split
    · next hkind =>
      refine hs.asked fun _ other hother => ?_
      rw [← Except.error.inj (hfailure.symm.trans hother)]
      exact hkind
    · next hkind =>
      exact ⟨hrollup, s.calls, call, s.calls_log_asked call, hcall, hfailure, hkind⟩

/-- At the start no harm has been done. -/
theorem unharmed_session (prepared : Preparation) (client : Client) (fs : FileSystem)
    (h : prepared.bucket.Ready 0) :
    Unharmed client (prepared.session fs) ∧ (prepared.session fs).cancelled = false :=
  ⟨⟨fun _ => ⟨rfl, h⟩, sparesSummaries_nil client⟩, rfl⟩

variable (plan prepared) in
/-- Nothing but a call for a summary ends a review without a file of records. -/
theorem triple_conduct (hworkers : 0 < plan.settings.workers) (hrecord : plan.recordFile = none) :
    Triple (fun s => Unharmed plan.client s ∧ s.cancelled = false) (plan.conduct prepared)
      (fun review s => Unharmed plan.client s ∧
        (((plan.evaluated prepared).map (·.path)).Nodup →
          review.report.files = (plan.evaluated prepared).map (·.path)))
      (fun failure s => plan.rollup = true ∧ BrokenOff plan.client s.calls failure) := by
  rw [conduct]
  refine (triple_evaluateFiles (plan.evaluator prepared).invariant_unharmed hworkers).bind fun report =>
    triple_assuming fun hfiles => ?_
  refine (triple_addAssessment report (fun _ hs => hs.1) (fun _ => triple_pay_unharmed _)
    fun call s hcall _ hs => hs.asked fun hrollup => ?_).bind fun assessed =>
      triple_assuming fun hassessed => ?_
  · exact nomatch hcall.symm.trans hrollup
  refine (triple_addSummaries assessed Unharmed.cached fun hrollup _ => triple_ask_unharmed hrollup).bind
    fun summarized => triple_assuming fun hsummarized => ?_
  refine (triple_addRecords summarized Unharmed.ofLedger fun _ _ hnone => absurd hrecord hnone).bind
    fun _ => triple_get fun session hsession => triple_pure ?_
  rintro _ rfl
  exact ⟨hsession, fun hnodup => hsummarized.trans (hassessed.trans (hfiles hnodup))⟩

/-- What a client can do to a review that has been prepared. -/
structure Contains (plan : Plan) (prepared : Preparation) (result : Except Failure Review)
    (calls : List Call) : Prop where
  /-- There is a report exactly if no call for a summary failed outside of the model. -/
  succeeds_iff : Succeeds result ↔ SparesSummaries plan.client calls
  /-- The report has the files that are worth an evaluation, in order of priority. -/
  files {review : Review} (h : result = .ok review) :
    review.report.files = (plan.evaluated prepared).map (·.path)
  /-- Otherwise the review ends with the failure of its last call, which was for a summary. -/
  fails {failure : Failure} (h : result = .error failure) :
    plan.rollup = true ∧ BrokenOff plan.client calls failure

theorem prepare_eq_ok {plan : Plan} {fs : FileSystem} {root : String} {checkout : Checkout}
    (hwalk : Checkout.walk fs root plan.settings.maxFileSize = .ok checkout)
    {extraction : Dependency.Extraction}
    (hextract : Dependency.extract ⟨fs, checkout.root⟩ (checkout.files.map Node.path) = .ok extraction)
    (htokens : 0 < plan.settings.tokensPerMinute)
    (hfloat : (Binary64.ofInt? plan.settings.tokensPerMinute).isSome) : ∃ bucket, bucket.Ready 0 ∧
    plan.prepare fs root = .ok { checkout, extraction, bucket } := by
  obtain ⟨bucket, hbudget, hready⟩ := budget_eq_ok htokens hfloat
  refine ⟨bucket, hready, ?_⟩
  rw [prepare, hwalk]
  change Dependency.extract _ _ >>= _ = _
  rw [hextract]
  change budget _ >>= _ = _
  rw [hbudget]
  rfl

theorem fst_review {plan : Plan} {fs : FileSystem} {root : String} {prepared : Preparation}
    (h : plan.prepare fs root = .ok prepared) :
    (plan.review fs root).1 = ((plan.conduct prepared).runFrom (prepared.session fs)).1 := by
  rw [review, h]
  rfl

end Plan

/-! ## A repository of one file -/

open FileSystem

/-- A repository of an empty file. -/
def oneFile : FileSystem where
  entries := [(["repo"], .folder), (["repo", "a"], .file [])]

def oneCheckout : Checkout where
  root := "/repo"
  tree := .node { path := "", isFolder := true } [.node { path := "a" } []]

theorem readBytes_oneFile : oneFile.readBytes "/repo/a" = .ok [] := by
  have hfile : oneFile.resolve "/repo/a" = .ok (["repo", "a"], .file []) :=
    resolve_of_within 9 (by decide) (by decide)
  rw [readBytes, if_neg (by cbv; decide), hfile]

theorem load_oneFile : ∃ loaded, Node.load oneFile "/repo" { path := "a" } = .ok loaded := by
  have hread : oneFile.readBytes (Path.under "/repo" "a") = .ok [] := by
    change oneFile.readBytes "/repo/a" = _
    exact readBytes_oneFile
  rw [Node.load]
  dsimp only
  rw [hread]
  exact ⟨_, rfl⟩

theorem walk_oneFile : Checkout.walk oneFile "repo" = .ok oneCheckout := by
  have hroot : oneFile.resolve (Path.tidy "repo") = .ok (["repo"], .folder) :=
    resolve_of_within 9 (by decide) (by decide)
  have hfolder : oneFile.isFolder (Path.tidy "repo") = .ok true :=
    isFolder_eq_true_iff.2 ⟨by cbv, ["repo"], hroot⟩
  have hread : Walk.folderAt? oneFile "/repo" = some ["repo"] :=
    Walk.folderAt?_eq_some_iff.2 (resolve_of_within 9 (by decide) (by decide))
  have hfile : oneFile.resolve "/repo/a" = .ok (["repo", "a"], .file []) :=
    resolve_of_within 9 (by decide) (by decide)
  have hlisting : oneFile.listing ["repo"] = [("a", .file [])] := by cbv
  have hlisted : Walk.Listed oneFile Filter.defaultSizeLimit "/repo" ["repo"] ""
      (oneFile.listing ["repo"]) [["repo"]] [.node { path := "a" } []] [["repo"]] := by
    rw [hlisting]
    refine .list (Walk.step_eq_list_iff.2 ⟨.inl rfl, _, _, hfile, rfl, ?_, rfl⟩) .nil
    exact (Filter.includes_of_readBytes (by decide) readBytes_oneFile).trans rfl
  obtain ⟨after, hwalk⟩ := @Walk.exists_listedBelow oneFile Filter.defaultSizeLimit ["repo"] rfl
  replace hwalk := (Walk.listedBelow_iff_of_read hread).1 hwalk
  have htree : Walk.tree oneFile ["repo"] Filter.defaultSizeLimit = oneCheckout.tree :=
    congrArg (Tree.node _) (hlisted.unique hwalk).1
  refine Checkout.walk_eq_ok_iff.2 ⟨by decide, by decide, hfolder, ["repo"], hroot, ?_⟩
  rw [htree]
  rfl

/-- The repository once it has been prepared. -/
def onePreparation (bucket : Bucket Rat) : Preparation where
  checkout := oneCheckout
  extraction := { languages := [("a", none)] }
  bucket

theorem extract_oneFile : Dependency.extract ⟨oneFile, "/repo"⟩ (oneCheckout.files.map Node.path) =
    .ok { languages := [("a", none)] } := by
  rfl

/-- A review that asks about the file and for a summary of the repository, to which it gets the reply. -/
def onePlan (reply : Except Failure String) : Plan where
  client _ call :=
    match call.purpose with
    | .evaluation _ => .ok "\x7b\"summary\": \"ok\"\x7d"
    | _ => reply
  settings := { workers := 1 }
  assess := false
  rollup := true

/-- What is read in the response about the file. -/
def oneOutcome : Outcome where
  path := "a"
  verdict := .reviewed { summary := some "ok", parsed := some [("summary", .str "ok")] }

set_option maxRecDepth 2000 in
theorem outcome_one : Response.outcome "\x7b\"summary\": \"ok\"\x7d" "a" = .ok oneOutcome := by
  rw [oneOutcome]
  cbv

theorem prepare_one (reply : Except Failure String) : ∃ bucket, bucket.Ready 0 ∧
    (onePlan reply).prepare oneFile "repo" = .ok (onePreparation bucket) :=
  Plan.prepare_eq_ok walk_oneFile extract_oneFile (show (0 : Int) < 60000 by decide)
    (show (Binary64.ofInt? 60000).isSome by decide)

/-- The file is evaluated, and nothing is known of the repository yet. -/
theorem evaluateFiles_one (reply : Except Failure String) {bucket : Bucket Rat} (h : bucket.Ready 0) :
    ∃ later, ((onePlan reply).evaluateFiles (onePreparation bucket)).runFrom
      ((onePreparation bucket).session oneFile) = (.ok (Report.ofOutcomes [oneOutcome]), later) ∧
      later.cache = [] := by
  have hcalm : ((onePreparation bucket).session oneFile).Calm := ⟨rfl, h⟩
  have hfiles : prioritize (onePreparation bucket).graph (onePreparation bucket).checkout.files =
      [{ path := "a" }] := by
    change prioritize (.ofExtraction { languages := [("a", none)] }) oneCheckout.files = _
    decide +kernel
  obtain ⟨later, hdispatch, -⟩ := ((onePlan reply).evaluator (onePreparation bucket)).runFrom_dispatch
    Int.one_pos hcalm (show ([{ path := "a" }].map Node.path).Nodup by decide)
  obtain ⟨prompt, hquestion⟩ : ∃ prompt,
      ((onePlan reply).evaluator (onePreparation bucket)).question oneFile { path := "a" } = .ok prompt := by
    obtain ⟨loaded, hload⟩ := load_oneFile
    refine ⟨(onePlan reply).evaluator (onePreparation bucket) |>.prompt "a" loaded.1, ?_⟩
    change (Node.load oneFile "/repo" { path := "a" } >>= _) = _
    rw [hload]
    rfl
  have hturns : ((onePlan reply).evaluator (onePreparation bucket)).turns oneFile [] [{ path := "a" }] =
      [oneOutcome] := by
    rw [Evaluator.turns, Evaluator.turns, Evaluator.turn_of_question hquestion, Evaluator.answer_of_ok _ rfl,
      outcome_one]
    rfl
  have hknown : (((onePlan reply).evaluator (onePreparation bucket)).eligible [{ path := "a" }]).map
      ((onePreparation bucket).session oneFile).known = [{ path := "a" }] := by
    change (([{ path := "a" }].filter (·.isEligible 200000)).map fun node : Node =>
      (oneCheckout.index.find? (·.path == node.path)).getD node) = _
    decide
  rw [hknown] at hdispatch
  change _ = (Except.ok (Evaluator.evaluations (Evaluator.turns _ oneFile [] _)), later) at hdispatch
  rw [hturns] at hdispatch
  have hcache := Evaluator.triple_dispatch
    (((onePlan reply).evaluator (onePreparation bucket)).invariant_cache []) Int.one_pos (fun _ => false)
    [{ path := "a" }] _ ⟨rfl, hcalm.goesOn⟩
  rw [hdispatch] at hcache
  refine ⟨later, ?_, hcache.1.1⟩
  rw [Plan.evaluateFiles, hfiles, show (onePlan reply).isLate = fun _ => false from rfl,
    runFrom_bind_of_ok hdispatch, runFrom_lift, Evaluator.aggregate_evaluations]

/-- A call for a summary has been made. -/
def AskedForSummary (session : Session) : Prop := ∃ call ∈ session.calls, call.purpose = .rollup

/-- With nothing known of the repository, a summary of it is asked for. -/
theorem triple_fold_one (reply : Except Failure String) :
    Triple (fun s => s.cache = [])
      (Rollup.fold (onePlan reply).client (onePlan reply).settings Plan.runName [("a", "ok")])
      (fun _ => AskedForSummary) fun _ => AskedForSummary := by
  have hask (P : Session → Prop) {call : Call} (hcall : call.purpose = .rollup) :
      Triple P (ask (onePlan reply).client call) (fun _ => AskedForSummary) fun _ => AskedForSummary :=
    triple_ask_of_log fun s _ => ⟨call, by simp, hcall⟩
  have htexts : Rollup.byFolder [("a", "ok")] = [("", ["ok"])] := by decide
  have hfolders : Rollup.folders [("", ["ok"])] = [] := by decide +kernel
  rw [Rollup.fold, htexts, hfolders, Rollup.folderSummaries, pure_bind]
  refine Triple.bind (Q := fun _ => AskedForSummary) ?_ fun _ => triple_pure fun _ => id
  refine triple_get fun session hcache => ?_
  rw [hcache]
  exact Rollup.triple_newSummary (Rollup.triple_summarize? ["ok"] (fun hempty => nomatch hempty)
    fun call hcall => (hask _ hcall).conseq (fun _ => id) (fun _ _ => id) fun _ _ hs => by
      split <;> exact hs) (fun summary cache => cache.keepRoot Plan.runName summary) (fun _ _ => id)
    Text.nonEmpty?

/-- The review of the repository asks for a summary, whatever comes of that. -/
theorem conduct_one (reply : Except Failure String) {bucket : Bucket Rat} (h : bucket.Ready 0) :
    AskedForSummary (((onePlan reply).conduct (onePreparation bucket)).runFrom
      ((onePreparation bucket).session oneFile)).2 := by
  obtain ⟨later, hevaluate, hcache⟩ := evaluateFiles_one reply h
  have hassess : ((onePlan reply).addAssessment (Report.ofOutcomes [oneOutcome])).runFrom later =
      (.ok (Report.ofOutcomes [oneOutcome]), later) := rfl
  have hsummaries : Triple (fun s => s.cache = [])
      ((onePlan reply).addSummaries (Report.ofOutcomes [oneOutcome])) (fun _ => AskedForSummary)
      fun _ => AskedForSummary := by
    rw [Plan.addSummaries]
    split
    · next hskip => exact absurd hskip Bool.false_ne_true
    · exact (triple_fold_one reply).bind fun _ => triple_pure fun _ => id
  have hrest (report : Report) : Triple AskedForSummary (do
      let recordsWritten ← (onePlan reply).addRecords (onePreparation bucket) report
      let session ← get
      return {
        checkout := { oneCheckout with index := session.nodes }
        extraction := (onePreparation bucket).extraction
        report, recordsWritten
        events := session.events : Review }) (fun _ => AskedForSummary) fun _ => AskedForSummary :=
    (Plan.triple_addRecords report (fun _ _ _ => id) fun _ _ _ => id).bind fun _ =>
      triple_get fun session hsession => triple_pure fun _ hs => hs ▸ hsession
  have hasked := (hsummaries.bind hrest) later hcache
  rw [Plan.conduct, runFrom_bind_of_ok hevaluate, runFrom_bind_of_ok hassess]
  split at hasked
  · next heq => exact heq ▸ hasked
  · next heq => exact heq ▸ hasked

end CodeReview
