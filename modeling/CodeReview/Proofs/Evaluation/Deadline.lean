import CodeReview.Proofs.Review.Failures
import CodeReview.Review.Run

/-!
# Batches that are cut off

The deadline of a batch passes during the call about one file. The files before it are done by then;
that file and those behind it fail.

* `Reached`, `runFrom_evaluateAll_append`: a batch goes on after some files like a batch of the others.
* `runFrom_evaluateAll_late`: what is left of a batch once its deadline has passed.
* `CutOff`: what has come of the whole batch, next to the same batch without a deadline
  (`dispatch_cut_off`).
-/

namespace CodeReview

open ReviewM

namespace Outcome

/-- The outcome is a failure: its only issue is an error, and it is filed under the path of its file. -/
structure FailsAlone (outcome : Outcome) : Prop where
  failed : outcome.isReviewed = false
  alone : ∃ issue, outcome.issues = [issue] ∧ issue.severity = .error ∧
    outcome.filingPath issue = outcome.path

theorem failsAlone_failure (path message : String) : (failure path message).FailsAlone where
  failed := rfl
  alone := ⟨failureIssue path message, issues_failure path message, rfl,
    filingPath_failureIssue path message⟩

end Outcome

namespace Evaluation

/-- However long its outcome is waited for, the evaluation comes to a failure of the file. -/
def Fails (path : String) : Evaluation → Prop
  | done outcome => outcome.path = path ∧ outcome.FailsAlone
  | broken _ => False
  | cancelled | pending => True

theorem collect_of_fails {path : String} {evaluation : Evaluation} (h : evaluation.Fails path)
    (timeout : Binary64) :
    ∃ outcome, evaluation.collect path timeout = .ok outcome ∧ outcome.path = path ∧
      outcome.FailsAlone := by
  cases evaluation with
  | done outcome => exact ⟨outcome, rfl, h⟩
  | broken failure => exact h.elim
  | cancelled | pending => exact ⟨_, rfl, rfl, Outcome.failsAlone_failure ..⟩

theorem collectAll_append {evaluations others : Keyed Evaluation} {timeout : Binary64}
    {outcomes outcomes' : List Outcome} (h : collectAll evaluations timeout = .ok outcomes)
    (h' : collectAll others timeout = .ok outcomes') :
    collectAll (evaluations ++ others) timeout = .ok (outcomes ++ outcomes') :=
  mapM_eq_ok_iff.2 (List.rel_append (mapM_eq_ok_iff.1 h) (mapM_eq_ok_iff.1 h'))

/-- Evaluations that come to failures have a failure each, in order. -/
theorem collectAll_of_fails {evaluations : Keyed Evaluation}
    (h : ∀ entry ∈ evaluations, entry.2.Fails entry.1) (timeout : Binary64) :
    ∃ outcomes, collectAll evaluations timeout = .ok outcomes ∧
      outcomes.map (·.path) = evaluations.keys ∧ ∀ outcome ∈ outcomes, outcome.FailsAlone := by
  induction evaluations with
  | nil => exact ⟨[], rfl, rfl, nofun⟩
  | cons entry evaluations ih =>
    obtain ⟨hentry, hrest⟩ := List.forall_mem_cons.1 h
    obtain ⟨outcome, houtcome, hpath, halone⟩ := collect_of_fails hentry timeout
    obtain ⟨outcomes, houtcomes, hpaths, hall⟩ := ih hrest
    refine ⟨outcome :: outcomes, mapM_eq_ok_iff.2 (.cons houtcome (mapM_eq_ok_iff.1 houtcomes)), ?_,
      List.forall_mem_cons.2 ⟨halone, hall⟩⟩
    rw [List.map_cons, hpath, hpaths]
    rfl

theorem Fails.isOf {path : String} {evaluation : Evaluation} (h : evaluation.Fails path) :
    evaluation.IsOf path := by
  cases evaluation with
  | done outcome => exact h.1
  | broken failure => exact h
  | cancelled | pending => trivial

/-- What comes to a failure still does so if it is going on. -/
theorem Standing.fails {evaluations wanted : Keyed Evaluation} (h : Standing evaluations wanted)
    (hfails : ∀ entry ∈ evaluations, entry.2.Fails entry.1) :
    ∀ entry ∈ wanted, entry.2.Fails entry.1 := by
  induction h with
  | nil => exact hfails
  | cons hentry _ ih =>
    obtain ⟨hgiven, hrest⟩ := List.forall_mem_cons.1 hfails
    refine List.forall_mem_cons.2 ⟨?_, ih hrest⟩
    obtain rfl | rfl := hentry
    · exact hgiven
    · trivial

end Evaluation

namespace Evaluator

variable {evaluator : Evaluator} {session : Session}

/-! ## The files before -/

theorem contained_of_not_late {isLate : String → Bool} {node : Node} (h : isLate node.path = false) :
    evaluator.contained isLate node = evaluator.contained (fun _ => false) node := by
  rw [contained, contained, h]

/-- What a session has become once the first files of a batch are done. -/
structure Reached (session : Session) (before : List Node) (done : List Outcome) (asked : List Call)
    (next : Session) : Prop where
  calm : next.Calm
  paths : done.map (·.path) = before.map (·.path)
  calls : next.calls = session.calls ++ asked
  purposes : (asked.map (·.purpose)).Sublist (before.map fun node => .evaluation node.path)

theorem Reached.notMem_asked {before : List Node} {done : List Outcome} {asked : List Call}
    {next : Session} (h : Reached session before done asked next) {path : String}
    (hpath : path ∉ before.map (·.path)) : .evaluation path ∉ asked.map (·.purpose) := fun hmem => by
  obtain ⟨node, hnode, hown⟩ := List.mem_map.1 (h.purposes.subset hmem)
  exact hpath (List.mem_map.2 ⟨node, hnode, Purpose.evaluation.inj hown⟩)

/-- In a calm session a batch evaluates its first files, if the deadline passes during none of their
calls, and then goes on as a batch of the other files. -/
theorem runFrom_evaluateAll_append (h : session.Calm) (before : List Node) : ∃ done asked next,
    Reached session before done asked next ∧
    ∀ isLate, (∀ node ∈ before, isLate node.path = false) → ∀ rest,
      (evaluator.evaluateAll isLate (before ++ rest)).runFrom session =
        (evaluator.evaluateAll isLate rest >>= fun others =>
          pure (evaluations done ++ others)).runFrom next := by
  induction before generalizing session with
  | nil =>
    exact ⟨[], [], session, ⟨h, rfl, (List.append_nil _).symm, .slnil⟩, fun isLate _ rest =>
      congrArg (runFrom · session) (bind_pure _).symm⟩
  | cons node before ih =>
    obtain ⟨next, hcontained, hturned⟩ := evaluator.runFrom_contained_of_calm h node
    have hpath := (evaluator.path_turn session.fs session.calls (session.known node)).trans
      (session.path_known node)
    have hasked := evaluator.purposes_calls session.fs session.calls [session.known node]
    obtain ⟨done, asked, last, hlast, hrest⟩ := ih hturned.calm
    generalize evaluator.turn session.fs session.calls (session.known node) = outcome at *
    refine ⟨outcome :: done, _, last, ⟨hlast.calm, by rw [List.map_cons, hpath, hlast.paths, List.map_cons],
      by rw [hlast.calls, hturned.calls, List.append_assoc], ?_⟩, fun isLate hlate rest => ?_⟩
    · rw [List.map_append]
      rw [calls, calls, List.append_nil, List.map_singleton, Session.path_known] at hasked
      exact hasked.append hlast.purposes
    · obtain ⟨hnode, hbefore⟩ := List.forall_mem_cons.1 hlate
      rw [List.cons_append, evaluateAll, contained_of_not_late hnode, runFrom_bind_of_ok hcontained,
        runFrom_bind_of_ok (runFrom_get next), if_neg (by rw [hturned.calm.goesOn]; decide),
        runFrom_bind, hrest isLate hbefore rest, runFrom_bind, runFrom_bind, ← hpath]
      cases (evaluator.evaluateAll isLate rest).runFrom last with
      | mk result final => cases result <;> rfl

/-! ## The deadline -/

/-- A call during which the deadline passes is made, but its response is not read. -/
theorem runFrom_evaluate_late (h : session.Calm) {late : Node} {prompt : String}
    (hquestion : evaluator.question session.fs (session.known late) = .ok prompt) :
    ∃ failure later, (evaluator.evaluate (if true then some .asking else none) late).runFrom session =
      (.error failure, later) ∧ later.cancelled = true ∧
      later.calls = session.calls ++ [evaluator.call late.path prompt] := by
  obtain ⟨content, hcontent, rfl⟩ := question_eq_ok_iff.1 hquestion
  rw [evaluate_eq, runFrom_bind, runFrom_load, Session.path_known]
  cases hload : (session.known late).load session.fs evaluator.root with
  | error failure => rw [hload] at hcontent; exact nomatch hcontent
  | ok loaded =>
    rw [hload] at hcontent
    obtain rfl := Except.ok.inj hcontent
    have hkept : (session.keep loaded.2).Calm := ⟨h.goesOn, h.ready⟩
    obtain ⟨later, hpurchase, hcancelled, -, hcalls⟩ :=
      evaluator.runFrom_purchase hkept true late.path (evaluator.prompt late.path loaded.1)
    dsimp only
    rw [runFrom_bind_of_ok (runFrom_checkpoint_of_goesOn hkept.goesOn), runFrom_bind, hpurchase]
    cases evaluator.client _ _ with
    | error failure => exact ⟨failure, later, rfl, hcancelled, hcalls⟩
    | ok response =>
      refine ⟨.batchDeadline, later, ?_, hcancelled, hcalls⟩
      change (evaluator.read late response).runFrom later = _
      rw [Evaluator.read, runFrom_bind, runFrom_checkpoint, hcancelled]
      rfl

/-- What is left of a batch whose deadline passes during the call about a file. -/
def cutShort (late : Node) (message : String) (after : List Node) : Keyed Evaluation :=
  (late.path, .done (.failure late.path message)) :: after.map fun node => (node.path, .cancelled)

theorem keys_cutShort (late : Node) (message : String) (after : List Node) :
    (cutShort late message after).keys = (late :: after).map (·.path) := by
  simp [cutShort, Keyed.keys]

theorem fails_of_mem_cutShort (late : Node) (message : String) (after : List Node) :
    ∀ entry ∈ cutShort late message after, entry.2.Fails entry.1 := by
  simp only [cutShort, List.forall_mem_cons, List.forall_mem_map]
  exact ⟨⟨rfl, Outcome.failsAlone_failure ..⟩, fun _ _ => trivial⟩

/-- When the deadline passes during the call about a file, that file fails, the budget is closed, and no
file behind it is looked at. -/
theorem runFrom_evaluateAll_late (h : session.Calm) {late : Node} {prompt : String}
    (hquestion : evaluator.question session.fs (session.known late) = .ok prompt)
    {isLate : String → Bool} (hlate : isLate late.path = true) (after : List Node) :
    ∃ message later, (evaluator.evaluateAll isLate (late :: after)).runFrom session =
      (.ok (cutShort late message after), later) ∧
      later.bucket.closed = true ∧
      later.calls = session.calls ++ [evaluator.call late.path prompt] := by
  obtain ⟨failure, later, hevaluate, hcancelled, hcalls⟩ := runFrom_evaluate_late h hquestion
  have hcontained : (evaluator.contained isLate late).runFrom session =
      (.ok (.failure late.path failure.described), later) := by
    rw [runFrom_contained, hlate, hevaluate]
    rfl
  refine ⟨failure.described, { later with bucket := later.bucket.close }, ?_, rfl, hcalls⟩
  rw [evaluateAll, runFrom_bind_of_ok hcontained, runFrom_bind_of_ok (runFrom_get later), if_pos hcancelled]
  rfl

/-! ## The whole batch -/

/-- What has come of a batch whose deadline passes during the call about a file, and the session after it.
Without a deadline the batch comes to `others`, and to the session `last`. -/
structure CutOff (evaluator : Evaluator) (before : List Node) (late : Node) (after : List Node)
    (others : Keyed Evaluation) (session last later : Session) (evaluations : Keyed Evaluation) :
    Prop where
  keys : evaluations.keys = (before ++ late :: after).map (·.path)
  /-- The files before are done, and come to what they come to without a deadline. -/
  finished : ∃ done, evaluations.take before.length = Evaluator.evaluations done ∧
    others.take before.length = Evaluator.evaluations done
  /-- The other files come to failures, whether or not one is still waited for. -/
  failed {wanted : Keyed Evaluation} (h : Evaluation.Standing evaluations wanted)
    (hbefore : wanted.take before.length = evaluations.take before.length) (timeout : Binary64) :
    ∃ done failed, Evaluation.collectAll wanted timeout = .ok (done ++ failed) ∧
      evaluations.take before.length = Evaluator.evaluations done ∧
      failed.map (·.path) = (late :: after).map (·.path) ∧ ∀ outcome ∈ failed, outcome.FailsAlone
  /-- The report has all the files. -/
  report {wanted : Keyed Evaluation} (h : Evaluation.Standing evaluations wanted)
    (timeout : Binary64) : ∃ report, Evaluation.aggregate wanted timeout = .ok report ∧
      report.files = (before ++ late :: after).map (·.path)
  /-- The calls are those made without a deadline, up to that about the file; none is about a file
  behind it. -/
  calls : ∃ asked, later.calls = session.calls ++ asked ∧ later.calls <+: last.calls ∧
    .evaluation late.path ∈ asked.map (·.purpose) ∧
    ∀ node ∈ after, .evaluation node.path ∉ asked.map (·.purpose)
  closed : later.bucket.closed = true
  /-- No assessment is asked for afterwards. -/
  unassessed (plan : Plan) (report : Report) :
    ∃ assessed, (plan.addAssessment report).runFrom later = (.ok assessed, later)

/-- Once the budget is closed, no assessment is asked for. -/
theorem runFrom_addAssessment_of_closed (h : session.bucket.closed = true) (plan : Plan)
    (report : Report) :
    ∃ assessed, (plan.addAssessment report).runFrom session = (.ok assessed, session) := by
  have hcomments : (Assessment.paidComments plan.client plan.settings report.summaries
      report.files.length).runFrom session =
      (.ok [Assessment.failureComment "batch deadline reached"], session) := by
    rw [Assessment.paidComments, runFrom_bind_of_ok (runFrom_get session), if_pos h]
    rfl
  rw [Plan.addAssessment]
  split
  · exact ⟨report, rfl⟩
  · exact ⟨_, by rw [runFrom_bind_of_ok hcomments]; rfl⟩

/-- A file that a calm session is asked about can be read when its turn comes. -/
theorem exists_question_of_mem {late : Node} {after : List Node} {fs : FileSystem}
    {earlier : List Call} (hnew : late.path ∉ after.map (·.path))
    (h : .evaluation late.path ∈ (evaluator.calls fs earlier (late :: after)).map (·.purpose)) :
    ∃ prompt, evaluator.question fs late = .ok prompt := by
  rw [Evaluator.calls, asked, List.map_append, List.mem_append] at h
  cases hquestion : evaluator.question fs late with
  | ok prompt => exact ⟨prompt, rfl⟩
  | error failure =>
    rw [hquestion] at h
    have hlater := (evaluator.purposes_calls _ _ after).subset (h.resolve_left List.not_mem_nil)
    obtain ⟨node, hnode, hpath⟩ := List.mem_map.1 hlater
    exact absurd (List.mem_map.2 ⟨node, hnode, Purpose.evaluation.inj hpath⟩) hnew

section

variable {before : List Node} {done : List Outcome} {cut wanted : Keyed Evaluation}

theorem take_evaluations_append (h : done.map (·.path) = before.map (·.path)) (cut : Keyed Evaluation) :
    (evaluations done ++ cut).take before.length = evaluations done := by
  refine List.take_left' ?_
  rw [evaluations, List.length_map, ← List.length_map (·.path), h, List.length_map]

theorem keys_evaluations_append (h : done.map (·.path) = before.map (·.path)) (cut : Keyed Evaluation) :
    Keyed.keys (evaluations done ++ cut) = before.map (·.path) ++ cut.keys := by
  rw [← h, ← keys_evaluations]
  exact List.map_append

/-- Evaluations that are done, with others behind them that come to failures. -/
theorem collectAll_of_cut (hdone : done.map (·.path) = before.map (·.path))
    (hfails : ∀ entry ∈ cut, entry.2.Fails entry.1)
    (h : Evaluation.Standing (evaluations done ++ cut) wanted)
    (hbefore : wanted.take before.length = evaluations done) (timeout : Binary64) :
    ∃ failed, Evaluation.collectAll wanted timeout = .ok (done ++ failed) ∧
      failed.map (·.path) = cut.keys ∧ ∀ outcome ∈ failed, outcome.FailsAlone := by
  have hstanding : Evaluation.Standing cut (wanted.drop before.length) := by
    have hdrop := List.forall₂_drop before.length h
    rwa [List.drop_left' ?_] at hdrop
    rw [evaluations, List.length_map, ← List.length_map (·.path), hdone, List.length_map]
  obtain ⟨failed, hfailed, hpaths, halone⟩ :=
    Evaluation.collectAll_of_fails (hstanding.fails hfails) timeout
  refine ⟨failed, ?_, hpaths.trans hstanding.keys, halone⟩
  rw [← List.take_append_drop before.length wanted, hbefore]
  exact Evaluation.collectAll_append (collectAll_evaluations done timeout) hfailed

theorem isOf_evaluations_append (done : List Outcome) (hfails : ∀ entry ∈ cut, entry.2.Fails entry.1) :
    ∀ entry ∈ evaluations done ++ cut, entry.2.IsOf entry.1 := by
  simp only [List.forall_mem_append, evaluations, List.forall_mem_map]
  exact ⟨fun _ _ => rfl, fun entry hentry => (hfails entry hentry).isOf⟩

/-- The report of evaluations with different paths has a file for each of them. -/
theorem files_of_standing {evaluations : Keyed Evaluation} (hnodup : evaluations.keys.Nodup)
    (hisOf : ∀ entry ∈ evaluations, entry.2.IsOf entry.1) (h : Evaluation.Standing evaluations wanted)
    (timeout : Binary64) :
    ∃ report, Evaluation.aggregate wanted timeout = .ok report ∧ report.files = evaluations.keys := by
  obtain ⟨outcomes, houtcomes, hpaths⟩ := Evaluation.collectAll_of_isOf (h.isOf hisOf) timeout
  refine ⟨_, Evaluation.aggregate_of_collectAll houtcomes, ?_⟩
  rw [Report.files_ofOutcomes, hpaths, h.keys, eraseDups_of_nodup hnodup]

/-- Whatever the deadline does, a dispatch goes on from the same session behind its first files. -/
theorem runFrom_dispatch_append (hworkers : 0 < evaluator.settings.workers) (h : session.Calm)
    {files before rest : List Node} (hfiles : evaluator.eligible files = before ++ rest)
    (hnodup : ((before ++ rest).map (·.path)).Nodup) : ∃ done asked next,
    Reached session before done asked next ∧
    ∀ isLate, (∀ node ∈ before, isLate node.path = false) → ∀ pairs later,
      (evaluator.evaluateAll isLate rest).runFrom next = (.ok pairs, later) →
      Keyed.keys pairs = rest.map (·.path) →
      (evaluator.dispatch isLate files).runFrom session = (.ok (evaluations done ++ pairs), later) := by
  obtain ⟨done, asked, next, hreached, hrest⟩ := @runFrom_evaluateAll_append evaluator _ h before
  refine ⟨done, asked, next, hreached, fun isLate hbefore pairs later hrun hkeys => ?_⟩
  have hall := hrest isLate hbefore rest
  rw [runFrom_bind_of_ok hrun, ← hfiles] at hall
  rw [dispatch, if_neg hworkers.not_ge]
  change (evaluator.evaluateAll isLate (evaluator.eligible files) >>= _).runFrom session = _
  rw [runFrom_bind_of_ok hall, Keyed.ofPairs_of_nodup]
  · rfl
  · change (Keyed.keys (evaluations done ++ pairs)).Nodup
    rwa [keys_evaluations_append hreached.paths, hkeys, ← List.map_append]

/-- A batch is cut off if it ends with the call about a file, and the budget is closed. -/
theorem cutOff_of_reached {done : List Outcome} {asked : List Call} {next last later : Session}
    (h : Reached session before done asked next) {late : Node} {after : List Node}
    (hnodup : ((before ++ late :: after).map (·.path)).Nodup) (others : Keyed Evaluation)
    (message prompt : String) (hclosed : later.bucket.closed = true)
    (hcalls : later.calls = next.calls ++ [evaluator.call late.path prompt])
    (hcut : later.calls <+: last.calls) :
    evaluator.CutOff before late after (evaluations done ++ others) session last later
      (evaluations done ++ cutShort late message after) := by
  have hkeys := keys_cutShort late message after
  have hfails := fails_of_mem_cutShort late message after
  have htake := take_evaluations_append h.paths
  have hall : Keyed.keys (evaluations done ++ cutShort late message after) =
      (before ++ late :: after).map (·.path) := by
    rw [keys_evaluations_append h.paths, hkeys, List.map_append]
  refine
    { keys := hall
      finished := ⟨done, htake _, htake _⟩
      failed := fun hstanding hsame timeout => by
        rw [htake] at hsame ⊢
        obtain ⟨failed, hfailed, hpaths, halone⟩ :=
          collectAll_of_cut h.paths hfails hstanding hsame timeout
        exact ⟨done, failed, hfailed, rfl, hpaths.trans hkeys, halone⟩
      report := fun hstanding timeout => by
        obtain ⟨report, hreport, hreported⟩ := files_of_standing (hall ▸ hnodup)
          (isOf_evaluations_append done hfails) hstanding timeout
        exact ⟨report, hreport, hreported.trans hall⟩
      calls := ⟨asked ++ [evaluator.call late.path prompt], by rw [hcalls, h.calls, List.append_assoc],
        hcut, by simp [call], fun node hnode hmem => ?_⟩
      closed := hclosed
      unassessed := runFrom_addAssessment_of_closed hclosed }
  -- a file behind differs in its path from those before and from the one that was asked about last
  rw [List.map_append, List.map_cons, List.nodup_append, List.nodup_cons] at hnodup
  have hpath := List.mem_map_of_mem (f := fun node : Node => node.path) hnode
  rw [List.map_append, List.mem_append] at hmem
  rcases hmem with hmem | hmem
  · refine h.notMem_asked (fun hbefore => ?_) hmem
    exact hnodup.2.2 _ hbefore _ (List.mem_cons_of_mem _ hpath) rfl
  · have hlate := Purpose.evaluation.inj (List.mem_singleton.1 hmem)
    exact hnodup.2.1.1 (hlate ▸ hpath)

end

/-- A batch on one worker whose deadline passes during the call about a file. That there is such a call is
told by the batch without a deadline. -/
theorem dispatch_cut_off (hworkers : evaluator.settings.workers = 1) (h : session.Calm)
    {files before after : List Node} {late : Node}
    (hfiles : evaluator.eligible files = before ++ late :: after)
    (hpaths : (files.map (·.path)).Nodup) : ∃ others last asked,
    (evaluator.dispatch (fun _ => false) files).runFrom session = (.ok others, last) ∧
    last.calls = session.calls ++ asked ∧
    (.evaluation late.path ∈ asked.map (·.purpose) → ∀ isLate : String → Bool,
      (∀ node ∈ before, isLate node.path = false) → isLate late.path = true →
      ∃ evaluations later,
        (evaluator.dispatch isLate files).runFrom session = (.ok evaluations, later) ∧
        evaluator.CutOff before late after others session last later evaluations) := by
  have hnodup : ((before ++ late :: after).map (·.path)).Nodup :=
    hfiles ▸ hpaths.sublist (List.filter_sublist.map _)
  have hsplit := hnodup
  rw [List.map_append, List.map_cons, List.nodup_append, List.nodup_cons] at hsplit
  obtain ⟨-, ⟨hafter, -⟩, hapart⟩ := hsplit
  obtain ⟨done, asked, next, hreached, hdispatch⟩ :=
    runFrom_dispatch_append (by omega) h hfiles hnodup
  obtain ⟨last, hundisturbed, hlast⟩ :=
    evaluator.runFrom_evaluateAll hreached.calm (List.nodup_append.1 (List.map_append ▸ hnodup)).2.1
  refine ⟨_, last, asked ++ evaluator.calls next.fs next.calls ((late :: after).map next.known),
    hdispatch _ (fun _ _ => rfl) _ _ hundisturbed ?_, ?_, fun hmem isLate hbefore hlate => ?_⟩
  · rw [keys_evaluations, paths_turns, Session.paths_known]
  · rw [hlast, hreached.calls, List.append_assoc]
  -- the call about the file is none of those about the files before
  have hfirst : .evaluation late.path ∉ asked.map (·.purpose) :=
    hreached.notMem_asked fun hmem => hapart _ hmem _ List.mem_cons_self rfl
  obtain ⟨prompt, hquestion⟩ : ∃ prompt,
      evaluator.question next.fs (next.known late) = .ok prompt := by
    rw [List.map_append, List.mem_append, List.map_cons] at hmem
    refine @exists_question_of_mem _ _ (after.map next.known) next.fs next.calls ?_ ?_
    · rwa [Session.paths_known, Session.path_known]
    · rw [Session.path_known]
      exact hmem.resolve_left hfirst
  obtain ⟨message, later, hrun, hclosed, hcalls⟩ :=
    runFrom_evaluateAll_late hreached.calm hquestion hlate after
  refine ⟨_, later, hdispatch _ hbefore _ _ hrun (keys_cutShort ..),
    cutOff_of_reached hreached hnodup _ message prompt hclosed hcalls ?_⟩
  rw [hcalls, hlast, List.map_cons, Evaluator.calls, Evaluator.asked, hquestion, Session.path_known]
  exact ⟨_, List.append_assoc ..⟩

/-- An evaluator that is answered about every file, and saves nothing. -/
def answering : Evaluator where
  client _ _ := .ok "{}"
  settings := { workers := 1 }
  graph := {}
  root := "/r"

/-- The files of the repository, and one that is not there. -/
def threeNodes : List Node := [{ path := "a" }, { path := "a.json" }, { path := "b" }]

/-- Without a deadline the second file is asked about. -/
theorem asked_about_second : .evaluation "a.json" ∈
    (answering.calls (twoFiles [49]) [] threeNodes).map (·.purpose) := by
  have hsecond : answering.question (twoFiles [49]) { path := "a.json" } =
      .ok (promptAbout "a.json" [49]) := (question_refusing [] [49]).2
  have hfiled (outcome : Outcome) : answering.filed (twoFiles [49]) outcome = twoFiles [49] := by
    rw [filed]
    cases outcome.findings.parsed <;> rfl
  rw [threeNodes, Evaluator.calls, hfiled, Evaluator.calls, List.map_append, List.map_append,
    List.mem_append, List.mem_append, asked, asked, hsecond]
  exact .inr (.inl List.mem_cons_self)

/-- The deadline passes during the call about the second of three files. -/
theorem dispatch_cut_off_second :
    answering.settings.workers = 1 ∧ twoFilesSession.Calm ∧
    answering.eligible threeNodes = [{ path := "a" }] ++ { path := "a.json" } :: [{ path := "b" }] ∧
    (threeNodes.map (·.path)).Nodup ∧ ∃ others last evaluations later,
      (answering.dispatch (fun _ => false) threeNodes).runFrom twoFilesSession = (.ok others, last) ∧
      (answering.dispatch (· == "a.json") threeNodes).runFrom twoFilesSession =
        (.ok evaluations, later) ∧
      answering.CutOff [{ path := "a" }] { path := "a.json" } [{ path := "b" }] others twoFilesSession last
        later evaluations := by
  have hfiles : answering.eligible threeNodes =
      [{ path := "a" }] ++ { path := "a.json" } :: [{ path := "b" }] := by decide
  have hpaths : (threeNodes.map (·.path)).Nodup := by decide
  refine ⟨rfl, calm_twoFilesSession, hfiles, hpaths, ?_⟩
  obtain ⟨others, last, asked, hundisturbed, hasked, hcutOff⟩ :=
    @dispatch_cut_off answering twoFilesSession rfl calm_twoFilesSession threeNodes [{ path := "a" }]
      [{ path := "b" }] { path := "a.json" } hfiles hpaths
  have hmem : .evaluation "a.json" ∈ asked.map (·.purpose) := by
    obtain ⟨_, hdispatch, hcalls⟩ :=
      answering.runFrom_dispatch Int.one_pos calm_twoFilesSession hpaths
    obtain rfl := congrArg Prod.snd (hundisturbed.symm.trans hdispatch)
    have hknown : (answering.eligible threeNodes).map twoFilesSession.known = threeNodes := by
      decide
    rw [hknown] at hcalls
    exact List.append_cancel_left (hasked.symm.trans hcalls) ▸ asked_about_second
  obtain ⟨evaluations, later, hdispatch, hcut⟩ := hcutOff hmem (· == "a.json") (by simp) (by simp)
  exact ⟨others, last, evaluations, later, hundisturbed, hdispatch, hcut⟩

end Evaluator

end CodeReview
