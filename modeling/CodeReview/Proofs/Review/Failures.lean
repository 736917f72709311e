import CodeReview.Proofs.Evaluation.Invariants
import CodeReview.Proofs.Evaluation.Isolation
import Mathlib

/-!
# How a report shows failures

A file that could not be evaluated has a record of that in the report. Other files are free to speak of
it: what their responses say is filed under the path that they name.

* `Outcome.errorsUnder`: the errors that outcomes file under a path.
* `Report.ShowsFailure`: under the path of a failed file the report has the record of the failure, and
  beside it the errors that the responses for other files file there.
* `dispatch_shows_failures`: so it is after every dispatch, whatever the client does.
-/

namespace CodeReview

open ReviewM

namespace Outcome

/-- The issues of an outcome, category by category. -/
def issues (outcome : Outcome) : List Issue := Category.all.flatMap outcome.issuesIn

/-- The errors of outcomes that are filed under a path. -/
def errorsUnder (outcomes : List Outcome) (path : String) : List Issue :=
  outcomes.flatMap fun outcome =>
    (outcome.issues.filter (outcome.filingPath · = path)).filter (·.severity = .error)

theorem errorsUnder_append (outcomes others : List Outcome) (path : String) :
    errorsUnder (outcomes ++ others) path = errorsUnder outcomes path ++ errorsUnder others path :=
  List.flatMap_append

theorem errorsUnder_eq_nil_iff {outcomes : List Outcome} {path : String} :
    errorsUnder outcomes path = [] ↔ ∀ outcome ∈ outcomes, ∀ issue ∈ outcome.issues,
      outcome.filingPath issue = path → issue.severity ≠ .error := by
  simp only [errorsUnder, List.flatMap_eq_nil_iff, List.filter_filter, List.filter_eq_nil_iff,
    Bool.and_eq_true, decide_eq_true_eq, not_and, ne_eq]
  exact forall₄_congr fun _ _ _ _ => imp_not_comm

theorem issues_failure (path message : String) :
    (failure path message).issues = [failureIssue path message] := rfl

/-- A failure is filed under its own path. -/
theorem filingPath_failureIssue (path message : String) :
    (failure path message).filingPath (failureIssue path message) = path :=
  ite_self path

theorem errorsUnder_failure (path message : String) :
    errorsUnder [failure path message] path = [failureIssue path message] := by
  rw [errorsUnder, List.flatMap_singleton, issues_failure, List.filter_singleton,
    filingPath_failureIssue, decide_eq_true rfl]
  rfl

/-- A failure says nothing of other files. -/
theorem errorsUnder_of_failed {outcome : Outcome} {path : String} (h : outcome.isReviewed = false)
    (hpath : outcome.path ≠ path) : errorsUnder [outcome] path = [] := by
  obtain ⟨own, verdict⟩ := outcome
  cases verdict with
  | reviewed findings => exact nomatch h
  | failed message =>
    rw [errorsUnder_eq_nil_iff]
    intro outcome houtcome issue hissue hfiled
    obtain rfl := List.mem_singleton.1 houtcome
    obtain rfl := List.mem_singleton.1 hissue
    exact absurd ((filingPath_failureIssue own message).symm.trans hfiled) hpath

/-- Of files other than that at the path, only those with a response have errors there. -/
theorem errorsUnder_filter_isReviewed {outcomes : List Outcome} {path : String}
    (h : ∀ outcome ∈ outcomes, outcome.path ≠ path) :
    errorsUnder (outcomes.filter (·.isReviewed)) path = errorsUnder outcomes path := by
  induction outcomes with
  | nil => rfl
  | cons outcome outcomes ih =>
    obtain ⟨houtcome, houtcomes⟩ := List.forall_mem_cons.1 h
    rw [List.filter_cons, ← List.singleton_append (l := outcomes), errorsUnder_append, ← ih houtcomes]
    split
    · rw [← List.singleton_append, errorsUnder_append]
    · next hfailed =>
      rw [errorsUnder_of_failed (eq_false_of_ne_true hfailed) houtcome, List.nil_append]

/-- Under the path of a failed file stand its record and the errors that come from responses. -/
theorem errorsUnder_perm {outcomes : List Outcome} {path message : String}
    (hnodup : (outcomes.map (·.path)).Nodup) (hfailed : failure path message ∈ outcomes) :
    (errorsUnder outcomes path).Perm
      (failureIssue path message :: errorsUnder (outcomes.filter (·.isReviewed)) path) := by
  obtain ⟨before, after, rfl⟩ := List.append_of_mem hfailed
  have hothers : ∀ outcome ∈ before ++ after, outcome.path ≠ path := by
    rw [List.map_append, List.map_cons, List.nodup_middle, List.nodup_cons, ← List.map_append] at hnodup
    exact fun outcome houtcome hpath => hnodup.1 (List.mem_map.2 ⟨outcome, houtcome, hpath⟩)
  have hreviewed : (before ++ failure path message :: after).filter (·.isReviewed) =
      (before ++ after).filter (·.isReviewed) := by
    rw [List.filter_append, List.filter_append, List.filter_cons_of_neg Bool.false_ne_true]
  rw [hreviewed, errorsUnder_filter_isReviewed hothers, ← List.singleton_append, errorsUnder_append,
    errorsUnder_append, errorsUnder_append, errorsUnder_failure]
  exact List.perm_middle

end Outcome

namespace Report

/-- The errors of a path. -/
def errorsFor (report : Report) (path : String) : List Issue :=
  (report.issuesFor path).filter (·.severity = .error)

/-- A report has under a path what its outcomes file there. -/
theorem issuesIn_ofOutcomes (outcomes : List Outcome) (category : Category) (path : String) :
    (ofOutcomes outcomes).issuesIn category path = Outcome.issuesUnder outcomes category path := by
  rw [issuesIn, (accounts_ofOutcomes outcomes).entry]
  split
  · rfl
  · next h => exact (not_not.1 (not_or.1 h).2).symm

/-- A report has the issues of a path category by category, and outcomes have them one after the
other. -/
theorem issuesFor_perm (outcomes : List Outcome) (path : String) :
    ((ofOutcomes outcomes).issuesFor path).Perm
      (outcomes.flatMap fun outcome => outcome.issues.filter (outcome.filingPath · = path)) := by
  simp only [issuesFor, issuesIn_ofOutcomes]
  induction outcomes with
  | nil => exact .nil
  | cons outcome outcomes ih =>
    simp only [Outcome.issuesUnder, List.flatMap_cons, Outcome.issues, List.filter_flatMap] at ih ⊢
    exact (List.flatMap_append_perm ..).symm.trans (ih.append_left _)

theorem errorsFor_perm (outcomes : List Outcome) (path : String) :
    ((ofOutcomes outcomes).errorsFor path).Perm (Outcome.errorsUnder outcomes path) := by
  have h := (issuesFor_perm outcomes path).filter (·.severity = .error)
  rwa [List.filter_flatMap] at h

/-- How a report shows the failure of the file at a path, next to the outcomes of other files. -/
structure ShowsFailure (report : Report) (others : List Outcome) (path message : String) : Prop where
  /-- Its errors are the record of the failure and those that the others file under the path. -/
  errors : (report.errorsFor path).Perm
    (Outcome.failureIssue path message :: Outcome.errorsUnder others path)
  /-- The record is the only error if none of the others speaks of an error there. -/
  alone : report.errorsFor path = [Outcome.failureIssue path message] ↔
    ∀ outcome ∈ others, ∀ issue ∈ outcome.issues,
      outcome.filingPath issue = path → issue.severity ≠ .error

theorem showsFailure_ofOutcomes {outcomes : List Outcome} (hnodup : (outcomes.map (·.path)).Nodup)
    {path message : String} (hfailed : .failure path message ∈ outcomes) :
    (ofOutcomes outcomes).ShowsFailure (outcomes.filter (·.isReviewed)) path message := by
  have herrors := (errorsFor_perm outcomes path).trans (Outcome.errorsUnder_perm hnodup hfailed)
  refine ⟨herrors, ?_⟩
  rw [← Outcome.errorsUnder_eq_nil_iff]
  constructor
  · intro halone
    rw [halone] at herrors
    exact List.perm_nil.1 (List.perm_cons _ |>.1 herrors).symm
  · intro hnone
    rw [hnone] at herrors
    exact List.perm_singleton.1 herrors

end Report

namespace Evaluator

/-- After a dispatch, however its evaluations stand when their outcomes are wanted, the report shows every
failure. The client and the deadline have no say in that. -/
theorem dispatch_shows_failures {evaluator : Evaluator} (hworkers : 0 < evaluator.settings.workers)
    (isLate : String → Bool) (files : List Node) {session : Session}
    (hgoesOn : session.cancelled = false) : ∃ evaluations later,
    (evaluator.dispatch isLate files).runFrom session = (.ok evaluations, later) ∧
    ∀ wanted, Evaluation.Standing evaluations wanted → ∀ timeout, ∃ outcomes,
      Evaluation.collectAll wanted timeout = .ok outcomes ∧
      outcomes.map (·.path) = evaluations.keys ∧
      Evaluation.aggregate wanted timeout = .ok (Report.ofOutcomes outcomes) ∧
      ∀ path message, .failure path message ∈ outcomes →
        (Report.ofOutcomes outcomes).ShowsFailure (outcomes.filter (·.isReviewed)) path message := by
  obtain ⟨evaluations, later, hdispatch, -, hcover⟩ :=
    (triple_dispatch evaluator.invariant_true hworkers isLate files).exists_ok ⟨trivial, hgoesOn⟩
  refine ⟨evaluations, later, hdispatch, fun wanted hwanted timeout => ?_⟩
  obtain ⟨outcomes, houtcomes, hpaths⟩ :=
    Evaluation.collectAll_of_isOf (hwanted.isOf hcover.isOf) timeout
  rw [hwanted.keys] at hpaths
  exact ⟨outcomes, houtcomes, hpaths, Evaluation.aggregate_of_collectAll houtcomes,
    fun _ _ => Report.showsFailure_ofOutcomes (hpaths ▸ hcover.nodup)⟩

/-- If the client answers about no file, each has the record of its failure and no other error. -/
theorem dispatch_shows_failures_refused :
    0 < (refusing "/r" [promptAbout "a" [], promptAbout "a.json" [49]]).settings.workers ∧
    twoFilesSession.cancelled = false ∧ ∃ evaluations later report message,
      ((refusing "/r" [promptAbout "a" [], promptAbout "a.json" [49]]).dispatch (fun _ => false)
        twoNodes).runFrom twoFilesSession = (.ok evaluations, later) ∧
      Evaluation.aggregate evaluations Evaluation.defaultTimeout = .ok report ∧
      report.errorsFor "a" = [Outcome.failureIssue "a" message] ∧
      report.errorsFor "a.json" = [Outcome.failureIssue "a.json" message] := by
  refine ⟨Int.one_pos, rfl, ?_⟩
  obtain ⟨evaluations, later, hdispatch, hshows⟩ := @dispatch_shows_failures
    (refusing "/r" [promptAbout "a" [], promptAbout "a.json" [49]]) Int.one_pos (fun _ => false) twoNodes
    twoFilesSession rfl
  obtain ⟨last, hturns⟩ := dispatch_refusing [promptAbout "a" [], promptAbout "a.json" [49]]
  rw [turns_refusing_both] at hturns
  obtain rfl := Except.ok.inj (congrArg Prod.fst (hdispatch.symm.trans hturns))
  obtain ⟨outcomes, houtcomes, -, hreport, hfailures⟩ := hshows _ (.refl _) Evaluation.defaultTimeout
  obtain rfl := Except.ok.inj ((collectAll_evaluations _ _).symm.trans houtcomes)
  refine ⟨_, _, _, (Failure.emptyCompletion "model").described, hdispatch, hreport, ?_, ?_⟩
  · exact (hfailures _ _ List.mem_cons_self).alone.2 (by simp [Outcome.isReviewed, Outcome.failure])
  · exact (hfailures _ _ (List.mem_cons_of_mem _ List.mem_cons_self)).alone.2
      (by simp [Outcome.isReviewed, Outcome.failure])

/-! ### A response that speaks of another file -/

/-- A response that reports an error of the file `a.json`. -/
def blame : String :=
  "\x7b\"errors\": [\x7b\"title\": \"x\", \"filePath\": \"a.json\", \"severity\": \"ERROR\"\x7d]\x7d"

/-- An evaluator whose client reports an error of `a.json` when it is asked about `a`, and does not answer
about any other file. -/
def blaming : Evaluator where
  client _ call :=
    if call.purpose = .evaluation "a" then .ok blame else .error (.emptyCompletion "model")
  settings := { workers := 1 }
  graph := {}
  root := "/r"

theorem question_blaming (fs : FileSystem) (node : Node) :
    blaming.question fs node = (refusing "/r" []).question fs node := rfl

/-- What is read in that response. -/
def blamed : Outcome where
  path := "a"
  verdict := .reviewed {
    categories := { ByCategory.const [] with
      errors := [{ title := "x", path := "a.json", severity := .error }] }
    parsed := some [("errors", .arr [.obj [("title", .str "x"), ("filePath", .str "a.json"),
      ("severity", .str "ERROR")]])] }

set_option maxRecDepth 2000 in
theorem outcome_blame : Response.outcome blame "a" = .ok blamed := by
  rw [blamed]
  cbv

/-- The client reports an error of the second file, and then does not answer about it. -/
theorem turns_blaming : blaming.turns (twoFiles [49]) [] twoNodes =
    [blamed, .failure "a.json" (Failure.emptyCompletion "model").described] := by
  have hfirst (prompt : String) : blaming.answer [] "a" prompt = Response.outcome blame "a" :=
    blaming.answer_of_ok (by simp [blaming, call])
  have hsecond (earlier : List Call) (prompt : String) :
      blaming.answer earlier "a.json" prompt = .error (.emptyCompletion "model") :=
    blaming.answer_of_error (by simp [blaming, call])
  obtain ⟨hquestion, hquestion'⟩ := question_refusing [] [49]
  rw [← question_blaming] at hquestion hquestion'
  have hturn : blaming.turn (twoFiles [49]) [] { path := "a" } = blamed := by
    rw [turn_of_question hquestion, hfirst, outcome_blame, settled]
  have hturn' (earlier : List Call) : blaming.turn (twoFiles [49]) earlier { path := "a.json" } =
      .failure "a.json" (Failure.emptyCompletion "model").described := by
    rw [turn_of_question hquestion', hsecond, settled]
  have hfiled : blaming.filed (twoFiles [49]) blamed = twoFiles [49] := rfl
  rw [twoNodes, turns, hturn, hfiled, turns, hturn', turns]

/-- A failed file may have an error beside its record: that of a response about another file. -/
theorem failure_not_alone : ¬ ∀ (evaluator : Evaluator) (session : Session) (files : List Node),
    0 < evaluator.settings.workers → (files.map (·.path)).Nodup → session.Calm →
    ∀ evaluations later,
      (evaluator.dispatch (fun _ => false) files).runFrom session = (.ok evaluations, later) →
      ∀ timeout report, Evaluation.aggregate evaluations timeout = .ok report →
        ∀ path message, (path, .done (.failure path message)) ∈ evaluations →
          report.errorsFor path = [Outcome.failureIssue path message] := by
  intro h
  have hpaths : (twoNodes.map (·.path)).Nodup := by decide
  obtain ⟨later, hdispatch, -⟩ := blaming.runFrom_dispatch Int.one_pos calm_twoFilesSession hpaths
  have hfiles : (blaming.eligible twoNodes).map twoFilesSession.known = twoNodes := by decide
  rw [hfiles] at hdispatch
  change (blaming.dispatch _ twoNodes).runFrom twoFilesSession =
    (.ok (evaluations (blaming.turns (twoFiles [49]) [] twoNodes)), later) at hdispatch
  rw [turns_blaming] at hdispatch
  have halone := h blaming twoFilesSession twoNodes Int.one_pos hpaths calm_twoFilesSession _ _ hdispatch
    Evaluation.defaultTimeout _ (aggregate_evaluations _ _) "a.json" _
    (List.mem_cons_of_mem _ List.mem_cons_self)
  have htwo : (Outcome.errorsUnder
      [blamed, .failure "a.json" (Failure.emptyCompletion "model").described] "a.json").length = 2 := rfl
  rw [← (Report.errorsFor_perm _ "a.json").length_eq, halone] at htwo
  exact nomatch htwo

end Evaluator

end CodeReview
