import CodeReview.Proofs.Evaluation.Invariants
import CodeReview.Proofs.Evaluation.Isolation

/-!
# Triples for the phases of a review

What each phase of a review comes to, given what its calls come to.

* `Assessment.triple_paidComments`: an assessment is paid for and asked for once, unless the budget is
  closed. It does not fail when the call does.
* `Rollup.triple_fold`: summaries are asked for in turn. A call that fails in the model is passed over, any
  other failure ends the review.
* `Plan.triple_evaluateFiles` and the rules behind it: the report has the files of the batch, and the
  phases after it leave them alone.
-/

namespace CodeReview

open ReviewM

section

variable {client : Client} {settings : Settings} {I J P : Session → Prop}
  {E : Failure → Session → Prop}

/-! ## The assessment -/

/-- Whatever the client does, the assessment comes to comments. -/
theorem Assessment.triple_comments (summaries : Keyed String) (count : Int)
    (hcall : ∀ call s, call.purpose = .assessment → call.user = Prompt.assessment summaries count →
      P s → I (s.log (.asked call))) :
    Triple P (comments client settings summaries count) (fun _ => I) E := by
  rw [comments]
  refine Triple.bind (Q := fun _ => I) (Triple.tryCatch (E := fun _ => I) ?_ fun failure => triple_pure
    fun _ => id) fun given => ?_
  · exact (triple_ask_of_log fun s => hcall _ s rfl rfl).bind fun _ => triple_pure fun _ => id
  · cases given <;> exact triple_pure fun _ => id

theorem Assessment.triple_paidComments (summaries : Keyed String) (count : Int)
    (hclosed : ∀ s, J s → s.bucket.closed = true → I s)
    (hpay : Triple (fun s => J s ∧ s.bucket.closed = false)
      (pay (estimateTokens (Prompt.assessment summaries count).length)) (fun _ => P) E)
    (hcall : ∀ call s, call.purpose = .assessment → call.user = Prompt.assessment summaries count →
      P s → I (s.log (.asked call))) :
    Triple J (paidComments client settings summaries count) (fun _ => I) E := by
  refine triple_get fun session hsession => ?_
  split
  · next hclose => exact triple_pure fun s hs => hs ▸ hclosed session hsession hclose
  · next hopen =>
    refine Triple.bind (hpay.pre ?_) fun _ => triple_comments summaries count hcall
    rintro _ rfl
    exact ⟨hsession, eq_false_of_ne_true hopen⟩

/-! ## Summaries -/

namespace Rollup

/-- A summary for which the model fails is left out. -/
theorem triple_summarize? (texts : List String)
    (hempty : (texts.filter (!·.isEmpty)).isEmpty → ∀ s, P s → I s)
    (hask : ∀ call : Call, call.purpose = .rollup → Triple P (ask client call) (fun _ => I)
      fun failure s => if failure.kind = .completion then I s else E failure s) :
    Triple P (summarize? client settings texts) (fun _ => I) E := by
  have hsummarize : Triple P (summarize client settings texts) (fun _ => I)
      fun failure s => if failure.kind = .completion then I s else E failure s := by
    unfold summarize
    dsimp only
    split
    · next hnone => exact triple_pure (hempty hnone)
    · exact hask _ rfl
  rw [summarize?]
  refine Triple.bind (Q := fun _ => I) (Triple.tryCatch
    (hsummarize.bind fun _ => triple_pure fun _ => id) fun failure => ?_) fun given => ?_
  · split
    · exact triple_pure fun _ => id
    · exact triple_throw fun _ => id
  · cases given <;> exact triple_pure fun _ => id

/-- A summary that is asked for is kept, if there is one. -/
theorem triple_newSummary {texts : List String}
    (h : Triple P (summarize? client settings texts) (fun _ => I) E)
    (keep : String → SummaryCache → SummaryCache)
    (hcache : ∀ s summary, I s → I { s with cache := keep summary s.cache })
    (answer : String → Option String) :
    Triple P (do
      let some summary ← summarize? client settings texts | return none
      modify fun session => { session with cache := keep summary session.cache }
      return answer summary) (fun _ => I) E := by
  refine h.bind fun summary => ?_
  cases summary with
  | none => exact triple_pure fun _ => id
  | some summary =>
    exact Triple.bind (Q := fun _ => I) (triple_modify fun s => hcache s summary) fun _ =>
      triple_pure fun _ => id

variable {run : String}
  (hfolder : ∀ s folder summary, I s → I { s with cache := s.cache.keepFolder run folder summary })
  (hroot : ∀ s summary, I s → I { s with cache := s.cache.keepRoot run summary })
  (hask : ∀ call : Call, call.purpose = .rollup → Triple I (ask client call) (fun _ => I)
    fun failure s => if failure.kind = .completion then I s else E failure s)

include hask

section

include hfolder

theorem triple_folderSummary (folder : String) (texts : List String) :
    Triple I (folderSummary client settings run folder texts) (fun _ => I) E := by
  refine triple_get fun session hsession => ?_
  split
  · exact triple_pure fun s hs => hs ▸ hsession
  · refine (triple_newSummary (triple_summarize? texts (fun _ _ => id) hask)
      (fun summary cache => cache.keepFolder run folder summary) (fun s => hfolder s folder) some).pre ?_
    rintro _ rfl
    exact hsession

theorem triple_folderSummaries (summaries : Keyed (List String)) (folders : List String) :
    Triple I (folderSummaries client settings run summaries folders) (fun _ => I) E := by
  induction folders with
  | nil => exact triple_pure fun _ => id
  | cons folder rest ih =>
    exact (triple_folderSummary hfolder hask folder _).bind fun _ => ih.bind fun _ =>
      triple_pure fun _ => id

end

include hroot

theorem triple_rootSummary (texts : List String) :
    Triple I (rootSummary client settings run texts) (fun _ => I) E := by
  refine triple_get fun session hsession => ?_
  split
  · exact triple_pure fun s hs => hs ▸ hsession
  · refine (triple_newSummary (triple_summarize? texts (fun _ _ => id) hask)
      (fun summary cache => cache.keepRoot run summary) hroot Text.nonEmpty?).pre ?_
    rintro _ rfl
    exact hsession

include hfolder

/-- A rollup changes what is kept of its own run, and nothing else but the log. -/
theorem triple_fold (summaries : Keyed String) :
    Triple I (fold client settings run summaries) (fun _ => I) E :=
  (triple_folderSummaries hfolder hask _ _).bind fun _ =>
    (triple_rootSummary hroot hask _).bind fun _ => triple_pure fun _ => id

end Rollup

end

/-! ## Whole reviews -/

namespace Plan

variable {plan : Plan} {prepared : Preparation} {I J P : Session → Prop}
  {E : Failure → Session → Prop}

/-- The files that a review evaluates, in order. -/
def evaluated (plan : Plan) (prepared : Preparation) : List Node :=
  (plan.evaluator prepared).eligible (prioritize prepared.graph prepared.checkout.files)

/-- With workers, a batch comes to the report of its files, whatever goes wrong with them. -/
theorem triple_evaluateFiles (h : (plan.evaluator prepared).Invariant I)
    (hworkers : 0 < plan.settings.workers) :
    Triple (fun s => I s ∧ s.cancelled = false) (plan.evaluateFiles prepared)
      (fun report s => (I s ∧ Evaluator.Closing s) ∧
        (((plan.evaluated prepared).map (·.path)).Nodup →
          report.files = (plan.evaluated prepared).map (·.path))) E := by
  refine ((Evaluator.triple_dispatch h hworkers plan.isLate _).conseq (fun _ => id) (fun _ _ => id)
    fun _ _ => False.elim).bind fun evaluations => ?_
  refine triple_lift ?_ ?_
  · rintro report hreport s ⟨hs, hcover⟩
    refine ⟨hs, fun hnodup => ?_⟩
    obtain ⟨outcomes, houtcomes, hpaths⟩ :=
      Evaluation.collectAll_of_isOf hcover.isOf plan.settings.resultTimeout
    rw [Evaluation.aggregate_of_collectAll houtcomes] at hreport
    obtain rfl := Except.ok.inj hreport
    rw [Report.files_ofOutcomes, hpaths, hcover.keys hnodup]
    exact Evaluator.eraseDups_of_nodup hnodup
  · rintro failure hfailure s ⟨-, hcover⟩
    obtain ⟨outcomes, houtcomes, -⟩ :=
      Evaluation.collectAll_of_isOf hcover.isOf plan.settings.resultTimeout
    rw [Evaluation.aggregate_of_collectAll houtcomes] at hfailure
    exact nomatch hfailure

theorem triple_addAssessment (report : Report) (hskip : ∀ s, J s → I s)
    (hpay : plan.assess = true → Triple (fun s => J s ∧ s.bucket.closed = false)
      (pay (estimateTokens (Prompt.assessment report.summaries report.files.length).length))
      (fun _ => P) E)
    (hcall : ∀ call s, call.purpose = .assessment →
      call.user = Prompt.assessment report.summaries report.files.length →
      P s → I (s.log (.asked call))) :
    Triple J (plan.addAssessment report) (fun added s => I s ∧ added.files = report.files) E := by
  rw [addAssessment]
  split
  · exact triple_pure fun s hs => ⟨hskip s hs, rfl⟩
  · next hassess =>
    have hassess : plan.assess = true := by simp_all
    exact (Assessment.triple_paidComments _ _ (fun s hs _ => hskip s hs) (hpay hassess) hcall).bind
      fun _ => triple_pure fun s hs => ⟨hs, rfl⟩

theorem triple_addSummaries (report : Report) (hcache : ∀ s cache, I s → I { s with cache })
    (hask : plan.rollup = true → ∀ call : Call, call.purpose = .rollup →
      Triple I (ask plan.client call) (fun _ => I)
        fun failure s => if failure.kind = .completion then I s else E failure s) :
    Triple I (plan.addSummaries report) (fun added s => I s ∧ added.files = report.files) E := by
  rw [addSummaries]
  split
  · exact triple_pure fun s hs => ⟨hs, rfl⟩
  · next hrollup =>
    have hrollup : plan.rollup = true := by simp_all
    exact (Rollup.triple_fold (fun s _ _ => hcache s _) (fun s _ => hcache s _) (hask hrollup) _).bind
      fun _ => triple_pure fun s hs => ⟨hs, rfl⟩

/-- Records are files, and nothing but them can fail. -/
theorem triple_addRecords (report : Report) (hI : Session.OfLedger I)
    (he : ∀ failure s, plan.recordFile ≠ none → I s → E failure s) :
    Triple I (plan.addRecords prepared report) (fun _ => I) E := by
  rw [addRecords]
  cases hrecord : plan.recordFile with
  | none => exact triple_pure fun _ => id
  | some path =>
    refine triple_get fun session hsession => ?_
    exact Triple.bind (Q := fun _ => I)
      (triple_set fun _ _ => hI _ session.nodes hsession) fun _ =>
        triple_lift (fun _ _ _ => id) fun failure _ s => he failure s (by simp [hrecord])

end Plan

end CodeReview
