import CodeReview.Proofs.Evaluation.Batch
import CodeReview.Proofs.Review.Aggregation
import CodeReview.Review.Run

/-!
# Which files a session knows

What is learnt of a file is kept in the place of the file, so in all of a review the session knows the
same files in the same order.

* `ReviewM.Keeps`: from a session that knows certain files a step comes to one that knows them, and gives
  what satisfies a postcondition. There is one lemma for each way of building a step.
* `Plan.keeps_report`: a review up to the records, and the files that the report is about.
-/

namespace CodeReview

open ReviewM

/-- The paths of the files that a session knows. -/
def Session.paths (session : Session) : List String := session.nodes.map (·.path)

/-- What is kept of a file that is known takes the place of what was known. -/
theorem Session.paths_keep {session : Session} {node : Node} (h : node.path ∈ session.paths) :
    (session.keep node).paths = session.paths := by
  have hany : session.nodes.any (·.path == node.path) = true := by
    obtain ⟨known, hknown, hpath⟩ := List.mem_map.1 h
    exact List.any_eq_true.2 ⟨known, hknown, beq_iff_eq.2 hpath⟩
  rw [keep, if_pos hany]
  simp only [paths, List.map_map]
  refine List.map_congr_left fun known _ => ?_
  by_cases hpath : known.path = node.path
  · simp [hpath]
  · simp [hpath]

/-- What stands under a key was put there. -/
theorem Keyed.mem_of_mem_ofPairs {α : Type} {pairs : List (String × α)} {pair : String × α}
    (h : pair ∈ ofPairs pairs) : pair ∈ pairs := by
  have hput {m : Keyed α} {key : String} {value : α} (h : pair ∈ m.put key value) :
      pair ∈ m ∨ pair = (key, value) := by
    induction m with
    | nil => exact .inr (List.mem_singleton.1 h)
    | cons entry m ih =>
      obtain ⟨k, a⟩ := entry
      rw [put, alter] at h
      split at h
      · next hkey =>
        rcases List.mem_cons.1 h with rfl | h
        · exact .inr (by rw [beq_iff_eq.1 hkey])
        · exact .inl (List.mem_cons_of_mem _ h)
      · rcases List.mem_cons.1 h with rfl | h
        · exact .inl List.mem_cons_self
        · exact (ih h).imp_left (List.mem_cons_of_mem _)
  induction pairs using List.reverseRecOn with
  | nil => cases h
  | append_singleton pairs last ih =>
    rw [ofPairs, List.foldl_append] at h
    rcases hput h with h | rfl
    · exact List.mem_append_left _ (ih h)
    · exact List.mem_append_right _ List.mem_cons_self

namespace ReviewM

variable {α β : Type} {paths : List String} {p q : α → Prop} {r : β → Prop}

/-- From a session that knows the files at the paths, the step comes to one that knows them, and what it
gives satisfies `q`. -/
def Keeps (paths : List String) (step : ReviewM α) (q : α → Prop) : Prop :=
  ∀ session : Session, session.paths = paths → (step.runFrom session).2.paths = paths ∧
    ∀ a, (step.runFrom session).1 = .ok a → q a

theorem Keeps.imp {step : ReviewM α} (h : Keeps paths step p) (himp : ∀ a, p a → q a) :
    Keeps paths step q := fun session hsession =>
  ⟨(h session hsession).1, fun a ha => himp a ((h session hsession).2 a ha)⟩

theorem keeps_pure {a : α} (h : q a) : Keeps paths (pure a) q := fun _ hsession =>
  ⟨hsession, fun _ hb => Except.ok.inj hb ▸ h⟩

theorem keeps_throw (failure : Failure) : Keeps paths (throw failure : ReviewM α) q :=
  fun _ hsession => ⟨hsession, nofun⟩

theorem keeps_lift {result : Except Failure α} (h : ∀ a, result = .ok a → q a) :
    Keeps paths (lift result) q := fun _ hsession => ⟨hsession, h⟩

theorem keeps_get : Keeps paths (get : ReviewM Session) (·.paths = paths) :=
  fun _ hsession => ⟨hsession, fun _ hlater => Except.ok.inj hlater ▸ hsession⟩

theorem keeps_set {later : Session} (h : later.paths = paths) :
    Keeps paths (set later : ReviewM PUnit) fun _ => True :=
  fun _ _ => ⟨h, fun _ _ => trivial⟩

theorem keeps_modify {f : Session → Session} (h : ∀ session, session.paths = paths →
    (f session).paths = paths) : Keeps paths (modify f : ReviewM PUnit) fun _ => True :=
  fun session hsession => ⟨h session hsession, fun _ _ => trivial⟩

theorem Keeps.bind {step : ReviewM α} {next : α → ReviewM β} (h : Keeps paths step p)
    (hnext : ∀ a, p a → Keeps paths (next a) r) : Keeps paths (step >>= next) r := by
  intro session hsession
  obtain ⟨hlater, hgives⟩ := h session hsession
  rw [runFrom_bind]
  cases hrun : step.runFrom session with
  | mk result later =>
    rw [hrun] at hlater hgives
    cases result with
    | error failure => exact ⟨hlater, nofun⟩
    | ok a => exact hnext a (hgives a rfl) later hlater

theorem Keeps.tryCatch {step : ReviewM α} {handler : Failure → ReviewM α} (h : Keeps paths step q)
    (hhandler : ∀ failure, Keeps paths (handler failure) q) :
    Keeps paths (tryCatch step handler) q := by
  intro session hsession
  obtain ⟨hlater, hgives⟩ := h session hsession
  rw [runFrom_tryCatch]
  cases hrun : step.runFrom session with
  | mk result later =>
    rw [hrun] at hlater hgives
    cases result with
    | error failure => exact hhandler failure later hlater
    | ok a => exact ⟨hlater, hgives⟩

/-- A step that is taken only on a condition, in front of others. -/
theorem Keeps.before {step : ReviewM Unit} {next : Unit → ReviewM β} (h : Keeps paths step fun _ => True)
    (hnext : Keeps paths (next ()) r) (c : Prop) [Decidable c] :
    Keeps paths (if c then step >>= next else next ()) r := by
  split
  · exact h.bind fun _ _ => hnext
  · exact hnext

/-! ## Steps of a review -/

theorem keeps_checkpoint : Keeps paths checkpoint fun _ => True :=
  keeps_get.bind fun session _ => by
    split
    · exact keeps_throw _
    · exact keeps_pure trivial

theorem keeps_cancel : Keeps paths cancel fun _ => True := keeps_modify fun _ hsession => hsession

theorem keeps_closeBudget : Keeps paths closeBudget fun _ => True :=
  keeps_modify fun _ hsession => hsession

theorem keeps_pay (tokens : Int) : Keeps paths (pay tokens) fun _ => True := by
  refine keeps_get.bind fun session hsession => ?_
  dsimp only
  refine Keeps.bind (keeps_set ?_) fun _ _ => ?_
  · exact hsession
  · split
    · exact keeps_modify fun _ hlater => hlater
    · exact keeps_throw _

theorem keeps_ask (client : Client) (call : Call) : Keeps paths (ask client call) fun _ => True :=
  keeps_get.bind fun _ _ => (keeps_modify fun _ hsession => hsession).bind fun _ _ =>
    keeps_lift fun _ _ => trivial

/-- Reading a file that is known. -/
theorem keeps_load (root : String) {node : Node} (h : node.path ∈ paths) :
    Keeps paths (load root node) fun _ => True := by
  refine keeps_get.bind fun session hsession => ?_
  refine (keeps_lift (q := fun loaded => loaded.2.path = node.path) fun loaded hloaded => ?_).bind
    fun loaded hpath => ?_
  · exact (Node.path_of_load hloaded).trans (session.path_known node)
  · have hkeep : (session.keep loaded.2).paths = paths := by
      rw [Session.paths_keep, hsession]
      rw [hsession, hpath]
      exact h
    exact (keeps_set hkeep).bind fun _ _ => keeps_pure trivial

end ReviewM

namespace Evaluator

variable (evaluator : Evaluator) {paths : List String}

theorem keeps_dump (path : String) (fields : Fields) :
    Keeps paths (evaluator.dump path fields) fun _ => True := by
  intro session hsession
  rw [runFrom_dump]
  exact ⟨hsession, fun _ _ => trivial⟩

theorem keeps_dumpParsed (path : String) (parsed : Option Fields) :
    Keeps paths (match parsed with
      | some fields => evaluator.dump path fields
      | _ => pure ()) fun _ => True := by
  cases parsed with
  | none => exact keeps_pure trivial
  | some fields => exact evaluator.keeps_dump path fields

theorem keeps_keep {node : Node} (h : node.path ∈ paths) (outcome : Outcome) :
    Keeps paths (evaluator.keep node outcome) fun _ => True := by
  rw [keep]
  dsimp only
  split
  · refine Keeps.bind (keeps_modify fun session hsession => ?_) fun _ _ =>
      evaluator.keeps_dumpParsed _ _
    rw [Session.paths_keep, hsession]
    rw [hsession]
    exact (session.path_known node).symm ▸ h
  · exact evaluator.keeps_dumpParsed _ _

/-- An evaluation gives an outcome of its file. -/
theorem keeps_evaluate (cancelledDuring : Option EvaluationStep) {node : Node} (h : node.path ∈ paths) :
    Keeps paths (evaluator.evaluate cancelledDuring node) (·.path = node.path) := by
  have hread (response : String) : Keeps paths (do
      checkpoint
      let outcome ← lift (Response.outcome response node.path)
      evaluator.keep node outcome
      return outcome) (·.path = node.path) :=
    keeps_checkpoint.bind fun _ _ =>
      Keeps.bind (keeps_lift fun _ => path_of_outcome) fun outcome houtcome =>
        (evaluator.keeps_keep h outcome).bind fun _ _ => keeps_pure houtcome
  have hask (prompt : String) : Keeps paths (do
      let response ← ask evaluator.client (evaluator.call node.path prompt)
      checkpoint
      let outcome ← lift (Response.outcome response node.path)
      evaluator.keep node outcome
      return outcome) (·.path = node.path) :=
    (keeps_ask _ _).bind fun response _ => hread response
  rw [evaluate]
  refine (keeps_load evaluator.root h).bind fun content _ => keeps_checkpoint.bind fun _ _ => ?_
  refine keeps_cancel.before ((keeps_pay _).bind fun _ _ => keeps_checkpoint.bind fun _ _ => ?_) _
  exact keeps_cancel.before (hask _) _

/-- An evaluation that is contained always gives an outcome of its file. -/
theorem keeps_contained (isLate : String → Bool) {node : Node} (h : node.path ∈ paths) :
    Keeps paths (evaluator.contained isLate node) (·.path = node.path) := by
  intro session hsession
  obtain ⟨hlater, hgives⟩ :=
    evaluator.keeps_evaluate (if isLate node.path then some .asking else none) h session hsession
  rw [runFrom_contained]
  refine ⟨hlater, fun outcome houtcome => ?_⟩
  rw [← Except.ok.inj houtcome]
  cases hresult : ((evaluator.evaluate _ node).runFrom session).1 with
  | error failure => rfl
  | ok found => exact hgives found hresult

/-- A batch gives every file an evaluation, which is about that file. -/
theorem keeps_evaluateAll (isLate : String → Bool) {nodes : List Node}
    (h : ∀ node ∈ nodes, node.path ∈ paths) :
    Keeps paths (evaluator.evaluateAll isLate nodes) fun pairs =>
      pairs.map (·.1) = nodes.map (·.path) ∧
        ∀ path outcome, (path, Evaluation.done outcome) ∈ pairs → outcome.path = path := by
  induction nodes with
  | nil => exact keeps_pure ⟨rfl, fun _ _ h => (List.not_mem_nil h).elim⟩
  | cons node nodes ih =>
    obtain ⟨hnode, hnodes⟩ := List.forall_mem_cons.1 h
    rw [evaluateAll]
    refine (evaluator.keeps_contained isLate hnode).bind fun outcome houtcome => ?_
    refine keeps_get.bind fun _ _ => ?_
    split
    · refine keeps_closeBudget.bind fun _ _ => keeps_pure ⟨by simp, ?_⟩
      simp [houtcome]
    · refine (ih hnodes).bind fun pairs hgiven => ?_
      obtain ⟨hpaths, hpairs⟩ := hgiven
      refine keeps_pure ⟨by simp [hpaths], ?_⟩
      intro path other hmem
      rcases List.mem_cons.1 hmem with heq | hmem
      · cases heq
        exact houtcome
      · exact hpairs path other hmem

/-- The evaluations of a batch are those of files of the list. -/
theorem keeps_dispatch (isLate : String → Bool) {files : List Node}
    (h : ∀ node ∈ files, node.path ∈ paths) :
    Keeps paths (evaluator.dispatch isLate files) fun evaluations =>
      ∀ path evaluation, (path, evaluation) ∈ evaluations → path ∈ files.map (·.path) ∧
        ∀ outcome, evaluation = .done outcome → outcome.path = path := by
  have heligible : ∀ node ∈ evaluator.eligible files, node.path ∈ paths :=
    fun node hnode => h node (List.mem_filter.1 hnode).1
  rw [dispatch]
  split
  · exact keeps_throw _
  refine (evaluator.keeps_evaluateAll isLate heligible).bind fun pairs hgiven => ?_
  obtain ⟨hpaths, hpairs⟩ := hgiven
  refine keeps_pure fun path evaluation hmem => ?_
  replace hmem := Keyed.mem_of_mem_ofPairs hmem
  refine ⟨?_, fun outcome heq => hpairs path outcome (heq ▸ hmem)⟩
  have hpath : path ∈ pairs.map (·.1) := List.mem_map_of_mem (f := (·.1)) hmem
  rw [hpaths] at hpath
  exact (List.filter_sublist.map _).subset hpath

end Evaluator

/-! ## The repository as a whole -/

section Whole

variable (client : Client) (settings : Settings) {paths : List String}

theorem Assessment.keeps_comments (summaries : Keyed String) (count : Int) :
    Keeps paths (comments client settings summaries count) fun _ => True := by
  rw [comments]
  refine Keeps.bind (p := fun _ => True)
    (Keeps.tryCatch ?_ fun failure => keeps_pure trivial) fun given _ => ?_
  · exact (keeps_ask _ _).bind fun _ _ => keeps_pure trivial
  · cases given <;> exact keeps_pure trivial

theorem Assessment.keeps_paidComments (summaries : Keyed String) (count : Int) :
    Keeps paths (paidComments client settings summaries count) fun _ => True := by
  refine keeps_get.bind fun session _ => ?_
  split
  · exact keeps_pure trivial
  · exact (keeps_pay _).bind fun _ _ => keeps_comments client settings summaries count

theorem Rollup.keeps_summarize (texts : List String) :
    Keeps paths (summarize client settings texts) fun _ => True := by
  unfold summarize
  dsimp only
  split
  · exact keeps_pure trivial
  · exact keeps_ask _ _

theorem Rollup.keeps_summarize? (texts : List String) :
    Keeps paths (summarize? client settings texts) fun _ => True := by
  rw [summarize?]
  refine Keeps.bind (p := fun _ => True) (Keeps.tryCatch ?_ fun failure => ?_) fun given _ => ?_
  · exact (keeps_summarize client settings texts).bind fun _ _ => keeps_pure trivial
  · split
    · exact keeps_pure trivial
    · exact keeps_throw _
  · cases given <;> exact keeps_pure trivial

theorem Rollup.keeps_folderSummary (run folder : String) (texts : List String) :
    Keeps paths (folderSummary client settings run folder texts) fun _ => True := by
  refine keeps_get.bind fun session _ => ?_
  split
  · exact keeps_pure trivial
  · refine (keeps_summarize? client settings texts).bind fun summary _ => ?_
    split
    · exact (keeps_modify fun _ hsession => hsession).bind fun _ _ => keeps_pure trivial
    · exact keeps_pure trivial

theorem Rollup.keeps_rootSummary (run : String) (texts : List String) :
    Keeps paths (rootSummary client settings run texts) fun _ => True := by
  refine keeps_get.bind fun session _ => ?_
  split
  · exact keeps_pure trivial
  · refine (keeps_summarize? client settings texts).bind fun summary _ => ?_
    split
    · exact (keeps_modify fun _ hsession => hsession).bind fun _ _ => keeps_pure trivial
    · exact keeps_pure trivial

theorem Rollup.keeps_folderSummaries (run : String) (summaries : Keyed (List String))
    (folders : List String) :
    Keeps paths (folderSummaries client settings run summaries folders) fun _ => True := by
  induction folders with
  | nil => exact keeps_pure trivial
  | cons folder rest ih =>
    exact (keeps_folderSummary _ _ _ _ _).bind fun _ _ => ih.bind fun _ _ => keeps_pure trivial

theorem Rollup.keeps_fold (run : String) (summaries : Keyed String) :
    Keeps paths (fold client settings run summaries) fun _ => True :=
  (keeps_folderSummaries _ _ _ _ _).bind fun _ _ => (keeps_rootSummary _ _ _ _).bind fun _ _ =>
    keeps_pure trivial

end Whole

/-! ## Reviews -/

namespace Plan

variable (plan : Plan) {paths : List String}

theorem subset_of_prioritize (graph : Dependency.Graph) (files : List Node) :
    prioritize graph files ⊆ files := by
  have hleading : mostDependedOn graph files ⊆ files := by
    intro node hnode
    have hmem := List.mem_mergeSort.1 (List.mem_of_mem_take hnode)
    exact (List.mem_filter.1 hmem).1
  intro node hnode
  rw [prioritize] at hnode
  simp only [List.mem_append, List.mem_filter] at hnode
  rcases hnode with (hnode | ⟨⟨hnode, -⟩, -⟩) | ⟨⟨hnode, -⟩, -⟩
  · exact hleading hnode
  · exact hnode
  · exact hnode

/-- The report is about files of the repository. -/
theorem keeps_evaluateFiles (prepared : Preparation)
    (h : ∀ node ∈ prepared.checkout.files, node.path ∈ paths) :
    Keeps paths (plan.evaluateFiles prepared) fun report =>
      report.files ⊆ prepared.checkout.files.map (·.path) := by
  have hsubset := subset_of_prioritize prepared.graph prepared.checkout.files
  refine ((plan.evaluator prepared).keeps_dispatch plan.isLate fun node hnode =>
    h node (hsubset hnode)).bind fun evaluations hevaluations => keeps_lift fun report hreport => ?_
  obtain ⟨outcomes, houtcomes, hfiles⟩ := exists_of_bind_ok hreport
  obtain rfl := Except.ok.inj hfiles
  rw [Report.files_ofOutcomes]
  intro path hpath
  obtain ⟨outcome, houtcome, rfl⟩ := List.mem_map.1 (List.mem_eraseDups.1 hpath)
  obtain ⟨⟨key, evaluation⟩, hmem, hcollect⟩ := exists_of_mem_mapM_ok houtcomes houtcome
  obtain ⟨hkey, hdone⟩ := hevaluations key evaluation hmem
  have hsame : outcome.path = key := by
    cases evaluation with
    | done other =>
      obtain rfl := Except.ok.inj hcollect
      exact hdone other rfl
    | broken failure => exact nomatch hcollect
    | cancelled | pending =>
      obtain rfl := Except.ok.inj hcollect
      rfl
  rw [hsame]
  exact List.map_subset _ hsubset hkey

theorem keeps_addAssessment (report : Report) :
    Keeps paths (plan.addAssessment report) (·.files = report.files) := by
  rw [addAssessment]
  split
  · exact keeps_pure rfl
  · exact (Assessment.keeps_paidComments _ _ _ _).bind fun _ _ => keeps_pure rfl

theorem keeps_addSummaries (report : Report) :
    Keeps paths (plan.addSummaries report) (·.files = report.files) := by
  rw [addSummaries]
  split
  · exact keeps_pure rfl
  · exact (Rollup.keeps_fold _ _ _ _).bind fun _ _ => keeps_pure rfl

/-- The report to which a review has come when records are added is about files of the repository. -/
theorem keeps_report (prepared : Preparation)
    (h : ∀ node ∈ prepared.checkout.files, node.path ∈ paths) :
    Keeps paths (do
      let report ← plan.evaluateFiles prepared
      let report ← plan.addAssessment report
      plan.addSummaries report) fun report =>
        report.files ⊆ prepared.checkout.files.map (·.path) := by
  refine (plan.keeps_evaluateFiles prepared h).bind fun first hfirst => ?_
  refine (plan.keeps_addAssessment first).bind fun second hsecond => ?_
  refine (plan.keeps_addSummaries second).imp fun report hreport => ?_
  rw [hreport, hsecond]
  exact hfirst

end Plan

end CodeReview
