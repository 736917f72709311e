import CodeReview.Proofs.Review.Knowledge
import CodeReview.Proofs.Review.Triple

/-!
# What a batch of evaluations keeps

* `Evaluator.purchase`: the one part of an evaluation that touches the budget and the log. The rest reads
  and writes files.
* `Evaluator.Invariant`: what is kept by every purchase, and by closing the budget once the batch has been
  cancelled. A whole batch keeps it (`triple_evaluateAll`, `triple_dispatch`).
* `Evaluation.IsOf`: what a batch gives for a file. It never breaks off, so the outcomes of a batch can be
  collected whatever went wrong (`Evaluation.collectAll_of_isOf`).
-/

namespace CodeReview

open ReviewM

/-- The keys of a map that was put together are all different. -/
theorem Keyed.nodup_keys_ofPairs {α : Type} (pairs : List (String × α)) :
    (ofPairs pairs).keys.Nodup := by
  induction pairs using List.reverseRecOn with
  | nil => exact List.nodup_nil
  | append_singleton pairs last ih =>
    rw [ofPairs, List.foldl_append]
    exact nodup_keys_alter ih last.1 _

namespace Evaluation

/-- The evaluation has not broken off, and if it is done, its outcome is that of the file at the path. -/
def IsOf (path : String) : Evaluation → Prop
  | done outcome => outcome.path = path
  | broken _ => False
  | cancelled | pending => True

theorem collect_of_isOf {path : String} {evaluation : Evaluation} (h : evaluation.IsOf path)
    (timeout : Binary64) :
    ∃ outcome, evaluation.collect path timeout = .ok outcome ∧ outcome.path = path := by
  cases evaluation with
  | done outcome => exact ⟨outcome, rfl, h⟩
  | broken failure => exact h.elim
  | cancelled | pending => exact ⟨_, rfl, rfl⟩

/-- Evaluations none of which has broken off have an outcome each, in order. -/
theorem collectAll_of_isOf {evaluations : Keyed Evaluation}
    (h : ∀ entry ∈ evaluations, entry.2.IsOf entry.1) (timeout : Binary64) :
    ∃ outcomes, collectAll evaluations timeout = .ok outcomes ∧
      outcomes.map (·.path) = evaluations.keys := by
  induction evaluations with
  | nil => exact ⟨[], rfl, rfl⟩
  | cons entry evaluations ih =>
    obtain ⟨hentry, hrest⟩ := List.forall_mem_cons.1 h
    obtain ⟨outcome, houtcome, hpath⟩ := collect_of_isOf hentry timeout
    obtain ⟨outcomes, houtcomes, hpaths⟩ := ih hrest
    refine ⟨outcome :: outcomes, mapM_eq_ok_iff.2 (.cons houtcome (mapM_eq_ok_iff.1 houtcomes)), ?_⟩
    rw [List.map_cons, hpath, hpaths]
    rfl

/-- How evaluations stand when their outcomes are wanted: some may still be going on. -/
def Standing (evaluations wanted : Keyed Evaluation) : Prop :=
  List.Forall₂ (fun given entry => entry = given ∨ entry = (given.1, pending)) evaluations wanted

namespace Standing

variable {evaluations wanted : Keyed Evaluation}

theorem refl (evaluations : Keyed Evaluation) : Standing evaluations evaluations :=
  List.forall₂_same.2 fun _ _ => .inl rfl

theorem keys (h : Standing evaluations wanted) : wanted.keys = evaluations.keys := by
  induction h with
  | nil => rfl
  | cons hentry _ ih =>
    rw [Keyed.keys, List.map_cons, ← Keyed.keys, ih]
    obtain rfl | rfl := hentry <;> rfl

theorem isOf (h : Standing evaluations wanted) (hisOf : ∀ entry ∈ evaluations, entry.2.IsOf entry.1) :
    ∀ entry ∈ wanted, entry.2.IsOf entry.1 := by
  induction h with
  | nil => exact hisOf
  | cons hentry _ ih =>
    obtain ⟨hgiven, hrest⟩ := List.forall_mem_cons.1 hisOf
    refine List.forall_mem_cons.2 ⟨?_, ih hrest⟩
    obtain rfl | rfl := hentry
    · exact hgiven
    · trivial

end Standing

/-- Evaluations by path, one for each file of a list. -/
structure Cover (nodes : List Node) (evaluations : Keyed Evaluation) : Prop where
  nodup : evaluations.keys.Nodup
  isOf : ∀ entry ∈ evaluations, entry.2.IsOf entry.1
  /-- Files with different paths are all there, in order. -/
  keys (h : (nodes.map (·.path)).Nodup) : evaluations.keys = nodes.map (·.path)

theorem cover_ofPairs {nodes : List Node} {pairs : List (String × Evaluation)}
    (hpaths : pairs.map (·.1) = nodes.map (·.path)) (hisOf : ∀ pair ∈ pairs, pair.2.IsOf pair.1) :
    Cover nodes (Keyed.ofPairs pairs) where
  nodup := Keyed.nodup_keys_ofPairs pairs
  isOf entry hentry := hisOf entry (Keyed.mem_of_mem_ofPairs hentry)
  keys h := by rw [Keyed.ofPairs_of_nodup (hpaths ▸ h)]; exact hpaths

end Evaluation

namespace Evaluator

variable (evaluator : Evaluator) {I : Session → Prop}

/-! ## Parts of an evaluation -/

variable {evaluator} in
theorem turn_of_question {fs : FileSystem} {node : Node} {prompt : String}
    (h : evaluator.question fs node = .ok prompt) (earlier : List Call) :
    evaluator.turn fs earlier node = settled node.path (evaluator.answer earlier node.path prompt) := by
  rw [turn, h]
  rfl

/-- Paying for the call about a file and making it. The deadline may pass during the call. -/
def purchase (late : Bool) (path prompt : String) : ReviewM String := do
  ReviewM.pay (cost prompt)
  ReviewM.checkpoint
  if late then ReviewM.cancel
  ReviewM.ask evaluator.client (evaluator.call path prompt)

/-- Reading the response about a file. -/
def read (node : Node) (response : String) : ReviewM Outcome := do
  ReviewM.checkpoint
  let outcome ← ReviewM.lift (Response.outcome response node.path)
  evaluator.keep node outcome
  return outcome

theorem evaluate_eq (late : Bool) (node : Node) :
    evaluator.evaluate (if late then some .asking else none) node = (do
      let content ← ReviewM.load evaluator.root node
      ReviewM.checkpoint
      let response ← evaluator.purchase late node.path (evaluator.prompt node.path content)
      evaluator.read node response) := by
  cases late <;> simp [evaluate, purchase, read]

/-- In a calm session everybody can pay, so the call is made; it comes to what the client says. -/
theorem runFrom_purchase {session : Session} (h : session.Calm) (late : Bool) (path prompt : String) :
    ∃ later, (evaluator.purchase late path prompt).runFrom session =
      (evaluator.client session.calls (evaluator.call path prompt), later) ∧
    later.cancelled = late ∧ later.bucket.Ready later.clock ∧
    later.calls = session.calls ++ [evaluator.call path prompt] := by
  obtain ⟨paid, hpay, hpaid, -, -, hcalls⟩ := runFrom_pay h (cost prompt)
  rw [purchase, runFrom_bind_of_ok hpay, runFrom_bind_of_ok (runFrom_checkpoint_of_goesOn hpaid.goesOn),
    ← hcalls]
  cases late with
  | false => exact ⟨_, rfl, hpaid.goesOn, hpaid.ready, paid.calls_log_asked _⟩
  | true =>
    exact ⟨_, rfl, rfl, hpaid.ready, ({ paid with cancelled := true } : Session).calls_log_asked _⟩

theorem triple_read (hI : Session.OfLedger I) (node : Node) (response : String) :
    Triple I (evaluator.read node response) (fun outcome s => I s ∧ outcome.path = node.path)
      fun _ => I := by
  refine preserves_checkpoint.bind fun _ => ?_
  refine Triple.bind (Q := fun outcome s => I s ∧ outcome.path = node.path)
    (triple_lift (fun outcome houtcome s h => ⟨h, path_of_outcome houtcome⟩) fun _ _ _ => id)
    fun outcome => ?_
  refine Triple.bind (Q := fun _ s => I s ∧ outcome.path = node.path) ?_ fun _ => triple_pure fun _ => id
  rintro session ⟨hsession, hpath⟩
  obtain ⟨later, hkeep, hlater, -⟩ := evaluator.runFrom_keep node outcome hpath session
  rw [hkeep, hlater]
  exact ⟨hI _ _ hsession, hpath⟩

/-! ## Batches -/

/-- What the evaluations of a batch keep: it is not about files, every purchase keeps it, and so does
closing the budget of a batch that has been cancelled. -/
structure Invariant (I : Session → Prop) : Prop where
  ledger : Session.OfLedger I
  purchase (late : Bool) (path prompt : String) :
    Triple (fun s => I s ∧ s.cancelled = false) (evaluator.purchase late path prompt) (fun _ => I)
      fun _ => I
  close {session : Session} (h : I session) (hcancelled : session.cancelled = true) :
    I { session with bucket := session.bucket.close }

/-- Between the payment and the call nothing changes but that the deadline may pass. -/
theorem triple_purchase {P : Session → Prop} (late : Bool) (path prompt : String)
    (hpay : Triple (fun s => I s ∧ s.cancelled = false) (ReviewM.pay (cost prompt))
      (fun _ s => P s ∧ s.cancelled = false) fun _ => I)
    (hcancel : ∀ s, P s → P { s with cancelled := true })
    (hlog : ∀ s, P s → I (s.log (.asked (evaluator.call path prompt)))) :
    Triple (fun s => I s ∧ s.cancelled = false) (evaluator.purchase late path prompt) (fun _ => I)
      fun _ => I := by
  refine hpay.bind fun _ => ?_
  refine Triple.bind (Q := fun _ => P) (triple_checkpoint.conseq (fun _ => id) (fun _ _ h => h.1.1)
    fun _ _ h => (nomatch h.1.2.symm.trans h.2)) fun _ => ?_
  cases late with
  | false => exact triple_ask_of_log hlog
  | true => exact Triple.bind (Q := fun _ => P) (triple_modify hcancel) fun _ => triple_ask_of_log hlog

theorem invariant_cache (cache : SummaryCache) : evaluator.Invariant (·.cache = cache) where
  ledger _ _ _ := id
  purchase late path prompt := evaluator.triple_purchase late path prompt
    (triple_pay (fun _ _ _ h _ => h) fun _ _ _ h _ => h.1) (fun _ => id) fun _ => id
  close h _ := h

theorem invariant_true : evaluator.Invariant fun _ => True where
  ledger _ _ _ _ := trivial
  purchase late path prompt session _ := by split <;> trivial
  close _ _ := trivial

variable {evaluator}

theorem triple_evaluate (h : evaluator.Invariant I) (late : Bool) (node : Node) :
    Triple (fun s => I s ∧ s.cancelled = false)
      (evaluator.evaluate (if late then some .asking else none) node)
      (fun outcome s => I s ∧ outcome.path = node.path) fun _ => I := by
  have hgoesOn : Session.OfLedger (·.cancelled = false) := fun _ _ _ => id
  rw [evaluate_eq]
  refine Triple.bind ((preserves_load (h.ledger.and hgoesOn) _ node).conseq (fun _ => id)
    (fun _ _ => id) fun _ _ h => h.1) fun content => ?_
  refine Triple.bind (triple_checkpoint.conseq (fun _ => id) (fun _ _ h => h.1) fun _ _ h => h.1.1)
    fun _ => ?_
  exact (h.purchase late node.path _).bind fun response => evaluator.triple_read h.ledger node response

/-- A contained evaluation gives an outcome of its file. -/
theorem triple_contained (h : evaluator.Invariant I) (isLate : String → Bool) (node : Node) :
    Triple (fun s => I s ∧ s.cancelled = false) (evaluator.contained isLate node)
      (fun outcome s => I s ∧ outcome.path = node.path) fun _ _ => False := by
  intro session hsession
  have hevaluate := triple_evaluate h (isLate node.path) node session hsession
  rw [runFrom_contained]
  split at hevaluate
  · next heq => rw [heq]; exact hevaluate
  · next heq => rw [heq]; exact ⟨hevaluate, rfl⟩

/-- What a batch leaves behind: whoever finds it cancelled finds the budget closed. -/
def Closing (session : Session) : Prop := session.cancelled = true → session.bucket.closed = true

/-- The files of a batch have an evaluation each, in order, and the batch does not fail. -/
theorem triple_evaluateAll (h : evaluator.Invariant I) (isLate : String → Bool) (nodes : List Node) :
    Triple (fun s => I s ∧ s.cancelled = false) (evaluator.evaluateAll isLate nodes)
      (fun pairs s => (I s ∧ Closing s) ∧ pairs.map (·.1) = nodes.map (·.path) ∧
        ∀ pair ∈ pairs, pair.2.IsOf pair.1) fun _ _ => False := by
  induction nodes with
  | nil =>
    exact triple_pure fun s hs =>
      ⟨⟨hs.1, fun hcancelled => nomatch hs.2.symm.trans hcancelled⟩, rfl, nofun⟩
  | cons node nodes ih =>
    rw [evaluateAll]
    refine (triple_contained h isLate node).bind fun outcome => triple_get ?_
    rintro session ⟨hsession, hpath⟩
    split
    · next hcancelled =>
      refine Triple.bind (Q := fun _ s => I s ∧ Closing s)
        (triple_modify ?_) fun _ => triple_pure fun s hs => ⟨hs, by simp, ?_⟩
      · rintro _ rfl
        exact ⟨h.close hsession hcancelled, fun _ => rfl⟩
      · simp only [List.forall_mem_cons, List.forall_mem_map]
        exact ⟨hpath, fun _ _ => trivial⟩
    · next hgoesOn =>
      refine (ih.pre ?_).bind fun pairs => triple_pure fun s hs => ⟨hs.1, ?_, ?_⟩
      · rintro _ rfl
        exact ⟨hsession, eq_false_of_ne_true hgoesOn⟩
      · rw [List.map_cons, hs.2.1, List.map_cons]
      · exact List.forall_mem_cons.2 ⟨hpath, hs.2.2⟩

/-- A batch with workers does not fail, whatever goes wrong with its files, and keeps what its
evaluations keep. -/
theorem triple_dispatch (h : evaluator.Invariant I) (hworkers : 0 < evaluator.settings.workers)
    (isLate : String → Bool) (files : List Node) :
    Triple (fun s => I s ∧ s.cancelled = false) (evaluator.dispatch isLate files)
      (fun evaluations s => (I s ∧ Closing s) ∧ Evaluation.Cover (evaluator.eligible files) evaluations)
      fun _ _ => False := by
  rw [dispatch, if_neg hworkers.not_ge]
  exact (triple_evaluateAll h isLate _).bind fun pairs => triple_pure fun s hs =>
    ⟨hs.1, Evaluation.cover_ofPairs hs.2.1 hs.2.2⟩

end Evaluator

end CodeReview
