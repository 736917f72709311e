import CodeReview.Proofs.Review.Containment

/-!
# What a review pays for

The budget of a review is for its evaluations and for the assessment. A call for a summary is made without
a look at it.

* `PaidFor`: every call has a payment of its own.
* `Settled`: logs in which each call comes right after its payment, but for calls for summaries.
* `Accounted`: a session with such a log, whose payments are what the budget has granted. Every phase of a
  review keeps it, whatever the client does and whether or not the phase fails.
* `Plan.review_pays`: what follows for whole reviews. Every call is paid for exactly if none is for a
  summary.
-/

namespace CodeReview

open ReviewM

/-! ## Payments in a log -/

@[simp] def Event.call? : Event → Option Call
  | asked call => some call
  | paid _ => none

@[simp] def Event.payment? : Event → Option Rat
  | asked _ => none
  | paid tokens => some tokens

theorem Session.calls_eq (session : Session) : session.calls = session.events.filterMap Event.call? :=
  List.filterMap_congr fun event _ => by cases event <;> rfl

/-- What the log says was taken out of the budget. -/
def Session.payments (session : Session) : List Rat := session.events.filterMap Event.payment?

/-- What a call is worth: what its prompt is taken for, but no more than the budget can hold. -/
def Call.price (call : Call) (capacity : Rat) : Rat :=
  min capacity (estimateTokens call.user.length : Int)

/-- Every call has a payment of its own before it, of at least what it is worth. -/
def PaidFor (capacity : Rat) (events : List Event) : Prop :=
  ∃ payment : Fin events.length → Fin events.length,
    Set.InjOn payment {i | ∃ call, events[i] = .asked call} ∧
    ∀ i call, events[i] = .asked call →
      payment i < i ∧ ∃ tokens, events[payment i] = .paid tokens ∧ call.price capacity ≤ tokens

theorem countP_eq_card_filter {α : Type} (p : α → Bool) (items : List α) :
    items.countP p = (Finset.univ.filter fun i : Fin items.length => p items[i]).card := by
  have hitems : (List.finRange items.length).map (items[·]) = items := by
    rw [← List.ofFn_eq_map]
    exact List.ofFn_getElem
  conv_lhs => rw [← hitems, List.countP_map]
  rw [List.countP_eq_length_filter, Finset.card_def, Finset.filter_val, Fin.univ_def, Multiset.filter_coe,
    Multiset.coe_card]
  simp [Function.comp_def]

/-- There are no fewer payments than calls that have one of their own. -/
theorem PaidFor.length_le {capacity : Rat} {events : List Event} (h : PaidFor capacity events) :
    (events.filterMap Event.call?).length ≤ (events.filterMap Event.payment?).length := by
  obtain ⟨payment, hinj, hpaid⟩ := h
  rw [List.length_filterMap_eq_countP, List.length_filterMap_eq_countP, countP_eq_card_filter,
    countP_eq_card_filter]
  have hasked {i : Fin events.length} (hi : events[i].call?.isSome) : ∃ call, events[i] = .asked call := by
    cases hevent : events[i] with
    | asked call => exact ⟨call, rfl⟩
    | paid tokens => rw [hevent] at hi; exact nomatch hi
  refine Finset.card_le_card_of_injOn payment (fun i hi => ?_) (hinj.mono fun i hi => ?_)
  · obtain ⟨call, hcall⟩ := hasked (Finset.mem_filter.1 hi).2
    obtain ⟨-, tokens, htokens, -⟩ := hpaid i call hcall
    exact Finset.mem_filter.2 ⟨Finset.mem_univ _, by rw [htokens]; rfl⟩
  · exact hasked (Finset.mem_filter.1 hi).2

/-! ## Settled logs -/

/-- Each call comes right after a payment that is worth it, and each payment is for a call. Calls for
summaries, if there may be any, are not paid for. -/
inductive Settled (capacity : Rat) (summaries : Bool) : List Event → Prop
  | nil : Settled capacity summaries []
  | bought {events : List Event} {tokens : Rat} {call : Call} (h : Settled capacity summaries events)
      (hcall : call.purpose ≠ .rollup) (hprice : call.price capacity ≤ tokens) :
      Settled capacity summaries (events ++ [.paid tokens] ++ [.asked call])
  | unpaid {events : List Event} {call : Call} (h : Settled capacity summaries events)
      (hcall : call.purpose = .rollup) (hsummaries : summaries = true) :
      Settled capacity summaries (events ++ [.asked call])

/-- The calls that are not for summaries. -/
def payable (calls : List Call) : List Call := calls.filter (·.purpose ≠ .rollup)

namespace Settled

variable {capacity : Rat} {summaries : Bool} {events : List Event}

/-- Each call but those for summaries comes right after its payment. -/
theorem exists_payment (h : Settled capacity summaries events) {earlier rest : List Event} {call : Call}
    (heq : events = earlier ++ .asked call :: rest) (hcall : call.purpose ≠ .rollup) :
    ∃ first tokens, earlier = first ++ [.paid tokens] ∧ call.price capacity ≤ tokens := by
  induction h generalizing rest with
  | nil => exact absurd heq.symm (List.append_ne_nil_of_right_ne_nil _ (by simp))
  | @bought events tokens other h _ hprice ih =>
    obtain ⟨rfl, hother⟩ | ⟨rest, heq⟩ := snoc_eq_append_cons heq
    · obtain rfl := Event.asked.inj hother
      exact ⟨events, tokens, rfl, hprice⟩
    · obtain ⟨-, hpaid⟩ | ⟨rest, heq⟩ := snoc_eq_append_cons heq
      · exact nomatch hpaid
      · exact ih heq
  | unpaid h hother _ ih =>
    obtain ⟨-, hlast⟩ | ⟨rest, heq⟩ := snoc_eq_append_cons heq
    · obtain rfl := Event.asked.inj hlast
      exact absurd hother hcall
    · exact ih heq

/-- There are as many payments as calls that are not for summaries, of at least what these are worth. -/
theorem payments_eq (h : Settled capacity summaries events) :
    (events.filterMap Event.payment?).length = (payable (events.filterMap Event.call?)).length ∧
    ((payable (events.filterMap Event.call?)).map (·.price capacity)).sum ≤
      (events.filterMap Event.payment?).sum := by
  induction h with
  | nil => exact ⟨rfl, le_rfl⟩
  | bought h hcall hprice ih =>
    have hpaid := add_le_add ih.2 hprice
    simpa [payable, hcall, List.filterMap_cons, ih.1] using hpaid
  | unpaid h hcall hsummaries ih => simpa [payable, hcall, List.filterMap_cons] using ih

theorem summaries_of_mem (h : Settled capacity summaries events) {call : Call}
    (hmem : call ∈ events.filterMap Event.call?) (hcall : call.purpose = .rollup) : summaries = true := by
  induction h with
  | nil => exact nomatch hmem
  | bought h hother _ ih =>
    rw [List.filterMap_append, List.filterMap_append] at hmem
    rcases List.mem_append.1 hmem with hmem | hmem
    · exact ih (by simpa using hmem)
    · obtain rfl := List.mem_singleton.1 hmem
      exact absurd hcall hother
  | unpaid h _ hsummaries _ => exact hsummaries

/-- The payment for a call stands one place before it. -/
theorem getElem?_pred (h : Settled capacity summaries events) {i : Fin events.length} {call : Call}
    (hi : events[i] = .asked call) (hcall : call.purpose ≠ .rollup) :
    0 < i.1 ∧ ∃ tokens, events[i.1 - 1]? = some (.paid tokens) ∧ call.price capacity ≤ tokens := by
  have hsplit : events = events.take i ++ .asked call :: events.drop (i + 1) := by
    rw [← hi]
    simp
  obtain ⟨first, tokens, hfirst, hprice⟩ := h.exists_payment hsplit hcall
  have hlength : i.1 = first.length + 1 := by
    have htake := congrArg List.length hfirst
    simpa [i.2.le] using htake
  refine ⟨by omega, tokens, ?_, hprice⟩
  rw [← List.getElem?_take_of_lt (show i.1 - 1 < i.1 by omega), hfirst, hlength]
  simp

/-- In a settled log every call is paid for exactly if none is for a summary. -/
theorem paidFor_iff (h : Settled capacity summaries events) :
    PaidFor capacity events ↔ ∀ call ∈ events.filterMap Event.call?, call.purpose ≠ .rollup := by
  constructor
  · intro hpaid call hcall
    have hcount := hpaid.length_le
    rw [h.payments_eq.1, payable] at hcount
    have hall := List.length_filter_eq_length_iff.1 (le_antisymm (List.length_filter_le ..) hcount)
    exact of_decide_eq_true (hall call hcall)
  · intro hcalls
    have hbefore (i : Fin events.length) (call : Call) (hi : events[i] = .asked call) :=
      h.getElem?_pred hi (hcalls call (List.mem_filterMap.2 ⟨_, List.getElem_mem i.2, congrArg _ hi⟩))
    refine ⟨fun i => ⟨i - 1, by omega⟩, ?_, fun i call hi => ?_⟩
    · rintro i ⟨call, hi⟩ j ⟨other, hj⟩ heq
      have hpos := (hbefore i call hi).1
      have hpos' := (hbefore j other hj).1
      simp only [Fin.mk.injEq] at heq
      exact Fin.ext (by omega)
    · obtain ⟨hpos, tokens, htokens, hprice⟩ := hbefore i call hi
      exact ⟨Nat.sub_lt hpos Nat.one_pos, tokens, (List.getElem?_eq_some_iff.1 htokens).2, hprice⟩

end Settled

/-! ## Sessions -/

/-- The payments of a session are what its budget has granted since the start. -/
def Granted (start : Bucket Rat) (session : Session) : Prop :=
  ∃ moves, session.bucket = start.after moves ∧ session.payments = start.grants moves

/-- A session whose log is settled, out of a budget as it was at the start. -/
structure Accounted (start : Bucket Rat) (summaries : Bool) (session : Session) : Prop where
  granted : Granted start session
  settled : Settled start.capacity summaries session.events

/-- The last thing in the log is a payment of so many tokens, for a call that has not been made. -/
structure Owed (start : Bucket Rat) (summaries : Bool) (tokens : Rat) (session : Session) : Prop where
  granted : Granted start session
  settled : ∃ events, session.events = events ++ [.paid (start.wanted tokens)] ∧
    Settled start.capacity summaries events

section

variable {start : Bucket Rat} {summaries : Bool} {client : Client}

theorem Granted.asked {session : Session} (h : Granted start session) (call : Call) :
    Granted start (session.log (.asked call)) := by
  obtain ⟨moves, hbucket, hpayments⟩ := h
  refine ⟨moves, hbucket, hpayments ▸ ?_⟩
  simp [Session.payments, Session.log, List.filterMap_cons]

/-- Whoever takes tokens makes moves, and gets what these are granted. -/
theorem Granted.exists_moves {session : Session} (h : Granted start session) {tokens : Rat}
    {result : Except (Refusal Rat) Rat} {timed : Bucket.Timed Rat}
    (hacquire : session.bucket.acquire session.clock tokens none = (result, timed)) :
    ∃ moves, timed.bucket = start.after moves ∧
      session.payments ++ result.toOption.toList = start.grants moves := by
  obtain ⟨earlier, hbucket, hpayments⟩ := h
  obtain ⟨moves, hafter, hgrants⟩ := Bucket.exists_moves_of_attempts Bucket.patience none none tokens
    ⟨session.bucket, session.clock, []⟩
  change Bucket.attempts _ none none (session.bucket.wanted tokens) ⟨session.bucket, session.clock, []⟩ =
    _ at hacquire
  rw [hacquire] at hafter hgrants
  refine ⟨earlier ++ moves, ?_, ?_⟩
  · rw [Bucket.after_append, ← hbucket]; exact hafter
  · rw [Bucket.grants_append, ← hbucket, hpayments]; exact congrArg _ hgrants

theorem Accounted.ofLedger : Session.OfLedger (Accounted start summaries) := fun _ _ _ h =>
  ⟨h.granted, h.settled⟩

theorem Accounted.close {session : Session} (h : Accounted start summaries session) :
    Accounted start summaries { session with bucket := session.bucket.close } := by
  obtain ⟨⟨moves, hbucket, hpayments⟩, hsettled⟩ := h
  refine ⟨⟨moves ++ [.close], ?_, ?_⟩, hsettled⟩
  · rw [Bucket.after_append, ← hbucket]; rfl
  · rw [Bucket.grants_append, ← hpayments]; exact (List.append_nil _).symm

/-- A call for a summary is not paid for. -/
theorem Accounted.asked {session : Session} (h : Accounted start summaries session) {call : Call}
    (hcall : call.purpose = .rollup) (hsummaries : summaries = true) :
    Accounted start summaries (session.log (.asked call)) :=
  ⟨h.granted.asked call, h.settled.unpaid hcall hsummaries⟩

/-- The call that is owed may be any that is worth no more than was paid. -/
theorem Owed.asked {session : Session} {tokens : Int} (h : Owed start summaries tokens session)
    {call : Call} (hcall : call.purpose ≠ .rollup) (hprice : estimateTokens call.user.length ≤ tokens) :
    Accounted start summaries (session.log (.asked call)) := by
  obtain ⟨hgranted, events, hevents, hsettled⟩ := h
  refine ⟨hgranted.asked call, ?_⟩
  rw [Session.log, hevents]
  refine hsettled.bought hcall ?_
  rw [Call.price, Bucket.wanted_eq, min_comm]
  exact min_le_min_right _ ((Int.cast_le.2 hprice).trans (le_max_left ..))

/-- Whoever has paid owes a call. A payment that is refused is not in the log. -/
theorem triple_pay_accounted (tokens : Int) {I : Session → Prop}
    (hI : ∀ s bucket clock events, I s → I { s with bucket, clock, events }) :
    Triple (fun s => Accounted start summaries s ∧ I s) (pay tokens)
      (fun _ s => Owed start summaries tokens s ∧ I s) fun _ => Accounted start summaries := by
  refine triple_pay (Q := fun _ s => Owed start summaries tokens s ∧ I s)
    (fun s paid timed hs hacquire => ?_) fun s refusal timed hs hacquire => ?_
  · obtain ⟨hs, hI'⟩ := hs
    obtain ⟨moves, hbucket, hpayments⟩ := hs.granted.exists_moves hacquire
    have hpaid : paid = start.wanted tokens := by
      obtain ⟨earlier, hstart, -⟩ := hs.granted
      rw [Bucket.eq_wanted_of_attempts hacquire, hstart, Bucket.wanted, Bucket.wanted,
        Bucket.capacity_after]
    refine ⟨⟨⟨moves, hbucket, ?_⟩, s.events, by rw [← hpaid]; rfl, hs.settled⟩, hI s _ _ _ hI'⟩
    rw [← hpayments]
    simp [Session.payments, Session.log, Except.toOption]
  · obtain ⟨moves, hbucket, hpayments⟩ := hs.1.granted.exists_moves hacquire
    exact ⟨⟨moves, hbucket, (List.append_nil _).symm.trans hpayments⟩, hs.1.settled⟩

theorem estimateTokens_le {length length' : Int} (h : length ≤ length') :
    estimateTokens length ≤ estimateTokens length' :=
  max_le_max_left 1 (Int.ediv_le_ediv (by decide) h)

/-- The batch pays for what it asks. -/
theorem Evaluator.invariant_accounted (evaluator : Evaluator) :
    evaluator.Invariant (Accounted start summaries) where
  ledger := Accounted.ofLedger
  purchase late path prompt := evaluator.triple_purchase late path prompt
    (triple_pay_accounted _ fun _ _ _ _ => id) (fun _ h => ⟨h.granted, h.settled⟩)
    fun _ hs => hs.asked nofun (estimateTokens_le (le_add_of_nonneg_right (Int.natCast_nonneg _)))
  close h _ := h.close

end

/-! ## Whole reviews -/

namespace Plan

variable {plan : Plan} {prepared : Preparation} {start : Bucket Rat}

/-- A batch without workers fails at once. -/
theorem triple_evaluateFiles_accounted :
    Triple (fun s => Accounted start plan.rollup s ∧ s.cancelled = false) (plan.evaluateFiles prepared)
      (fun _ => Accounted start plan.rollup) fun _ => Accounted start plan.rollup := by
  rcases lt_or_ge 0 plan.settings.workers with hworkers | hworkers
  · exact (triple_evaluateFiles (plan.evaluator prepared).invariant_accounted hworkers).post
      fun _ _ h => h.1.1
  · intro session hsession
    have hrun : (plan.evaluateFiles prepared).runFrom session = (.error .noWorkers, session) := by
      rw [evaluateFiles, Evaluator.dispatch]
      split
      · rfl
      · next hworkers' => exact absurd hworkers hworkers'
    rw [hrun]
    exact hsession.1

/-- At the start nothing has been paid for. -/
theorem accounted_session (plan : Plan) (prepared : Preparation) (fs : FileSystem) :
    Accounted prepared.bucket plan.rollup (prepared.session fs) ∧
      (prepared.session fs).cancelled = false :=
  ⟨⟨⟨[], rfl, rfl⟩, .nil⟩, rfl⟩

variable (plan prepared start) in
/-- Whatever becomes of a review, its session is accounted for. -/
theorem triple_conduct_accounted :
    Triple (fun s => Accounted start plan.rollup s ∧ s.cancelled = false) (plan.conduct prepared)
      (fun review s => Accounted start plan.rollup s ∧ review.events = s.events)
      fun _ => Accounted start plan.rollup := by
  rw [conduct]
  refine triple_evaluateFiles_accounted.bind fun report => ?_
  refine (triple_addAssessment report (J := Accounted start plan.rollup)
    (P := Owed start plan.rollup
      (estimateTokens (Prompt.assessment report.summaries report.files.length).length : Int)) (fun _ => id)
    (fun _ => ?_) fun call s hcall huser hs => ?_).bind fun assessed => triple_assuming fun _ => ?_
  · exact ((triple_pay_accounted _ (I := fun _ => True) fun _ _ _ _ => id).conseq
      (fun _ h => ⟨h.1, trivial⟩) (fun _ _ h => h.1) fun _ _ => id)
  · exact hs.asked (by rw [hcall]; rintro ⟨⟩) (by rw [huser])
  refine (triple_addSummaries assessed (fun _ _ h => ⟨h.granted, h.settled⟩)
    fun hrollup call hcall => ?_).bind fun summarized => triple_assuming fun _ => ?_
  · exact (triple_ask_of_log fun _ hs => hs.asked hcall hrollup).conseq (fun _ => id) (fun _ _ => id)
      fun _ _ hs => by split <;> exact hs
  refine (triple_addRecords summarized Accounted.ofLedger fun _ _ _ => id).bind fun _ =>
    triple_get fun session hsession => triple_pure ?_
  rintro _ rfl
  exact ⟨hsession, rfl⟩

/-- The budget of a review is made for so many tokens a minute. -/
theorem budget_of_prepare {fs : FileSystem} {root : String} (h : plan.prepare fs root = .ok prepared) :
    prepared.bucket.Sound ∧ prepared.bucket.capacity = plan.settings.tokensPerMinute ∧
      prepared.bucket.rate = plan.settings.tokensPerMinute / 60 ∧ prepared.bucket.slack = budgetSlack := by
  obtain ⟨checkout, -, h⟩ := exists_of_bind_ok h
  obtain ⟨extraction, -, h⟩ := exists_of_bind_ok h
  obtain ⟨bucket, hbudget, h⟩ := exists_of_bind_ok h
  obtain rfl := Except.ok.inj h
  obtain ⟨made, hfull, hbudget⟩ := exists_of_bind_ok hbudget
  have hcapacity : (0 : Rat) < plan.settings.tokensPerMinute := by
    rw [Bucket.full] at hfull
    split at hfull
    · exact nomatch hfull
    · next hpositive => exact not_le.1 hpositive
  obtain ⟨bucket', hfull', hsound, hfields⟩ :=
    @Bucket.exists_full _ hcapacity none nofun budgetSlack Bucket.budgetSlack_nonneg 0
  obtain rfl := Except.ok.inj (hfull.symm.trans hfull')
  split at hbudget
  · exact nomatch hbudget
  obtain rfl := Except.ok.inj hbudget
  exact ⟨hsound, hfields.1, hfields.2.1, hfields.2.2.1⟩

/-- What a review pays for out of a budget, by the time that it ends in a session. -/
structure Pays (plan : Plan) (start : Bucket Rat) (later : Session) : Prop where
  /-- The payments in the log are what the budget has granted. -/
  granted : Granted start later
  /-- Every call has a payment of its own exactly if none is for a summary. -/
  paidFor_iff : PaidFor start.capacity later.events ↔ ∀ call ∈ later.calls, call.purpose ≠ .rollup
  /-- So it is if no summaries are asked for. -/
  paidFor (h : plan.rollup = false) : PaidFor start.capacity later.events
  /-- Each call but those for summaries comes right after its payment. -/
  paidBefore {earlier rest : List Event} {call : Call}
    (h : later.events = earlier ++ .asked call :: rest) (hcall : call.purpose ≠ .rollup) :
    ∃ first tokens, earlier = first ++ [.paid tokens] ∧ call.price start.capacity ≤ tokens
  /-- Together they are worth no more than the budget could hold at the start and than came in since, but
  for the slack of each payment. -/
  withinBudget : ((payable later.calls).map (·.price start.capacity)).sum ≤ start.capacity +
    start.rate * (later.bucket.filledAt - start.filledAt) + (payable later.calls).length * start.slack

theorem pays_of_accounted {later : Session} (h : Accounted start plan.rollup later)
    (hstart : start.Sound) : plan.Pays start later where
  granted := h.granted
  paidFor_iff := by rw [later.calls_eq]; exact h.settled.paidFor_iff
  paidFor hrollup := h.settled.paidFor_iff.2 fun call hmem hcall =>
    nomatch hrollup.symm.trans (h.settled.summaries_of_mem hmem hcall)
  paidBefore heq := h.settled.exists_payment heq
  withinBudget := by
    obtain ⟨moves, hbucket, hpayments⟩ := h.granted
    obtain ⟨hcount, hsum⟩ := h.settled.payments_eq
    have hbalance := (hstart.balanced_after moves).balance
    have hleft := (hstart.balanced_after moves).sound.nonneg
    rw [← hbucket, ← hpayments, Session.payments, hcount] at hbalance
    rw [← hbucket] at hleft
    rw [later.calls_eq]
    linarith [hstart.le_capacity]

/-- In every review the evaluations and the assessment are paid for, and summaries are not. -/
theorem review_pays {fs : FileSystem} {root : String} (h : plan.prepare fs root = .ok prepared) :
    prepared.bucket.capacity = plan.settings.tokensPerMinute ∧
    prepared.bucket.rate = plan.settings.tokensPerMinute / 60 ∧ prepared.bucket.slack = budgetSlack ∧
    ∃ later, (plan.conduct prepared).runFrom (prepared.session fs) = ((plan.review fs root).1, later) ∧
      plan.Pays prepared.bucket later ∧
      ∀ review, (plan.review fs root).1 = .ok review → review.events = later.events := by
  obtain ⟨hsound, hcapacity, hrate, hslack⟩ := budget_of_prepare h
  have hreview := fst_review h
  refine ⟨hcapacity, hrate, hslack, _, Prod.ext hreview.symm rfl, ?_⟩
  rw [hreview]
  have hconduct := plan.triple_conduct_accounted prepared prepared.bucket _
    (plan.accounted_session prepared fs)
  split at hconduct
  · next review later heq =>
    rw [heq]
    exact ⟨pays_of_accounted hconduct.1 hsound, by rintro _ ⟨⟩; exact hconduct.2⟩
  · next failure later heq =>
    rw [heq]
    exact ⟨pays_of_accounted hconduct hsound, nofun⟩

end Plan

/-! ## A repository of one file -/

/-- With a client that answers every call, the review of the repository comes to a report and has asked for
a summary. -/
theorem exists_conduct_one {bucket : Bucket Rat} (h : bucket.Ready 0) : ∃ review later,
    ((onePlan (.ok "all")).conduct (onePreparation bucket)).runFrom
      ((onePreparation bucket).session oneFile) = (.ok review, later) ∧ AskedForSummary later := by
  have hasked := conduct_one (.ok "all") h
  have hconduct := (onePlan (.ok "all")).triple_conduct (onePreparation bucket) Int.one_pos rfl _
    (Plan.unharmed_session (onePreparation bucket) _ oneFile h)
  split at hconduct
  · next review later heq =>
    rw [heq] at hasked
    exact ⟨review, later, heq, hasked⟩
  · next failure later heq =>
    obtain ⟨-, earlier, call, -, hcall, hfailure, -⟩ := hconduct
    have hanswer : (onePlan (.ok "all")).client earlier call = .ok "all" := by simp [onePlan, hcall]
    cases hanswer.symm.trans hfailure

/-- The summary of the repository is asked for without a payment; the rest keeps to the budget. -/
theorem review_pays_one : ∃ bucket,
    (onePlan (.ok "all")).prepare oneFile "repo" = .ok (onePreparation bucket) ∧
    ∃ later, ((onePlan (.ok "all")).conduct (onePreparation bucket)).runFrom
      ((onePreparation bucket).session oneFile) =
        (((onePlan (.ok "all")).review oneFile "repo").1, later) ∧
    AskedForSummary later ∧ ¬ PaidFor 60000 later.events ∧
    ((payable later.calls).map (·.price 60000)).sum ≤ 60000 +
      1000 * (later.bucket.filledAt - bucket.filledAt) + (payable later.calls).length * budgetSlack := by
  obtain ⟨bucket, hready, hprepare⟩ := prepare_one (.ok "all")
  obtain ⟨hcapacity, hrate, hslack, later, hrun, hpays, -⟩ := Plan.review_pays hprepare
  replace hcapacity : bucket.capacity = 60000 := hcapacity.trans (by norm_cast)
  replace hrate : bucket.rate = 1000 := hrate.trans (by
    change ((60000 : Int) : Rat) / 60 = _
    norm_num)
  replace hslack : bucket.slack = budgetSlack := hslack
  obtain ⟨review, last, hlast, call, hcall, hrollup⟩ := exists_conduct_one hready
  obtain rfl : later = last := congrArg Prod.snd (hrun.symm.trans hlast)
  have hpaid := hpays.paidFor_iff
  have hwithin := hpays.withinBudget
  change PaidFor bucket.capacity _ ↔ _ at hpaid
  change (List.map (fun call : Call => call.price bucket.capacity) _).sum ≤ bucket.capacity +
    bucket.rate * (_ - bucket.filledAt) + _ * bucket.slack at hwithin
  rw [hcapacity] at hpaid
  rw [hcapacity, hrate, hslack] at hwithin
  exact ⟨bucket, hprepare, later, hrun, ⟨call, hcall, hrollup⟩,
    fun h => hpaid.1 h call hcall hrollup, hwithin⟩

/-- A review with a call that nobody has paid for. -/
theorem review_unpaid : ¬ ∀ (plan : Plan) (fs : FileSystem) (root : String) (prepared : Preparation)
    (review : Review), plan.prepare fs root = .ok prepared → (plan.review fs root).1 = .ok review →
    PaidFor prepared.bucket.capacity review.events := by
  intro h
  obtain ⟨bucket, hready, hprepare⟩ := prepare_one (.ok "all")
  obtain ⟨review, later, hrun, call, hcall, hrollup⟩ := exists_conduct_one hready
  have hpaid := h (onePlan (.ok "all")) oneFile "repo" _ review hprepare
    ((Plan.fst_review hprepare).trans (congrArg Prod.fst hrun))
  have hconduct := (onePlan (.ok "all")).triple_conduct_accounted (onePreparation bucket) bucket _
    ((onePlan (.ok "all")).accounted_session (onePreparation bucket) oneFile)
  rw [hrun] at hconduct
  rw [hconduct.2] at hpaid
  exact hconduct.1.settled.paidFor_iff.1 hpaid call (later.calls_eq ▸ hcall) hrollup

end CodeReview
