import CodeReview.Proofs.Review.Session

/-!
# Triples

`Triple P step Q E`: from every session that satisfies `P` the step either gives a value that satisfies
`Q` together with the session after it, or fails with a failure that satisfies `E` together with that
session. Steps come to an end, so with an `E` that nothing satisfies the step gives a value.

There is one rule for each way of building a step, and one for each step of a session. `OfLedger` says
of a property of sessions that it is not about files: steps that read and write files keep it.
-/

namespace CodeReview

/-- The property is not about the files of a session, nor about what is known of them. -/
def Session.OfLedger (I : Session → Prop) : Prop :=
  ∀ ⦃session : Session⦄ fs nodes, I session → I { session with fs, nodes }

theorem Session.OfLedger.and {I J : Session → Prop} (h : OfLedger I) (h' : OfLedger J) :
    OfLedger fun s => I s ∧ J s :=
  fun _ fs nodes hsession => ⟨h fs nodes hsession.1, h' fs nodes hsession.2⟩

namespace ReviewM

variable {α β : Type} {P P' I : Session → Prop} {Q Q' : α → Session → Prop}
  {R : β → Session → Prop} {E E' : Failure → Session → Prop} {step : ReviewM α}

/-- From a session that satisfies `P`, the step gives what satisfies `Q` or fails with what satisfies
`E`. -/
def Triple (P : Session → Prop) (step : ReviewM α) (Q : α → Session → Prop)
    (E : Failure → Session → Prop) : Prop :=
  ∀ session, P session → match step.runFrom session with
    | (.ok a, later) => Q a later
    | (.error failure, later) => E failure later

/-- Whatever a step comes to, the session satisfies what it satisfied before. -/
abbrev Preserves (I : Session → Prop) (step : ReviewM α) : Prop :=
  Triple I step (fun _ => I) fun _ => I

/-! ## Ways of building a step -/

theorem Triple.conseq (h : Triple P step Q E) (hp : ∀ s, P' s → P s) (hq : ∀ a s, Q a s → Q' a s)
    (he : ∀ failure s, E failure s → E' failure s) : Triple P' step Q' E' := by
  intro session hsession
  have hrun := h session (hp session hsession)
  split at hrun
  · exact hq _ _ hrun
  · exact he _ _ hrun

theorem Triple.pre (h : Triple P step Q E) (hp : ∀ s, P' s → P s) : Triple P' step Q E :=
  h.conseq hp (fun _ _ => id) fun _ _ => id

theorem Triple.post (h : Triple P step Q E) (hq : ∀ a s, Q a s → Q' a s) : Triple P step Q' E :=
  h.conseq (fun _ => id) hq fun _ _ => id

/-- A part of the precondition that is not about the session may be taken for granted. -/
theorem triple_assuming {p : Prop} (h : p → Triple P step Q E) :
    Triple (fun s => P s ∧ p) step Q E := fun session hsession => h hsession.2 session hsession.1

theorem Triple.bind {next : α → ReviewM β} (h : Triple P step Q E)
    (hnext : ∀ a, Triple (Q a) (next a) R E) : Triple P (step >>= next) R E := by
  intro session hsession
  have hstep := h session hsession
  rw [runFrom_bind]
  cases hrun : step.runFrom session with
  | mk result later =>
    rw [hrun] at hstep
    cases result with
    | ok a => exact hnext a later hstep
    | error failure => exact hstep

theorem Triple.tryCatch {handler : Failure → ReviewM α} (h : Triple P step Q E)
    (hhandler : ∀ failure, Triple (E failure) (handler failure) Q E') :
    Triple P (tryCatch step handler) Q E' := by
  intro session hsession
  have hstep := h session hsession
  rw [runFrom_tryCatch]
  cases hrun : step.runFrom session with
  | mk result later =>
    rw [hrun] at hstep
    cases result with
    | ok a => exact hstep
    | error failure => exact hhandler failure later hstep

theorem triple_pure {a : α} (h : ∀ s, P s → Q a s) : Triple P (pure a) Q E := h

theorem triple_throw {failure : Failure} (h : ∀ s, P s → E failure s) :
    Triple P (throw failure : ReviewM α) Q E := h

/-- What is decided without a look at the session. -/
theorem triple_lift {result : Except Failure α} (hq : ∀ a, result = .ok a → ∀ s, P s → Q a s)
    (he : ∀ failure, result = .error failure → ∀ s, P s → E failure s) :
    Triple P (lift result) Q E := by
  intro session hsession
  rw [runFrom_lift]
  cases result with
  | ok a => exact hq a rfl session hsession
  | error failure => exact he failure rfl session hsession

theorem triple_modify {f : Session → Session} (h : ∀ s, P s → P' (f s)) :
    Triple P (modify f : ReviewM PUnit) (fun _ => P') E := h

/-- What is done after a look at the session may depend on what it was like. -/
theorem triple_get {next : Session → ReviewM β}
    (h : ∀ session, P session → Triple (· = session) (next session) R E) :
    Triple P (get >>= next) R E := by
  intro session hsession
  rw [runFrom_bind_of_ok (runFrom_get session)]
  exact h session hsession session rfl

theorem triple_set {later : Session} (h : ∀ s, P s → P' later) :
    Triple P (set later : ReviewM PUnit) (fun _ => P') E := h

/-- A step that cannot fail gives a value. -/
theorem Triple.exists_ok {session : Session} (h : Triple P step Q fun _ _ => False)
    (hsession : P session) :
    ∃ a later, step.runFrom session = (.ok a, later) ∧ Q a later := by
  have hrun := h session hsession
  split at hrun
  · next heq => exact ⟨_, _, heq, hrun⟩
  · exact hrun.elim

/-! ## Steps of a session -/

theorem triple_checkpoint : Triple P checkpoint (fun _ s => P s ∧ s.cancelled = false)
    fun _ s => P s ∧ s.cancelled = true := by
  intro session hsession
  rw [runFrom_checkpoint]
  cases hcancelled : session.cancelled with
  | false => exact ⟨hsession, hcancelled⟩
  | true => exact ⟨hsession, hcancelled⟩

theorem preserves_checkpoint : Preserves P checkpoint :=
  triple_checkpoint.conseq (fun _ => id) (fun _ _ h => h.1) fun _ _ h => h.1

/-- Tokens are logged if they are granted; the budget and the clock change in any case. -/
theorem triple_pay {tokens : Int} {Q : Unit → Session → Prop}
    (hq : ∀ s paid timed, P s → s.bucket.acquire s.clock (tokens : Rat) none = (.ok paid, timed) →
      Q () ({ s with bucket := timed.bucket, clock := timed.clock }.log (.paid paid)))
    (he : ∀ s refusal timed, P s →
      s.bucket.acquire s.clock (tokens : Rat) none = (.error refusal, timed) →
      E (refusal.failure fun tokens => toString tokens.floor)
        { s with bucket := timed.bucket, clock := timed.clock }) : Triple P (pay tokens) Q E := by
  intro session hsession
  rw [pay, runFrom_bind_of_ok (runFrom_get session)]
  cases h : session.bucket.acquire session.clock (tokens : Rat) none with
  | mk result timed =>
    cases result with
    | ok paid => exact hq session paid timed hsession h
    | error refusal => exact he session refusal timed hsession h

/-- A call is logged whatever comes of it. -/
theorem triple_ask {client : Client} {call : Call} {Q : String → Session → Prop}
    (hq : ∀ s response, P s → client s.calls call = .ok response → Q response (s.log (.asked call)))
    (he : ∀ s failure, P s → client s.calls call = .error failure →
      E failure (s.log (.asked call))) : Triple P (ask client call) Q E := by
  intro session hsession
  rw [runFrom_ask]
  cases h : client session.calls call with
  | ok response => exact hq session response hsession h
  | error failure => exact he session failure hsession h

/-- If the call matters only as one more in the log, it does not matter what comes of it. -/
theorem triple_ask_of_log {client : Client} {call : Call} (h : ∀ s, P s → I (s.log (.asked call))) :
    Triple P (ask client call) (fun _ => I) fun _ => I :=
  triple_ask (Q := fun _ => I) (fun s _ hs _ => h s hs) fun s _ hs _ => h s hs

theorem preserves_load (hI : Session.OfLedger I) (root : String) (node : Node) :
    Preserves I (load root node) := by
  intro session hsession
  rw [runFrom_load]
  cases (session.known node).load session.fs root with
  | ok loaded => exact hI session.fs _ hsession
  | error failure => exact hsession

end ReviewM

end CodeReview
