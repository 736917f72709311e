import CodeReview.Proofs.Budget.Conservation
import CodeReview.Proofs.Steps

/-!
# What steps of a review do

* `runFrom`: what a step gives from a session, and the session that it leaves. There is one lemma for
  each way of building a step.
* `Session.Calm`: the batch has not been cancelled and the budget is ready. A step that pays goes
  through and leaves the session calm (`runFrom_pay`).
-/

namespace CodeReview

/-- Reading a file does not change which file it is. -/
theorem Node.path_of_load {fs : FileSystem} {root content : String} {node loaded : Node}
    (h : node.load fs root = .ok (content, loaded)) : loaded.path = node.path := by
  rw [load] at h
  split at h
  · obtain ⟨-, rfl⟩ := Prod.mk.inj (Except.ok.inj h)
    rfl
  · obtain ⟨bytes, -, hloaded⟩ := exists_of_bind_ok h
    obtain ⟨-, rfl⟩ := Prod.mk.inj (Except.ok.inj hloaded)
    rfl

namespace Session

variable (session : Session)

@[simp] theorem calls_log_asked (call : Call) :
    (session.log (.asked call)).calls = session.calls ++ [call] := by
  simp [calls, log]

@[simp] theorem calls_log_paid (tokens : Rat) :
    (session.log (.paid tokens)).calls = session.calls := by
  simp [calls, log]

@[simp] theorem path_known (node : Node) : (session.known node).path = node.path := by
  rw [known]
  cases h : session.nodes.find? (·.path == node.path) with
  | none => rfl
  | some found => simpa using List.find?_some h

theorem paths_known (nodes : List Node) :
    (nodes.map session.known).map (·.path) = nodes.map (·.path) := by
  rw [List.map_map]
  exact List.map_congr_left fun node _ => session.path_known node

/-- What is kept of one file leaves what is known of the others. -/
theorem known_keep_of_ne {node other : Node} (h : other.path ≠ node.path) :
    (session.keep node).known other = session.known other := by
  have hother : (node.path == other.path) = false := beq_eq_false_iff_ne.2 h.symm
  have hfind (nodes : List Node) :
      (nodes.map fun n => if n.path == node.path then node else n).find?
        (·.path == other.path) = nodes.find? (·.path == other.path) := by
    induction nodes with
    | nil => rfl
    | cons n nodes ih =>
      rw [List.map_cons, List.find?_cons, List.find?_cons, ih]
      by_cases hn : n.path = node.path
      · simp [hn, hother]
      · rw [if_neg (mt beq_iff_eq.1 hn)]
  simp only [known, keep]
  split
  · rw [hfind]
  · rw [List.find?_append, List.find?_singleton, hother]
    simp

/-- Nobody has cancelled the batch, and whoever pays gets its tokens. -/
structure Calm (session : Session) : Prop where
  goesOn : session.cancelled = false
  ready : session.bucket.Ready session.clock

end Session

namespace ReviewM

variable {α β : Type}

/-- What a step gives, and the session after it. -/
def runFrom (step : ReviewM α) (session : Session) : Except Failure α × Session :=
  step.run.run session

@[simp] theorem runFrom_pure (a : α) (session : Session) :
    (pure a : ReviewM α).runFrom session = (.ok a, session) := rfl

@[simp] theorem runFrom_throw (failure : Failure) (session : Session) :
    (throw failure : ReviewM α).runFrom session = (.error failure, session) := rfl

@[simp] theorem runFrom_get (session : Session) :
    (get : ReviewM Session).runFrom session = (.ok session, session) := rfl

@[simp] theorem runFrom_set (later session : Session) :
    (set later : ReviewM PUnit).runFrom session = (.ok ⟨⟩, later) := rfl

@[simp] theorem runFrom_modify (f : Session → Session) (session : Session) :
    (modify f : ReviewM PUnit).runFrom session = (.ok ⟨⟩, f session) := rfl

@[simp] theorem runFrom_lift (result : Except Failure α) (session : Session) :
    (lift result).runFrom session = (result, session) := rfl

theorem runFrom_bind (step : ReviewM α) (next : α → ReviewM β) (session : Session) :
    (step >>= next).runFrom session = match step.runFrom session with
      | (.ok a, later) => (next a).runFrom later
      | (.error failure, later) => (.error failure, later) := by
  unfold runFrom
  rw [ExceptT.run_bind, StateT.run_bind]
  cases step.run.run session with
  | mk result later => cases result <;> rfl

theorem runFrom_tryCatch (step : ReviewM α) (handler : Failure → ReviewM α) (session : Session) :
    (tryCatch step handler : ReviewM α).runFrom session = match step.runFrom session with
      | (.ok a, later) => (.ok a, later)
      | (.error failure, later) => (handler failure).runFrom later := by
  unfold runFrom
  rw [ExceptT.run_tryCatch, StateT.run_bind]
  cases step.run.run session with
  | mk result later => cases result <;> rfl

theorem runFrom_bind_of_ok {step : ReviewM α} {session later : Session} {a : α}
    (h : step.runFrom session = (.ok a, later)) (next : α → ReviewM β) :
    (step >>= next).runFrom session = (next a).runFrom later := by
  rw [runFrom_bind, h]

theorem runFrom_checkpoint (session : Session) : checkpoint.runFrom session =
    (if session.cancelled then .error .batchDeadline else .ok (), session) := by
  rw [checkpoint, runFrom_bind_of_ok (runFrom_get session)]
  split <;> rfl

theorem runFrom_checkpoint_of_goesOn {session : Session} (h : session.cancelled = false) :
    checkpoint.runFrom session = (.ok (), session) := by
  rw [runFrom_checkpoint, h]
  rfl

theorem runFrom_load (root : String) (node : Node) (session : Session) :
    (load root node).runFrom session = match (session.known node).load session.fs root with
      | .ok (content, node) => (.ok content, session.keep node)
      | .error failure => (.error failure, session) := by
  rw [load, runFrom_bind_of_ok (runFrom_get session), runFrom_bind, runFrom_lift]
  cases (session.known node).load session.fs root <;> rfl

theorem runFrom_ask (client : Client) (call : Call) (session : Session) :
    (ask client call).runFrom session =
      (client session.calls call, session.log (.asked call)) := rfl

/-- In a calm session everybody can pay. Only the budget and the log of it change. -/
theorem runFrom_pay {session : Session} (h : session.Calm) (tokens : Int) : ∃ later,
    (pay tokens).runFrom session = (.ok (), later) ∧ later.Calm ∧ later.fs = session.fs ∧
      later.nodes = session.nodes ∧ later.calls = session.calls := by
  obtain ⟨timed, hacquire, hready⟩ := Bucket.acquire_of_ready h.ready tokens
  have hpay : (pay tokens).runFrom session = (.ok (),
      { session with bucket := timed.bucket, clock := timed.clock }.log
        (.paid (session.bucket.wanted tokens))) := by
    rw [pay, runFrom_bind_of_ok (runFrom_get session), hacquire]
    rfl
  exact ⟨_, hpay, ⟨h.goesOn, hready⟩, rfl, rfl, Session.calls_log_paid ..⟩

end ReviewM

end CodeReview
