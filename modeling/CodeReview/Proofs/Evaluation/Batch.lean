import CodeReview.Evaluation.Batch
import CodeReview.Proofs.Review.Session

/-!
# What a batch of evaluations does

In a calm session an evaluation looks at three things: its own file, the calls before it, and the files
as the evaluations before it have left them.

* `turn`: the outcome of one file, whatever went wrong with it.
* `turns`: the outcomes of a batch, one turn after the other.
* `runFrom_dispatch`: what a dispatch gives, and the calls it makes.
-/

namespace CodeReview

open ReviewM

/-- Writing a file fails only where the system refuses. -/
theorem FileSystem.writeInto_failsWith (fs : FileSystem) (path text : String) :
    FailsWith (fun failure => ∃ error path, failure = .system error path)
      (fs.writeInto path text) := by
  have hfolders (made : String) (names : List String) (fs : FileSystem) (path : String) :
      FailsWith (fun failure => ∃ error path, failure = .system error path)
        (fs.makeFoldersFrom path made names) := by
    induction names generalizing made fs with
    | nil => exact .pure fs
    | cons name rest ih =>
      rw [makeFoldersFrom]
      split
      · exact ih _ fs
      · rintro _ ⟨⟩; exact ⟨_, _, rfl⟩
      · split
        · exact ih _ _
        · rintro _ ⟨⟩; exact ⟨_, _, rfl⟩
      · rintro _ ⟨⟩; exact ⟨_, _, rfl⟩
  refine (hfolders _ _ fs _).bind fun fs => ?_
  rw [writeBytes]
  split
  · rintro _ ⟨⟩; exact ⟨_, _, rfl⟩
  · nofun
  · split
    · nofun
    · rintro _ ⟨⟩; exact ⟨_, _, rfl⟩
  · rintro _ ⟨⟩; exact ⟨_, _, rfl⟩

namespace Evaluator

variable (evaluator : Evaluator)

/-! ## Turns -/

/-- What came of the evaluation of a file, with a failure as an outcome. -/
def settled (path : String) : Except Failure Outcome → Outcome
  | .ok outcome => outcome
  | .error failure => .failure path failure.described

/-- The files after what was read about a file has been saved. What the system refuses is not saved. -/
def saved (fs : FileSystem) (path : String) (fields : Fields) : FileSystem :=
  match evaluator.dumpFolder with
  | none => fs
  | some folder =>
    (fs.writeInto (Path.under folder (dumpName path)) (Json.obj fields).printIndented).toOption.getD fs

/-- The files after an outcome. -/
def filed (fs : FileSystem) (outcome : Outcome) : FileSystem :=
  match outcome.findings.parsed with
  | none => fs
  | some fields => evaluator.saved fs outcome.path fields

/-- The prompt about a file, if its text can be read. -/
def question (fs : FileSystem) (node : Node) : Except Failure String := do
  let (content, _) ← node.load fs evaluator.root
  return evaluator.prompt node.path content

/-- The calls that a file comes with: one if its text can be read, else none. -/
def asked (fs : FileSystem) (node : Node) : List Call :=
  (evaluator.question fs node).toOption.toList.map (evaluator.call node.path)

/-- What comes of a prompt about a file. -/
def answer (earlier : List Call) (path : String) (prompt : String) : Except Failure Outcome := do
  let response ← evaluator.client earlier (evaluator.call path prompt)
  Response.outcome response path

theorem answer_of_error {earlier : List Call} {path prompt : String} {failure : Failure}
    (h : evaluator.client earlier (evaluator.call path prompt) = .error failure) :
    evaluator.answer earlier path prompt = .error failure := by
  rw [answer, h]
  rfl

theorem answer_of_ok {earlier : List Call} {path prompt response : String}
    (h : evaluator.client earlier (evaluator.call path prompt) = .ok response) :
    evaluator.answer earlier path prompt = Response.outcome response path := by
  rw [answer, h]
  exact pure_bind response _

/-- The outcome of a file; whatever went wrong is a failure of that file. -/
def turn (fs : FileSystem) (earlier : List Call) (node : Node) : Outcome :=
  settled node.path (evaluator.question fs node >>= evaluator.answer earlier node.path)

/-- The outcomes of a batch. -/
def turns (fs : FileSystem) (earlier : List Call) : List Node → List Outcome
  | [] => []
  | node :: nodes =>
    let outcome := evaluator.turn fs earlier node
    outcome :: turns (evaluator.filed fs outcome) (earlier ++ evaluator.asked fs node) nodes

/-- The calls of a batch. -/
def calls (fs : FileSystem) (earlier : List Call) : List Node → List Call
  | [] => []
  | node :: nodes =>
    evaluator.asked fs node ++ calls (evaluator.filed fs (evaluator.turn fs earlier node))
      (earlier ++ evaluator.asked fs node) nodes

theorem path_of_outcome {response path : String} {outcome : Outcome}
    (h : Response.outcome response path = .ok outcome) : outcome.path = path := by
  rw [Response.outcome] at h
  split at h
  · obtain ⟨findings, -, hfindings⟩ := exists_of_bind_ok h
    obtain rfl := Except.ok.inj hfindings
    rfl
  · split at h
    · obtain rfl := Except.ok.inj h
      rfl
    · exact nomatch h

theorem path_turn (fs : FileSystem) (earlier : List Call) (node : Node) :
    (evaluator.turn fs earlier node).path = node.path := by
  rw [turn]
  cases h : evaluator.question fs node >>= evaluator.answer earlier node.path with
  | error failure => rfl
  | ok outcome =>
    obtain ⟨prompt, -, hanswer⟩ := exists_of_bind_ok h
    obtain ⟨response, -, houtcome⟩ := exists_of_bind_ok hanswer
    exact path_of_outcome houtcome

/-- Every file has its outcome, in order. -/
theorem paths_turns (fs : FileSystem) (earlier : List Call) (nodes : List Node) :
    (evaluator.turns fs earlier nodes).map (·.path) = nodes.map (·.path) := by
  induction nodes generalizing fs earlier with
  | nil => rfl
  | cons node nodes ih => rw [turns, List.map_cons, List.map_cons, path_turn, ih]

/-- No file is asked about twice, and the files are asked about in order. -/
theorem purposes_calls (fs : FileSystem) (earlier : List Call) (nodes : List Node) :
    ((evaluator.calls fs earlier nodes).map (·.purpose)).Sublist
      (nodes.map fun node => .evaluation node.path) := by
  induction nodes generalizing fs earlier with
  | nil => exact List.Sublist.slnil
  | cons node nodes ih =>
    rw [calls, asked, List.map_append, List.map_cons]
    cases evaluator.question fs node with
    | error failure => exact (ih _ _).cons _
    | ok prompt => exact (ih _ _).cons_cons _

/-- The files of a list that are evaluated. -/
def eligible (files : List Node) : List Node :=
  files.filter (·.isEligible evaluator.settings.maxEvalBytes)

/-- Outcomes as evaluations under the paths of their files. -/
def evaluations (outcomes : List Outcome) : Keyed Evaluation :=
  outcomes.map fun outcome => (outcome.path, .done outcome)

theorem keys_evaluations (outcomes : List Outcome) :
    (evaluations outcomes).keys = outcomes.map (·.path) := by
  rw [Keyed.keys, evaluations, List.map_map]
  rfl

/-! ## Steps -/

theorem runFrom_dump (path : String) (fields : Fields) (session : Session) :
    (evaluator.dump path fields).runFrom session =
      (.ok (), { session with fs := evaluator.saved session.fs path fields }) := by
  rw [dump, saved]
  cases evaluator.dumpFolder with
  | none => rfl
  | some folder =>
    dsimp only
    rw [runFrom_bind_of_ok (runFrom_get session)]
    have hfails := session.fs.writeInto_failsWith (Path.under folder (dumpName path))
      (Json.obj fields).printIndented
    generalize session.fs.writeInto _ _ = result at hfails
    cases result with
    | ok fs => rfl
    | error failure =>
      obtain ⟨error, path, rfl⟩ := hfails failure rfl
      rfl

/-- What is kept of an outcome is known of its own file alone. -/
theorem runFrom_keep (node : Node) (outcome : Outcome) (hpath : outcome.path = node.path)
    (session : Session) : ∃ later, (evaluator.keep node outcome).runFrom session = (.ok (), later) ∧
      later = { session with fs := evaluator.filed session.fs outcome, nodes := later.nodes } ∧
      ∀ other : Node, other.path ≠ node.path → later.known other = session.known other := by
  rw [keep, filed, ← hpath]
  cases outcome.findings.summary.bind Text.nonEmpty? with
  | none =>
    cases outcome.findings.parsed with
    | none => exact ⟨session, rfl, rfl, fun _ _ => rfl⟩
    | some fields => exact ⟨_, evaluator.runFrom_dump .., rfl, fun _ _ => rfl⟩
  | some summary =>
    have hknown (other : Node) (hother : other.path ≠ outcome.path) :
        (session.keep { session.known node with summary := some summary }).known other =
          session.known other :=
      session.known_keep_of_ne (by simpa [hpath] using hother)
    dsimp only
    rw [runFrom_bind_of_ok (runFrom_modify ..)]
    cases outcome.findings.parsed with
    | none => exact ⟨_, rfl, rfl, hknown⟩
    | some fields => exact ⟨_, evaluator.runFrom_dump .., rfl, hknown⟩

theorem runFrom_contained (isLate : String → Bool) (node : Node) (session : Session) :
    (evaluator.contained isLate node).runFrom session =
      let (result, later) := (evaluator.evaluate
        (if isLate node.path then some .asking else none) node).runFrom session
      (.ok (settled node.path result), later) := by
  rw [contained, runFrom_bind, runFrom_tryCatch, runFrom_bind]
  cases (evaluator.evaluate _ node).runFrom session with
  | mk result later => cases result <;> rfl

/-- The session after the turn of a file. -/
structure Turned (node : Node) (outcome : Outcome) (asked : List Call) (session later : Session) :
    Prop where
  calm : later.Calm
  fs : later.fs = evaluator.filed session.fs outcome
  calls : later.calls = session.calls ++ asked
  /-- Nothing new is known of the other files. -/
  known {other : Node} (h : other.path ≠ node.path) : later.known other = session.known other

variable {session : Session}

/-- Reading a response, once it has come. -/
theorem runFrom_read (h : session.Calm) (node : Node) (response : String) : ∃ later,
    (do
      ReviewM.checkpoint
      let outcome ← ReviewM.lift (Response.outcome response node.path)
      evaluator.keep node outcome
      return outcome : ReviewM Outcome).runFrom session =
      (Response.outcome response node.path, later) ∧
    evaluator.Turned node (settled node.path (Response.outcome response node.path)) []
      session later := by
  rw [runFrom_bind_of_ok (runFrom_checkpoint_of_goesOn h.goesOn), runFrom_bind, runFrom_lift]
  cases houtcome : Response.outcome response node.path with
  | error failure => exact ⟨session, rfl, h, rfl, (List.append_nil _).symm, fun _ => rfl⟩
  | ok outcome =>
    obtain ⟨later, hkeep, hlater, hothers⟩ :=
      evaluator.runFrom_keep node outcome (path_of_outcome houtcome) session
    dsimp only
    rw [runFrom_bind_of_ok hkeep]
    refine ⟨later, rfl, ?_, ?_, ?_, fun hother => hothers _ hother⟩
    · rw [hlater]; exact ⟨h.goesOn, h.ready⟩
    · rw [hlater]; rfl
    · rw [hlater]; exact (List.append_nil _).symm

/-- Asking about a file, once its text is there. -/
theorem runFrom_answer (h : session.Calm) (node : Node) (prompt : String) : ∃ later,
    (do
      ReviewM.pay (cost prompt)
      ReviewM.checkpoint
      let response ← ReviewM.ask evaluator.client (evaluator.call node.path prompt)
      ReviewM.checkpoint
      let outcome ← ReviewM.lift (Response.outcome response node.path)
      evaluator.keep node outcome
      return outcome : ReviewM Outcome).runFrom session =
      (evaluator.answer session.calls node.path prompt, later) ∧
    evaluator.Turned node (settled node.path (evaluator.answer session.calls node.path prompt))
      [evaluator.call node.path prompt] session later := by
  obtain ⟨paid, hpay, hpaid, hfs, hnodes, hcalls⟩ := runFrom_pay h (cost prompt)
  have hknown (other : Node) : paid.known other = session.known other := by
    rw [Session.known, hnodes, ← Session.known]
  have hasked : (paid.log (.asked (evaluator.call node.path prompt))).Calm :=
    ⟨hpaid.goesOn, hpaid.ready⟩
  have hlog : (paid.log (.asked (evaluator.call node.path prompt))).calls =
      session.calls ++ [evaluator.call node.path prompt] :=
    (paid.calls_log_asked _).trans (by rw [hcalls])
  rw [runFrom_bind_of_ok hpay, runFrom_bind_of_ok (runFrom_checkpoint_of_goesOn hpaid.goesOn),
    runFrom_bind, runFrom_ask, hcalls]
  cases hclient : evaluator.client session.calls (evaluator.call node.path prompt) with
  | error failure =>
    rw [evaluator.answer_of_error hclient]
    exact ⟨_, rfl, hasked, hfs, hlog, fun _ => hknown _⟩
  | ok response =>
    rw [evaluator.answer_of_ok hclient]
    obtain ⟨later, hread, hturned⟩ := evaluator.runFrom_read hasked node response
    refine ⟨later, hread, hturned.calm, ?_, ?_, fun hother => ?_⟩
    · rw [hturned.fs, ← hfs]; rfl
    · rw [hturned.calls, hlog, List.append_nil]
    · exact (hturned.known hother).trans (hknown _)

/-- In a calm session nothing but the file itself keeps an evaluation from its call. -/
theorem runFrom_evaluate (h : session.Calm) (node : Node) : ∃ later,
    (evaluator.evaluate none node).runFrom session =
      (evaluator.question session.fs (session.known node) >>=
        evaluator.answer session.calls node.path, later) ∧
    evaluator.Turned node (evaluator.turn session.fs session.calls (session.known node))
      (evaluator.asked session.fs (session.known node)) session later := by
  rw [evaluate, runFrom_bind, runFrom_load, turn, asked, question, Session.path_known]
  cases hload : (session.known node).load session.fs evaluator.root with
  | error failure => exact ⟨session, rfl, h, rfl, (List.append_nil _).symm, fun _ => rfl⟩
  | ok loaded =>
    obtain ⟨content, loaded⟩ := loaded
    have hpath : loaded.path = node.path := (Node.path_of_load hload).trans (session.path_known node)
    have hkept : (session.keep loaded).Calm := ⟨h.goesOn, h.ready⟩
    obtain ⟨later, hanswer, hturned⟩ :=
      evaluator.runFrom_answer hkept node (evaluator.prompt node.path content)
    dsimp only
    rw [runFrom_bind_of_ok (runFrom_checkpoint_of_goesOn hkept.goesOn), if_neg (by decide),
      if_neg (by decide), hanswer]
    exact ⟨later, rfl, hturned.calm, hturned.fs, hturned.calls, fun hother =>
      (hturned.known hother).trans (session.known_keep_of_ne (hpath ▸ hother))⟩

/-- In a calm session the turn of a file comes to its outcome. -/
theorem runFrom_contained_of_calm (h : session.Calm) (node : Node) : ∃ later,
    (evaluator.contained (fun _ => false) node).runFrom session =
      (.ok (evaluator.turn session.fs session.calls (session.known node)), later) ∧
    evaluator.Turned node (evaluator.turn session.fs session.calls (session.known node))
      (evaluator.asked session.fs (session.known node)) session later := by
  obtain ⟨later, hevaluate, hturned⟩ := evaluator.runFrom_evaluate h node
  refine ⟨later, ?_, hturned⟩
  rw [runFrom_contained]
  simp only [Bool.false_eq_true, if_false, hevaluate, turn, Session.path_known]

/-- In a calm session the outcomes of a batch come turn by turn. -/
theorem runFrom_evaluateAll (h : session.Calm) {nodes : List Node}
    (hpaths : (nodes.map (·.path)).Nodup) : ∃ later,
    (evaluator.evaluateAll (fun _ => false) nodes).runFrom session =
      (.ok (evaluations (evaluator.turns session.fs session.calls (nodes.map session.known))),
        later) ∧
    later.calls =
      session.calls ++ evaluator.calls session.fs session.calls (nodes.map session.known) := by
  induction nodes generalizing session with
  | nil => exact ⟨session, rfl, (List.append_nil _).symm⟩
  | cons node nodes ih =>
    obtain ⟨hnode, hnodes⟩ := List.nodup_cons.1 hpaths
    obtain ⟨next, hcontained, hturned⟩ := evaluator.runFrom_contained_of_calm h node
    have hknown : nodes.map next.known = nodes.map session.known :=
      List.map_congr_left fun other hother =>
        hturned.known fun heq => hnode (List.mem_map.2 ⟨other, hother, heq⟩)
    obtain ⟨later, hall, hcalls⟩ := ih hturned.calm hnodes
    rw [hknown, hturned.fs, hturned.calls] at hall hcalls
    refine ⟨later, ?_, ?_⟩
    · rw [evaluateAll, runFrom_bind_of_ok hcontained, runFrom_bind_of_ok (runFrom_get next),
        if_neg (by rw [hturned.calm.goesOn]; decide), runFrom_bind_of_ok hall]
      have hpath : (evaluator.turn session.fs session.calls (session.known node)).path = node.path :=
        (evaluator.path_turn ..).trans (session.path_known node)
      rw [← hpath]
      rfl
    · rw [hcalls, List.append_assoc]
      rfl

/-- In a calm session a dispatch gives the outcomes of the eligible files. -/
theorem runFrom_dispatch (hworkers : 0 < evaluator.settings.workers) (h : session.Calm)
    {files : List Node} (hpaths : (files.map (·.path)).Nodup) : ∃ later,
    (evaluator.dispatch (fun _ => false) files).runFrom session =
      (.ok (evaluations (evaluator.turns session.fs session.calls
        ((evaluator.eligible files).map session.known))), later) ∧
    later.calls = session.calls ++
      evaluator.calls session.fs session.calls ((evaluator.eligible files).map session.known) := by
  have heligible : ((evaluator.eligible files).map (·.path)).Nodup :=
    hpaths.sublist (List.filter_sublist.map _)
  obtain ⟨later, hall, hcalls⟩ := evaluator.runFrom_evaluateAll h heligible
  refine ⟨later, ?_, hcalls⟩
  rw [dispatch, if_neg hworkers.not_ge]
  change (evaluator.evaluateAll _ (evaluator.eligible files) >>= _).runFrom session = _
  rw [runFrom_bind_of_ok hall, Keyed.ofPairs_of_nodup]
  · rfl
  · change (evaluations _).keys.Nodup
    rw [keys_evaluations, paths_turns, Session.paths_known]
    exact heligible

end Evaluator

end CodeReview
