import CodeReview.Proofs.Completion.Delays

/-!
# Conversations

A conversation sends its request, and after each response that decides nothing it waits and sends it
again (`exchange`). How it ends is a matter of its last response alone (`Ends`): the response decides, or
the delay after it is not found, or it was the last one that was asked for. `converse_runs` says so of
every rest of a conversation, by induction on the number of requests that are left.

The responses tell which of these it is (`complete_of_decides`, `complete_of_goesOn`,
`complete_of_overflows`). A conversation keeps to its protocol until the delay after a response is too large
to be a floating-point number (`Overflows`); that takes more than `Retry.maxBackoffs` attempts.
-/

namespace CodeReview.Service

variable {service : Service} {request : Request} {script : Nat → Response} {jitter : Nat → Float}

/-! ## Responses that lead to another attempt -/

/-- After the response at a position, which decides nothing, nobody says how long to wait, and the delay
that doubles with every attempt is too large. -/
def Overflows (script : Nat → Response) (n : Nat) : Prop :=
  ¬ Decides (script n) ∧ LeavesOpen (script n) ∧ Retry.maxBackoffs ≤ n

/-- The response at a position decides nothing, and there is a delay after it. -/
def GoesOn (script : Nat → Response) (n : Nat) : Prop :=
  ¬ Decides (script n) ∧ ¬ Garbled (script n) ∧ ¬ Overflows script n

theorem goesOn_iff {n : Nat} (jitter : Nat → Float) :
    GoesOn script n ↔ ¬ Decides (script n) ∧ Succeeds (delay (n + 1) (jitter n) (script n)) := by
  rw [succeeds_delay_iff, Nat.lt_succ_iff, GoesOn, Overflows]
  tauto

theorem Overflows.delay_eq {n : Nat} (h : Overflows script n) (jitter : Nat → Float) :
    delay (n + 1) (jitter n) (script n) = .error .tooLargeForFloat := by
  rw [h.2.1.delay_eq]
  exact Retry.backoff_eq_error_iff.2 ⟨Nat.lt_succ_of_le h.2.2, rfl⟩

/-! ## What is done -/

/-- The request is sent once more than there are delays, which are slept in between. -/
def exchange (request : Request) (delays : List Float) : List Step :=
  delays.flatMap (fun seconds => [.post request, .sleep seconds]) ++ [.post request]

theorem exchange_cons (request : Request) (seconds : Float) (delays : List Float) :
    exchange request (seconds :: delays) =
      .post request :: .sleep seconds :: exchange request delays := rfl

theorem Conversation.requests_of_exchange {conversation : Conversation} {delays : List Float}
    (h : conversation.steps = exchange request delays) :
    conversation.requests = List.replicate (delays.length + 1) request := by
  rw [requests, h]
  clear h
  induction delays with
  | nil => rfl
  | cons seconds delays ih =>
    rw [exchange_cons, List.length_cons, List.replicate_succ, ← ih]
    rfl

theorem Conversation.sleeps_of_exchange {conversation : Conversation} {delays : List Float}
    (h : conversation.steps = exchange request delays) : conversation.sleeps = delays := by
  rw [sleeps, h]
  clear h
  induction delays with
  | nil => rfl
  | cons seconds delays ih =>
    rw [exchange_cons]
    exact congrArg (seconds :: ·) ih

/-- From the response at a position on, responses decide nothing, and these are the delays after them. -/
inductive Waits (script : Nat → Response) (jitter : Nat → Float) : Nat → List Float → Prop
  | nil (n : Nat) : Waits script jitter n []
  | cons {n : Nat} {seconds : Float} {delays : List Float} (hopen : ¬ Decides (script n))
    (hdelay : delay (n + 1) (jitter n) (script n) = .ok seconds)
    (hrest : Waits script jitter (n + 1) delays) :
    Waits script jitter n (seconds :: delays)

theorem Waits.goesOn {first : Nat} {delays : List Float} (h : Waits script jitter first delays) {n : Nat}
    (hfirst : first ≤ n) (hn : n < first + delays.length) : GoesOn script n := by
  induction h with
  | nil first => exact absurd hn (Nat.not_lt.2 hfirst)
  | @cons first seconds delays hopen hdelay _ ih =>
    rcases Nat.eq_or_lt_of_le hfirst with rfl | hlater
    · exact (goesOn_iff jitter).2 ⟨hopen, seconds, hdelay⟩
    · rw [List.length_cons] at hn
      exact ih hlater (by omega)

/-! ## How it ends -/

/-- The results that a conversation of at most `attempts` requests may have when the response at a position
is its last one. -/
inductive Ends (service : Service) (script : Nat → Response) (jitter : Nat → Float) (attempts n : Nat) :
    Except Failure String → Prop
  | decided (h : Decides (script n)) : Ends service script jitter attempts n (service.verdict (script n))
  | failed {failure : Failure} (h : ¬ Decides (script n))
    (hdelay : delay (n + 1) (jitter n) (script n) = .error failure) :
    Ends service script jitter attempts n (.error failure)
  | exhausted (h : GoesOn script n) (hlast : n + 1 = attempts) :
    Ends service script jitter attempts n
      (.error (.retriesExhausted service.provider.name service.maxAttempts (reason (script n))))

/-- Another attempt would have followed, were it not the last one. -/
theorem Ends.last_of_goesOn {attempts n : Nat} {result : Except Failure String}
    (h : Ends service script jitter attempts n result) (hgoes : GoesOn script n) : n + 1 = attempts := by
  cases h with
  | decided hdecides => exact absurd hdecides hgoes.1
  | failed _ hfailure =>
    obtain ⟨-, seconds, hseconds⟩ := (goesOn_iff jitter).1 hgoes
    exact nomatch hfailure.symm.trans hseconds
  | exhausted _ hlast => exact hlast

theorem converse_runs (left sent : Nat) (error : String) :
    ∃ delays, Waits script jitter sent delays ∧ delays.length ≤ left ∧
      (converse service request script jitter (left + 1) sent error).steps = exchange request delays ∧
      Ends service script jitter (sent + left + 1) (sent + delays.length)
        (converse service request script jitter (left + 1) sent error).result := by
  induction left generalizing sent error with
  | zero =>
    refine ⟨[], .nil sent, Nat.le_refl 0, ?_⟩
    rw [converse, judge_eq]
    by_cases hdecides : Decides (script sent)
    · rw [if_pos hdecides]
      exact ⟨rfl, .decided hdecides⟩
    · rw [if_neg hdecides]
      cases hdelay : delay (sent + 1) (jitter sent) (script sent) with
      | error failure => exact ⟨rfl, .failed hdecides hdelay⟩
      | ok seconds => exact ⟨rfl, .exhausted ((goesOn_iff jitter).2 ⟨hdecides, seconds, hdelay⟩) rfl⟩
  | succ left ih =>
    rw [converse, judge_eq]
    by_cases hdecides : Decides (script sent)
    · rw [if_pos hdecides]
      exact ⟨[], .nil sent, Nat.zero_le _, rfl, .decided hdecides⟩
    · rw [if_neg hdecides]
      cases hdelay : delay (sent + 1) (jitter sent) (script sent) with
      | error failure => exact ⟨[], .nil sent, Nat.zero_le _, rfl, .failed hdecides hdelay⟩
      | ok seconds =>
        obtain ⟨delays, hdelays, hlength, hsteps, hends⟩ := ih (sent + 1) (reason (script sent))
        refine ⟨seconds :: delays, .cons hdecides hdelay hdelays, Nat.succ_le_succ hlength, ?_, ?_⟩
        · rw [exchange_cons, ← hsteps]
          rfl
        · have hattempts : sent + 1 + left + 1 = sent + (left + 1) + 1 := by omega
          have hposition : sent + 1 + delays.length = sent + (seconds :: delays).length := by
            rw [List.length_cons]
            omega
          rw [hattempts, hposition] at hends
          exact hends

theorem complete_runs (script : Nat → Response) (jitter : Nat → Float) (hkey : service.hasKey = true)
    (hattempts : 0 < service.maxAttempts) (question : Question) :
    ∃ delays, Waits script jitter 0 delays ∧ delays.length < service.maxAttempts ∧
      (service.complete script jitter question).steps = exchange (service.request question) delays ∧
      Ends service script jitter service.maxAttempts delays.length
        (service.complete script jitter question).result := by
  obtain ⟨left, hleft⟩ := Nat.exists_eq_succ_of_ne_zero (Nat.ne_of_gt hattempts)
  have hruns := @converse_runs service (service.request question) script jitter left 0 "no attempt made"
  rw [complete, if_pos hkey, hleft]
  simpa [Nat.lt_succ_iff] using hruns

/-! ## The protocol -/

/-- A request is sent once more than there are responses before a position, and after each of these
responses there is the delay that it leads to. -/
def Exchanges (script : Nat → Response) (jitter : Nat → Float) (request : Request)
    (conversation : Conversation) (n : Nat) : Prop :=
  ∃ delays, delays.length = n ∧ Waits script jitter 0 delays ∧ conversation.steps = exchange request delays

theorem Exchanges.requests_eq {conversation : Conversation} {n : Nat}
    (h : Exchanges script jitter request conversation n) :
    conversation.requests = List.replicate (n + 1) request := by
  obtain ⟨delays, rfl, -, hsteps⟩ := h
  exact Conversation.requests_of_exchange hsteps

theorem Exchanges.posts_eq {conversation : Conversation} {n : Nat}
    (h : Exchanges script jitter request conversation n) : conversation.posts = n + 1 := by
  rw [Conversation.posts, h.requests_eq, List.length_replicate]

theorem Exchanges.length_sleeps {conversation : Conversation} {n : Nat}
    (h : Exchanges script jitter request conversation n) : conversation.sleeps.length = n := by
  obtain ⟨delays, rfl, -, hsteps⟩ := h
  rw [Conversation.sleeps_of_exchange hsteps]

/-- A conversation goes on as far as its responses lead to another attempt. -/
theorem complete_stops (jitter : Nat → Float) (hkey : service.hasKey = true) (question : Question)
    {k : Nat} (hk : k < service.maxAttempts) (hbefore : ∀ n < k, GoesOn script n)
    (hstop : GoesOn script k → k + 1 = service.maxAttempts) :
    Exchanges script jitter (service.request question) (service.complete script jitter question) k ∧
      Ends service script jitter service.maxAttempts k
        (service.complete script jitter question).result := by
  obtain ⟨delays, hwaits, hlength, hsteps, hends⟩ :=
    complete_runs script jitter hkey (Nat.zero_lt_of_lt hk) question
  have hsame : delays.length = k := by
    rcases Nat.lt_trichotomy delays.length k with hless | hsame | hmore
    · have hlast := hends.last_of_goesOn (hbefore _ hless)
      omega
    · exact hsame
    · have hlast := hstop (hwaits.goesOn (Nat.zero_le k) (by omega))
      omega
  subst hsame
  exact ⟨⟨delays, rfl, hwaits, hsteps⟩, hends⟩

theorem complete_of_decides (jitter : Nat → Float) (hkey : service.hasKey = true) (question : Question)
    {k : Nat} (hk : k < service.maxAttempts) (hbefore : ∀ n < k, GoesOn script n)
    (hdecides : Decides (script k)) :
    (service.complete script jitter question).result = service.verdict (script k) ∧
      Exchanges script jitter (service.request question) (service.complete script jitter question) k := by
  obtain ⟨hexchanges, hends⟩ := complete_stops jitter hkey question hk hbefore
    fun hgoes => absurd hdecides hgoes.1
  refine ⟨?_, hexchanges⟩
  generalize (service.complete script jitter question).result = result at hends ⊢
  cases hends with
  | decided _ => rfl
  | failed hopen _ => exact absurd hdecides hopen
  | exhausted hgoes _ => exact absurd hdecides hgoes.1

theorem complete_of_goesOn (jitter : Nat → Float) (hkey : service.hasKey = true) (question : Question)
    {k : Nat} (hk : k + 1 = service.maxAttempts) (hall : ∀ n ≤ k, GoesOn script n) :
    (service.complete script jitter question).result =
        .error (.retriesExhausted service.provider.name service.maxAttempts (reason (script k))) ∧
      Exchanges script jitter (service.request question) (service.complete script jitter question) k := by
  have hlast : k < service.maxAttempts := Nat.lt_of_succ_le (Nat.le_of_eq hk)
  obtain ⟨hexchanges, hends⟩ := complete_stops jitter hkey question hlast
    (fun n hn => hall n (Nat.le_of_lt hn)) fun _ => hk
  obtain ⟨hopen, seconds, hseconds⟩ := (goesOn_iff jitter).1 (hall k (Nat.le_refl k))
  refine ⟨?_, hexchanges⟩
  generalize (service.complete script jitter question).result = result at hends ⊢
  cases hends with
  | decided hdecides => exact absurd hdecides hopen
  | failed _ hfailure => exact nomatch hfailure.symm.trans hseconds
  | exhausted _ _ => rfl

theorem complete_of_overflows (jitter : Nat → Float) (hkey : service.hasKey = true) (question : Question)
    {k : Nat} (hk : k < service.maxAttempts) (hbefore : ∀ n < k, GoesOn script n)
    (hoverflows : Overflows script k) :
    (service.complete script jitter question).result = .error .tooLargeForFloat ∧
      Exchanges script jitter (service.request question) (service.complete script jitter question) k := by
  obtain ⟨hexchanges, hends⟩ := complete_stops jitter hkey question hk hbefore
    fun hgoes => absurd hoverflows hgoes.2.2
  refine ⟨?_, hexchanges⟩
  generalize (service.complete script jitter question).result = result at hends ⊢
  cases hends with
  | decided hdecides => exact absurd hdecides hoverflows.1
  | failed _ hfailure => rw [Except.error.inj (hfailure.symm.trans (hoverflows.delay_eq jitter))]
  | exhausted hgoes _ => exact absurd hoverflows hgoes.2.2

theorem maxAttempts_of_choose {env : Environment} {stored : Fields} {choice : Choice}
    (h : choose env stored choice = .ok service) :
    service.maxAttempts = (max 1 choice.maxRetries).toNat := by
  obtain ⟨name, -, hservice⟩ := exists_of_bind_ok h
  split at hservice
  · exact nomatch hservice
  · rw [← Except.ok.inj hservice]

/-- The service that is asked when nothing is chosen but how often. -/
def localService (attempts : Nat) : Service where
  provider := .ollama
  target := ⟨.str Provider.ollama.model, .str "", .str "http://127.0.0.1:11434/api/chat"⟩
  maxAttempts := attempts
  timeout := Choice.timeout {}

theorem choose_localService (more : Nat) :
    choose { home := "" } [] { maxRetries := more + 1 } = .ok (localService (more + 1)) := by
  have hattempts : (max 1 ((more : Int) + 1)).toNat = more + 1 := by omega
  rw [← hattempts]
  rfl

/-- A request is sent until a response decides, and is sent no more often than was asked for, with one
delay between two attempts; unless the delay after a response becomes too large before that. -/
theorem complete_retries {env : Environment} {stored : Fields} {choice : Choice}
    (hchoice : choose env stored choice = .ok service) (hkey : service.hasKey = true)
    (script : Nat → Response) (jitter : Nat → Float) (question : Question) :
    let attempts := (max 1 choice.maxRetries).toNat
    let conversation := service.complete script jitter question
    let exchanges := Exchanges script jitter (service.request question) conversation
    (∀ k < attempts, (∀ n < k, GoesOn script n) → Decides (script k) →
      conversation.result = service.verdict (script k) ∧ exchanges k) ∧
    (∀ k, k + 1 = attempts → (∀ n ≤ k, GoesOn script n) →
      conversation.result =
        .error (.retriesExhausted service.provider.name attempts (reason (script k))) ∧ exchanges k) ∧
    (∀ k < attempts, (∀ n < k, GoesOn script n) → Overflows script k →
      conversation.result = .error .tooLargeForFloat ∧ exchanges k) := by
  rw [← maxAttempts_of_choose hchoice]
  intro attempts conversation exchanges
  exact ⟨fun k hk => complete_of_decides jitter hkey question hk,
    fun k hk => complete_of_goesOn jitter hkey question hk,
    fun k hk => complete_of_overflows jitter hkey question hk⟩

/-- The network fails once, and then the server refuses the request. -/
def refusedOnce : Nat → Response
  | 0 => .unreachable "no route"
  | _ => .arrived 404 [] "gone"

theorem complete_retries_refusedOnce :
    let question : Question := { system := "", user := "" }
    let conversation := (localService 5).complete refusedOnce (fun _ => 0) question
    choose { home := "" } [] { maxRetries := 5 } = .ok (localService 5) ∧
      (localService 5).hasKey = true ∧
      conversation.result = .error (.httpStatus "ollama" 404 "gone") ∧ conversation.posts = 2 ∧
      conversation.sleeps.length = 1 := by
  intro question conversation
  have hchoice : choose { home := "" } [] { maxRetries := 5 } = .ok (localService 5) :=
    choose_localService 4
  have hfirst : ∀ n < 1, GoesOn refusedOnce n := by
    intro n hn
    rw [Nat.lt_one_iff.1 hn]
    exact ⟨id, id, fun hoverflows => absurd hoverflows.2.2 (by decide)⟩
  obtain ⟨hdecided, -, -⟩ := complete_retries hchoice rfl refusedOnce (fun _ => 0) question
  obtain ⟨hresult, hexchanges⟩ := hdecided 1 (by decide) hfirst (by decide)
  exact ⟨hchoice, rfl, hresult, hexchanges.posts_eq, hexchanges.length_sleeps⟩

/-- After that many attempts the next delay is too large, though the last attempt needs no delay. -/
theorem complete_overflows :
    let script (_ : Nat) : Response := .unreachable "no route"
    let question : Question := { system := "", user := "" }
    let conversation := (localService 1025).complete script (fun _ => 0) question
    choose { home := "" } [] { maxRetries := 1025 } = .ok (localService 1025) ∧
      (localService 1025).hasKey = true ∧ (∀ n, ¬ Garbled (script n)) ∧ (∀ n, ¬ Decides (script n)) ∧
      conversation.posts = 1025 ∧ conversation.sleeps.length = 1024 ∧
      conversation.result = .error .tooLargeForFloat ∧ Failure.kind .tooLargeForFloat ≠ .completion := by
  intro script question conversation
  have hread (n : Nat) : ¬ Garbled (script n) := id
  have hopen (n : Nat) : ¬ Decides (script n) := id
  have hbefore : ∀ n < 1024, GoesOn script n := fun n hn =>
    ⟨hopen n, hread n, fun hoverflows => Nat.not_le.2 hn hoverflows.2.2⟩
  have hlast : Overflows script 1024 := ⟨hopen 1024, trivial, Nat.le_refl 1024⟩
  have hfew : 1024 < (localService 1025).maxAttempts := Nat.lt_succ_self 1024
  obtain ⟨hresult, hexchanges⟩ := complete_of_overflows (fun _ => 0) rfl question hfew hbefore hlast
  exact ⟨choose_localService 1024, rfl, hread, hopen, hexchanges.posts_eq, hexchanges.length_sleeps,
    hresult, nofun⟩

end CodeReview.Service
