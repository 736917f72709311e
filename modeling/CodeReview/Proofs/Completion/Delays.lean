import CodeReview.Completion.Service
import CodeReview.Proofs.Number.Powers
import CodeReview.Proofs.Steps

/-!
# Delays between attempts

What a response comes to is one of two things. Either it decides the conversation (`Decides`), and then
it alone says how (`verdict`), or another attempt follows after a delay (`delay`), and then it says
nothing else than why there was no answer (`reason`). `judge_eq` is that case distinction.

A delay is not always found (`succeeds_delay_iff`): the words in which a busy server asks for one may name
no number (`Retry.Garbled`), and the delay that doubles with every attempt is too large for its format
from attempt `maxBackoffs + 1` on.
-/

namespace CodeReview

open Number Scan Text

namespace Retry

attribute [local instance (high)] instPowNat instNatPowNat

variable {headers : Keyed String} {body : String}

/-! ## Delays that a server asks for -/

/-- The words name a delay: the amount is a number, and so are the minutes, if there are any. -/
def Asked.IsDelay (asked : Asked) : Prop :=
  (readFloat? asked.amount).isSome = true ∧
    ∀ minutes ∈ asked.minutes, ∃ n, readInteger minutes = .ok n ∧
      (Binary64.ofInt? (n * 60)).isSome = true

theorem succeeds_number_iff {cs : List Char} :
    Succeeds (number cs) ↔ (readFloat? cs).isSome = true := by
  unfold number Succeeds
  cases readFloat? cs <;> simp

theorem succeeds_secondsIn_iff {minutes : List Char} : Succeeds (secondsIn minutes) ↔
    ∃ n, readInteger minutes = .ok n ∧ (Binary64.ofInt? (n * 60)).isSome = true := by
  unfold secondsIn Succeeds
  cases readInteger minutes with
  | error error => cases error <;> simp
  | ok n => cases hsmall : Binary64.ofInt? (n * 60) <;> simp [hsmall]

theorem Asked.succeeds_seconds_iff {asked : Asked} : Succeeds asked.seconds ↔ asked.IsDelay := by
  unfold Asked.seconds Asked.IsDelay
  rw [← succeeds_number_iff]
  refine Succeeds.bind_iff fun amount => ?_
  cases asked.minutes with
  | none => simpa using Succeeds.pure _
  | some minutes =>
    simp only [Option.mem_def, Option.some.injEq, forall_eq']
    rw [← succeeds_secondsIn_iff]
    exact Succeeds.bind_pure_iff _

/-- No header names a delay, and the words that ask for one name no number. -/
def Garbled (headers : Keyed String) (body : String) : Prop :=
  ((header? headers "retry-after").bind fun value => readFloat? value.toList) = none ∧
    ∃ before asked after, findFirst? asked? body.toList = some (before, asked, after) ∧ ¬ asked.IsDelay

theorem succeeds_delayAsked_iff : Succeeds (delayAsked headers body) ↔ ¬ Garbled headers body := by
  unfold delayAsked Garbled
  dsimp only
  cases (header? headers "retry-after").bind fun value => readFloat? value.toList with
  | some x => simpa using Succeeds.pure _
  | none =>
    cases findFirst? asked? body.toList with
    | none => simpa using Succeeds.pure _
    | some found =>
      obtain ⟨before, asked, after⟩ := found
      have hseconds := Succeeds.bind_pure_iff (x := asked.seconds) some
      rw [Asked.succeeds_seconds_iff] at hseconds
      simpa using hseconds

/-- A delay that is not read is not a number, or is too large a one. -/
def IsUnread (failure : Failure) : Prop := failure.kind = .value ∨ failure.kind = .overflow

theorem failsWith_number (cs : List Char) : FailsWith IsUnread (number cs) := by
  unfold number
  split
  · exact .pure _
  · rintro _ ⟨⟩
    exact .inl rfl

theorem failsWith_secondsIn (minutes : List Char) : FailsWith IsUnread (secondsIn minutes) := by
  unfold secondsIn
  split
  · split
    · exact .pure _
    · rintro _ ⟨⟩
      exact .inr rfl
  · rintro _ ⟨⟩
    exact .inl rfl
  · rintro _ ⟨⟩
    exact .inl rfl

theorem failsWith_delayAsked : FailsWith IsUnread (delayAsked headers body) := by
  unfold delayAsked
  dsimp only
  split
  · exact .pure _
  split
  · next before asked after hfound =>
    refine .bind ?_ fun _ => .pure _
    refine (failsWith_number _).bind fun amount => ?_
    cases asked.minutes with
    | some minutes => exact (failsWith_secondsIn minutes).bind fun _ => .pure _
    | none => exact .pure _
  · exact .pure _

/-! ## Delays that nobody asks for -/

/-- How many attempts may be followed by a delay that doubles with every one of them. -/
def maxBackoffs : Nat := 1024

-- The equation is one of functions: about their values, the kernel would compute the power first.
theorem backoff_eq : backoff = fun attempt jitter =>
    (Binary64.ofInt? (2 ^ (attempt - 1) : Nat)).elim (.error .tooLargeForFloat)
      fun factor => .ok (baseDelay * factor.toFloat + jitter) := by
  delta backoff
  funext attempt jitter
  generalize Binary64.ofInt? (2 ^ (attempt - 1) : Nat) = factor
  cases factor <;> rfl

theorem backoff_eq_error_iff {attempt : Nat} {jitter : Float} {failure : Failure} :
    backoff attempt jitter = .error failure ↔ maxBackoffs < attempt ∧ failure = .tooLargeForFloat := by
  have hpower := Binary64.ofInt?_two_pow_eq_none_iff (attempt - 1)
  have hattempt : 1024 ≤ attempt - 1 ↔ maxBackoffs < attempt := by
    rw [maxBackoffs]
    omega
  rw [hattempt] at hpower
  rw [← hpower, backoff_eq]
  dsimp only
  generalize Binary64.ofInt? (2 ^ (attempt - 1) : Nat) = factor
  cases factor with
  | none => simp [eq_comm]
  | some factor => simp

theorem succeeds_backoff_iff {attempt : Nat} {jitter : Float} :
    Succeeds (backoff attempt jitter) ↔ ¬ maxBackoffs < attempt := by
  have herror {failure : Failure} := @backoff_eq_error_iff attempt jitter failure
  generalize backoff attempt jitter = delay at herror ⊢
  cases delay with
  | error failure => simp [Succeeds, (herror.1 rfl).1]
  | ok seconds =>
    have hfew : ¬ maxBackoffs < attempt := fun hmany => nomatch herror.2 ⟨hmany, rfl⟩
    simp [Succeeds, hfew]

theorem failsWith_backoff (attempt : Nat) (jitter : Float) :
    FailsWith IsUnread (backoff attempt jitter) := by
  intro failure hfailure
  rw [(backoff_eq_error_iff.1 hfailure).2]
  exact .inr rfl

end Retry

namespace Service

/-! ## Responses -/

/-- A response that is neither a failure of the network nor one of a server that is busy or broken. -/
def Decides : Response → Prop
  | .unreachable _ => False
  | .arrived status _ _ => status ≠ 429 ∧ status < 500

instance : DecidablePred Decides
  | .unreachable _ => inferInstanceAs (Decidable False)
  | .arrived .. => inferInstanceAs (Decidable (_ ∧ _))

/-- The result of a conversation that is decided by a response: the text in it, unless the request was
refused. -/
def verdict (service : Service) : Response → Except Failure String
  | .unreachable reason => .error (.retriesExhausted service.provider.name service.maxAttempts reason)
  | .arrived status _ body =>
    if 400 ≤ status then .error (.httpStatus service.provider.name status (take quotedLength body))
    else service.textOf body

/-- What is said of a response that decides nothing. -/
def reason : Response → String
  | .unreachable reason => reason
  | .arrived status _ _ => if status = 429 then "rate limited (HTTP 429)" else s!"HTTP {status}"

/-- The delay that is asked for, else another one. -/
def askedOr (backoff : Except Failure Float) (jitter : Float) : Option Float → Except Failure Float
  | some seconds => .ok (seconds + jitter)
  | none => backoff

theorem ok_none_bind_askedOr (backoff : Except Failure Float) (jitter : Float) :
    (.ok none >>= askedOr backoff jitter) = backoff := rfl

theorem succeeds_bind_askedOr_iff {asked : Except Failure (Option Float)}
    {backoff : Except Failure Float} {jitter : Float} :
    Succeeds (asked >>= askedOr backoff jitter) ↔
      Succeeds asked ∧ (asked = .ok none → Succeeds backoff) := by
  rcases asked with failure | _ | seconds
  · simp [Succeeds, bind, Except.bind]
  · simp [Succeeds, bind, Except.bind, askedOr]
  · simp [Succeeds, bind, Except.bind, askedOr]

theorem failsWith_bind_askedOr {P : Failure → Prop} {asked : Except Failure (Option Float)}
    {backoff : Except Failure Float} {jitter : Float} (hasked : FailsWith P asked)
    (hbackoff : FailsWith P backoff) : FailsWith P (asked >>= askedOr backoff jitter) := by
  refine hasked.bind fun found => ?_
  cases found with
  | none => exact hbackoff
  | some seconds => exact .pure _

/-- The delay after an attempt, counted from one, that decides nothing: what the server asks for when it
is busy, else one that doubles with every attempt. -/
def delay (attempt : Nat) (jitter : Float) : Response → Except Failure Float
  | .unreachable _ => Retry.backoff attempt jitter
  | .arrived status headers body =>
    if status = 429 then
      Retry.delayAsked headers body >>= askedOr (Retry.backoff attempt jitter) jitter
    else Retry.backoff attempt jitter

theorem judge_eq (service : Service) (attempt : Nat) (jitter : Float) (response : Response) :
    service.judge attempt jitter response =
      if Decides response then .ok (.decided (service.verdict response))
      else (delay attempt jitter response).map (.again · (reason response)) := by
  cases response with
  | unreachable text =>
    simp only [judge, Decides, delay, reason]
    generalize Retry.backoff attempt jitter = backoff
    cases backoff <;> rfl
  | arrived status headers body =>
    simp only [judge, Decides, verdict, delay, reason]
    generalize Retry.backoff attempt jitter = backoff
    by_cases hbusy : status = 429
    · simp only [hbusy, if_true, ne_eq, not_true_eq_false, false_and, if_false]
      cases Retry.delayAsked headers body with
      | error failure => rfl
      | ok asked =>
        cases asked with
        | some seconds => rfl
        | none => cases backoff <;> rfl
    · by_cases hbroken : 500 ≤ status
      · simp only [hbusy, if_false, hbroken, if_true, Int.not_lt.2 hbroken, and_false]
        cases backoff <;> rfl
      · simp only [hbusy, if_false, hbroken, ne_eq, not_false_eq_true, Int.not_le.1 hbroken, and_self,
          if_true]
        split <;> rfl

/-! ## Delays that are not found -/

/-- A busy server asks for a delay in words that name no number. -/
def Garbled : Response → Prop
  | .unreachable _ => False
  | .arrived status headers body => status = 429 ∧ Retry.Garbled headers body

/-- Nobody says how long to wait after the response. -/
def LeavesOpen : Response → Prop
  | .unreachable _ => True
  | .arrived status headers body => status = 429 → Retry.delayAsked headers body = .ok none

theorem LeavesOpen.delay_eq {attempt : Nat} {jitter : Float} {response : Response}
    (h : LeavesOpen response) : delay attempt jitter response = Retry.backoff attempt jitter := by
  cases response with
  | unreachable text => simp only [delay]
  | arrived status headers body =>
    simp only [delay]
    by_cases hbusy : status = 429
    · rw [if_pos hbusy, h hbusy, ok_none_bind_askedOr]
    · rw [if_neg hbusy]

theorem succeeds_delay_iff {attempt : Nat} {jitter : Float} {response : Response} :
    Succeeds (delay attempt jitter response) ↔
      ¬ Garbled response ∧ ¬ (LeavesOpen response ∧ Retry.maxBackoffs < attempt) := by
  have hbackoff := @Retry.succeeds_backoff_iff attempt jitter
  cases response with
  | unreachable text => simpa [Garbled, LeavesOpen, delay] using hbackoff
  | arrived status headers body =>
    simp only [Garbled, LeavesOpen, delay]
    by_cases hbusy : status = 429
    · simp only [hbusy, if_true, true_and, true_implies, not_and]
      rw [succeeds_bind_askedOr_iff, Retry.succeeds_delayAsked_iff, hbackoff]
    · simpa [hbusy] using hbackoff

theorem failsWith_delay (attempt : Nat) (jitter : Float) (response : Response) :
    FailsWith Retry.IsUnread (delay attempt jitter response) := by
  have hbackoff := Retry.failsWith_backoff attempt jitter
  cases response with
  | unreachable text => exact hbackoff
  | arrived status headers body =>
    simp only [delay]
    by_cases hbusy : status = 429
    · rw [if_pos hbusy]
      exact failsWith_bind_askedOr Retry.failsWith_delayAsked hbackoff
    · rw [if_neg hbusy]
      exact hbackoff

end Service

end CodeReview
