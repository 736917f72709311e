import CodeReview.Proofs.Budget.Conservation
import Mathlib.Tactic.Ring

/-!
# How long a lone caller waits

Somebody who has an open bucket for itself, and whose waits last as long as they should, waits once at
most: until what is missing has come in, or until the deadline if that is earlier.

* `refill_refill`: looking at a bucket in between changes nothing about what is in it later.
* `attempts_granted`, `attempts_refused`, `attempts_wait`: the three ways in which attempts go on.
* `Serves`: when a caller gets what it wants, after how long, and what it leaves.
* `acquire_serves`: that is so for every request and every timeout.
-/

namespace CodeReview

namespace Bucket

variable {bucket : Bucket Rat} {clock later wanted : Rat}

/-! ## Filling a bucket twice -/

@[simp] theorem rate_refill (bucket : Bucket Rat) (now : Rat) : (bucket.refill now).rate = bucket.rate := by
  rw [refill]
  split <;> rfl

@[simp] theorem slack_refill (bucket : Bucket Rat) (now : Rat) : (bucket.refill now).slack = bucket.slack := by
  rw [refill]
  split <;> rfl

theorem refill_of_le (h : clock ≤ bucket.filledAt) : bucket.refill clock = bucket :=
  if_neg (by linarith)

theorem refill_of_lt (h : bucket.filledAt < clock) : bucket.refill clock =
    { bucket with
      tokens := min bucket.capacity (bucket.tokens + (clock - bucket.filledAt) * bucket.rate)
      filledAt := clock } := by
  rw [refill, smaller_eq_min]
  exact if_pos (by linarith)

theorem filledAt_refill (h : bucket.filledAt ≤ clock) : (bucket.refill clock).filledAt = clock := by
  rcases h.eq_or_lt with heq | hlt
  · rw [refill_of_le heq.ge, heq]
  · rw [refill_of_lt hlt]

/-- What has come in by some time is there, whether or not somebody looks in between. -/
theorem refill_refill (hrate : 0 ≤ bucket.rate) (h : clock ≤ later) :
    (bucket.refill clock).refill later = bucket.refill later := by
  rcases le_or_gt clock bucket.filledAt with hfirst | hfirst
  · rw [refill_of_le hfirst]
  · rcases h.eq_or_lt with rfl | hsecond
    · exact refill_of_le (filledAt_refill hfirst.le).ge
    · have hgain : 0 ≤ (later - clock) * bucket.rate := mul_nonneg (by linarith) hrate
      have hsum : bucket.tokens + (clock - bucket.filledAt) * bucket.rate +
          (later - clock) * bucket.rate = bucket.tokens + (later - bucket.filledAt) * bucket.rate := by
        ring
      rw [refill_of_lt (by rwa [filledAt_refill hfirst.le]), refill_of_lt hfirst,
        refill_of_lt (hfirst.trans hsecond)]
      dsimp only
      rw [← min_add_add_right, hsum, ← min_assoc, min_eq_left (le_add_of_nonneg_right hgain)]

/-- What is there after a while: what was there, and what has come in since. -/
theorem tokens_refill_add (h : bucket.filledAt ≤ clock) (hrate : 0 ≤ bucket.rate) {seconds : Rat}
    (hseconds : 0 < seconds) : (bucket.refill (clock + seconds)).tokens =
      min bucket.capacity ((bucket.refill clock).tokens + seconds * bucket.rate) := by
  have hnow := filledAt_refill h
  have hlater : (bucket.refill clock).filledAt < clock + seconds := by linarith
  rw [← refill_refill hrate (by linarith : clock ≤ clock + seconds), refill_of_lt hlater, hnow]
  simp

/-! ## Attempts -/

/-- The bucket with the tokens taken out. -/
def drawn (bucket : Bucket Rat) (wanted : Rat) : Bucket Rat :=
  { bucket with tokens := max 0 (bucket.tokens - wanted) }

section Attempts

variable (hopen : bucket.closed = false) (patience : Nat) (waits : List Rat)

include hopen

theorem attempts_granted (h : wanted ≤ (bucket.refill clock).tokens + bucket.slack)
    (deadline : Option Rat) : attempts patience none deadline wanted ⟨bucket, clock, waits⟩ =
      (.ok wanted, ⟨(bucket.refill clock).drawn wanted, clock, waits⟩) := by
  have hattempt : bucket.attempt clock deadline wanted =
      (.granted wanted, (bucket.refill clock).drawn wanted) := by
    rw [attempt, hopen, drawn]
    simp [h, larger_eq_max]
  rw [attempts, hattempt]

theorem attempts_refused (h : (bucket.refill clock).tokens + bucket.slack < wanted) {deadline : Rat}
    (hlate : deadline ≤ clock) : attempts patience none (some deadline) wanted ⟨bucket, clock, waits⟩ =
      (.error (.timedOut wanted), ⟨bucket.refill clock, clock, waits⟩) := by
  have hattempt : bucket.attempt clock (some deadline) wanted =
      (.refused (.timedOut wanted), bucket.refill clock) := by
    rw [attempt, hopen]
    simp [h.not_ge, hlate]
  rw [attempts, hattempt]

/-- How long a caller waits: until what is missing has come in, or until the deadline. -/
def pause (bucket : Bucket Rat) (clock wanted : Rat) : Option Rat → Rat
  | none => (wanted - (bucket.refill clock).tokens) / bucket.rate
  | some deadline => min ((wanted - (bucket.refill clock).tokens) / bucket.rate) (deadline - clock)

theorem attempts_wait (h : (bucket.refill clock).tokens + bucket.slack < wanted) {deadline : Option Rat}
    (hearly : ∀ time ∈ deadline, clock < time) :
    attempts (patience + 1) none deadline wanted ⟨bucket, clock, waits⟩ =
      attempts patience none deadline wanted ⟨bucket.refill clock,
        clock + bucket.pause clock wanted deadline, waits ++ [bucket.pause clock wanted deadline]⟩ := by
  have hattempt : bucket.attempt clock deadline wanted =
      (.wait (bucket.pause clock wanted deadline), bucket.refill clock) := by
    rw [attempt, hopen]
    cases deadline with
    | none => simp [h.not_ge, pause]
    | some time => simp [h.not_ge, (hearly time rfl).not_ge, pause, smaller_eq_min]
  rw [attempts, hattempt]
  simp

end Attempts

/-! ## One caller -/

/-- What somebody gets who wants tokens out of a bucket that holds some at a time of the clock, how long it
takes, and what is left. -/
structure Serves (bucket : Bucket Rat) (clock : Rat) (timeout : Option Rat) (held wanted : Rat)
    (answer : Except (Refusal Rat) Rat × Timed Rat) : Prop where
  at_once (h : wanted ≤ held + bucket.slack) : answer.1 = .ok wanted ∧ answer.2.waits = []
  /-- Without a timeout a caller waits until what is missing has come in. -/
  patient (h : held + bucket.slack < wanted) (htimeout : timeout = none) :
    answer.1 = .ok wanted ∧ answer.2.waits = [(wanted - held) / bucket.rate]
  /-- With one it gets what will be there in time. -/
  in_time_iff {seconds : Rat} (h : timeout = some seconds) :
    answer.1 = .ok wanted ↔ wanted ≤ held + bucket.rate * max seconds 0 + bucket.slack
  granted (h : answer.1 = .ok wanted) : answer.2.bucket = (bucket.refill answer.2.clock).drawn wanted
  /-- Whoever does not get it leaves the bucket as somebody does who only looks. -/
  refused (h : answer.1 ≠ .ok wanted) :
    answer.1 = .error (.timedOut wanted) ∧ answer.2.bucket = bucket.refill answer.2.clock
  length_waits : answer.2.waits.length ≤ 1
  sum_waits {seconds : Rat} (h : timeout = some seconds) : answer.2.waits.sum ≤ max seconds 0
  clock_eq : answer.2.clock = clock + answer.2.waits.sum

section Serving

variable (hopen : bucket.closed = false) (hrate : 0 < bucket.rate) (hslack : 0 ≤ bucket.slack)
  (hclock : bucket.filledAt ≤ clock) (hwanted : wanted ≤ bucket.capacity)
  (hshort : (bucket.refill clock).tokens + bucket.slack < wanted)

section Missing

include hrate hslack hshort

theorem missing_pos : 0 < (wanted - (bucket.refill clock).tokens) / bucket.rate :=
  div_pos (by linarith) hrate

theorem pause_pos {deadline : Option Rat} (hearly : ∀ time ∈ deadline, clock < time) :
    0 < bucket.pause clock wanted deadline := by
  have hmissing := missing_pos hrate hslack hshort
  cases deadline with
  | none => exact hmissing
  | some time => exact lt_min hmissing (sub_pos.2 (hearly time rfl))

include hclock hwanted

/-- Somebody who waits for what is missing finds it. -/
theorem le_tokens_of_wait : wanted ≤
    (bucket.refill (clock + (wanted - (bucket.refill clock).tokens) / bucket.rate)).tokens := by
  rw [tokens_refill_add hclock hrate.le (missing_pos hrate hslack hshort),
    div_mul_cancel₀ _ hrate.ne']
  exact le_min hwanted (by linarith)

end Missing

section Pause

variable {deadline : Option Rat} {seconds : Rat} (hearly : ∀ time ∈ deadline, clock < time)
  (hpause : bucket.pause clock wanted deadline = seconds) (patience : Nat)

include hopen hrate hslack hshort hearly hpause

theorem attempts_granted_after
    (henough : wanted ≤ (bucket.refill (clock + seconds)).tokens + bucket.slack) :
    attempts (patience + 1) none deadline wanted ⟨bucket, clock, []⟩ =
      (.ok wanted, ⟨(bucket.refill (clock + seconds)).drawn wanted, clock + seconds, [seconds]⟩) := by
  have hpositive := hpause ▸ pause_pos hrate hslack hshort hearly
  have htwice : (bucket.refill clock).refill (clock + seconds) = bucket.refill (clock + seconds) :=
    refill_refill hrate.le (by linarith)
  rw [attempts_wait hopen patience [] hshort hearly, hpause, attempts_granted (by simpa using hopen),
    htwice, List.nil_append]
  rwa [htwice, slack_refill]

theorem attempts_refused_after
    (hlacks : (bucket.refill (clock + seconds)).tokens + bucket.slack < wanted)
    (hlate : deadline = some (clock + seconds)) :
    attempts (patience + 1) none deadline wanted ⟨bucket, clock, []⟩ =
      (.error (.timedOut wanted), ⟨bucket.refill (clock + seconds), clock + seconds, [seconds]⟩) := by
  have hpositive := hpause ▸ pause_pos hrate hslack hshort hearly
  have htwice : (bucket.refill clock).refill (clock + seconds) = bucket.refill (clock + seconds) :=
    refill_refill hrate.le (by linarith)
  rw [attempts_wait hopen patience [] hshort hearly, hpause]
  subst hlate
  rw [attempts_refused (by simpa using hopen) _ _ (by rwa [htwice, slack_refill]) le_rfl, htwice,
    List.nil_append]

end Pause

section Answers

/-- A request that is refused right away. -/
theorem serves_refused (hshort : (bucket.refill clock).tokens + bucket.slack < wanted) {seconds : Rat}
    (hlate : seconds ≤ 0) : bucket.Serves clock (some seconds) (bucket.refill clock).tokens wanted
      (.error (.timedOut wanted), ⟨bucket.refill clock, clock, []⟩) where
  at_once := fun h => absurd h hshort.not_ge
  patient := nofun
  in_time_iff := fun {time} h => by
    obtain rfl := Option.some.inj h
    rw [max_eq_right hlate, mul_zero, add_zero]
    exact iff_of_false nofun hshort.not_ge
  granted := nofun
  refused := fun _ => ⟨rfl, rfl⟩
  length_waits := Nat.zero_le 1
  sum_waits := fun {time} _ => by simp
  clock_eq := by simp

/-- A request that is granted after a wait that ends in time. -/
theorem serves_in_time (hshort : (bucket.refill clock).tokens + bucket.slack < wanted)
    {allowed seconds : Rat} (hallowed : 0 < allowed) (hle : seconds ≤ allowed)
    (henough : wanted ≤ (bucket.refill clock).tokens + bucket.rate * allowed + bucket.slack) :
    bucket.Serves clock (some allowed) (bucket.refill clock).tokens wanted
      (.ok wanted, ⟨(bucket.refill (clock + seconds)).drawn wanted, clock + seconds, [seconds]⟩) where
  at_once := fun h => absurd h hshort.not_ge
  patient := nofun
  in_time_iff := fun {time} h => by
    obtain rfl := Option.some.inj h
    rw [max_eq_left hallowed.le]
    exact iff_of_true rfl henough
  granted := fun _ => rfl
  refused := fun h => absurd rfl h
  length_waits := le_rfl
  sum_waits := fun {time} h => by
    obtain rfl := Option.some.inj h
    simpa [max_eq_left hallowed.le] using hle
  clock_eq := by simp

/-- A request that is refused after all the time it may take. -/
theorem serves_too_late (hshort : (bucket.refill clock).tokens + bucket.slack < wanted)
    {allowed : Rat} (hallowed : 0 < allowed)
    (hlacks : (bucket.refill clock).tokens + bucket.rate * allowed + bucket.slack < wanted) :
    bucket.Serves clock (some allowed) (bucket.refill clock).tokens wanted
      (.error (.timedOut wanted), ⟨bucket.refill (clock + allowed), clock + allowed, [allowed]⟩) where
  at_once := fun h => absurd h hshort.not_ge
  patient := nofun
  in_time_iff := fun {time} h => by
    obtain rfl := Option.some.inj h
    rw [max_eq_left hallowed.le]
    exact iff_of_false nofun hlacks.not_ge
  granted := nofun
  refused := fun _ => ⟨rfl, rfl⟩
  length_waits := le_rfl
  sum_waits := fun {time} h => by
    obtain rfl := Option.some.inj h
    simp
  clock_eq := by simp

include hrate

theorem serves_at_once (h : wanted ≤ (bucket.refill clock).tokens + bucket.slack) (timeout : Option Rat) :
    bucket.Serves clock timeout (bucket.refill clock).tokens wanted
      (.ok wanted, ⟨(bucket.refill clock).drawn wanted, clock, []⟩) where
  at_once := fun _ => ⟨rfl, rfl⟩
  patient := fun hshort _ => absurd h hshort.not_ge
  in_time_iff := fun {seconds} _ => by
    have hgain := mul_nonneg hrate.le (le_max_right seconds 0)
    exact iff_of_true rfl (by linarith)
  granted := fun _ => rfl
  refused := fun h => absurd rfl h
  length_waits := Nat.zero_le 1
  sum_waits := fun {seconds} _ => by simp
  clock_eq := by simp

include hopen hslack hclock hwanted

/-- Somebody who finds too little and may wait for ever waits for what is missing. -/
theorem exists_serves_patient (hshort : (bucket.refill clock).tokens + bucket.slack < wanted) : ∃ answer,
    (∀ patience, attempts (patience + 1) none none wanted ⟨bucket, clock, []⟩ = answer) ∧
      bucket.Serves clock none (bucket.refill clock).tokens wanted answer := by
  have henough := le_tokens_of_wait hrate hslack hclock hwanted hshort
  refine ⟨_, fun patience =>
    attempts_granted_after hopen hrate hslack hshort (by simp) rfl patience ?_, ?_⟩
  · rw [pause]
    linarith
  · exact
      { at_once := fun h => absurd h hshort.not_ge
        patient := fun _ _ => ⟨rfl, rfl⟩
        in_time_iff := fun h => nomatch h
        granted := fun _ => rfl
        refused := fun h => absurd rfl h
        length_waits := le_rfl
        sum_waits := fun h => nomatch h
        clock_eq := by simp }

/-- Somebody who finds too little and may wait for some time waits until its end at most. -/
theorem exists_serves_before (hshort : (bucket.refill clock).tokens + bucket.slack < wanted)
    {allowed : Rat} (hallowed : 0 < allowed) : ∃ answer,
    (∀ patience, attempts (patience + 1) none (some (clock + allowed)) wanted ⟨bucket, clock, []⟩ =
      answer) ∧ bucket.Serves clock (some allowed) (bucket.refill clock).tokens wanted answer := by
  have hearly : ∀ time ∈ some (clock + allowed), clock < time := by simpa using hallowed
  have henough := le_tokens_of_wait hrate hslack hclock hwanted hshort
  obtain ⟨seconds, hpause⟩ : ∃ seconds, bucket.pause clock wanted (some (clock + allowed)) = seconds :=
    ⟨_, rfl⟩
  have hseconds : min ((wanted - (bucket.refill clock).tokens) / bucket.rate) allowed = seconds := by
    rw [← hpause, pause, add_sub_cancel_left]
  have hle : seconds ≤ allowed := hseconds ▸ min_le_right _ _
  have hthere := tokens_refill_add hclock hrate.le (hpause ▸ pause_pos hrate hslack hshort hearly)
  rcases le_or_gt wanted ((bucket.refill (clock + seconds)).tokens + bucket.slack) with hgets | hlacks
  · refine ⟨_, fun patience =>
      attempts_granted_after hopen hrate hslack hshort hearly hpause patience hgets,
      serves_in_time hshort hallowed hle ?_⟩
    have hgain := mul_le_mul_of_nonneg_right hle hrate.le
    have hroom := min_le_right bucket.capacity ((bucket.refill clock).tokens + seconds * bucket.rate)
    linarith
  · -- What is missing would have come in, so the caller has waited until the deadline.
    have hend : seconds = allowed := by
      rcases min_choice ((wanted - (bucket.refill clock).tokens) / bucket.rate) allowed with h | h
      · rw [← hseconds, h] at hlacks
        linarith
      · rw [← hseconds, h]
    subst hend
    refine ⟨_, fun patience =>
      attempts_refused_after hopen hrate hslack hshort hearly hpause patience hlacks rfl,
      serves_too_late hshort hallowed ?_⟩
    rw [hthere] at hlacks
    rcases min_choice bucket.capacity
      ((bucket.refill clock).tokens + seconds * bucket.rate) with h | h <;> rw [h] at hlacks <;>
      linarith

end Answers

end Serving

/-- Somebody who has an open bucket for itself gets what it wants after one wait at most, or is refused
when it would not be there in time. More patience makes no difference: nobody gives up. -/
theorem acquire_serves (hopen : bucket.closed = false)
    (hrate : 0 < bucket.rate) (hslack : 0 ≤ bucket.slack) (hclock : bucket.filledAt ≤ clock)
    (tokens : Rat) (timeout : Option Rat) :
    bucket.Serves clock timeout (bucket.refill clock).tokens (min (max tokens 0) bucket.capacity)
      (bucket.acquire clock tokens timeout) ∧
    ∀ patience, attempts (patience + 1) none (timeout.map (clock + ·)) (bucket.wanted tokens)
      ⟨bucket, clock, []⟩ = bucket.acquire clock tokens timeout := by
  rw [← wanted_eq]
  have hwanted := bucket.wanted_le_capacity tokens
  suffices ∃ answer, (∀ patience, attempts (patience + 1) none (timeout.map (clock + ·))
      (bucket.wanted tokens) ⟨bucket, clock, []⟩ = answer) ∧
      bucket.Serves clock timeout (bucket.refill clock).tokens (bucket.wanted tokens) answer by
    obtain ⟨answer, hanswer, hserves⟩ := this
    have hacquire : bucket.acquire clock tokens timeout = answer := hanswer 999
    rw [hacquire]
    exact ⟨hserves, hanswer⟩
  rcases le_or_gt (bucket.wanted tokens) ((bucket.refill clock).tokens + bucket.slack) with
    henough | hshort
  · exact ⟨_, fun patience => attempts_granted hopen _ _ henough _, serves_at_once hrate henough timeout⟩
  · cases timeout with
    | none => exact exists_serves_patient hopen hrate hslack hclock hwanted hshort
    | some allowed =>
      rcases le_or_gt allowed 0 with hlate | hallowed
      · exact ⟨_, fun patience => attempts_refused hopen _ _ hshort (by linarith),
          serves_refused hshort hlate⟩
      · exact exists_serves_before hopen hrate hslack hclock hwanted hshort hallowed

/-- A bucket of sixty tokens in which ten are left. -/
def scarce : Bucket Rat := { capacity := 60, rate := 1, slack := budgetSlack, tokens := 10, filledAt := 0 }

/-- Five seconds later it holds fifteen. Somebody who wants a hundred asks for all that it can hold. -/
theorem acquire_serves_scarce : scarce.closed = false ∧ 0 < scarce.rate ∧ 0 ≤ scarce.slack ∧
    scarce.filledAt ≤ 5 ∧ scarce.Serves 5 (some 20) 15 60 (scarce.acquire 5 100 (some 20)) := by
  have hrate : 0 < scarce.rate := by decide
  have hclock : scarce.filledAt ≤ 5 := by decide
  have hheld : (scarce.refill 5).tokens = 15 := by decide +kernel
  have hwanted : min (max 100 0) scarce.capacity = 60 := by decide
  have hserves := (acquire_serves rfl hrate budgetSlack_nonneg hclock 100 (some 20)).1
  rw [hheld, hwanted] at hserves
  exact ⟨rfl, hrate, budgetSlack_nonneg, hclock, hserves⟩

/-- What comes in within twenty seconds is too little, so the caller waits for them and gets nothing. -/
example : (scarce.acquire 5 100 (some 20)).2.waits = [20] ∧
    (scarce.acquire 5 100 (some 20)).2.bucket.tokens = 35 := by
  decide +kernel

end Bucket

end CodeReview
