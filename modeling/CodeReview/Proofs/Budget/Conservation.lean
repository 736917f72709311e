import CodeReview.Review.Session
import Mathlib.Algebra.Order.Field.Rat
import Mathlib.Tactic.Linarith
import Mathlib.Tactic.Positivity

/-!
# What a budget grants

Any number of callers share a bucket. Each has it to itself for one move at a time, and between two
moves the clock may stand still or run backwards.

* `Move`, `step`: what one caller does, and what it comes to.
* `Sound`: what holds of a bucket at all times.
* `Balanced`: from a bucket to a later one no more is granted than was in it and than came in, but for
  the slack of each grant.
* `conserves_full`: a full bucket with a positive capacity and rate keeps to its budget, whatever its
  callers do.
* `acquire_eq_ok_of_ready`: a caller without a deadline who has an open bucket for itself gets what it
  wants.

A balance is a potential: the tokens in the bucket, less those that came in with time. It survives
moves one by one (`balanced_step`), so it survives all of them (`balanced_after`). How the moves of
callers are interleaved plays no part.
-/

namespace CodeReview

namespace Bucket

theorem smaller_eq_min (a b : Rat) : smaller a b = min a b := by
  unfold smaller
  split
  · next h => exact (min_eq_right h.le).symm
  · next h => exact (min_eq_left (not_lt.1 h)).symm

theorem larger_eq_max (a b : Rat) : larger a b = max a b := by
  unfold larger
  split
  · next h => exact (max_eq_right (le_of_lt h)).symm
  · next h => exact (max_eq_left (not_lt.1 h)).symm

/-! ## Moves -/

/-- What a caller does with a bucket at one moment. Nothing ties the deadline of an attempt to the
moment: it may be a time of another clock. -/
inductive Move
  | attempt (now : Rat) (deadline : Option Rat) (tokens : Rat)
  | read (now : Rat)
  | close

/-- What a move comes to. -/
inductive Answer
  | attempted (attempt : Attempt Rat)
  | available (tokens : Rat)
  | closed

/-- The tokens that a caller has got. -/
def Answer.granted? : Answer → Option Rat
  | attempted (.granted tokens) => some tokens
  | _ => none

/-- One move. -/
def step (bucket : Bucket Rat) : Move → Answer × Bucket Rat
  | .attempt now deadline tokens =>
    let (attempt, bucket) := bucket.attempt now deadline (bucket.wanted tokens)
    (.attempted attempt, bucket)
  | .read now =>
    let (tokens, bucket) := bucket.available now
    (.available tokens, bucket)
  | .close => (.closed, bucket.close)

/-- The time that a move reads off the clock. An attempt on a closed bucket reads none. -/
def reading? (bucket : Bucket Rat) : Move → Option Rat
  | .attempt now _ _ => if bucket.closed then none else some now
  | .read now => some now
  | .close => none

/-- The bucket after moves. -/
def after (bucket : Bucket Rat) : List Move → Bucket Rat
  | [] => bucket
  | move :: moves => (bucket.step move).2.after moves

/-- What moves are granted, one grant after the other. -/
def grants (bucket : Bucket Rat) : List Move → List Rat
  | [] => []
  | move :: moves => (bucket.step move).1.granted?.toList ++ (bucket.step move).2.grants moves

/-- The times that moves read off the clock. -/
def readings (bucket : Bucket Rat) : List Move → List Rat
  | [] => []
  | move :: moves => (bucket.reading? move).toList ++ (bucket.step move).2.readings moves

theorem after_append (bucket : Bucket Rat) (moves later : List Move) :
    bucket.after (moves ++ later) = (bucket.after moves).after later := by
  induction moves generalizing bucket with
  | nil => rfl
  | cons move moves ih => exact ih _

theorem grants_append (bucket : Bucket Rat) (moves later : List Move) :
    bucket.grants (moves ++ later) = bucket.grants moves ++ (bucket.after moves).grants later := by
  induction moves generalizing bucket with
  | nil => rfl
  | cons move moves ih => rw [List.cons_append, grants, ih, grants, after, List.append_assoc]

/-! ## What always holds -/

/-- What holds of a bucket at all times. -/
structure Sound (bucket : Bucket Rat) : Prop where
  rate : 0 < bucket.rate
  slack : 0 ≤ bucket.slack
  nonneg : 0 ≤ bucket.tokens
  le_capacity : bucket.tokens ≤ bucket.capacity

/-- From a bucket to a later one, with grants and readings of the clock in between. -/
structure Balanced (bucket : Bucket Rat) (grants readings : List Rat) (later : Bucket Rat) :
    Prop where
  sound : later.Sound
  capacity : later.capacity = bucket.capacity
  rate : later.rate = bucket.rate
  slack : later.slack = bucket.slack
  /-- A bucket knows the latest reading. -/
  filledAt : later.filledAt = readings.foldl max bucket.filledAt
  /-- What was granted and what is left were there before or came in with time, but for the slack of
  each grant. -/
  balance : grants.sum + later.tokens ≤ bucket.tokens +
    bucket.rate * (later.filledAt - bucket.filledAt) + grants.length * bucket.slack

variable {bucket : Bucket Rat}

theorem Balanced.refl (h : bucket.Sound) : bucket.Balanced [] [] bucket where
  sound := h
  capacity := rfl
  rate := rfl
  slack := rfl
  filledAt := rfl
  balance := by simp

theorem Balanced.trans {next last : Bucket Rat} {grants readings grants' readings' : List Rat}
    (h : bucket.Balanced grants readings next) (h' : next.Balanced grants' readings' last) :
    bucket.Balanced (grants ++ grants') (readings ++ readings') last where
  sound := h'.sound
  capacity := h'.capacity.trans h.capacity
  rate := h'.rate.trans h.rate
  slack := h'.slack.trans h.slack
  filledAt := by rw [List.foldl_append, ← h.filledAt, h'.filledAt]
  balance := by
    have hfirst := h.balance
    have hsecond := h'.balance
    rw [h.rate, h.slack] at hsecond
    rw [List.sum_append, List.length_append, Nat.cast_add]
    linarith

/-! ## One move -/

theorem Sound.balanced_refill (h : bucket.Sound) (now : Rat) :
    bucket.Balanced [] [now] (bucket.refill now) := by
  rw [refill]
  split
  · next helapsed =>
    rw [smaller_eq_min]
    have hlater : bucket.filledAt < now := by linarith
    have hgain : 0 ≤ (now - bucket.filledAt) * bucket.rate :=
      mul_nonneg (by linarith) h.rate.le
    refine ⟨⟨h.rate, h.slack, ?_, min_le_left ..⟩, rfl, rfl, rfl, ?_, ?_⟩
    · exact le_min (h.nonneg.trans h.le_capacity) (by linarith [h.nonneg])
    · exact (max_eq_right hlater.le).symm
    · have hmin := min_le_right bucket.capacity
        (bucket.tokens + (now - bucket.filledAt) * bucket.rate)
      simp only [List.sum_nil, List.length_nil, Nat.cast_zero]
      linarith
  · next helapsed =>
    have hearlier : now ≤ bucket.filledAt := by linarith
    exact { Balanced.refl h with filledAt := (max_eq_left hearlier).symm }

/-- Time takes nothing out of a bucket. -/
theorem Sound.tokens_le_refill (h : bucket.Sound) (now : Rat) :
    bucket.tokens ≤ (bucket.refill now).tokens := by
  rw [refill]
  split
  · next helapsed =>
    rw [smaller_eq_min]
    have hgain := mul_pos helapsed h.rate
    exact le_min h.le_capacity (by linarith)
  · exact le_rfl

@[simp] theorem closed_refill (bucket : Bucket Rat) (now : Rat) :
    (bucket.refill now).closed = bucket.closed := by
  rw [refill]
  split <;> rfl

theorem wanted_eq (bucket : Bucket Rat) (tokens : Rat) :
    bucket.wanted tokens = min (max tokens 0) bucket.capacity := by
  rw [wanted, smaller_eq_min, larger_eq_max]

theorem Sound.wanted_nonneg (h : bucket.Sound) (tokens : Rat) : 0 ≤ bucket.wanted tokens := by
  rw [wanted_eq]
  exact le_min (le_max_right ..) (h.nonneg.trans h.le_capacity)

theorem wanted_le_capacity (bucket : Bucket Rat) (tokens : Rat) :
    bucket.wanted tokens ≤ bucket.capacity := by
  rw [wanted_eq]
  exact min_le_right ..

/-- An attempt finds the bucket closed, or is granted what it wants out of the filled bucket, or
leaves the filled bucket as it is. -/
theorem attempt_cases (bucket : Bucket Rat) (now : Rat) (deadline : Option Rat) (wanted : Rat) :
    (bucket.closed = true ∧ bucket.attempt now deadline wanted = (.refused .closed, bucket)) ∨
    (bucket.closed = false ∧ wanted ≤ (bucket.refill now).tokens + (bucket.refill now).slack ∧
      bucket.attempt now deadline wanted = (.granted wanted,
        { bucket.refill now with tokens := max 0 ((bucket.refill now).tokens - wanted) })) ∨
    (bucket.closed = false ∧ (bucket.refill now).tokens + (bucket.refill now).slack < wanted ∧
      ∃ attempt, (∀ tokens, attempt ≠ .granted tokens) ∧
        bucket.attempt now deadline wanted = (attempt, bucket.refill now)) := by
  rw [attempt]
  dsimp only
  rw [larger_eq_max]
  cases bucket.closed with
  | true => exact .inl ⟨rfl, rfl⟩
  | false =>
    rw [if_neg (by decide)]
    by_cases h : wanted ≤ (bucket.refill now).tokens + (bucket.refill now).slack
    · exact .inr (.inl ⟨rfl, h, by rw [if_pos h]⟩)
    · refine .inr (.inr ⟨rfl, not_le.1 h, ?_⟩)
      rw [if_neg h]
      cases deadline with
      | none => exact ⟨_, by simp, rfl⟩
      | some deadline => dsimp only; split <;> exact ⟨_, by simp, rfl⟩

/-- What one move is granted was in the bucket or came in with time, but for the slack. -/
theorem Sound.balanced_step (h : bucket.Sound) (move : Move) :
    bucket.Balanced (bucket.step move).1.granted?.toList (bucket.reading? move).toList
      (bucket.step move).2 := by
  cases move with
  | attempt now deadline tokens =>
    have hfilled := h.balanced_refill now
    obtain ⟨hclosed, heq⟩ | ⟨hopen, hwanted, heq⟩ | ⟨hopen, -, attempt, hattempt, heq⟩ :=
      bucket.attempt_cases now deadline (bucket.wanted tokens)
    · simpa [step, heq, Answer.granted?, reading?, hclosed] using Balanced.refl h
    · simp only [step, heq, Answer.granted?, reading?, hopen, Option.toList]
      refine { hfilled with sound := ⟨hfilled.sound.rate, hfilled.sound.slack, le_max_left .., ?_⟩
                            balance := ?_ }
      · have hpositive := h.wanted_nonneg tokens
        exact max_le (hfilled.sound.nonneg.trans hfilled.sound.le_capacity)
          (by dsimp only; linarith [hfilled.sound.le_capacity])
      · -- The clamp at zero gives back at most the slack.
        have hbalance := hfilled.balance
        have hclamp : max 0 ((bucket.refill now).tokens - bucket.wanted tokens) ≤
            (bucket.refill now).tokens - bucket.wanted tokens + bucket.slack := by
          rw [← hfilled.slack]
          exact max_le (by linarith) (by linarith [hfilled.sound.slack])
        simp only [List.sum_cons, List.sum_nil, List.length_cons, List.length_nil] at hbalance ⊢
        push_cast at hbalance ⊢
        linarith
    · cases attempt with
      | granted tokens => exact absurd rfl (hattempt tokens)
      | wait seconds => simpa [step, heq, Answer.granted?, reading?, hopen] using hfilled
      | refused refusal => simpa [step, heq, Answer.granted?, reading?, hopen] using hfilled
  | read now => exact h.balanced_refill now
  | close => exact { Balanced.refl h with sound := ⟨h.rate, h.slack, h.nonneg, h.le_capacity⟩ }

/-- An attempt that gets nothing leaves what anybody who looks at that moment finds. -/
theorem step_attempt_of_granted?_eq_none {now tokens : Rat} {deadline : Option Rat}
    (h : (bucket.step (.attempt now deadline tokens)).1.granted? = none) :
    (bucket.step (.attempt now deadline tokens)).2 =
      if bucket.closed then bucket else (bucket.step (.read now)).2 := by
  obtain ⟨hclosed, heq⟩ | ⟨hopen, -, heq⟩ | ⟨hopen, -, attempt, -, heq⟩ :=
    bucket.attempt_cases now deadline (bucket.wanted tokens)
  · simp [step, heq, hclosed]
  · simp [step, heq, Answer.granted?] at h
  · simp [step, heq, hopen, available]

/-! ## Any number of moves -/

/-- What moves are granted was in the bucket or came in with time, but for the slack of each
grant. -/
theorem Sound.balanced_after (h : bucket.Sound) (moves : List Move) :
    bucket.Balanced (bucket.grants moves) (bucket.readings moves) (bucket.after moves) := by
  induction moves generalizing bucket with
  | nil => exact Balanced.refl h
  | cons move moves ih =>
    have hstep := h.balanced_step move
    exact hstep.trans (ih hstep.sound)

/-- A closed bucket refuses an attempt. -/
theorem step_attempt_of_closed (h : bucket.closed = true) (now : Rat) (deadline : Option Rat)
    (tokens : Rat) :
    bucket.step (.attempt now deadline tokens) = (.attempted (.refused .closed), bucket) := by
  simp [step, attempt, h]

theorem closed_step (h : bucket.closed = true) (move : Move) :
    (bucket.step move).2.closed = true ∧ (bucket.step move).1.granted? = none := by
  cases move with
  | attempt now deadline tokens => rw [step_attempt_of_closed h]; exact ⟨h, rfl⟩
  | read now => exact ⟨by rw [step, available, closed_refill, h], rfl⟩
  | close => exact ⟨rfl, rfl⟩

/-- A closed bucket stays closed and grants nothing. -/
theorem closed_after (h : bucket.closed = true) (moves : List Move) :
    (bucket.after moves).closed = true ∧ bucket.grants moves = [] := by
  induction moves generalizing bucket with
  | nil => exact ⟨h, rfl⟩
  | cons move moves ih =>
    obtain ⟨hclosed, hnone⟩ := closed_step h move
    obtain ⟨hlast, hgrants⟩ := ih hclosed
    exact ⟨hlast, by rw [grants, hnone, hgrants]; rfl⟩

theorem closed_after_of_mem {moves : List Move} (h : .close ∈ moves) :
    (bucket.after moves).closed = true := by
  obtain ⟨earlier, later, rfl⟩ := List.append_of_mem h
  rw [after_append]
  exact (closed_after rfl later).1

/-- What a bucket promises its callers, after some moves and over a window of more. -/
structure Conserves (bucket : Bucket Rat) (before window : List Move) : Prop where
  nonneg : 0 ≤ (bucket.after before).tokens
  le_capacity : (bucket.after before).tokens ≤ bucket.capacity
  /-- A window is granted what the bucket holds and what comes in while the latest reading of the clock
  advances, but for the slack of each grant. -/
  window_le : ((bucket.after before).grants window).sum ≤ bucket.capacity +
    bucket.rate * (((bucket.after before).readings window).foldl max (bucket.after before).filledAt -
      (bucket.after before).filledAt) +
    ((bucket.after before).grants window).length * bucket.slack
  /-- The window starts at the latest reading before it. -/
  filledAt : (bucket.after before).filledAt = (bucket.readings before).foldl max bucket.filledAt
  /-- An attempt that waits or is refused leaves the bucket as a look at it does, or, if it is closed, as
  it is. Nothing has gone out of it. -/
  idle {now tokens : Rat} {deadline : Option Rat}
    (h : ((bucket.after before).step (.attempt now deadline tokens)).1.granted? = none) :
    ((bucket.after before).step (.attempt now deadline tokens)).2 =
        (if (bucket.after before).closed then bucket.after before
          else ((bucket.after before).step (.read now)).2) ∧
      (bucket.after before).tokens ≤
        ((bucket.after before).step (.attempt now deadline tokens)).2.tokens
  /-- Once the bucket has been closed, each attempt is refused for that. -/
  refused (h : .close ∈ before) (now : Rat) (deadline : Option Rat) (tokens : Rat) :
    ((bucket.after before).step (.attempt now deadline tokens)).1 = .attempted (.refused .closed)
  grants_eq_nil (h : .close ∈ before) : (bucket.after before).grants window = []

theorem Sound.conserves (h : bucket.Sound) (before window : List Move) :
    bucket.Conserves before window := by
  have hbefore := h.balanced_after before
  have hwindow := hbefore.sound.balanced_after window
  have hstart := hbefore.sound
  refine
    { nonneg := hstart.nonneg
      le_capacity := hbefore.capacity ▸ hstart.le_capacity
      window_le := ?_
      filledAt := hbefore.filledAt
      idle := fun {now tokens deadline} hnone => ⟨step_attempt_of_granted?_eq_none hnone, ?_⟩
      refused := fun hclose now deadline tokens => by
        rw [step_attempt_of_closed (closed_after_of_mem hclose)]
      grants_eq_nil := fun hclose => (closed_after (closed_after_of_mem hclose) window).2 }
  · have hbalance := hwindow.balance
    have hfull := hstart.le_capacity
    have hleft := hwindow.sound.nonneg
    rw [hwindow.filledAt, hbefore.rate, hbefore.slack] at hbalance
    rw [hbefore.capacity] at hfull
    linarith
  · rw [step_attempt_of_granted?_eq_none hnone]
    split
    · exact le_rfl
    · exact hstart.tokens_le_refill now

/-- A bucket can be made with any positive capacity, and with any positive rate or none. -/
theorem exists_full {capacity : Rat} (hcapacity : 0 < capacity) {rate : Option Rat}
    (hrate : ∀ r ∈ rate, 0 < r) {slack : Rat} (hslack : 0 ≤ slack) (now : Rat) :
    ∃ bucket, full capacity rate slack now = .ok bucket ∧ bucket.Sound ∧
      bucket.capacity = capacity ∧ bucket.rate = rate.getD (capacity / 60) ∧
      bucket.slack = slack ∧ bucket.filledAt = now ∧ bucket.closed = false := by
  refine ⟨_, if_neg hcapacity.not_ge, ⟨?_, hslack, hcapacity.le, le_rfl⟩, rfl, rfl, rfl, rfl, rfl⟩
  cases rate with
  | none => exact div_pos hcapacity (by norm_num)
  | some rate => exact hrate rate rfl

theorem budgetSlack_nonneg : 0 ≤ budgetSlack := by unfold budgetSlack; norm_num

/-- Whatever the callers of a bucket do and whatever the clock shows them, the bucket keeps to its
budget. -/
theorem conserves_full {capacity : Rat} (hcapacity : 0 < capacity) {rate : Option Rat}
    (hrate : ∀ r ∈ rate, 0 < r) (now : Rat) :
    ∃ bucket, full capacity rate budgetSlack now = .ok bucket ∧ bucket.capacity = capacity ∧
      bucket.rate = rate.getD (capacity / 60) ∧ bucket.slack = budgetSlack ∧
      bucket.filledAt = now ∧ ∀ before window, bucket.Conserves before window := by
  have hslack : 0 ≤ budgetSlack := by unfold budgetSlack; norm_num
  obtain ⟨bucket, heq, hsound, hfields⟩ := exists_full hcapacity hrate hslack now
  exact ⟨bucket, heq, hfields.1, hfields.2.1, hfields.2.2.1, hfields.2.2.2.1, hsound.conserves⟩

/-- A budget of a token a second, with which callers do what they like. -/
theorem conserves_full_default : (0 : Rat) < 60 ∧ ∃ bucket,
    full 60 none budgetSlack 0 = .ok bucket ∧ bucket.capacity = 60 ∧ bucket.rate = 1 ∧
      bucket.slack = budgetSlack ∧ bucket.filledAt = 0 ∧
      ∀ before window, bucket.Conserves before window := by
  refine ⟨by norm_num, ?_⟩
  obtain ⟨bucket, heq, hcapacity, hrate, hrest⟩ :=
    @conserves_full 60 (by norm_num) none (by simp) 0
  exact ⟨bucket, heq, hcapacity, hrate.trans (by norm_num), hrest⟩

/-- The clock runs backwards between two attempts; the second waits for a token, and gets it once
another second has passed. -/
example : (full 1 (some 1) budgetSlack 5).toOption.map (fun bucket =>
    let moves := [.attempt 5 none 1, .attempt 3 none 1, .attempt 6 none 1, .close, .attempt 9 none 1]
    (bucket.grants moves, bucket.readings moves, (bucket.after moves).tokens)) =
      some ([1, 1], [5, 3, 6], 0) := by
  decide +kernel

/-! ## One caller -/

@[simp] theorem capacity_refill (bucket : Bucket Rat) (now : Rat) :
    (bucket.refill now).capacity = bucket.capacity := by
  rw [refill]
  split <;> rfl

theorem capacity_attempt (bucket : Bucket Rat) (now : Rat) (deadline : Option Rat) (wanted : Rat) :
    (bucket.attempt now deadline wanted).2.capacity = bucket.capacity := by
  obtain ⟨-, heq⟩ | ⟨-, -, heq⟩ | ⟨-, -, _, -, heq⟩ := bucket.attempt_cases now deadline wanted <;>
    simp [heq]

theorem capacity_after (bucket : Bucket Rat) (moves : List Move) :
    (bucket.after moves).capacity = bucket.capacity := by
  induction moves generalizing bucket with
  | nil => rfl
  | cons move moves ih =>
    rw [after, ih]
    cases move with
    | attempt now deadline tokens => exact bucket.capacity_attempt now deadline _
    | read now => exact bucket.capacity_refill now
    | close => rfl

/-- Closing a bucket, or leaving it open, is a matter of moves that are granted nothing. -/
theorem exists_moves_of_closing (bucket : Bucket Rat) (closing : Prop) [Decidable closing] :
    ∃ moves, bucket.after moves = (if closing then bucket.close else bucket) ∧
      bucket.grants moves = [] := by
  split
  · exact ⟨[.close], rfl, rfl⟩
  · exact ⟨[], rfl, rfl⟩

/-- Somebody who attempts again and again, while the bucket may be closed in between, makes moves
like any other caller. What they get is all that these moves are granted. -/
theorem exists_moves_of_attempts (patience : Nat) (closing : Option Nat) (deadline : Option Rat)
    (tokens : Rat) (timed : Timed Rat) : ∃ moves,
      (attempts patience closing deadline (timed.bucket.wanted tokens) timed).2.bucket =
        timed.bucket.after moves ∧
      (attempts patience closing deadline (timed.bucket.wanted tokens) timed).1.toOption.toList =
        timed.bucket.grants moves := by
  induction patience generalizing timed with
  | zero =>
    refine ⟨[.attempt timed.clock deadline tokens], ?_⟩
    rw [attempts, after, after, grants, grants, step]
    split <;> rename_i heq <;> rw [heq] <;> exact ⟨rfl, rfl⟩
  | succ patience ih =>
    rw [attempts]
    split
    · next heq =>
      refine ⟨[.attempt timed.clock deadline tokens], ?_⟩
      rw [after, after, grants, grants, step, heq]
      exact ⟨rfl, rfl⟩
    · next heq =>
      refine ⟨[.attempt timed.clock deadline tokens], ?_⟩
      rw [after, after, grants, grants, step, heq]
      exact ⟨rfl, rfl⟩
    · next seconds bucket heq =>
      have hcapacity : bucket.capacity = timed.bucket.capacity := by
        rw [← timed.bucket.capacity_attempt timed.clock deadline, heq]
      have hstep : timed.bucket.step (.attempt timed.clock deadline tokens) =
          (.attempted (.wait seconds), bucket) := by
        rw [step, heq]
      obtain ⟨between, hbetween, hnothing⟩ :=
        bucket.exists_moves_of_closing (closing = some (timed.waits ++ [seconds]).length)
      have hwanted : timed.bucket.wanted tokens = (bucket.after between).wanted tokens := by
        rw [wanted, wanted, hbetween, ← hcapacity]
        split <;> rfl
      dsimp only
      rw [← hbetween, hwanted]
      obtain ⟨moves, hafter, hgrants⟩ := ih
        { bucket := bucket.after between, clock := timed.clock + seconds
          waits := timed.waits ++ [seconds] }
      refine ⟨.attempt timed.clock deadline tokens :: (between ++ moves), ?_⟩
      rw [after, grants, hstep, after_append, grants_append, hnothing]
      exact ⟨hafter, hgrants⟩

/-- Whoever gets tokens gets what it wants. -/
theorem eq_wanted_of_attempts {patience : Nat} {closing : Option Nat} {deadline : Option Rat}
    {wanted paid : Rat} {timed later : Timed Rat}
    (h : attempts patience closing deadline wanted timed = (.ok paid, later)) : paid = wanted := by
  have hgranted {timed : Timed Rat} {tokens : Rat} {bucket : Bucket Rat}
      (heq : timed.bucket.attempt timed.clock deadline wanted = (.granted tokens, bucket)) :
      tokens = wanted := by
    obtain ⟨-, h⟩ | ⟨-, -, h⟩ | ⟨-, -, attempt, hattempt, h⟩ :=
      timed.bucket.attempt_cases timed.clock deadline wanted
    · exact nomatch h.symm.trans heq
    · exact (Attempt.granted.inj (Prod.mk.inj (h.symm.trans heq)).1).symm
    · exact absurd (Prod.mk.inj (h.symm.trans heq)).1 (hattempt tokens)
  induction patience generalizing timed with
  | zero =>
    rw [attempts] at h
    split at h
    · next heq => cases h; exact hgranted heq
    · exact nomatch h
    · exact nomatch h
  | succ patience ih =>
    rw [attempts] at h
    split at h
    · next heq => cases h; exact hgranted heq
    · exact nomatch h
    · exact ih h

/-- A bucket that is open, for somebody whose clock has not run backwards. -/
structure Ready (bucket : Bucket Rat) (clock : Rat) : Prop extends Sound bucket where
  isOpen : bucket.closed = false
  filledAt_le : bucket.filledAt ≤ clock

/-- A bucket stays ready. -/
theorem Ready.step {clock : Rat} (h : bucket.Ready clock) (deadline : Option Rat) (tokens : Rat) :
    (bucket.step (.attempt clock deadline tokens)).2.Ready clock := by
  have hstep := h.toSound.balanced_step (.attempt clock deadline tokens)
  refine { hstep.sound with isOpen := ?_, filledAt_le := ?_ }
  · obtain ⟨hclosed, -⟩ | ⟨hopen, -, heq⟩ | ⟨hopen, -, attempt, -, heq⟩ :=
      bucket.attempt_cases clock deadline (bucket.wanted tokens)
    · rw [h.isOpen] at hclosed
      contradiction
    · simp [Bucket.step, heq, hopen]
    · simp [Bucket.step, heq, hopen]
  · rw [hstep.filledAt, reading?, h.isOpen]
    exact max_le h.filledAt_le le_rfl

theorem attempt_of_le (hopen : bucket.closed = false) {now wanted : Rat} {deadline : Option Rat}
    (h : wanted ≤ (bucket.refill now).tokens + (bucket.refill now).slack) :
    (bucket.attempt now deadline wanted).1 = .granted wanted := by
  rw [attempt, hopen]
  simp [h]

theorem attempt_of_lt (hopen : bucket.closed = false) {now wanted : Rat}
    (h : (bucket.refill now).tokens + (bucket.refill now).slack < wanted) :
    bucket.attempt now none wanted =
      (.wait ((wanted - (bucket.refill now).tokens) / (bucket.refill now).rate),
        bucket.refill now) := by
  rw [attempt, hopen]
  simp [h.not_ge]

/-- Whoever waits as long as it takes for the missing tokens to come in finds them. -/
theorem Sound.le_tokens_refill (h : bucket.Sound) {wanted : Rat} (hlt : bucket.tokens < wanted)
    (hle : wanted ≤ bucket.capacity) : wanted ≤
      (bucket.refill (bucket.filledAt + (wanted - bucket.tokens) / bucket.rate)).tokens := by
  have hseconds : 0 < (wanted - bucket.tokens) / bucket.rate := div_pos (by linarith) h.rate
  have hgain := div_mul_cancel₀ (wanted - bucket.tokens) h.rate.ne'
  rw [refill, smaller_eq_min, add_sub_cancel_left, if_pos hseconds, hgain]
  exact le_min hle (by linarith)

/-- An attempt on a ready bucket that holds enough is the last one. -/
theorem attempts_of_le (patience : Nat) (timed : Timed Rat) (h : timed.bucket.Ready timed.clock)
    {tokens : Rat} (hle : timed.bucket.wanted tokens ≤
      (timed.bucket.refill timed.clock).tokens + (timed.bucket.refill timed.clock).slack) :
    ∃ later, attempts patience none none (timed.bucket.wanted tokens) timed =
      (.ok (timed.bucket.wanted tokens), later) ∧ later.bucket.Ready later.clock := by
  have hready := h.step none tokens
  have hgranted : (timed.bucket.attempt timed.clock none (timed.bucket.wanted tokens)).1 =
      .granted (timed.bucket.wanted tokens) := attempt_of_le h.isOpen hle
  rw [attempts]
  split <;> rename_i heq <;> rw [heq] at hgranted <;> cases hgranted
  rw [step, heq] at hready
  exact ⟨_, rfl, hready⟩

/-- Somebody who is told to wait finds enough afterwards, and the bucket as ready as before. -/
theorem Ready.wait {clock : Rat} (h : bucket.Ready clock) {wanted : Rat}
    (hle : wanted ≤ bucket.capacity)
    (hlt : (bucket.refill clock).tokens + (bucket.refill clock).slack < wanted) :
    ∃ seconds, bucket.attempt clock none wanted = (.wait seconds, bucket.refill clock) ∧
      (bucket.refill clock).Ready (clock + seconds) ∧
      wanted ≤ ((bucket.refill clock).refill (clock + seconds)).tokens := by
  have hfilled := h.toSound.balanced_refill clock
  have hnow : (bucket.refill clock).filledAt = clock :=
    hfilled.filledAt.trans (max_eq_right h.filledAt_le)
  have hshort : (bucket.refill clock).tokens < wanted := by linarith [hfilled.sound.slack]
  have hseconds := div_pos (sub_pos.2 hshort) hfilled.sound.rate
  have henough := hfilled.sound.le_tokens_refill hshort (hle.trans hfilled.capacity.ge)
  rw [hnow] at henough
  refine ⟨_, attempt_of_lt h.isOpen hlt, ⟨hfilled.sound, ?_, ?_⟩, henough⟩
  · rw [closed_refill, h.isOpen]
  · linarith

/-- Somebody who has a ready bucket for itself and no deadline gets what it wants, after one wait at
most, and leaves the bucket ready. -/
theorem attempts_of_ready (patience : Nat) (timed : Timed Rat)
    (h : timed.bucket.Ready timed.clock) (tokens : Rat) : ∃ later,
      attempts (patience + 1) none none (timed.bucket.wanted tokens) timed =
        (.ok (timed.bucket.wanted tokens), later) ∧ later.bucket.Ready later.clock := by
  by_cases hle : timed.bucket.wanted tokens ≤
      (timed.bucket.refill timed.clock).tokens + (timed.bucket.refill timed.clock).slack
  · exact attempts_of_le _ timed h hle
  · obtain ⟨seconds, hwait, hready, henough⟩ :=
      h.wait (timed.bucket.wanted_le_capacity tokens) (not_le.1 hle)
    have hwanted : timed.bucket.wanted tokens =
        (timed.bucket.refill timed.clock).wanted tokens := by
      rw [wanted, wanted, capacity_refill]
    rw [attempts, hwait]
    rw [hwanted] at henough ⊢
    have hslack := (hready.toSound.balanced_refill (timed.clock + seconds)).sound.slack
    exact attempts_of_le patience
      ⟨timed.bucket.refill timed.clock, timed.clock + seconds, timed.waits ++ [seconds]⟩ hready
      (henough.trans (le_add_of_nonneg_right hslack))

/-- Whoever has a ready bucket for itself and no deadline gets what it wants. -/
theorem acquire_of_ready {clock : Rat} (h : bucket.Ready clock) (tokens : Rat) : ∃ later,
    bucket.acquire clock tokens none = (.ok (bucket.wanted tokens), later) ∧
      later.bucket.Ready later.clock :=
  attempts_of_ready 999 ⟨bucket, clock, []⟩ h tokens

end Bucket

end CodeReview
