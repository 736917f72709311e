import CodeReview.Failure

/-!
# A budget of tokens

A bucket holds up to `capacity` tokens and fills at `rate` tokens a second. A request takes what it
wants out of the bucket, but never more than the bucket can hold, and waits while there is too
little. A closed bucket refuses every request.

* `attempt`: one look at the bucket. It grants the request, refuses it, or says how long to wait.
* `acquire`: attempts with waits between them, by somebody who is alone with the bucket.

The arithmetic is left open. On exact numbers the budget is exact; on floating-point numbers `slack`
absorbs what rounding takes away.
-/

namespace CodeReview

/-- How many tokens a text of some length is taken for: one for four characters, and at least
one. -/
def estimateTokens (length : Int) : Int := max 1 (length / 4)

/-- A bucket of tokens. -/
structure Bucket (α : Type) where
  capacity : α
  /-- Tokens a second. -/
  rate : α
  /-- How far a bucket may fall short of a request that it grants. -/
  slack : α
  tokens : α
  /-- The latest reading of the clock. -/
  filledAt : α
  closed : Bool := false
  deriving Repr

/-- Why a request gets nothing. -/
inductive Refusal (α : Type)
  | closed
  /-- The tokens that were wanted did not arrive in time. -/
  | timedOut (wanted : α)
  deriving Repr

/-- What one look at a bucket comes to. -/
inductive Attempt (α : Type)
  | granted (tokens : α)
  | wait (seconds : α)
  | refused (refusal : Refusal α)
  deriving Repr

/-- The failure of a request that was refused. -/
def Refusal.failure {α : Type} (text : α → String) : Refusal α → Failure
  | closed => .rateLimiterClosed
  | timedOut wanted => .rateLimitTimeout (text wanted)

namespace Bucket

variable {α : Type} [OfNat α 0] [OfNat α 60] [Add α] [Sub α] [Mul α] [Div α] [LT α]
  [DecidableLT α] [LE α] [DecidableLE α]

/-- The second amount if it is larger, else the first. -/
def larger (a b : α) : α := if b > a then b else a

/-- The second amount if it is smaller, else the first. -/
def smaller (a b : α) : α := if b < a then b else a

/-- A full bucket. Unless a rate is given, it fills once a minute. -/
def full (capacity : α) (rate : Option α) (slack now : α) : Except Failure (Bucket α) :=
  if capacity ≤ 0 then .error .capacityNotPositive
  else .ok { capacity, rate := rate.getD (capacity / 60), slack, tokens := capacity, filledAt := now }

/-- Fills the bucket for the time that has passed. A clock that stands still or runs backwards fills
nothing. -/
def refill (bucket : Bucket α) (now : α) : Bucket α :=
  let elapsed := now - bucket.filledAt
  if elapsed > 0 then
    { bucket with
      tokens := smaller bucket.capacity (bucket.tokens + elapsed * bucket.rate)
      filledAt := now }
  else bucket

/-- The tokens in the bucket, once it has been filled. -/
def available (bucket : Bucket α) (now : α) : α × Bucket α :=
  let bucket := bucket.refill now
  (bucket.tokens, bucket)

/-- What a request gets: no less than nothing, and no more than the bucket can hold. -/
def wanted (bucket : Bucket α) (tokens : α) : α := smaller (larger tokens 0) bucket.capacity

def close (bucket : Bucket α) : Bucket α := { bucket with closed := true }

/-- One look at the bucket by somebody who wants tokens before a deadline. -/
def attempt (bucket : Bucket α) (now : α) (deadline : Option α) (wanted : α) :
    Attempt α × Bucket α :=
  if bucket.closed then (.refused .closed, bucket)
  else
    let bucket := bucket.refill now
    if bucket.tokens + bucket.slack ≥ wanted then
      (.granted wanted, { bucket with tokens := larger 0 (bucket.tokens - wanted) })
    else
      let seconds := (wanted - bucket.tokens) / bucket.rate
      match deadline with
      | none => (.wait seconds, bucket)
      | some deadline =>
        let remaining := deadline - now
        if remaining ≤ 0 then (.refused (.timedOut wanted), bucket)
        else (.wait (smaller seconds remaining), bucket)

/-- A bucket with a clock, and the waits so far. -/
structure Timed (α : Type) where
  bucket : Bucket α
  clock : α
  waits : List α := []

/-- Attempts until one is decided, with a wait after each that is not. The bucket is closed during
the wait of number `closing`, if there is one. Somebody who has waited `patience` times gives
up. -/
def attempts (patience : Nat) (closing : Option Nat) (deadline : Option α) (wanted : α)
    (timed : Timed α) : Except (Refusal α) α × Timed α :=
  match timed.bucket.attempt timed.clock deadline wanted with
  | (.granted tokens, bucket) => (.ok tokens, { timed with bucket })
  | (.refused refusal, bucket) => (.error refusal, { timed with bucket })
  | (.wait seconds, bucket) =>
    match patience with
    | 0 => (.error (.timedOut wanted), { timed with bucket })
    | patience + 1 =>
      let waits := timed.waits ++ [seconds]
      let bucket := if closing = some waits.length then bucket.close else bucket
      attempts patience closing deadline wanted
        { bucket, clock := timed.clock + seconds, waits }

/-- The most waits for one request; on exact numbers one is enough. -/
def patience : Nat := 1000

/-- Takes tokens out of a bucket that nobody else uses, within `timeout` seconds if one is given. -/
def acquire (bucket : Bucket α) (clock tokens : α) (timeout : Option α)
    (closing : Option Nat := none) : Except (Refusal α) α × Timed α :=
  attempts patience closing (timeout.map (clock + ·)) (bucket.wanted tokens) { bucket, clock }

end Bucket

end CodeReview
