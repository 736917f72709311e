import CodeReview.Budget.Bucket
import CodeReview.Completion.Client
import CodeReview.Number.Binary64
import CodeReview.Repository.Node
import CodeReview.Summary.Cache

/-!
# Sessions

What a review changes as it goes on: files, the budget of tokens, what is known of each file, and
the log of what it spent and asked. A step of a review (`ReviewM`) may fail, and what it changed
before stays changed.

* `pay`: takes tokens out of the budget, with a wait if there are too few.
* `ask`: one call of the model.
* `checkpoint`: fails once the batch has been cancelled.
-/

namespace CodeReview

/-- What the log of a session says. -/
inductive Event
  /-- Tokens were taken out of the budget. -/
  | paid (tokens : Rat)
  /-- The model was called. -/
  | asked (call : Call)
  deriving DecidableEq, Repr

/-- What a review changes as it goes on. -/
structure Session where
  fs : FileSystem
  /-- The budget of tokens, in exact numbers. -/
  bucket : Bucket Rat
  clock : Rat := 0
  events : List Event := []
  /-- What is known of each file. -/
  nodes : List Node := []
  /-- Whether the batch of evaluations has been cancelled. -/
  cancelled : Bool := false
  cache : SummaryCache := []

/-- A step of a review. -/
abbrev ReviewM := ExceptT Failure (StateM Session)

-- The power is that of the core library, as in `Binary64`.
attribute [local instance (high)] Rat.instPowNat

/-- How far the budget may fall short of a request that it grants. -/
def budgetSlack : Rat := 1 / 10 ^ (9 : Nat)

/-- A full budget of so many tokens a minute. -/
def budget (tokensPerMinute : Int) : Except Failure (Bucket Rat) := do
  let bucket ← Bucket.full (tokensPerMinute : Rat) none budgetSlack 0
  if (Binary64.ofInt? tokensPerMinute).isNone then throw .tooLargeForFloat
  return bucket

namespace Session

/-- The calls of the model so far. -/
def calls (session : Session) : List Call :=
  session.events.filterMap fun
    | .asked call => some call
    | .paid _ => none

/-- What is known of a file; at first, what the node says. -/
def known (session : Session) (node : Node) : Node :=
  (session.nodes.find? (·.path == node.path)).getD node

/-- Keeps what is known of a file. -/
def keep (session : Session) (node : Node) : Session :=
  { session with
    nodes :=
      if session.nodes.any (·.path == node.path) then
        session.nodes.map fun n => if n.path == node.path then node else n
      else session.nodes ++ [node] }

def log (session : Session) (event : Event) : Session :=
  { session with events := session.events ++ [event] }

end Session

namespace ReviewM

/-- A step that changes nothing. -/
def lift {α : Type} (result : Except Failure α) : ReviewM α := ExceptT.mk (pure result)

/-- Takes tokens out of the budget. -/
def pay (tokens : Int) : ReviewM Unit := do
  let session ← get
  let (result, timed) := session.bucket.acquire session.clock (tokens : Rat) none
  set { session with bucket := timed.bucket, clock := timed.clock }
  match result with
  | .ok paid => modify (·.log (.paid paid))
  | .error refusal => throw (refusal.failure fun tokens => toString tokens.floor)

/-- Calls the model. -/
def ask (client : Client) (call : Call) : ReviewM String := do
  let earlier := (← get).calls
  modify (·.log (.asked call))
  lift (client earlier call)

/-- Cancels the batch. -/
def cancel : ReviewM Unit := modify fun session => { session with cancelled := true }

/-- Closes the budget. -/
def closeBudget : ReviewM Unit :=
  modify fun session => { session with bucket := session.bucket.close }

/-- Goes on only if the batch has not been cancelled. -/
def checkpoint : ReviewM Unit := do
  if (← get).cancelled then throw .batchDeadline

/-- The text of a file below a root, which is kept. -/
def load (root : String) (node : Node) : ReviewM String := do
  let session ← get
  let (content, node) ← lift ((session.known node).load session.fs root)
  set (session.keep node)
  return content

end ReviewM

end CodeReview
