import CodeReview.Completion.Client
import CodeReview.Completion.Reply
import CodeReview.Completion.Request
import CodeReview.Completion.Retry
import CodeReview.Config
import CodeReview.Json.Reader

/-!
# Completing prompts

A provider with what is needed to ask it, and how it is asked: again after errors of the network,
after errors of the server and when it is busy, with a delay between two attempts; but not when it
refuses the request.

What comes back is a script, the response to each attempt, so that the protocol can be looked at
without a network.
-/

namespace CodeReview

open Text

/-- What a request comes to. -/
inductive Response
  /-- There is no response, for the given reason. -/
  | unreachable (reason : String)
  | arrived (status : Int) (headers : Keyed String) (body : String)
  deriving Repr

/-- A provider with what is needed to ask it. -/
structure Service where
  provider : Provider
  target : Target
  /-- How often a request is sent at most. -/
  maxAttempts : Nat
  /-- How many seconds a response is waited for. -/
  timeout : Amount
  deriving Repr

namespace Service

/-! ## Choosing a provider -/

/-- What a caller wants of a service. What is left out or empty is taken from the settings file and
then from the defaults. -/
structure Choice where
  provider : Option String := none
  model : Option String := none
  apiKey : Option String := none
  endpoint : Option String := none
  maxRetries : Int := 5
  timeout : Amount := .real (.ofRatio false 60 1)

/-- The first value that counts as present, else the last. -/
def firstTruthy (values : List Json) (last : Json) : Json := (values.find? Json.isTruthy).getD last

/-- The name of the provider that is asked, in small letters. -/
def providerName (stored : Fields) (choice : Choice) : Except Failure String :=
  match choice.provider.bind nonEmpty? with
  | some name => .ok (lowercase name)
  | none =>
    match (Keyed.get? stored "provider").filter Json.isTruthy with
    | none => .ok Provider.ollama.name
    | some (.str name) => .ok (lowercase name)
    | some _ => .error .missingAttribute

/-- The service that a caller gets. Stored values count only for the provider that they were stored
for. -/
def choose (env : Environment) (stored : Fields) (choice : Choice) : Except Failure Service := do
  let name ← providerName stored choice
  match Provider.ofName? name with
  | none => throw (.unknownProvider name Provider.names)
  | some provider =>
    let storedFor := ((Keyed.get? stored "provider").getD (.str Provider.ollama.name)).str?
    let inherited := if storedFor = some name then stored else []
    let given (value : Option String) (key : String) : List Json :=
      [.str (value.getD ""), (Keyed.get? inherited key).getD .null]
    return {
      provider
      maxAttempts := (max 1 choice.maxRetries).toNat
      timeout := choice.timeout
      target :=
        { model := firstTruthy (given choice.model "model") (.str provider.model)
          apiKey := firstTruthy (given choice.apiKey "api_key") (.str (env.apiKey name))
          endpoint := firstTruthy (given choice.endpoint "endpoint")
            (.str (provider.endpoint?.getD "")) } }

/-! ## Asking -/

/-- What an attempt comes to. -/
inductive Attempt
  | decided (result : Except Failure String)
  /-- The next attempt waits this long, and the error is the last one so far. -/
  | again (delay : Float) (error : String)

/-- How much of a body a failure quotes. -/
def quotedLength : Nat := 200

/-- The text in the body of a response. Failures of its shape are failures of the completion, except
where a value lacks what its kind should have. -/
def textOf (service : Service) (body : String) : Except Failure String :=
  let provider := service.provider
  let found :=
    match Json.parse? body with
    | some document => provider.replyText document
    | none => .error .notJson
  match found with
  | .error failure =>
    if failure.kind = .missingAttribute then .error failure
    else .error (.unexpectedShape provider.name failure)
  | .ok text =>
    if !text.isTruthy then .error (.emptyCompletion provider.name)
    else match text with
      | .str s => if isBlankText s then .error (.emptyCompletion provider.name) else .ok s
      | _ => .error .missingAttribute

/-- What an attempt, counted from one, comes to with its response. -/
def judge (service : Service) (attempt : Nat) (jitter : Float) : Response → Except Failure Attempt
  | .unreachable reason => do return .again (← Retry.backoff attempt jitter) reason
  | .arrived status headers body => do
    if status = 429 then
      let delay ← match ← Retry.delayAsked headers body with
        | some seconds => pure (seconds + jitter)
        | none => Retry.backoff attempt jitter
      return .again delay "rate limited (HTTP 429)"
    else if 500 ≤ status then return .again (← Retry.backoff attempt jitter) s!"HTTP {status}"
    else if 400 ≤ status then
      return .decided (.error (.httpStatus service.provider.name status (take quotedLength body)))
    else return .decided (service.textOf body)

/-- What a client does in a conversation. -/
inductive Step
  | post (request : Request)
  | sleep (seconds : Float)

/-- A conversation with a provider: its result, and what was done until then. -/
structure Conversation where
  result : Except Failure String
  steps : List Step := []

namespace Conversation

/-- The requests that were sent. -/
def requests (conversation : Conversation) : List Request :=
  conversation.steps.filterMap fun
    | .post request => some request
    | .sleep _ => none

/-- How many requests were sent. -/
def posts (conversation : Conversation) : Nat := conversation.requests.length

/-- The delays that were slept. -/
def sleeps (conversation : Conversation) : List Float :=
  conversation.steps.filterMap fun
    | .post _ => none
    | .sleep seconds => some seconds

end Conversation

/-- Goes on with a conversation in which `sent` requests have been sent; `left` more may follow. -/
def converse (service : Service) (request : Request) (script : Nat → Response) (jitter : Nat → Float) :
    (left sent : Nat) → (error : String) → Conversation
  | 0, _, error =>
    { result := .error (.retriesExhausted service.provider.name service.maxAttempts error) }
  | left + 1, sent, _ =>
    match service.judge (sent + 1) (jitter sent) (script sent) with
    | .error failure => { result := .error failure, steps := [.post request] }
    | .ok (.decided result) => { result, steps := [.post request] }
    | .ok (.again delay error) =>
      let rest := converse service request script jitter left (sent + 1) error
      let pause := if left = 0 then [] else [.sleep delay]
      { rest with steps := .post request :: (pause ++ rest.steps) }

/-- Whether a provider may be asked: it has a key if it needs one. -/
def hasKey (service : Service) : Bool :=
  !service.provider.needsKey || service.target.apiKey.isTruthy

/-- The request that puts a question to a service. -/
def request (service : Service) (question : Question) : Request :=
  service.provider.request service.target question

/-- Asks a provider a question, which it answers attempt after attempt as a script says. `jitter` is the
random addition to each delay. -/
def complete (service : Service) (script : Nat → Response) (jitter : Nat → Float)
    (question : Question := { system := "", user := "" }) : Conversation :=
  if service.hasKey then
    service.converse (service.request question) script jitter service.maxAttempts 0 "no attempt made"
  else { result := .error (.noApiKey service.provider.name) }

/-! ## Clients -/

/-- What a call, given the calls before it, gets as the response to each attempt. -/
abbrev Network := (earlier : List Call) → Call → (attempt : Nat) → Response

/-- The client that asks a service over a network. -/
def client (service : Service) (network : Network) (jitter : Nat → Float) : Client :=
  fun earlier call =>
    let question : Question :=
      { system := call.purpose.system, user := call.user
        maxTokens := call.maxTokens, temperature := call.temperature }
    (service.complete (network earlier call) jitter question).result

end Service

end CodeReview
