import CodeReview.Completion.Provider
import CodeReview.Failure
import CodeReview.Text.Basic

/-!
# Replies of providers

Where the text stands in the document that a provider sends back. A document of another shape is a
failure: something is missing, a list is too short, or a value is not of the kind that is expected.
-/

namespace CodeReview

open Text

namespace Json

/-- The value of a field that has to be there. -/
def field (name : String) : Json → Except Failure Json
  | obj fields =>
    match Keyed.get? fields name with
    | some value => .ok value
    | none => .error (.noSuchKey name)
  | _ => .error .wrongType

/-- The first item, which has to be there. -/
def first : Json → Except Failure Json
  | arr (item :: _) => .ok item
  | arr [] => .error .outOfRange
  | str s =>
    match s.toList with
    | c :: _ => .ok (.str (String.ofList [c]))
    | [] => .error .outOfText
  | obj _ => .error (.noSuchItem 0)
  | _ => .error .wrongType

/-- The value of a field of a mapping, null if it is not there. -/
def fieldOrNull (name : String) : Json → Except Failure Json
  | obj fields => .ok ((Keyed.get? fields name).getD .null)
  | _ => .error .missingAttribute

/-- Whether there is nothing but white space in a text that may be absent. -/
def isBlank (value : Json) : Except Failure Bool :=
  if value.isTruthy then
    match value with
    | str s => .ok (isBlankText s)
    | _ => .error .missingAttribute
  else .ok true

/-- A value, or the empty text if it does not count as present. -/
def orEmpty (value : Json) : Json := if value.isTruthy then value else .str ""

end Json

namespace Provider

open Json

/-- The text in a document from `ollama`. -/
def ollamaText (body : Json) : Except Failure Json := do
  let message ← body.fieldOrNull "message"
  let content ← if message.isTruthy then message.fieldOrNull "content" else pure .null
  if content.isTruthy then return content else body.fieldOrNull "response"

/-- The message in a document of chat completions. -/
def chatMessage (body : Json) : Except Failure Json := do
  (← (← body.field "choices").first).field "message"

/-- The text in a document of chat completions. -/
def chatText (body : Json) : Except Failure Json := do (← chatMessage body).field "content"

/-- The text in a document from `openrouter`; models that reason may leave the content blank. -/
def openrouterText (body : Json) : Except Failure Json := do
  let message ← chatMessage body
  let content := (← message.fieldOrNull "content").orEmpty
  if !(← content.isBlank) then return content
  let reasoning := (← message.fieldOrNull "reasoning").orEmpty
  if !(← reasoning.isBlank) then return reasoning
  return if content.isTruthy then content else .null

/-- The text of a block of `anthropic`. -/
def blockText : Json → Except Failure Json
  | obj fields => .ok ((Keyed.get? fields "text").getD (.str ""))
  | _ => .error .missingAttribute

/-- The text in a document from `anthropic`: that of its blocks. -/
def anthropicText (body : Json) : Except Failure Json := do
  let blocks ← match ← body.field "content" with
    | arr blocks => pure blocks
    | str s => pure (s.toList.map fun c => .str (String.ofList [c]))
    | obj fields => pure (fields.map fun (name, _) => .str name)
    | _ => throw .wrongType
  let texts ← blocks.mapM blockText
  let parts ← texts.mapM fun
    | .str s => pure s
    | _ => throw Failure.wrongType
  return .str (String.join parts)

/-- The text in a document from `gemini`. -/
def geminiText (body : Json) : Except Failure Json := do
  let content ← (← (← body.field "candidates").first).field "content"
  (← (← content.field "parts").first).field "text"

/-- The text in the document that a provider sends back. -/
def replyText : Provider → Json → Except Failure Json
  | ollama => ollamaText
  | groq | openai => chatText
  | openrouter => openrouterText
  | anthropic => anthropicText
  | gemini => geminiText

end Provider

end CodeReview
