import CodeReview.Completion.Provider
import CodeReview.Json.Display
import CodeReview.Number.Amount

/-!
# Requests to providers

How a prompt is put to a provider: the address, the headers and the document that are sent. The
providers speak three dialects, and `ollama` one of its own.
-/

namespace CodeReview

/-- What a provider is asked. -/
structure Question where
  system : String
  user : String
  maxTokens : Int := 1024
  temperature : Amount := .real (.ofRatio false 1 5)
  deriving Repr

/-- Where questions are sent, and with what. Values come from a settings file and may be of any
kind. -/
structure Target where
  model : Json
  apiKey : Json
  endpoint : Json
  deriving Repr

/-- A request. -/
structure Request where
  url : Json
  headers : Fields
  payload : Fields
  deriving Repr

namespace Provider

/-- A message of a dialogue. -/
def message (role content : String) : Json := .obj [("role", .str role), ("content", .str content)]

/-- A text in the dialect of `gemini`. -/
def part (text : String) : Json := .arr [.obj [("text", .str text)]]

/-- The header that says what is sent. -/
def contentType : String × Json := ("Content-Type", .str "application/json")

/-- The request to `ollama`. -/
def ollamaRequest (target : Target) (q : Question) : Request where
  url := target.endpoint
  headers := [contentType]
  payload :=
    [("model", target.model),
     ("messages", .arr [message "system" q.system, message "user" q.user]),
     ("stream", .bool false),
     ("options", .obj [("temperature", q.temperature.toJson), ("num_predict", .int q.maxTokens)])]

/-- The request to a provider of chat completions. -/
def chatRequest (target : Target) (q : Question) : Request where
  url := target.endpoint
  headers := [contentType, ("Authorization", .str ("Bearer " ++ target.apiKey.asText))]
  payload :=
    [("model", target.model),
     ("messages", .arr [message "system" q.system, message "user" q.user]),
     ("temperature", q.temperature.toJson), ("max_tokens", .int q.maxTokens)]

/-- The request to `anthropic`. -/
def anthropicRequest (target : Target) (q : Question) : Request where
  url := target.endpoint
  headers :=
    [contentType, ("x-api-key", target.apiKey), ("anthropic-version", .str "2023-06-01")]
  payload :=
    [("model", target.model), ("system", .str q.system),
     ("messages", .arr [message "user" q.user]),
     ("max_tokens", .int q.maxTokens), ("temperature", q.temperature.toJson)]

/-- The address of a model of `gemini`. -/
def geminiUrl (model : Json) : Json :=
  .str ("https://generativelanguage.googleapis.com/v1beta/models/" ++ model.asText ++
    ":generateContent")

/-- The request to `gemini`. -/
def geminiRequest (target : Target) (q : Question) : Request where
  url := if target.endpoint.isTruthy then target.endpoint else geminiUrl target.model
  headers := [contentType, ("x-goog-api-key", target.apiKey)]
  payload :=
    [("systemInstruction", .obj [("parts", part q.system)]),
     ("contents", .arr [.obj [("role", .str "user"), ("parts", part q.user)]]),
     ("generationConfig",
       .obj [("temperature", q.temperature.toJson), ("maxOutputTokens", .int q.maxTokens)])]

/-- The request that puts a question to a provider. -/
def request : Provider → Target → Question → Request
  | ollama => ollamaRequest
  | groq | openai | openrouter => chatRequest
  | anthropic => anthropicRequest
  | gemini => geminiRequest

end Provider

end CodeReview
