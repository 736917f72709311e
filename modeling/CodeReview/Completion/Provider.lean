import CodeReview.Json.Basic

/-!
# Completion providers

The services that a review can be sent to, with their defaults.
-/

namespace CodeReview

/-- A service that completes prompts. -/
inductive Provider
  | ollama
  | groq
  | openai
  | anthropic
  | gemini
  | openrouter
  deriving DecidableEq, Repr

namespace Provider

def all : List Provider := [ollama, groq, openai, anthropic, gemini, openrouter]

def name : Provider → String
  | ollama => "ollama"
  | groq => "groq"
  | openai => "openai"
  | anthropic => "anthropic"
  | gemini => "gemini"
  | openrouter => "openrouter"

/-- The provider of a name. -/
def ofName? (name : String) : Option Provider := all.find? (·.name == name)

/-- The names of the providers. -/
def names : List String := all.map name

/-- The model that is asked unless another is named. -/
def model : Provider → String
  | ollama => "qwen2.5-coder:7b"
  | groq => "llama-3.3-70b-versatile"
  | openai => "gpt-4o-mini"
  | anthropic => "claude-3-5-sonnet-20241022"
  | gemini => "gemini-2.0-flash"
  | openrouter => "google/gemini-2.0-flash-exp:free"

/-- Where requests go unless another address is given. The address of `gemini` depends on the
model. -/
def endpoint? : Provider → Option String
  | ollama => some "http://127.0.0.1:11434/api/chat"
  | groq => some "https://api.groq.com/openai/v1/chat/completions"
  | openai => some "https://api.openai.com/v1/chat/completions"
  | anthropic => some "https://api.anthropic.com/v1/messages"
  | gemini => none
  | openrouter => some "https://openrouter.ai/api/v1/chat/completions"

/-- Whether requests need a key. -/
def needsKey : Provider → Bool
  | ollama => false
  | _ => true

/-- The environment variable that may hold the key. -/
def keyVariable? : Provider → Option String
  | ollama => none
  | groq => some "GROQ_API_KEY"
  | openai => some "OPENAI_API_KEY"
  | anthropic => some "ANTHROPIC_API_KEY"
  | gemini => some "GEMINI_API_KEY"
  | openrouter => some "OPENROUTER_API_KEY"

/-- The defaults as they would stand in a settings file. -/
def defaults (provider : Provider) : Fields :=
  [("provider", .str provider.name), ("model", .str provider.model)] ++
    (if provider.needsKey then [("api_key", .str "")] else []) ++
    provider.endpoint?.toList.map fun endpoint => ("endpoint", .str endpoint)

/-- The defaults of the provider of a name; those of `ollama` if there is none. -/
def defaultsOf (name : String) : Fields := ((ofName? name).getD ollama).defaults

end Provider

end CodeReview
