import CodeReview.Keyed
import CodeReview.Text.Basic

/-!
# Prompts

What the model is asked: about one file in the context of its repository, about the repository as a
whole, and for a summary of summaries.
-/

namespace CodeReview.Prompt

open Text

/-! ## What the model is told to be -/

/-- The instructions for the evaluation of a file. -/
def evaluationSystem : String :=
  "You are a code reviewer assistant. Please follow these instructions strictly:\n" ++
  "- Provide feedback on errors, improvements, and things done right.\n" ++
  "- Use a structured JSON format with keys: errors, improvements, thingsDoneRight.\n" ++
  "- Each key should map to a list of issue objects with fields: title, filePath, lineStart, lineEnd, severity, codeSnippet.\n" ++
  "- The field 'codeSnippet' must contain the exact code from the file, between lineStart and lineEnd (inclusive).\n" ++
  "- Only return a single JSON object first, fenced as \x60\x60\x60json ... \x60\x60\x60, with no additional explanation.\n" ++
  "- After the JSON object, provide a brief summary describing the purpose and functionality of the file.\n" ++
  "- Use severity levels: CRITICAL, HIGH, MEDIUM, LOW, ERROR.\n"

/-- The instructions for the assessment of a repository. -/
def assessmentSystem : String :=
  "You are a code quality expert. Answer with short bullet points, one per line, each starting with '- '."

/-- The instructions for a summary of summaries. -/
def rollupSystem : String := "Combine the following summaries into a concise overall summary."

/-! ## Parts -/

/-- The tag of the fence around a file in some language. -/
def languageTag (language : Option String) : String :=
  let lang := lowercase (language.getD "")
  if hasPart "javascript" lang || lang == "js" || lang == "jsx" then "javascript"
  else if hasPart "typescript" lang || lang == "ts" || lang == "tsx" then "typescript"
  else if lang == "py" || hasPart "python" lang then "python"
  else if hasPart "java" lang then "java"
  else if hasPart "html" lang then "html"
  else if hasPart "css" lang then "css"
  else ""

/-- The first `limit` characters; all of them if the limit is not positive. -/
def truncate (content : String) (limit : Int) : String :=
  if limit ≤ 0 then content else take limit.toNat content

/-- The first `limit` different texts, trimmed, without blank ones. -/
def limited (limit : Nat) (values : List (Option String)) : List String :=
  let texts := (values.map fun value => trim (value.getD "")).filter (!·.isEmpty)
  (texts.foldl (fun seen text => if seen.contains text then seen else seen ++ [text]) []).take limit

/-- A labelled list. -/
def listed (label : String) (values : List String) : List String :=
  label :: (if values.isEmpty then ["  (none)"] else values.map ("  - " ++ ·))

/-- Lines with a line end after each. -/
def ofLines (lines : List String) : String := join "\n" lines ++ "\n"

/-! ## Prompts -/

/-- What the prompt about a file is made of. -/
structure FileQuestion where
  path : String
  language : Option String
  content : String
  taking : List (Option String) := []
  dependents : List (Option String) := []
  calling : List (Option String) := []

/-- The prompt about one file. -/
def evaluation (question : FileQuestion) : String :=
  ofLines (
    ["You are a senior code reviewer. Analyze the following file in the context of its repository.",
     "Return strict JSON with keys: errors, improvements, thingsDoneRight. Each value is a list of IssueItem JSON:",
     "\x7b \"title\": string, \"filePath\": string, \"lineStart\": number|null, \"lineEnd\": number|null, " ++
       "\"severity\": \"LOW\"|\"MEDIUM\"|\"HIGH\"|\"CRITICAL\"|\"ERROR\", \"codeSnippet\": string|null \x7d",
     "",
     "Repository context for this file:",
     "- filePath: " ++ question.path,
     "- language: " ++ (question.language.bind nonEmpty?).getD "n/a"] ++
    listed "- taking (imports, repo-relative, limited to 20):" (limited 20 question.taking) ++
    listed "- dependents (files that import/call this, limited to 20):"
      (limited 20 question.dependents) ++
    listed "- calling (exported/public symbols, limited to 30):" (limited 30 question.calling) ++
    ["",
     "Review goals:",
     "- Identify correctness/security issues and missing error handling.",
     "- Point out performance and scalability issues.",
     "- Note architecture or API misuse problems.",
     "- Suggest concrete, minimal improvements aligned with the codebase style.",
     "- Use the dependency context to check for broken imports/exports or misuse.",
     "",
     "Return the JSON object first, then a short summary of what the file does.",
     "",
     "File content starts:",
     "\x60\x60\x60" ++ languageTag question.language,
     question.content,
     "\x60\x60\x60"])

/-- The most files that are named in the prompt about a repository. -/
def assessmentLimit : Nat := 30

/-- The prompt about a repository of `count` files. -/
def assessment (summaries : Keyed String) (count : Int) : String :=
  let named := (summaries.take assessmentLimit).map fun (path, summary) =>
    "- " ++ path ++ ": " ++ (nonEmpty? summary).getD "(no summary)"
  let more :=
    if summaries.length ≤ assessmentLimit then []
    else [s!"... and {count - assessmentLimit} more files"]
  ofLines (
    ["You are a code quality expert reviewing a repository. Based on the following information, " ++
       "provide an overall assessment of the codebase with key strengths and areas for improvement.",
     "",
     s!"Files in the repository ({count} total):"] ++ named ++ more)

/-- The prompt for a summary of texts. -/
def rollup (texts : List String) : String := join "\n\n" (texts.filter (!·.isEmpty))

end CodeReview.Prompt
