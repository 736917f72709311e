import CodeReview.Review.Session
import CodeReview.Settings

/-!
# Summaries of summaries

The summaries of files are folded into one summary for each folder, and those into one for the
repository. What was made in a run is kept and not asked for again. A folder whose summary fails in
the model is left out.
-/

namespace CodeReview.Rollup

/-- The temperature of a summary. -/
def temperature : Amount := .real (.ofRatio false 3 10)

/-- One summary of texts; there is nothing to ask when all are empty. -/
def summarize (client : Client) (settings : Settings) (texts : List String) : ReviewM String :=
  let texts := texts.filter (!·.isEmpty)
  if texts.isEmpty then pure ""
  else ReviewM.ask client
    { purpose := .rollup, user := Prompt.rollup texts
      maxTokens := settings.maxTokens, temperature }

/-- One summary of texts, or nothing if the model fails. -/
def summarize? (client : Client) (settings : Settings) (texts : List String) :
    ReviewM (Option String) := do
  try
    return some (← summarize client settings texts)
  catch failure =>
    if failure.kind = .completion then return none else throw failure

/-- Summaries by the folder that their files stand in. -/
def byFolder (summaries : Keyed String) : Keyed (List String) :=
  summaries.foldl (fun folders (path, summary) => folders.extend (Path.folder path) [summary]) []

/-- The folders below the root, in code point order. -/
def folders (summaries : Keyed (List String)) : List String :=
  (summaries.keys.filter (· != "")).mergeSort fun a b => !decide (b < a)

/-- The summary of a folder, which is kept. -/
def folderSummary (client : Client) (settings : Settings) (run folder : String)
    (texts : List String) : ReviewM (Option String) := do
  match (← get).cache.folder? run folder with
  | some summary => return some summary
  | none =>
    let some summary ← summarize? client settings texts | return none
    modify fun session => { session with cache := session.cache.keepFolder run folder summary }
    return some summary

/-- The summary of the repository, which is kept. -/
def rootSummary (client : Client) (settings : Settings) (run : String) (texts : List String) :
    ReviewM (Option String) := do
  match (← get).cache.root? run with
  | some summary => return Text.nonEmpty? summary
  | none =>
    let some summary ← summarize? client settings texts | return none
    modify fun session => { session with cache := session.cache.keepRoot run summary }
    return Text.nonEmpty? summary

/-- The summaries of folders, in their order. -/
def folderSummaries (client : Client) (settings : Settings) (run : String)
    (summaries : Keyed (List String)) : List String → ReviewM (Keyed String)
  | [] => return []
  | folder :: rest => do
    let summary ← folderSummary client settings run folder ((summaries.get? folder).getD [])
    let others ← folderSummaries client settings run summaries rest
    return summary.toList.map (folder, ·) ++ others

/-- The summaries of the folders and of the repository. -/
def fold (client : Client) (settings : Settings) (run : String) (summaries : Keyed String) :
    ReviewM (Keyed String × Option String) := do
  let texts := byFolder summaries
  let ofFolders ← folderSummaries client settings run texts (folders texts)
  let root ← rootSummary client settings run (ofFolders.values ++ (texts.get? "").getD [])
  return (ofFolders, root)

end CodeReview.Rollup
