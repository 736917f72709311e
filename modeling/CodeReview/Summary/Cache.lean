import CodeReview.Keyed

/-!
# Kept summaries

Summaries of folders and of repositories, kept by the run that they were made in. Runs do not see
each other's summaries.
-/

namespace CodeReview

/-- The summaries of one run. -/
structure RunSummaries where
  folders : Keyed String := []
  root : Option String := none
  deriving Repr

/-- Summaries by run. -/
abbrev SummaryCache := Keyed RunSummaries

namespace SummaryCache

/-- The summaries of a run. -/
def ofRun (cache : SummaryCache) (run : String) : RunSummaries := (Keyed.get? cache run).getD {}

/-- The summary of a folder in a run. -/
def folder? (cache : SummaryCache) (run folder : String) : Option String :=
  Keyed.get? (cache.ofRun run).folders folder

/-- The summary of the repository in a run. -/
def root? (cache : SummaryCache) (run : String) : Option String := (cache.ofRun run).root

def keepFolder (cache : SummaryCache) (run folder summary : String) : SummaryCache :=
  let summaries := cache.ofRun run
  Keyed.put cache run { summaries with folders := summaries.folders.put folder summary }

def keepRoot (cache : SummaryCache) (run summary : String) : SummaryCache :=
  Keyed.put cache run { cache.ofRun run with root := some summary }

end SummaryCache

end CodeReview
