import CodeReview.Main
import CodeReview.Proofs.Response.Fence
import CodeReview.Proofs.Response.Totality
import CodeReview.Proofs.Review.Aggregation
import CodeReview.Proofs.Repository.Coverage
import CodeReview.Proofs.Dependency.Extraction
import CodeReview.Proofs.Dependency.Graph
import CodeReview.Proofs.Dependency.Locality
import CodeReview.Proofs.Path.Lexical
import CodeReview.Proofs.Dependency.Search
import CodeReview.Proofs.Dependency.Totality
import CodeReview.Proofs.Dependency.Targets
import CodeReview.Proofs.FileSystem.Locations
import CodeReview.Proofs.Evaluation.Isolation
import CodeReview.Proofs.Repository.Visibility
import CodeReview.Proofs.Review.Keys
import CodeReview.Proofs.Budget.Conservation
import CodeReview.Proofs.Evaluation.Deadline
import CodeReview.Proofs.Review.Payment
import CodeReview.Proofs.Response.Reports
import CodeReview.Proofs.Json.Printing
import CodeReview.Proofs.Text.Utf8
import CodeReview.Proofs.Record.Log
import CodeReview.Proofs.Completion.Delays
import CodeReview.Proofs.Completion.Retrying
import CodeReview.Proofs.Completion.Waiting
import CodeReview.Proofs.Completion.Replies
import CodeReview.Proofs.Completion.Failures
import CodeReview.Proofs.Completion.Choosing
import CodeReview.Proofs.CommandLine.Keys
import CodeReview.Proofs.Response.Bullets
import CodeReview.Proofs.Response.Drafts
import CodeReview.Proofs.Text.Words
import CodeReview.Proofs.Response.RoundTrip
import CodeReview.Proofs.Response.Blocks
import CodeReview.Proofs.Response.Places
import CodeReview.Proofs.Budget.Waiting
import CodeReview.Proofs.Response.Wrapping
import CodeReview.Proofs.Dependency.Layouts
import CodeReview.Proofs.Dependency.Clauses
import CodeReview.Proofs.Dependency.Statements
import CodeReview.Proofs.Dependency.Packages
import CodeReview.Proofs.Dependency.Confinement
import CodeReview.Proofs.Repository.Linkless
import CodeReview.Proofs.Dependency.ClassIndex
import CodeReview.Proofs.Dependency.ClassOrder
import CodeReview.Proofs.Dependency.Brackets
import CodeReview.Proofs.Text.Keywords
import CodeReview.Proofs.Dependency.Headers
import CodeReview.Proofs.Dependency.Heritage
import CodeReview.Proofs.Dependency.Matching
import CodeReview.Proofs.Evaluation.Priority
import CodeReview.Proofs.Summary.Rollup
import CodeReview.Proofs.Dependency.DefaultExports
import CodeReview.Proofs.Config.Settings
import CodeReview.Proofs.Summary.Bullets
import CodeReview.Proofs.Json.Exact
import CodeReview.Proofs.Evaluation.Dumps
import CodeReview.Proofs.Repository.Ceiling
import CodeReview.Proofs.Path.Extensions
import CodeReview.Proofs.Dependency.TwiceNormalized
import CodeReview.Proofs.Config.Keeping
