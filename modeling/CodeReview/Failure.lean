import CodeReview.Text.Quoted

/-!
# Failures

Every way in which a step of a review can fail, as a cause. `Failure.message` is the one place
that words them, and `Failure.kind` sorts them for callers that treat some kinds differently.

A completion backend may also fail in words of its own (`Failure.reported`).
-/

namespace CodeReview

open Text

/-- What the operating system says about a path. -/
inductive SystemError
  | notFound
  | occupied
  | notDirectory
  | isDirectory
  | nameTooLong
  | tooManyLinks
  deriving DecidableEq, Repr

namespace SystemError

def number : SystemError → Nat
  | notFound => 2
  | occupied => 17
  | notDirectory => 20
  | isDirectory => 21
  | nameTooLong => 36
  | tooManyLinks => 40

def text : SystemError → String
  | notFound => "No such file or directory"
  | occupied => "File exists"
  | notDirectory => "Not a directory"
  | isDirectory => "Is a directory"
  | nameTooLong => "File name too long"
  | tooManyLinks => "Too many levels of symbolic links"

end SystemError

/-- The kinds of failure. -/
inductive FailureKind
  | invalidPath
  | completion
  | parse
  | rateLimitTimeout
  | rateLimiterClosed
  | cancelled
  | value
  | key
  | overflow
  | runtime
  | wrongType
  | missingAttribute
  | index
  | encoding
  | system (error : SystemError)
  deriving DecidableEq, Repr

namespace FailureKind

/-- The name that stands for a failure without a text. -/
def label : FailureKind → String
  | invalidPath => "InvalidPathError"
  | completion => "CompletionError"
  | parse => "ParseFailure"
  | rateLimitTimeout => "RateLimitTimeout"
  | rateLimiterClosed => "RateLimiterClosed"
  | cancelled => "EvaluationCancelled"
  | value => "ValueError"
  | key => "KeyError"
  | overflow => "OverflowError"
  | runtime => "RuntimeError"
  | wrongType => "TypeError"
  | missingAttribute => "AttributeError"
  | index => "IndexError"
  | encoding => "UnicodeDecodeError"
  | system .notFound => "FileNotFoundError"
  | system .occupied => "FileExistsError"
  | system .notDirectory => "NotADirectoryError"
  | system .isDirectory => "IsADirectoryError"
  | system _ => "OSError"

end FailureKind

/-- Why a path cannot be the root of a review. -/
inductive PathFault
  | remote
  | missing
  | notDirectory
  deriving DecidableEq, Repr

/-- The causes of failure. -/
inductive Failure
  /-- The root of the review is not a local directory. -/
  | invalidPath (fault : PathFault) (path : String)
  /-- A path starts in the home folder of somebody who is not known. -/
  | homeUnknown
  | emptyResponse
  /-- No reading of a response found any structure; the response starts like this. -/
  | unreadableResponse (start : String)
  /-- The tokens, rounded to a whole number, did not arrive in time. -/
  | rateLimitTimeout (tokens : String)
  | rateLimiterClosed
  | batchDeadline
  | capacityNotPositive
  /-- A file cannot have children. -/
  | notFolder (path : String)
  | unknownProvider (name : String) (known : List String)
  | notNumber (text : String)
  | tooManyDigits (digits limit : Nat)
  | nullInPath
  | notJson
  | noSuchKey (name : String)
  /-- A mapping was asked for the item at a position. -/
  | noSuchItem (position : Nat)
  /-- A whole number beyond the largest floating-point number. -/
  | tooLargeForFloat
  /-- An infinite number has no integer part. -/
  | infiniteWhole
  | wrongType
  | missingAttribute
  | outOfRange
  /-- A text is too short for a position. -/
  | outOfText
  /-- The bytes of a file are not those of a text. -/
  | notUtf8
  /-- A batch needs somebody to work on it. -/
  | noWorkers
  | system (error : SystemError) (path : String)
  | noApiKey (provider : String)
  | httpStatus (provider : String) (status : Int) (body : String)
  | retriesExhausted (provider : String) (attempts : Int) (last : String)
  /-- The reply to a completion has not the shape that the provider promises. -/
  | unexpectedShape (provider : String) (cause : Failure)
  | emptyCompletion (provider : String)
  /-- A backend's own words. -/
  | reported (kind : FailureKind) (text : String)
  deriving Repr

namespace Failure

def kind : Failure → FailureKind
  | invalidPath .. => .invalidPath
  | homeUnknown => .runtime
  | emptyResponse | unreadableResponse _ => .parse
  | rateLimitTimeout _ => .rateLimitTimeout
  | rateLimiterClosed => .rateLimiterClosed
  | batchDeadline => .cancelled
  | capacityNotPositive | notFolder _ | unknownProvider .. | notNumber _ | tooManyDigits ..
  | nullInPath | notJson | noWorkers => .value
  | noSuchKey _ | noSuchItem _ => .key
  | tooLargeForFloat | infiniteWhole => .overflow
  | wrongType => .wrongType
  | missingAttribute => .missingAttribute
  | outOfRange | outOfText => .index
  | notUtf8 => .encoding
  | system error _ => .system error
  | noApiKey _ | httpStatus .. | retriesExhausted .. | unexpectedShape .. | emptyCompletion _ =>
    .completion
  | reported kind _ => kind

/-- The wording of every failure. -/
def message : Failure → String
  | invalidPath .remote path => "Remote references are not supported, clone first: " ++ path
  | invalidPath .missing path => "Path does not exist: " ++ path
  | invalidPath .notDirectory path => "Path is not a directory: " ++ path
  | homeUnknown => "Could not determine home directory."
  | emptyResponse => "Empty response"
  | unreadableResponse start => "Could not parse response: " ++ quoted start
  | rateLimitTimeout tokens => s!"Timed out waiting for {tokens} tokens"
  | rateLimiterClosed => "Rate limiter closed"
  | batchDeadline => "Batch deadline reached"
  | capacityNotPositive => "capacity must be positive"
  | notFolder path => "Cannot add children to file node '" ++ path ++ "'"
  | unknownProvider name known =>
    "Unknown provider '" ++ name ++ "'. Choose from: " ++ join ", " known
  | notNumber text => "could not convert string to float: " ++ quoted text
  | tooManyDigits digits limit =>
    s!"Exceeds the limit ({limit} digits) for integer string conversion: value has {digits} digits; use sys.set_int_max_str_digits() to increase the limit"
  | nullInPath => "embedded null byte"
  | notJson => "invalid JSON"
  | noSuchKey name => quoted name
  | noSuchItem position => toString position
  | tooLargeForFloat => "int too large to convert to float"
  | infiniteWhole => "cannot convert float infinity to integer"
  | wrongType => "unexpected type"
  | missingAttribute => "missing attribute"
  | outOfRange => "list index out of range"
  | outOfText => "string index out of range"
  | notUtf8 => "invalid UTF-8"
  | noWorkers => "max_workers must be greater than 0"
  | system error path => s!"[Errno {error.number}] {error.text}: " ++ quoted path
  | noApiKey provider => "No API key configured for provider '" ++ provider ++ "'"
  | httpStatus provider status body => s!"{provider} returned HTTP {status}: " ++ body
  | retriesExhausted provider attempts last =>
    s!"{provider} request failed after {attempts} attempts: " ++ last
  | unexpectedShape provider cause => s!"Unexpected {provider} response shape: " ++ cause.message
  | emptyCompletion provider => s!"{provider} returned an empty completion"
  | reported _ text => text

/-- The wording of a failure, or the name of its kind when it has none. -/
def described (failure : Failure) : String :=
  (nonEmpty? failure.message).getD failure.kind.label

end Failure

end CodeReview
