import CodeReview.Path.Basic

/-!
# Lexical paths

Joining and simplifying paths by their text alone, without looking at a file system.

`resolveDots` removes `.` and empty components and lets `..` cancel the component before it; it is
what `simplify` does to the components of a path. A relative path may keep `..` at its very front,
an absolute one may not.
-/

namespace CodeReview.Path

open Text

/-- Adds one component to components that are already simplified and given in reverse. -/
def addComponent (absolute : Bool) (before : List (List Char)) (component : List Char) :
    List (List Char) :=
  if component == [] || component == ['.'] then before
  else if component == ['.', '.'] then
    match before with
    | [] => if absolute then [] else [component]
    | last :: rest => if last == ['.', '.'] then component :: before else rest
  else component :: before

/-- The components that are left when `.` is dropped and `..` cancels what is before it. -/
def resolveDots (absolute : Bool) (components : List (List Char)) : List (List Char) :=
  (components.foldl (addComponent absolute) []).reverse

/-- How many slashes a simplified path starts with: two are kept as they are, more count as one. -/
def leadingSlashes (cs : List Char) : Nat :=
  match (cs.takeWhile isSlash).length with
  | 0 => 0
  | 2 => 2
  | _ => 1

/-- A path without empty components, `.` and removable `..`; what is empty becomes `.`. -/
def simplifyChars (cs : List Char) : List Char :=
  let slashes := leadingSlashes cs
  let body := Chars.join ['/'] (resolveDots (0 < slashes) (Chars.splitOn '/' cs))
  let path := List.replicate slashes '/' ++ body
  if path.isEmpty then ['.'] else path

/-- A path without empty components, `.` and removable `..`. -/
def simplify (path : String) : String := onChars simplifyChars path

/-- `path` taken from `base`; an absolute path stands for itself. -/
def joinTo (base path : String) : String :=
  if startsWith "/" path then path
  else if base.isEmpty || endsWith "/" base then base ++ path
  else base ++ "/" ++ path

/-- What stands before the last slash, without the slashes at its end unless there is nothing
else. -/
def parent (path : String) : String :=
  let head := (path.toList.reverse.dropWhile (!isSlash ·)).reverse
  String.ofList (if head.all isSlash then head else Chars.trimEnd isSlash head)

/-- A location as file operations name it: no empty components, no `.`, no slash at the end. -/
def tidyChars (cs : List Char) : List Char :=
  let components := (Chars.splitOn '/' cs).filter fun part => !(part == [] || part == ['.'])
  let path := List.replicate (leadingSlashes cs) '/' ++ Chars.join ['/'] components
  if path.isEmpty then ['.'] else path

/-- A location as file operations name it. -/
def tidy (path : String) : String := onChars tidyChars path

/-- The location of a relative path below a location. -/
def under (base path : String) : String := tidy (joinTo base path)

end CodeReview.Path
