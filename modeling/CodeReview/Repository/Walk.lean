import CodeReview.Repository.Filter

/-!
# Walking a repository

The tree of a repository: folders in code point order of their names, entered once each by the
place they denote, and the files that `CodeReview.Filter` lists.

A link to a folder is entered like the folder itself, under the name of the link, so which name a
folder is listed under depends on which comes first. The places entered so far are carried through
the whole walk. A walk enters a new place at every level, so the number of folders bounds its depth.

Folders are read by the path that the walk has come by, which goes through links and may be longer
than any path of the folder itself. A folder that cannot be read under that path is listed without
children.
-/

namespace CodeReview

open Text

/-- A walked repository: the absolute path of its root and its tree. -/
structure Checkout where
  root : String
  tree : Tree
  /-- The nodes by path as they were after the walk. -/
  index : List Node := tree.nodes

namespace Checkout

/-- The last node that the walk listed under a path. -/
def find? (checkout : Checkout) (path : String) : Option Node :=
  checkout.index.reverse.find? (·.path == Path.normalize path)

def files (checkout : Checkout) : List Node := checkout.tree.files

/-- Puts a node in the place of the one with its path. -/
def keep (checkout : Checkout) (node : Node) : Checkout :=
  { checkout with index := checkout.index.map fun n => if n.path == node.path then node else n }

/-- Adds a node at the end of a folder of the tree. The nodes that the walk listed stay as they
are. -/
def addChild (checkout : Checkout) (folder : String) (node : Node) : Except Failure Checkout :=
  match checkout.find? folder with
  | none => .error .missingAttribute
  | some parent =>
    if parent.isFolder then
      .ok { checkout with tree := checkout.tree.addBelow parent.path (.node node []) }
    else .error (.notFolder parent.path)

def fileCount (checkout : Checkout) : Nat := checkout.index.countP (!·.isFolder)

def folderCount (checkout : Checkout) : Nat :=
  checkout.index.countP fun node => node.isFolder && node.path != ""

/-- The line of a node in `render`. -/
def renderLine (node : Node) : String :=
  copies node.depth "  " ++ node.name ++ (if node.isFolder then "/" else "")

/-- The tree as text, one node a line, indented by two spaces a level. -/
def render (checkout : Checkout) : String :=
  let below := checkout.tree.nodes.filter (·.path != "")
  join "\n" ((Path.name checkout.root ++ "/") :: below.map renderLine)

end Checkout

namespace Walk

/-- What the walk makes of one entry of a folder. -/
inductive Step
  | skip
  | enter (place : Place)
  | list (size : Nat)

/-- Where a path below `root` is. -/
def location (root path : String) : String := if path.isEmpty then root else Path.joinTo root path

/-- The place of the folder at a path, if it can be read. -/
def folderAt? (fs : FileSystem) (path : String) : Option Place :=
  match fs.resolve path with
  | .ok (place, .folder) => some place
  | _ => none

/-- What the walk makes of an entry of the folder at `place`, without regard to what it has entered
before. An entry that is a link is judged by what it denotes; a folder need not be readable. -/
def step (fs : FileSystem) (sizeLimit : Int) (place : Place) (location name : String) (entry : Entry) :
    Step :=
  match entry with
  | .pipe => .skip
  | .folder => if Filter.isIgnoredFolder name then .skip else .enter (place ++ [name])
  | .file _ | .link _ =>
    match fs.resolve location with
    | .ok (target, .folder) => if Filter.isIgnoredFolder name then .skip else .enter target
    | .ok (_, target) =>
      if Filter.includes fs location (some target.size) sizeLimit then .list target.size else .skip
    | .error _ => .skip

mutual

/-- The trees below the folder that the walk has come to as `path` below `root`, and the places
entered so far. -/
def below (fs : FileSystem) (sizeLimit : Int) (root : String) :
    (depth : Nat) → (path : String) → (entered : List Place) → List Tree × List Place
  | 0, _, entered => ([], entered)
  | depth + 1, path, entered =>
    match folderAt? fs (location root path) with
    | some place => entries fs sizeLimit root depth place path (fs.listing place) entered
    | none => ([], entered)

/-- The trees of the entries of the folder at `place`, one after the other. -/
def entries (fs : FileSystem) (sizeLimit : Int) (root : String) (depth : Nat) (place : Place)
    (path : String) : List (String × Entry) → (entered : List Place) → List Tree × List Place
  | [], entered => ([], entered)
  | (name, entry) :: rest, entered =>
    let here := Path.child path name
    match step fs sizeLimit place (location root here) name entry with
    | .skip => entries fs sizeLimit root depth place path rest entered
    | .list size =>
      let (trees, entered) := entries fs sizeLimit root depth place path rest entered
      (.node { path := here, size := size } [] :: trees, entered)
    | .enter target =>
      if entered.contains target then entries fs sizeLimit root depth place path rest entered
      else
        let (children, entered) := below fs sizeLimit root depth here (target :: entered)
        let (trees, entered) := entries fs sizeLimit root depth place path rest entered
        (.node { path := here, isFolder := true } children :: trees, entered)

end

/-- The number of folders, the top included. -/
def folderCount (fs : FileSystem) : Nat := fs.entries.countP (·.2.isFolder) + 1

/-- The tree of the folder at a place. -/
def tree (fs : FileSystem) (place : Place) (sizeLimit : Int) : Tree :=
  .node { path := "", isFolder := true }
    (below fs sizeLimit (FileSystem.pathOf place) (folderCount fs) "" [place]).1

end Walk

/-- Walks the repository at a root, which has to be a local folder. A root that starts with `~` is in
the home folder of a user, and users are not known here. -/
def Checkout.walk (fs : FileSystem) (root : String)
    (sizeLimit : Int := Filter.defaultSizeLimit) : Except Failure Checkout := do
  if Filter.isRemote root then throw (.invalidPath .remote root)
  let path := Path.tidy root
  if startsWith "~" path then throw .homeUnknown
  if !(← fs.isThere path) then throw (.invalidPath .missing path)
  if !(← fs.isFolder path) then throw (.invalidPath .notDirectory path)
  match fs.resolve path with
  | .ok (place, _) => return { root := FileSystem.pathOf place, tree := Walk.tree fs place sizeLimit }
  | .error error => throw (.system error path)

end CodeReview
