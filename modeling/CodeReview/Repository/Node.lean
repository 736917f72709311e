import CodeReview.FileSystem.Basic

/-!
# Files and folders of a repository

A node is a file or folder by its repository path. The content and the summary of a file are filled
in after the walk: `load` reads the file on first use and keeps what it read.

A tree is a node with the nodes below it; `Tree.nodes` lists it depth first, the node itself in
front.
-/

namespace CodeReview

open Text

/-- A file or folder of a repository; the root has the empty path. -/
structure Node where
  path : String
  isFolder : Bool := false
  size : Int := 0
  content : Option String := none
  summary : Option String := none
  deriving DecidableEq, Repr, Inhabited

namespace Node

def name (node : Node) : String := Path.name node.path

def extension (node : Node) : String := Path.extension node.path

def folder (node : Node) : String := Path.folder node.path

def depth (node : Node) : Nat := Path.depth node.path

/-- The file's text, read from below `root` unless the node holds it already, and the node that
holds it. -/
def load (fs : FileSystem) (root : String) (node : Node) : Except Failure (String × Node) :=
  match node.content with
  | some content => .ok (content, node)
  | none => do
    let bytes ← fs.readBytes (Path.under root node.path)
    let content := String.ofList (Utf8.decode bytes)
    return (content, { node with content := some content })

end Node

/-- A node with what is below it. -/
inductive Tree
  | node (here : Node) (children : List Tree)

namespace Tree

def here : Tree → Node
  | node n _ => n

def children : Tree → List Tree
  | node _ cs => cs

mutual

/-- All nodes, depth first. -/
def nodes : Tree → List Node
  | node n cs => n :: nodesOf cs

def nodesOf : List Tree → List Node
  | [] => []
  | t :: ts => nodes t ++ nodesOf ts

end

/-- The files among the nodes. -/
def files (tree : Tree) : List Node := tree.nodes.filter (!·.isFolder)

mutual

/-- Every node with the path of the folder it stands in; `none` at the top. -/
def withParents (parent : Option String) : Tree → List (Node × Option String)
  | node n cs => (n, parent) :: withParentsOf n.path cs

def withParentsOf (parent : String) : List Tree → List (Node × Option String)
  | [] => []
  | t :: ts => withParents (some parent) t ++ withParentsOf parent ts

end

mutual

/-- Adds a child at the end of every folder with the given path. -/
def addBelow (path : String) (child : Tree) : Tree → Tree
  | node n cs =>
    let cs := addBelowOf path child cs
    node n (if n.isFolder && n.path == path then cs ++ [child] else cs)

def addBelowOf (path : String) (child : Tree) : List Tree → List Tree
  | [] => []
  | t :: ts => addBelow path child t :: addBelowOf path child ts

end

/-- The first subtree, depth first, whose node has the given path. -/
def subtree? (path : String) (tree : Tree) : Option Tree :=
  go tree
where
  go : Tree → Option Tree
    | node n cs => if n.path == path then some (node n cs) else goAll cs
  goAll : List Tree → Option Tree
    | [] => none
    | t :: ts => (go t).or (goAll ts)

end Tree

end CodeReview
