import Sema.Files.Path

/-!
# Directory trees

A `Disk` answers what stands at a path. A `FileTree` is one given as a value: a directory
and the place in it from which relative paths start.
-/

namespace Sema

/-- What stands at a path; the text of a file is missing if it cannot be read. -/
inductive Entry where
  | missing
  | directory
  | file (text : Option String)
  deriving DecidableEq

namespace Entry

def isFile : Entry → Bool
  | .file _ => true
  | _ => false

def text? : Entry → Option String
  | .file text => text
  | _ => none

end Entry

structure Disk (m : Type → Type) where
  look : Path → m Entry

inductive Node where
  | file (text : String)
  | dir (children : List (String × Node))

namespace Node

def isDir : Node → Bool
  | .dir _ => true
  | .file _ => false

def child? (name : String) : Node → Option Node
  | .dir children => children.lookup name
  | .file _ => none

/-- The node at a place, named from the root. -/
def get? : List String → Node → Option Node
  | [], n => some n
  | name :: place, n => (n.child? name).bind (get? place)

/-- Put a node at a place, making the directories on the way that are missing. -/
def put (new : Node) : List String → Node → Node
  | [], _ => new
  | name :: place, .dir children =>
    match children.lookup name with
    | none => .dir (children ++ [(name, put new place (.dir []))])
    | some n =>
      .dir (children.map fun c => if c.1 = name then (name, put new place n) else c)
  | _ :: _, .file text => .file text

/-- Add a file, or a directory that may be there already. -/
def add (text : Option String) (place : List String) (root : Node) : Node :=
  match text with
  | some text => Node.put (.file text) place root
  | none => if (root.get? place).isSome then root else Node.put (.dir []) place root

/-- Where segments lead from a place. Every step has to start in a directory. -/
def walk (root : Node) (place : List String) : List String → Option (List String)
  | [] => if (root.get? place).isSome then some place else none
  | s :: r =>
    if ((root.get? place).map isDir).getD false then
      if Path.isBlank s then root.walk place r
      else if s = ".." then root.walk place.dropLast r
      else root.walk (place ++ [s]) r
    else none

end Node

structure FileTree where
  root : Node
  /-- Where relative paths start. -/
  cwd : List String

namespace FileTree

/-- The place that a path denotes, if there is something at it. -/
def resolve (t : FileTree) (p : Path) : Option (List String) :=
  if p = .empty then none
  else if p.isAbsolute then t.root.walk [] p.rest
  else t.root.walk t.cwd (p.first :: p.rest)

def look (t : FileTree) (p : Path) : Entry :=
  match (t.resolve p).bind (t.root.get? ·) with
  | none => .missing
  | some (.dir _) => .directory
  | some (.file text) => .file (some text)

def disk (t : FileTree) : Disk Id := ⟨t.look⟩

/-- The tree in which `files` stand below a directory from which relative paths start; a
file without text is a directory. -/
def ofFiles (cwd : List String) (files : List (Path × Option String)) : FileTree where
  root := files.foldl (fun n (p, text) =>
    Node.add text (cwd ++ (p.first :: p.rest).filter (!Path.isBlank ·)) n)
    (Node.put (.dir []) cwd (.dir []))
  cwd

end FileTree

end Sema
