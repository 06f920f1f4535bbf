import Sema.Span
import Sema.Table

/-!
# Ownership along a path

For every binding in scope: whether its value was moved away, and where, and the borrows of it
that are active. The bindings stand in frames, one for each block, the innermost first. A
frame's depth is the number of frames outside it.
-/

namespace Sema

inductive BorrowKind where
  | shared | mutable
  deriving DecidableEq, Inhabited

def BorrowKind.name : BorrowKind → String
  | shared => "immutable"
  | mutable => "mutable"

/-- The binding that keeps a borrow alive, with the depth of its frame: a binding of the same
name in another frame is another holder. -/
structure Holder where
  name : String
  depth : Nat
  deriving DecidableEq, Inhabited

structure Borrow where
  kind : BorrowKind
  span : Span
  /-- Absent from a temporary, which ends with its statement. -/
  holder : Option Holder
  deriving DecidableEq, Inhabited

structure Binding where
  /-- Has the value been moved away? -/
  moved : Bool := false
  /-- Where it was. -/
  movedAt : Option Span := none
  borrows : List Borrow := []
  deriving DecidableEq, Inhabited

namespace Binding

/-- The first move counts. -/
def move (b : Binding) (span : Span) : Binding :=
  if b.moved then b else { b with moved := true, movedAt := some span }

@[simp] theorem moved_move (b : Binding) (span : Span) : (b.move span).moved = true := by
  cases h : b.moved <;> simp [move, h]

@[simp] theorem borrows_move (b : Binding) (span : Span) :
    (b.move span).borrows = b.borrows := by
  cases h : b.moved <;> simp [move, h]

/-- An assignment gives the binding a new value. -/
def renew (b : Binding) : Binding := { b with moved := false, movedAt := none }

def addBorrow (b : Binding) (r : Borrow) : Binding := { b with borrows := b.borrows ++ [r] }

def hasMutable (b : Binding) : Bool := b.borrows.any (·.kind == .mutable)

def keepBorrows (keep : Borrow → Bool) (b : Binding) : Binding :=
  { b with borrows := b.borrows.filter keep }

end Binding

abbrev Bindings := Table String Binding

/-- Change the binding of `name`, if there is one. -/
def Bindings.modify (f : Binding → Binding) (name : String) (t : Bindings) : Bindings :=
  ⟨t.entries.map fun (n, b) => (n, if n = name then f b else b)⟩

structure Flow where
  frames : List Bindings := [.empty]
  deriving DecidableEq, Inhabited

namespace Flow

def initial : Flow := {}

/-- The number of frames. -/
def depth (s : Flow) : Nat := s.frames.length

/-- The depth of the innermost frame. -/
def innermost (s : Flow) : Nat := s.depth - 1

def push (s : Flow) : Flow := ⟨.empty :: s.frames⟩

def mapBindings (f : Binding → Binding) (s : Flow) : Flow := ⟨s.frames.map (·.map f)⟩

def keepBorrows (keep : Borrow → Bool) (s : Flow) : Flow := s.mapBindings (·.keepBorrows keep)

def clearBorrows (s : Flow) : Flow := s.keepBorrows fun _ => false

/-- End every borrow that no binding holds. -/
def releaseTemporaries (s : Flow) : Flow := s.keepBorrows (·.holder.isSome)

/-- Is the borrow a temporary, or held by a binding outside depth `n`? -/
def Borrow.outlives (n : Nat) (b : Borrow) : Bool := b.holder.all (·.depth < n)

/-- Leave the innermost frame; the borrows that its bindings hold end with it. The outermost
frame stays. -/
def pop (s : Flow) : Flow :=
  match s.frames with
  | _ :: f :: r => keepBorrows (Borrow.outlives (r.length + 1)) ⟨f :: r⟩
  | _ => s

/-- Introduce `name` in the innermost frame. -/
def declare (s : Flow) (name : String) : Flow :=
  match s.frames with
  | f :: r => ⟨f.insert name {} :: r⟩
  | [] => s

def declareAll (s : Flow) (names : List String) : Flow := names.foldl declare s

def lookup (s : Flow) (name : String) : Option Binding := s.frames.findSome? (·.get? name)

def depthIn (name : String) : List Bindings → Option Nat
  | [] => none
  | f :: r => if f.contains name then some r.length else depthIn name r

/-- The depth of the frame with the binding that `name` means. -/
def depthOf (s : Flow) (name : String) : Option Nat := depthIn name s.frames

def modifyIn (f : Binding → Binding) (name : String) : List Bindings → List Bindings
  | [] => []
  | t :: r => if t.contains name then t.modify f name :: r else t :: modifyIn f name r

/-- Change the binding that `name` means. -/
def modify (s : Flow) (name : String) (f : Binding → Binding) : Flow :=
  ⟨modifyIn f name s.frames⟩

def move (s : Flow) (name : String) (span : Span) : Flow := s.modify name (·.move span)

def renew (s : Flow) (name : String) : Flow := s.modify name (·.renew)

def addBorrow (s : Flow) (name : String) (b : Borrow) : Flow := s.modify name (·.addBorrow b)

/-- A binding stays moved only if it is moved in `other` as well. -/
def joinFrame (f other : Bindings) : Bindings :=
  ⟨f.entries.map fun (name, b) =>
    (name, if (other.get? name).any (·.moved) then b else b.renew)⟩

/-- Join frames of equal depth, counted from the outermost. -/
def joinOuter : List Bindings → List Bindings → List Bindings
  | f :: r, g :: q => joinFrame f g :: joinOuter r q
  | l, _ => l

/-- Where two paths meet: a binding is moved if it is moved on both, and no borrow is
active. -/
def join (s t : Flow) : Flow :=
  clearBorrows ⟨(joinOuter s.frames.reverse t.frames.reverse).reverse⟩

/-- Where several paths meet. -/
def joinAll : List Flow → Option Flow
  | [] => none
  | s :: r => some (r.foldl join s)

@[simp] theorem depth_push (s : Flow) : s.push.depth = s.depth + 1 := rfl

@[simp] theorem depth_mapBindings (f : Binding → Binding) (s : Flow) :
    (s.mapBindings f).depth = s.depth := by
  simp [mapBindings, depth]

@[simp] theorem depth_keepBorrows (keep : Borrow → Bool) (s : Flow) :
    (s.keepBorrows keep).depth = s.depth := depth_mapBindings _ s

@[simp] theorem depth_declare (s : Flow) (name : String) :
    (s.declare name).depth = s.depth := by
  unfold declare
  split <;> simp_all [depth]

end Flow

end Sema
