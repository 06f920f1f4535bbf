/-!
# Side effects of functions

Four categories of effect, sets of them, and the effect part of a function type: a closed
row holds exactly its set, an open row is compatible with every row.
-/

namespace Sema

inductive EffectKind where
  | io | state | error | async
  deriving DecidableEq, Inhabited

namespace EffectKind

/-- Every category, in the order in which sets list them. -/
def all : List EffectKind := [.io, .state, .error, .async]

def name : EffectKind → String
  | io => "IO"
  | state => "State"
  | error => "Error"
  | async => "Async"

def ofName? (s : String) : Option EffectKind := all.find? (·.name == s)

theorem mem_all (k : EffectKind) : k ∈ all := by cases k <;> simp [all]

@[simp] theorem ofName?_name (k : EffectKind) : ofName? k.name = some k := by
  cases k <;> decide

end EffectKind

structure EffectSet where
  io : Bool := false
  state : Bool := false
  error : Bool := false
  async : Bool := false
  deriving DecidableEq, Inhabited

namespace EffectSet

def empty : EffectSet := {}

def contains (s : EffectSet) : EffectKind → Bool
  | .io => s.io
  | .state => s.state
  | .error => s.error
  | .async => s.async

def insert (s : EffectSet) : EffectKind → EffectSet
  | .io => { s with io := true }
  | .state => { s with state := true }
  | .error => { s with error := true }
  | .async => { s with async := true }

def ofList (l : List EffectKind) : EffectSet := l.foldl insert empty

def toList (s : EffectSet) : List EffectKind := EffectKind.all.filter s.contains

def isEmpty (s : EffectSet) : Bool := s == empty

/-- The members of `s` that are not in `t`, in listing order. -/
def without (s t : EffectSet) : List EffectKind := s.toList.filter fun k => !t.contains k

@[simp] theorem contains_empty (k : EffectKind) : empty.contains k = false := by
  cases k <;> rfl

@[simp] theorem contains_insert (s : EffectSet) (k j : EffectKind) :
    (s.insert k).contains j = (decide (j = k) || s.contains j) := by
  cases k <;> cases j <;> simp [insert, contains]

@[simp] theorem mem_toList (s : EffectSet) (k : EffectKind) :
    k ∈ s.toList ↔ s.contains k = true := by
  simp [toList, EffectKind.mem_all]

theorem contains_foldl (l : List EffectKind) (s : EffectSet) (k : EffectKind) :
    (l.foldl insert s).contains k = (decide (k ∈ l) || s.contains k) := by
  induction l generalizing s with
  | nil => simp
  | cons j l ih => simp [ih, Bool.or_assoc, Bool.or_left_comm]

@[simp] theorem contains_ofList (l : List EffectKind) (k : EffectKind) :
    (ofList l).contains k = decide (k ∈ l) := by
  simp [ofList, contains_foldl]

end EffectSet

inductive EffectRow where
  | closed (set : EffectSet)
  | openRow
  deriving DecidableEq, Inhabited

namespace EffectRow

def pure : EffectRow := .closed .empty

/-- The rows are equal, or one of them is open. -/
def compatible : EffectRow → EffectRow → Bool
  | .openRow, _ => true
  | _, .openRow => true
  | .closed s, .closed t => s == t

/-- As a function type ends: nothing for the empty set. -/
def suffix : EffectRow → String
  | .openRow => " !_"
  | .closed s =>
    if s.isEmpty then "" else " !" ++ " + ".intercalate (s.toList.map EffectKind.name)

/-- As a message names a row on its own. -/
def label : EffectRow → String
  | .openRow => "!_"
  | .closed s =>
    if s.isEmpty then "pure" else "!" ++ " + ".intercalate (s.toList.map EffectKind.name)

@[simp] theorem compatible_self (r : EffectRow) : r.compatible r = true := by
  cases r <;> simp [compatible]

theorem compatible_comm (r s : EffectRow) : r.compatible s = s.compatible r := by
  cases r <;> cases s <;> simp [compatible, BEq.comm]

end EffectRow

end Sema
