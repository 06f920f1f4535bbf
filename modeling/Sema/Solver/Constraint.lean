import Sema.Solver.Unify
import Sema.Span

/-!
# Constraints and the incremental solver

A constraint asks two types to be equal, and remembers the place and the reason it came from.
The solver consumes a growing list of constraints in order. Its substitution only grows, and
its first failure stays.
-/

namespace Sema

/-- What an error is about. -/
inductive Category where
  | type | ownership | effect | name
  deriving DecidableEq, Inhabited

def Category.label : Category → String
  | type => "type"
  | ownership => "ownership"
  | effect => "effect"
  | name => "name"

/-- Why a constraint was made; it selects the wording of a failure. -/
inductive Origin where
  | argument | return | annotated | branch | condition | operand | pattern | assignment
  | element | field | try | contract | iteration | member
  deriving DecidableEq, Inhabited

namespace Origin

def all : List Origin :=
  [.argument, .return, .annotated, .branch, .condition, .operand, .pattern, .assignment,
    .element, .field, .try, .contract, .iteration, .member]

def name : Origin → String
  | .argument => "Argument"
  | .return => "Return"
  | .annotated => "Annotation"
  | .branch => "Branch"
  | .condition => "Condition"
  | .operand => "Operand"
  | .pattern => "Pattern"
  | .assignment => "Assignment"
  | .element => "Element"
  | .field => "Field"
  | .try => "Try"
  | .contract => "Contract"
  | .iteration => "Iteration"
  | .member => "Member"

def ofName? (s : String) : Option Origin := all.find? (·.name == s)

/-- The kind of type that the reason speaks of. -/
def noun : Origin → String
  | .argument => "argument type"
  | .return => "return type"
  | .annotated => "annotated type"
  | .branch => "branch type"
  | .condition => "condition type"
  | .operand => "operand type"
  | .pattern => "pattern type"
  | .assignment => "assignment type"
  | .element => "element type"
  | .field => "field type"
  | .try => "`?` operand type"
  | .contract => "contract type"
  | .iteration => "iterator type"
  | .member => "member type"

end Origin

/-- Both kinds are solved as equality: there is no subtyping beyond identity. -/
inductive ConstraintKind where
  | equality | subtype
  deriving DecidableEq, Inhabited

def ConstraintKind.name : ConstraintKind → String
  | equality => "Equality"
  | subtype => "Subtype"

structure Constraint where
  kind : ConstraintKind := .equality
  expected : Ty
  actual : Ty
  span : Span
  origin : Origin
  deriving Inhabited

/-- Why a constraint could not be solved, with its place and reason. -/
structure SolveFault where
  fault : UnifyFault
  span : Span
  origin : Origin

namespace SolveFault

def category (f : SolveFault) : Category :=
  match f.fault with
  | .effects .. => .effect
  | _ => .type

def message (f : SolveFault) : String :=
  match f.fault with
  | .mismatch .. => f.origin.noun ++ " mismatch: " ++ f.fault.text
  | .brand .. => "branded type mismatch: " ++ f.fault.text
  | .occurs .. => f.fault.text
  | .arity .. => "function arity mismatch: " ++ f.fault.text
  | .typeArity .. => "type argument mismatch: " ++ f.fault.text
  | .effects .. => "incompatible effect annotation: " ++ f.fault.text

end SolveFault

structure Solver where
  subst : Subst := {}
  /-- How many constraints of the list have been solved. -/
  consumed : Nat := 0
  failure : Option SolveFault := none

namespace Solver

def apply (s : Solver) (t : Ty) : Ty := s.subst.apply t

/-- Solve one constraint. -/
def step (s : Solver) (c : Constraint) : Solver :=
  let (σ, fault) := unify s.subst [.types (s.apply c.expected) (s.apply c.actual)]
  { subst := σ, consumed := s.consumed + 1,
    failure := fault.map fun fault => ⟨fault, c.span, c.origin⟩ }

/-- Solve in order, up to the first failure. -/
def run : Solver → List Constraint → Solver
  | s, [] => s
  | s, c :: rest => if s.failure.isSome then s else (s.step c).run rest

/-- Solve the constraints of the list that have not been seen yet. -/
def solve (s : Solver) (cs : Array Constraint) : Solver :=
  s.run (cs.extract s.consumed cs.size).toList

@[simp] theorem run_nil (s : Solver) : s.run [] = s := rfl

theorem run_of_failure {s : Solver} (h : s.failure.isSome = true) (l : List Constraint) :
    s.run l = s := by
  cases l <;> simp [run, h]

theorem run_append (s : Solver) (l m : List Constraint) : s.run (l ++ m) = (s.run l).run m := by
  induction l generalizing s with
  | nil => rfl
  | cons c r ih =>
    by_cases h : s.failure.isSome = true
    · simp [run_of_failure h]
    · simp [run, h, ih]

end Solver

/-- Solve a list from the start. -/
def solve (cs : List Constraint) : Except SolveFault Subst :=
  let s := Solver.run {} cs
  match s.failure with
  | some fault => .error fault
  | none => .ok s.subst

end Sema
