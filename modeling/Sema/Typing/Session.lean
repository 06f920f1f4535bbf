import Sema.Catalog
import Sema.Env
import Sema.Syntax.Item
import Sema.Typing.Fault

/-!
# The state of a type check

What the checker knows at a place of the program is a `Context`, which is passed down and
never changed; what it has found out so far is a `Session`, which only grows.
-/

namespace Sema

/-- The types that the items of a program declare. -/
structure Declarations where
  aliases : Table String TypeAlias := .empty
  structs : Table String StructDef := .empty
  enums : Table String EnumDef := .empty
  traits : Table String TraitDef := .empty
  /-- Imported names stand for any type and any value. -/
  imported : List String := []
  /-- The base type of each brand that an alias introduces. -/
  brands : Table String TypeExpr := .empty

/-- What a type name means at some place. -/
structure TypeScope where
  catalog : Catalog
  decls : Declarations
  /-- Generic parameters, the innermost scope first. -/
  params : List (Table String Ty) := []
  selfTy : Option Ty := none
  /-- The aliases being expanded. -/
  resolving : List String := []

namespace TypeScope

/-- The scope inside a declaration with generic parameters. -/
def enter (sc : TypeScope) (params : Table String Ty) : TypeScope :=
  { sc with params := params :: sc.params }

def param? (sc : TypeScope) (name : String) : Option Ty := sc.params.findSome? (·.get? name)

/-- `Self` is the name of the implemented type, where there is one. -/
def structName (sc : TypeScope) (name : String) : String :=
  if name = "Self" then ((sc.selfTy.bind Ty.nominalName?).getD name) else name

end TypeScope

/-- The function or lambda around an expression. -/
structure Frame where
  name : String
  ret : Ty
  effects : EffectSet
  isAsync : Bool

structure Context where
  scope : TypeScope
  env : Env
  constructors : Table String Scheme
  /-- The functions around, the innermost first. -/
  frames : List Frame := []
  /-- The loops around, the innermost first, each with the type of its value if `break` may
  give it one. -/
  loops : List (Option Ty) := []
  checkEffects : Bool := true

namespace Context

def pushScope (cx : Context) : Context := { cx with env := cx.env.push }

def bindAll (cx : Context) (l : List (String × Ty)) : Context :=
  { cx with env := cx.env.bindAll l }

def enterLoop (cx : Context) (value : Option Ty) : Context :=
  { cx with loops := value :: cx.loops }

def enterParams (cx : Context) (params : Table String Ty) : Context :=
  { cx with scope := cx.scope.enter params }

end Context

structure MemberCall where
  receiver : Ty
  method : String
  args : List Ty
  ret : Ty
  /-- The function around the call. -/
  caller : Option Frame
  span : Span

/-- A member access whose meaning depends on a type that may not be known yet. -/
inductive Deferred where
  | field (base : Ty) (name : String) (result : Ty) (span : Span)
  | method (call : MemberCall)
  | iter (iterable elem : Ty) (span : Span)

namespace Deferred

def receiver : Deferred → Ty
  | field base .. => base
  | method call => call.receiver
  | iter iterable .. => iterable

/-- The types that the access will constrain. -/
def types : Deferred → List Ty
  | field base _ result _ => [base, result]
  | method call => call.receiver :: call.ret :: call.args
  | iter iterable elem _ => [iterable, elem]

end Deferred

/-- A call, with the function around it and the effects that function declares. -/
structure EffectSite where
  callee : Ty
  caller : String
  declared : EffectSet
  span : Span

/-- A generic parameter that has to stay abstract in the function that declares it. -/
structure GenericCheck where
  function : String
  param : String
  span : Span

structure Session where
  nextVar : Nat := 0
  constraints : Array Constraint := #[]
  solver : Solver := {}
  faults : Array (Spanned TypeFault) := #[]
  /-- The type found for each expression, the latest first. -/
  typed : List (ExprId × Ty) := []
  deferred : Array Deferred := #[]
  sites : Array EffectSite := #[]
  generics : Table Nat GenericCheck := .empty

abbrev Check := StateM Session

/-- The number of a type variable that nothing else uses. -/
def freshVar : Check Nat :=
  modifyGet fun s => (s.nextVar, { s with nextVar := s.nextVar + 1 })

def fresh : Check Ty := return .var (← freshVar)

def freshMany : Nat → Check (List Ty)
  | 0 => return []
  | n + 1 => return (← fresh) :: (← freshMany n)

def instantiate (scheme : Scheme) : Check Ty :=
  modifyGet fun s =>
    let (t, next) := scheme.instantiate s.nextVar
    (t, { s with nextVar := next })

def constrain (expected actual : Ty) (span : Span) (origin : Origin) : Check Unit :=
  modify fun s =>
    { s with constraints := s.constraints.push { expected, actual, span, origin } }

def report (fault : TypeFault) (span : Span) : Check Unit :=
  modify fun s => { s with faults := s.faults.push ⟨span, fault⟩ }

/-- Report, and go on with an unknown type. -/
def reportFresh (fault : TypeFault) (span : Span) : Check Ty := do
  report fault span
  fresh

def record (id : ExprId) (t : Ty) : Check Unit :=
  modify fun s => { s with typed := (id, t) :: s.typed }

def defer (d : Deferred) : Check Unit :=
  modify fun s => { s with deferred := s.deferred.push d }

/-- Solve the constraints collected so far. -/
def solvePending : Check (Option SolveFault) :=
  modifyGet fun s =>
    let solver := s.solver.solve s.constraints
    (solver.failure, { s with solver })

/-- A type for each generic parameter: the given ones first, fresh ones for the rest. -/
def supply : List GenericParam → List Ty → Check (List (String × Ty))
  | [], _ => return []
  | g :: r, t :: ts => return (g.name.node, t) :: (← supply r ts)
  | g :: r, [] => do
    let t ← fresh
    return (g.name.node, t) :: (← supply r [])

/-- A fresh instance of a declared type, and what its parameters stand for in it. -/
def instantiateNominal (name : String) (generics : List GenericParam) :
    Check (Ty × Table String Ty) := do
  let params ← supply generics []
  return (.nominal name (params.map (·.2)), .ofList params)

end Sema
