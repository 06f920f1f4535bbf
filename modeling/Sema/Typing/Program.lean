import Sema.Typing.Expr
import Sema.Typing.Member

/-!
# Checking a program

After the declarations and signatures come the bodies, then the solver, the member accesses,
the generic parameters and the effects. Errors found on the way stop nothing, but a failed
solve ends the check and leaves the recorded types as they were inferred.
-/

namespace Sema

/-- A contract is a condition over the parameters, and `ensures` also over the result. -/
def checkContract (cx : Context) (ret : Ty) (c : Contract) : Check Unit := do
  let inside :=
    if c.kind = .ensures then cx.pushScope.bindAll [("result", ret)] else cx
  let t ← inferExpr inside c.condition
  constrain .bool t c.condition.span .contract

/-- Remember that the generic parameters of a function have to stay abstract. -/
def recordGenerics (function : String) (span : Span) (generics : List (String × Ty)) :
    Check Unit :=
  generics.forM fun (param, t) =>
    match t.asVar with
    | some v => modify fun s =>
      { s with generics := s.generics.insertNew v ⟨function, param, span⟩ }
    | none => return

/-- The context of a function's body: itself without quantifiers, then its parameters. -/
def bodyContext (cx : Context) (d : FunctionDef) (name : String) (s : Signature) : Context :=
  let bound := (name, s.type) :: (d.params.map (·.name.node)).zip s.params
  { (cx.pushScope.bindAll bound).enterParams (.ofList s.generics) with
    frames := ⟨name, s.ret, s.effects, d.isAsync || s.effects.contains .async⟩ :: cx.frames }

/-- Check the contracts and the body of a function against the signature of its name. -/
def checkFunction (cx : Context) (i : Interface) (d : FunctionDef) (name : String) :
    Check Unit :=
  match d.body, i.signatures.get? name with
  | some body, some s => do
    let inside := bodyContext cx d name s
    d.contracts.forM (checkContract inside s.ret)
    let t ← inferBlock inside body
    let span := (body.tail.map (·.span)).getD body.span
    constrain s.ret t span .return
    recordGenerics name d.name.span s.generics
  | _, _ => return

/-- The methods of a block, where `Self` is `self`. -/
def checkMethods (cx : Context) (i : Interface) (typeName : String) (self : Ty)
    (methods : List FunctionDef) : Check Unit :=
  methods.forM fun m =>
    checkFunction { cx with scope := { cx.scope with selfTy := some self } } i m
      (typeName ++ "::" ++ m.name.node)

/-- The third pass, over the bodies; `targets` are those of the `impl` blocks to come. -/
def checkBodies (cx : Context) (i : Interface) : List ImplTarget → List Item → Check Unit
  | _, [] => return
  | targets, .function d :: r => do
    checkFunction cx i d d.name.node
    checkBodies cx i targets r
  | targets, .const d :: r => do
    let t ← inferExpr cx d.value
    match i.consts.get? d.name.node with
    | some declared => constrain declared t d.value.span .annotated
    | none => pure ()
    checkBodies cx i targets r
  | targets, .impl b :: r => do
    match targets with
    | target :: rest =>
      checkMethods cx i target.typeName target.selfTy b.methods
      checkBodies cx i rest r
    | [] => checkBodies cx i [] r
  | targets, .trait d :: r => do
    checkMethods cx i d.name.node (.named d.name.node) d.methods
    checkBodies cx i targets r
  | targets, .struct _ :: r | targets, .enum _ :: r | targets, .typeAlias _ :: r
  | targets, .imports _ :: r => checkBodies cx i targets r

/-- Each parameter has to be a variable still, and none the same as one before it. -/
def checkGenerics (σ : Subst) : Table Nat GenericCheck → List (Nat × GenericCheck) → Check Unit
  | _, [] => return
  | seen, (v, c) :: r => do
    let t := σ.apply (.var v)
    match t.asVar with
    | none =>
      report (.constrainedGeneric c.param c.function t) c.span
      checkGenerics σ seen r
    | some w =>
      match seen.get? w with
      | some first =>
        report (.mergedGenerics first.param c.param c.function) c.span
        checkGenerics σ seen r
      | none => checkGenerics σ (seen.insert w c) r

/-- The effects that a call performs and the function around it does not declare. An open
row imposes nothing. -/
def EffectSite.undeclared (σ : Subst) (site : EffectSite) : List EffectKind :=
  match σ.apply site.callee with
  | .fn _ _ (.closed performed) => performed.without site.declared
  | _ => []

/-- Report every effect of a function once, at the first call that performs it. -/
def checkSites : List (String × EffectKind) → List (Spanned (String × EffectKind)) → Check Unit
  | _, [] => return
  | reported, ⟨span, e⟩ :: r => do
    if reported.contains e then
      checkSites reported r
    else
      report (.undeclaredEffect e.1 e.2) span
      checkSites (e :: reported) r

/-- Every undeclared effect at every call, in order. -/
def undeclaredEffects (σ : Subst) (sites : List EffectSite) :
    List (Spanned (String × EffectKind)) :=
  sites.flatMap fun site => (site.undeclared σ).map fun k => ⟨site.span, site.caller, k⟩

/-- Solve, and settle the member accesses. -/
def solveProgram (sc : TypeScope) (methods : Methods) : Settle Unit := do
  solveAll
  settle sc methods (← get).deferred.toList

/-- What remains once everything has been inferred. True when the constraints are solved. -/
def finish (sc : TypeScope) (methods : Methods) (checkEffects : Bool) : Check Bool := do
  match ← (solveProgram sc methods).run with
  | .error fault =>
    report (.unsolved fault) fault.span
    return false
  | .ok _ =>
    let s ← get
    checkGenerics s.solver.subst .empty s.generics.entries
    if checkEffects then
      checkSites [] (undeclaredEffects s.solver.subst s.sites.toList)
    return true

/-- What a type check has found. -/
structure TypeCheck where
  solved : Bool
  session : Session
  decls : Declarations
  interface : Interface

/-- The root scope before any item, from the catalog. -/
def Catalog.env (c : Catalog) : Env := { root := c.values }

/-- The three passes over the items and what follows them. -/
def checkItems (catalog : Catalog) (checkEffects : Bool) (items : List Item) :
    Check (Bool × Declarations × Interface) := do
  let (decls, env) ← items.foldlM declareItem ({}, catalog.env)
  let scope : TypeScope := { catalog, decls }
  let i ← items.foldlM (interfaceItem scope)
    { env, constructors := catalog.constructors, methods := catalog.methods }
  let cx : Context := { scope, env := i.env, constructors := i.constructors, checkEffects }
  checkBodies cx i i.impls items
  let solved ← finish scope i.methods checkEffects
  return (solved, decls, i)

/-- Check a program on its own. -/
def checkProgram (catalog : Catalog) (checkEffects : Bool) (p : Program) : TypeCheck :=
  let ((solved, decls, interface), session) := (checkItems catalog checkEffects p.items).run {}
  { solved, session, decls, interface }

namespace TypeCheck

/-- Before any program. -/
def initial : TypeCheck :=
  { solved := true, session := {}, decls := {},
    interface := { env := {}, constructors := .empty, methods := .empty } }

def errors (c : TypeCheck) : List TypeError := c.session.faults.toList.map TypeError.ofFault

/-- Solved, and nothing to complain about. -/
def ok (c : TypeCheck) : Bool := c.solved && c.session.faults.isEmpty

/-- The final substitution, empty unless solving succeeded. -/
def subst (c : TypeCheck) : Subst := if c.solved then c.session.solver.subst else {}

/-- The type of each expression. -/
def types (c : TypeCheck) : Table ExprId Ty :=
  (Table.ofList c.session.typed.reverse).map c.subst.apply

/-- The scheme of a name at the root. -/
def binding (c : TypeCheck) (name : String) : Option Scheme :=
  (c.interface.env.lookup name).map fun s => { s with body := c.subst.apply s.body }

end TypeCheck

end Sema
