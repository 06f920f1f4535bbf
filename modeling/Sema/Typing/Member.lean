import Sema.Text.Decimal
import Sema.Typing.Declare

/-!
# Member accesses

Fields, method calls and iterations wait until the type they depend on is known. They are
settled in rounds: each round resolves those whose receiver has become known, which may make
others known; what a round without progress leaves is ambiguous.
-/

namespace Sema

/-- A check that a failed solve ends. -/
abbrev Settle := ExceptT SolveFault Check

/-- Solve what has been collected, or fail. -/
def solveAll : Settle Unit := do
  match ← (solvePending : Check _) with
  | some fault => throw fault
  | none => return

/-- A brand has the fields of its base. -/
def Ty.unbranded : Ty → Ty
  | .branded _ base => base
  | t => t

/-- The arguments of an applied type constructor. -/
def Ty.args : Ty → List Ty
  | .app _ args => args
  | _ => []

def resolveTupleField (tuple : Ty) (elems : List Ty) (field : String) (result : Ty)
    (span : Span) : Check Unit :=
  match (word? field).bind (elems[·]?) with
  | some elem => constrain elem result span .field
  | none => report (.noTupleField field tuple) span

def resolveStructField (sc : TypeScope) (base : Ty) (field : String) (result : Ty)
    (span : Span) : Check Unit :=
  match base.nominalName?.bind (sc.decls.structs.get? ·) with
  | none => report (.noTypeField field base) span
  | some d =>
    match d.fields.find? (·.name.node == field) with
    | none => report (.noField d.name.node field) span
    | some decl => do
      let params ← supply d.generics base.args
      constrain (← lower (sc.enter (.ofList params)) decl.ty) result span .field

def resolveField (sc : TypeScope) (base : Ty) (field : String) (result : Ty) (span : Span) :
    Check Unit :=
  match base.unbranded with
  | .app name elems =>
    if name = Ty.tupleName then resolveTupleField base.unbranded elems field result span
    else resolveStructField sc base.unbranded field result span
  | t => resolveStructField sc t field result span

/-- Compare a call with the signature of the method, whose first parameter is the receiver. -/
def callMethod (receiver signature : Ty) (call : MemberCall) : Check Unit := do
  constrain signature (.fn (receiver :: call.args) call.ret .openRow) call.span .member
  match call.caller with
  | some f => modify fun s =>
    { s with sites := s.sites.push ⟨signature, f.name, f.effects, call.span⟩ }
  | none => return

def resolveMethod (methods : Methods) (receiver : Ty) (call : MemberCall) : Check Unit :=
  match receiver.nominalName? with
  | none => report (.noMethod call.method receiver.text) call.span
  | some typeName =>
    match methods.find? typeName call.method with
    | none => report (.noMethod call.method typeName) call.span
    | some scheme => do
      let signature ← instantiate scheme
      match signature with
      | .fn params ret _ =>
        if params.length - 1 ≠ call.args.length then
          report (.methodArguments typeName call.method (params.length - 1) call.args.length)
            call.span
          constrain ret call.ret call.span .member
        else callMethod receiver signature call
      | _ => callMethod receiver signature call

/-- The type of the elements of an iterable type. -/
def Ty.elem? : Ty → Option Ty
  | .app name [elem] => if name = arrayName || name = rangeName then some elem else none
  | .atom (.primitive .str) => some (.prim .char)
  | _ => none

def resolveIter (iterable elem : Ty) (span : Span) : Check Unit :=
  match iterable.elem? with
  | some t => constrain t elem span .iteration
  | none => report (.notIterable iterable) span

/-- Resolve an access whose receiver is known. -/
def resolveMember (sc : TypeScope) (methods : Methods) (receiver : Ty) : Deferred → Check Unit
  | .field _ name result span => resolveField sc receiver name result span
  | .method call => resolveMethod methods receiver call
  | .iter _ elem span => resolveIter receiver elem span

/-- An unknown iterable is taken for an array; other unknown receivers are errors. -/
def settleAmbiguous : Deferred → Settle Unit
  | .iter iterable elem span => do
    (constrain (.array elem) iterable span .iteration : Check Unit)
    solveAll
  | .field _ name _ span => (report (.ambiguousField name) span : Check Unit)
  | .method call => (report (.ambiguousMethod call.method) call.span : Check Unit)

/-- One round; gives the accesses that have to wait. -/
def settleRound (sc : TypeScope) (methods : Methods) : List Deferred → Settle (List Deferred)
  | [] => do
    solveAll
    return []
  | d :: r => do
    solveAll
    let receiver := (← get).solver.apply d.receiver
    if receiver.asVar.isSome then
      return d :: (← settleRound sc methods r)
    else
      (resolveMember sc methods receiver d : Check Unit)
      settleRound sc methods r

/-- Rounds until nothing waits or nothing moves. -/
def settle (sc : TypeScope) (methods : Methods) (pending : List Deferred) : Settle Unit := do
  if pending.isEmpty then
    return
  let waiting ← settleRound sc methods pending
  if _h : waiting.length < pending.length then
    settle sc methods waiting
  else
    waiting.forM settleAmbiguous
termination_by pending.length

end Sema
