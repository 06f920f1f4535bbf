import Sema.Typing.Pattern

/-!
# Expressions, statements and blocks

Inference gives every expression a type and collects the constraints between them. It reads
its context and never changes it: a statement hands the environment after it to the next one.
-/

namespace Sema

/-- The variables that a binding at this place must not quantify: those of the environment, of
member accesses still open, and of the results of the functions and loops around. -/
def Context.rigidVars (cx : Context) (s : Session) : List Nat :=
  let pending := s.deferred.toList.flatMap Deferred.types ++ cx.frames.map (·.ret)
    ++ cx.loops.filterMap id
  cx.env.freeVars s.solver.subst ++ pending.flatMap fun t => (s.solver.apply t).vars

/-- The scheme of a binding of type `t`. What has been collected is solved first; if that
fails nothing is quantified. -/
def generalizeBinding (cx : Context) (t : Ty) : Check Scheme := do
  match ← solvePending with
  | some _ => return .mono t
  | none =>
    let s ← get
    return .generalize (cx.rigidVars s) (s.solver.apply t)

/-- The name a binding generalises: an immutable identifier with a value that is not a
constructor. -/
def Context.generalizes? (cx : Context) (pattern : Pattern) (hasValue mutable : Bool) :
    Option String :=
  match pattern with
  | .ident _ name m _ =>
    if hasValue && !mutable && !m && !cx.constructors.contains name then some name else none
  | _ => none

/-- Bind a pattern to a value of type `t`, generalising where that is allowed. -/
def bindLet (cx : Context) (pattern : Pattern) (t : Ty) (hasValue mutable : Bool) :
    Check Env := do
  match cx.generalizes? pattern hasValue mutable with
  | some name => return cx.env.bind name (← generalizeBinding cx t)
  | none => return cx.env.bindAll (← checkPattern cx pattern t)

def lookupName (cx : Context) (name : String) (missing : TypeFault) (span : Span) : Check Ty :=
  match cx.env.lookup name with
  | some scheme => instantiate scheme
  | none => reportFresh missing span

/-- The type of a binary operation on operands of types `l` and `r`. -/
def binaryType (op : BinOp) (l r : Ty) (left right : Span) : Check Ty := do
  if op.isLogical then
    constrain .bool l left .operand
    constrain .bool r right .operand
    return .bool
  else
    constrain l r right .operand
    return if op.isComparison then .bool else l

/-- The name a call is reported under. -/
def Expr.calleeName? (e : Expr) : Option String :=
  match e.kind with
  | .ident name => some name
  | .path segments => some (joinPath (segments.map (·.node)))
  | _ => none

def recordSite (cx : Context) (callee : Ty) (span : Span) : Check Unit :=
  match cx.frames.head? with
  | some f => modify fun s =>
    { s with sites := s.sites.push ⟨callee, f.name, f.effects, span⟩ }
  | none => return

/-- The result of a call. The expected function type is made from the arguments, with an open
row, and compared with the callee. -/
def callType (cx : Context) (callee : Ty) (args : List Ty) (span : Span) : Check Ty := do
  let ret ← fresh
  constrain callee (.fn args ret .openRow) span .argument
  recordSite cx callee span
  return ret

/-- The result of a call, when the number of arguments may be wrong. -/
def checkCall (cx : Context) (name : Option String) (callee : Ty) (args : List Ty)
    (span : Span) : Check Ty :=
  match name, callee with
  | some name, .fn params ret _ =>
    if params.length ≠ args.length then do
      report (.argumentCount name params.length args.length) span
      return ret
    else callType cx callee args span
  | _, _ => callType cx callee args span

def checkReturn (cx : Context) (t : Ty) (span : Span) : Check Unit :=
  match cx.frames.head? with
  | some f => constrain f.ret t span .return
  | none => report .returnOutside span

def checkBreak (cx : Context) (t : Ty) (hasValue : Bool) (span : Span) : Check Unit :=
  match cx.loops with
  | [] => report .breakOutside span
  | some expected :: _ => constrain expected t span .branch
  | none :: _ => if hasValue then report .breakValue span else return

/-- Compare the value of a field of a struct literal with its declaration. -/
def checkInit (sc : TypeScope) (d : StructDef) (struct : String) (name : Ident) (t : Ty)
    (valueSpan : Span) : Check Unit :=
  match d.fields.find? (·.name.node == name.node) with
  | some field => do constrain (← lower sc field.ty) t valueSpan .field
  | none => report (.noField struct name.node) name.span

/-- Without a base, a struct literal has to give every field. -/
def checkComplete (d : StructDef) (struct : String) (seen : List String) (span : Span) :
    Check Unit :=
  d.fields.forM fun f =>
    if seen.contains f.name.node then return else report (.missingField f.name.node struct) span

/-- The types of parameters; those without an annotation are inferred. -/
def paramTypes (sc : TypeScope) : List Param → Check (List (String × Ty))
  | [] => return []
  | p :: r => do
    let t ← lowerOr sc fresh p.ty
    return (p.name.node, t) :: (← paramTypes sc r)

/-- The frame of a lambda; what its body performs counts against the function around it. -/
def Context.lambdaFrame (cx : Context) (ret : Ty) : Frame :=
  match cx.frames.head? with
  | some f => { f with ret }
  | none => ⟨"<lambda>", ret, .empty, false⟩

/-- A block that ends in a jump has no value of its own. -/
def diverges (stmts : List Stmt) : Bool :=
  match stmts.getLast? with
  | some (.ret ..) | some (.brk ..) | some (.cont _) => true
  | _ => false

mutual

def inferExpr (cx : Context) : Expr → Check Ty
  | ⟨id, span, kind⟩ => do
    let t ← inferKind cx span kind
    record id t
    return t

def inferKind (cx : Context) (span : Span) : ExprKind → Check Ty
  | .literal lit => literalType lit span
  | .ident name => lookupName cx name (.undefinedVariable name) span
  | .path segments =>
    let name := joinPath (segments.map (·.node))
    lookupName cx name (.undefinedPath name) span
  | .binary op left right => do
    let l ← inferExpr cx left
    let r ← inferExpr cx right
    binaryType op l r left.span right.span
  | .unary op operand => do
    let t ← inferExpr cx operand
    match op with
    | .not =>
      constrain .bool t operand.span .operand
      return .bool
    | .neg | .ref | .refMut | .deref => return t
  | .call callee args => do
    let t ← inferExpr cx callee
    let types ← inferAll cx args
    checkCall cx callee.calleeName? t types span
  | .methodCall receiver method args => do
    let receiver ← inferExpr cx receiver
    let args ← inferAll cx args
    let ret ← fresh
    defer (.method ⟨receiver, method.node, args, ret, cx.frames.head?, span⟩)
    return ret
  | .field base field => do
    let base ← inferExpr cx base
    let result ← fresh
    defer (.field base field.node result field.span)
    return result
  | .index base index => do
    let t ← inferExpr cx base
    let _ ← inferExpr cx index
    let elem ← fresh
    constrain (.array elem) t base.span .element
    return elem
  | .ifThen cond thenBranch elseBranch => do
    let c ← inferExpr cx cond
    constrain .bool c cond.span .condition
    let t ← inferBlock cx thenBranch
    match elseBranch with
    | some other =>
      let u ← inferExpr cx other
      constrain t u other.span .branch
      return t
    | none => return .unit
  | .matchOn scrutinee arms => do
    let t ← inferExpr cx scrutinee
    let result ← fresh
    checkArms cx t result arms
    return result
  | .block body => inferBlock cx body
  | .lambda params ret body _ => do
    let types ← paramTypes cx.scope params
    let ret ← lowerOr cx.scope fresh ret
    let inside := cx.pushScope.bindAll types
    let t ← inferExpr { inside with frames := cx.lambdaFrame ret :: cx.frames, loops := [] } body
    constrain ret t body.span .return
    return .fn (types.map (·.2)) ret .openRow
  | .tuple elems => return .tuple (← inferAll cx elems)
  | .array elems => do
    let elem ← fresh
    inferElems cx elem .element elems
    return .array elem
  | .structLit name fields base =>
    let struct := cx.scope.structName name.node
    match cx.scope.decls.structs.get? struct with
    | none => do
      report (.unknownStruct name.node) name.span
      inferFields cx fields
      match base with
      | some base => discard (inferExpr cx base)
      | none => pure ()
      fresh
    | some d => do
      let (type, params) ← instantiateNominal struct d.generics
      checkInits (cx.enterParams params) d struct [] fields
      match base with
      | some base =>
        let t ← inferExpr cx base
        constrain type t base.span .field
      | none => checkComplete d struct (fields.map (·.name.node)) span
      return type
  | .cast expr ty => do
    let _ ← inferExpr cx expr
    lower cx.scope ty
  | .tryOp expr => do
    let t ← inferExpr cx expr
    let ok ← fresh
    let err ← fresh
    constrain (.app Ty.resultName [ok, err]) t expr.span .try
    return ok
  | .await expr => do
    let t ← inferExpr cx expr
    if cx.checkEffects && !(cx.frames.head?.any (·.isAsync)) then
      report .awaitOutside span
    return t
  | .whileLoop cond body => do
    let c ← inferExpr cx cond
    constrain .bool c cond.span .condition
    let _ ← inferBlock (cx.enterLoop none) body
    return .unit
  | .loop body => do
    let result ← fresh
    let _ ← inferBlock (cx.enterLoop (some result)) body
    return result
  | .forLoop pattern iterable body => do
    let t ← inferExpr cx iterable
    let elem ← fresh
    defer (.iter t elem iterable.span)
    let bound ← checkPattern cx.pushScope pattern elem
    let _ ← inferBlock ((cx.pushScope.bindAll bound).enterLoop none) body
    return .unit
  | .range start stop _ => do
    let bound ← fresh
    match start with
    | some e =>
      let t ← inferExpr cx e
      constrain bound t e.span .operand
    | none => pure ()
    match stop with
    | some e =>
      let t ← inferExpr cx e
      constrain bound t e.span .operand
    | none => pure ()
    return .app Ty.rangeName [bound]

def inferAll (cx : Context) : List Expr → Check (List Ty)
  | [] => return []
  | e :: r => return (← inferExpr cx e) :: (← inferAll cx r)

/-- Expressions that all have the type `elem`. -/
def inferElems (cx : Context) (elem : Ty) (origin : Origin) : List Expr → Check Unit
  | [] => return
  | e :: r => do
    let t ← inferExpr cx e
    constrain elem t e.span origin
    inferElems cx elem origin r

/-- The values of a literal of an unknown struct. -/
def inferFields (cx : Context) : List FieldInit → Check Unit
  | [] => return
  | ⟨_, _, value⟩ :: r => do
    let _ ← inferExpr cx value
    inferFields cx r

/-- The values of a struct literal; `seen` are the fields that came before. -/
def checkInits (cx : Context) (d : StructDef) (struct : String) :
    List String → List FieldInit → Check Unit
  | _, [] => return
  | seen, ⟨span, name, value⟩ :: r => do
    let t ← inferExpr cx value
    if seen.contains name.node then
      report (.repeatedField name.node) span
    else
      checkInit cx.scope d struct name t value.span
    checkInits cx d struct (name.node :: seen) r

/-- The arms of a match on a value of type `t`, all of which have type `result`. -/
def checkArms (cx : Context) (t result : Ty) : List MatchArm → Check Unit
  | [] => return
  | ⟨_, pattern, guard, body⟩ :: r => do
    let bound ← checkPattern cx.pushScope pattern t
    let inside := cx.pushScope.bindAll bound
    match guard with
    | some g =>
      let c ← inferExpr inside g
      constrain .bool c g.span .condition
    | none => pure ()
    let u ← inferExpr inside body
    constrain result u body.span .branch
    checkArms cx t result r

def inferBlock (cx : Context) : Block → Check Ty
  | ⟨_, stmts, tail⟩ => do
    let env ← checkStmts cx.pushScope stmts
    match tail with
    | some e => inferExpr { cx with env } e
    | none => if diverges stmts then fresh else return .unit

/-- Check statements in order; gives the environment after the last. -/
def checkStmts (cx : Context) : List Stmt → Check Env
  | [] => return cx.env
  | s :: r => do
    let env ← checkStmt cx s
    checkStmts { cx with env } r

def checkStmt (cx : Context) : Stmt → Check Env
  | .letBind _ pattern ty value mutable =>
    match value with
    | some e => do
      let actual ← inferExpr cx e
      match ty with
      | some ty =>
        let declared ← lower cx.scope ty
        constrain declared actual e.span .annotated
        bindLet cx pattern declared true mutable
      | none => bindLet cx pattern actual true mutable
    | none => do
      let t ← lowerOr cx.scope fresh ty
      bindLet cx pattern t false mutable
  | .assign _ target value => do
    let t ← inferExpr cx target
    let u ← inferExpr cx value
    constrain t u value.span .assignment
    return cx.env
  | .expr e => do
    let _ ← inferExpr cx e
    return cx.env
  | .ret span value => do
    let t ← match value with
      | some e => inferExpr cx e
      | none => pure .unit
    checkReturn cx t span
    return cx.env
  | .brk span value => do
    let t ← match value with
      | some e => inferExpr cx e
      | none => pure .unit
    checkBreak cx t value.isSome span
    return cx.env
  | .cont span => do
    if cx.loops.isEmpty then
      report .continueOutside span
    return cx.env

end

end Sema
