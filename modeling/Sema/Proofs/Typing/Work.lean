import Sema.Proofs.Typing.Steps

/-!
# The work of a type checker

The functions of the checker that take variables, or that go into parts of a program where other
things can be seen, as work: under the same names, with the context in the state of the checker
instead of an argument. What they do apart from that they leave to the checks as they are.
-/

namespace Sema

namespace Work

section Session

def fresh : Work Ty := return .var (← freshVar)

def freshMany : Nat → Work (List Ty)
  | 0 => return []
  | n + 1 => return (← fresh) :: (← freshMany n)

def reportFresh (fault : TypeFault) (span : Span) : Work Ty := do
  report fault span
  fresh

def supply : List GenericParam → List Ty → Work (List (String × Ty))
  | [], _ => return []
  | g :: r, t :: ts => return (g.name.node, t) :: (← supply r ts)
  | g :: r, [] => do
    let t ← fresh
    return (g.name.node, t) :: (← supply r [])

def instantiateNominal (name : String) (generics : List GenericParam) :
    Work (Ty × Table String Ty) := do
  let params ← supply generics []
  return (.nominal name (params.map (·.2)), .ofList params)

/-- Bind names one after the other. -/
def bindEach (l : List (String × Ty)) : Work Unit :=
  l.forM fun (name, t) => change (·.bind name (.mono t))

end Session

section Lowering

def applyNominal (name : String) (arity : Nat) (args : List Ty) (span : Span) : Work Ty := do
  if arity = 0 then
    if !args.isEmpty then
      report (.noTypeArguments name) span
    return .named name
  if !args.isEmpty && args.length != arity then
    report (.typeArguments name arity args.length) span
  let given := args.take arity
  return .app name (given ++ (← freshMany (arity - given.length)))

def lowerName (name : String) (args : List Ty) (span : Span) : Work Ty := do
  let sc := (← context).scope
  match sc.arity? name with
  | some arity => applyNominal name arity args span
  | none =>
    match sc.catalog.aliases.get? name with
    | some t => return t
    | none =>
      if sc.decls.imported.contains name || sc.decls.traits.contains name then
        return .nominal name args
      else
        match Primitive.ofName? name with
        | some p => return .prim p
        | none => reportFresh (.unknownType name) span

/-- How an alias applied to arguments is expanded. -/
abbrev Expansion := TypeAlias → List Ty → Span → Work Ty

def lowerPath (expand : Expansion) (segments : List String) (args : List Ty) (span : Span) :
    Work Ty := do
  let sc := (← context).scope
  let name := joinPath segments
  let single := segments.length == 1
  match if single then sc.param? name else none with
  | some t => return t
  | none =>
    if single && name == "Self" then
      match sc.selfTy with
      | some t => return t
      | none => reportFresh .selfOutside span
    else
      match sc.decls.aliases.get? name with
      | some a => expand a args span
      | none => lowerName name args span

mutual

def lowerWith (expand : Expansion) : TypeExpr → Work Ty
  | ⟨span, kind⟩ => lowerKind expand span kind

def lowerKind (expand : Expansion) (span : Span) : TypeExprKind → Work Ty
  | .primitive p => return .prim p
  | .path segments args => do
    let args ← lowerAll expand args
    lowerPath expand segments args span
  | .branded base brand => return .branded brand (← lowerWith expand base)
  | .function params ret effects => do
    let params ← lowerAll expand params
    let ret ← match ret with
      | some ret => lowerWith expand ret
      | none => pure .unit
    return .fn params ret (.closed (.ofList (effects.map (·.kind))))
  | .reference inner _ _ => lowerWith expand inner
  | .tuple elems => return .tuple (← lowerAll expand elems)
  | .array elem _ => return .array (← lowerWith expand elem)

def lowerAll (expand : Expansion) : List TypeExpr → Work (List Ty)
  | [] => return []
  | t :: r => do
    let t ← lowerWith expand t
    return t :: (← lowerAll expand r)

end

/-- Work among type parameters. -/
def withParams {α : Type} (params : Table String Ty) (m : Work α) : Work α := do
  change (·.enterParams params)
  let a ← m
  change (·.leaveParams)
  return a

def expandAlias : Nat → Expansion
  | 0, a, _, span => reportFresh (.cyclicAlias a.name.node) span
  | n + 1, a, args, span => do
    let name := a.name.node
    if (← context).scope.resolving.contains name then
      reportFresh (.cyclicAlias name) span
    else
      if args.length > a.generics.length then
        report (.aliasArguments name a.generics.length args.length) span
      let params ← supply a.generics args
      change (·.enterAlias name)
      let t ← withParams (.ofList params) (lowerWith (expandAlias n) a.target)
      change (·.leaveAlias)
      return t

def lower (t : TypeExpr) : Work Ty := do
  lowerWith (expandAlias (← context).scope.decls.aliases.size) t

def lowerOr (otherwise : Work Ty) : Option TypeExpr → Work Ty
  | some t => lower t
  | none => otherwise

end Lowering

section Patterns

def fieldType (d : StructDef) (struct : String) (name : Ident) : Work Ty :=
  match d.fields.find? (·.name.node == name.node) with
  | some field => lower field.ty
  | none => reportFresh (.noField struct name.node) name.span

/-- Bind names in a scope of their own, and take them out of it with their types. -/
def aside (m : Work Unit) : Work (Table String Ty) := do
  change (·.pushScope)
  m
  let bound := (← context).innermost.map (·.body)
  change (·.popScope)
  return bound

mutual

/-- Check a pattern and bind its names in the innermost scope. -/
def checkPattern : Pattern → Ty → Work Unit
  | .wildcard _, _ => return
  | .ident span name _ _, expected => do
    match (← context).valueConstructor? name with
    | some s =>
      let t ← instantiate s
      constrain expected t span .pattern
    | none => change (·.bind name (.mono expected))
  | .literal span value, expected => checkLiteral value expected span
  | .range span start stop _, expected =>
    (do for lit in start.toList ++ stop.toList do checkLiteral lit expected span : Check Unit)
  | .tuple span elems, expected => do
    let types ← freshMany elems.length
    constrain expected (.tuple types) span .pattern
    checkPatterns elems types
  | .struct span name fields rest, expected => do
    let struct := (← context).scope.structName name.node
    match (← context).scope.decls.structs.get? struct with
    | none =>
      report (.unknownStruct name.node) name.span
      checkFields (fun _ => fresh) fields
    | some d =>
      let (type, params) ← instantiateNominal struct d.generics
      constrain expected type span .pattern
      withParams params (checkFields (fieldType d struct) fields)
      if !rest then
        checkMentioned d struct (fields.map (·.name.node)) span
  | .enum span path fields, expected => do
    let name := joinPath (path.map (·.node))
    match (← context).constructors.get? name with
    | none =>
      report (.unknownVariant name) span
      checkUnknown fields
    | some s =>
      match ← instantiate s with
      | .fn params ret _ =>
        constrain expected ret span .pattern
        if params.length ≠ fields.length then
          report (.variantFields name params.length fields.length) span
        checkPatterns fields params
      | value =>
        constrain expected value span .pattern
        if !fields.isEmpty then
          report (.fieldlessVariant name) span
  | .or span alternatives, expected =>
    match alternatives with
    | [] => return
    | p :: rest => do
      let first ← aside (checkPattern p expected)
      checkAlternatives rest expected span first
      bindEach first.entries

def checkPatterns : List Pattern → List Ty → Work Unit
  | p :: ps, t :: ts => do
    checkPattern p t
    checkPatterns ps ts
  | _, _ => return

def checkUnknown : List Pattern → Work Unit
  | [] => return
  | p :: ps => do
    let t ← fresh
    checkPattern p t
    checkUnknown ps

def checkFields (type : Ident → Work Ty) : List FieldPattern → Work Unit
  | [] => return
  | ⟨_, name, p⟩ :: r => do
    let t ← type name
    match p with
    | some p => checkPattern p t
    | none => change (·.bind name.node (.mono t))
    checkFields type r

/-- The other alternatives, each in a scope of its own. -/
def checkAlternatives : List Pattern → Ty → Span → Table String Ty → Work Unit
  | [], _, _, _ => return
  | p :: r, expected, span, first => do
    let bound ← aside (checkPattern p expected)
    agree first span (p.span, bound)
    checkAlternatives r expected span first

end

end Patterns

section Inference

/-- Bind a pattern to a value of type `t`, generalising where that is allowed. -/
def bindLet (pattern : Pattern) (t : Ty) (hasValue mutable : Bool) : Work Unit := do
  match (← context).generalizes? pattern hasValue mutable with
  | some name =>
    let s ← check fun w => generalizeBinding w.context t
    change (·.bind name s)
  | none => checkPattern pattern t

def lookupName (name : String) (missing : TypeFault) (span : Span) : Work Ty := do
  match (← context).env.lookup name with
  | some scheme => instantiate scheme
  | none => reportFresh missing span

def callType (callee : Ty) (args : List Ty) (span : Span) : Work Ty := do
  let ret ← fresh
  constrain callee (.fn args ret .openRow) span .argument
  check fun w => recordSite w.context callee span
  return ret

def checkCall (name : Option String) (callee : Ty) (args : List Ty) (span : Span) : Work Ty :=
  match name, callee with
  | some name, .fn params ret _ =>
    if params.length ≠ args.length then do
      report (.argumentCount name params.length args.length) span
      return ret
    else callType callee args span
  | _, _ => callType callee args span

def checkInit (d : StructDef) (struct : String) (name : Ident) (t : Ty) (valueSpan : Span) :
    Work Unit :=
  match d.fields.find? (·.name.node == name.node) with
  | some field => do
    let expected ← lower field.ty
    constrain expected t valueSpan .field
  | none => report (.noField struct name.node) name.span

/-- Bind the parameters of a lambda one after the other. -/
def bindParams : List Param → Work (List Ty)
  | [] => return []
  | p :: r => do
    let t ← lowerOr fresh p.ty
    change (·.bind p.name.node (.mono t))
    return t :: (← bindParams r)

mutual

def inferExpr : Expr → Work Ty
  | ⟨id, span, kind⟩ => do
    let t ← inferKind span kind
    record id t
    return t

def inferKind (span : Span) : ExprKind → Work Ty
  | .literal lit => literalType lit span
  | .ident name => lookupName name (.undefinedVariable name) span
  | .path segments =>
    let name := joinPath (segments.map (·.node))
    lookupName name (.undefinedPath name) span
  | .binary op left right => do
    let l ← inferExpr left
    let r ← inferExpr right
    binaryType op l r left.span right.span
  | .unary op operand => do
    let t ← inferExpr operand
    match op with
    | .not =>
      constrain .bool t operand.span .operand
      return .bool
    | .neg | .ref | .refMut | .deref => return t
  | .call callee args => do
    let t ← inferExpr callee
    let types ← inferAll args
    checkCall callee.calleeName? t types span
  | .methodCall receiver method args => do
    let receiver ← inferExpr receiver
    let args ← inferAll args
    let ret ← fresh
    check fun w =>
      defer (.method ⟨receiver, method.node, args, ret, w.context.frames.head?, span⟩)
    return ret
  | .field base field => do
    let base ← inferExpr base
    let result ← fresh
    defer (.field base field.node result field.span)
    return result
  | .index base index => do
    let t ← inferExpr base
    let _ ← inferExpr index
    let elem ← fresh
    constrain (.array elem) t base.span .element
    return elem
  | .ifThen cond thenBranch elseBranch => do
    let c ← inferExpr cond
    constrain .bool c cond.span .condition
    let t ← inferBlock thenBranch
    match elseBranch with
    | some other =>
      let u ← inferExpr other
      constrain t u other.span .branch
      return t
    | none => return .unit
  | .matchOn scrutinee arms => do
    let t ← inferExpr scrutinee
    let result ← fresh
    checkArms t result arms
    return result
  | .block body => inferBlock body
  | .lambda params ret body _ => do
    change (·.pushScope)
    let types ← bindParams params
    let ret ← lowerOr fresh ret
    change fun cx => cx.enterFrame (cx.lambdaFrame ret)
    let loops := (← context).loops
    change (·.withLoops [])
    let t ← inferExpr body
    constrain ret t body.span .return
    change (·.withLoops loops)
    change (·.leaveFrame)
    change (·.popScope)
    return .fn types ret .openRow
  | .tuple elems => return .tuple (← inferAll elems)
  | .array elems => do
    let elem ← fresh
    inferElems elem .element elems
    return .array elem
  | .structLit name fields base => do
    let struct := (← context).scope.structName name.node
    match (← context).scope.decls.structs.get? struct with
    | none =>
      report (.unknownStruct name.node) name.span
      inferFields fields
      match base with
      | some base => discard (inferExpr base)
      | none => pure ()
      fresh
    | some d =>
      let (type, params) ← instantiateNominal struct d.generics
      withParams params (checkInits d struct [] fields)
      match base with
      | some base =>
        let t ← inferExpr base
        constrain type t base.span .field
      | none => checkComplete d struct (fields.map (·.name.node)) span
      return type
  | .cast expr ty => do
    let _ ← inferExpr expr
    lower ty
  | .tryOp expr => do
    let t ← inferExpr expr
    let ok ← fresh
    let err ← fresh
    constrain (.app Ty.resultName [ok, err]) t expr.span .try
    return ok
  | .await expr => do
    let t ← inferExpr expr
    let cx ← context
    if cx.checkEffects && !(cx.frames.head?.any (·.isAsync)) then
      report .awaitOutside span
    return t
  | .whileLoop cond body => do
    let c ← inferExpr cond
    constrain .bool c cond.span .condition
    change (·.enterLoop none)
    let _ ← inferBlock body
    change (·.leaveLoop)
    return .unit
  | .loop body => do
    let result ← fresh
    change (·.enterLoop (some result))
    let _ ← inferBlock body
    change (·.leaveLoop)
    return result
  | .forLoop pattern iterable body => do
    let t ← inferExpr iterable
    let elem ← fresh
    defer (.iter t elem iterable.span)
    change (·.pushScope)
    checkPattern pattern elem
    change (·.enterLoop none)
    let _ ← inferBlock body
    change (·.leaveLoop)
    change (·.popScope)
    return .unit
  | .range start stop _ => do
    let bound ← fresh
    match start with
    | some e =>
      let t ← inferExpr e
      constrain bound t e.span .operand
    | none => pure ()
    match stop with
    | some e =>
      let t ← inferExpr e
      constrain bound t e.span .operand
    | none => pure ()
    return .app Ty.rangeName [bound]

def inferAll : List Expr → Work (List Ty)
  | [] => return []
  | e :: r => return (← inferExpr e) :: (← inferAll r)

def inferElems (elem : Ty) (origin : Origin) : List Expr → Work Unit
  | [] => return
  | e :: r => do
    let t ← inferExpr e
    constrain elem t e.span origin
    inferElems elem origin r

def inferFields : List FieldInit → Work Unit
  | [] => return
  | ⟨_, _, value⟩ :: r => do
    let _ ← inferExpr value
    inferFields r

def checkInits (d : StructDef) (struct : String) : List String → List FieldInit → Work Unit
  | _, [] => return
  | seen, ⟨span, name, value⟩ :: r => do
    let t ← inferExpr value
    if seen.contains name.node then
      report (.repeatedField name.node) span
    else
      checkInit d struct name t value.span
    checkInits d struct (name.node :: seen) r

def checkArms (t result : Ty) : List MatchArm → Work Unit
  | [] => return
  | ⟨_, pattern, guard, body⟩ :: r => do
    change (·.pushScope)
    checkPattern pattern t
    match guard with
    | some g =>
      let c ← inferExpr g
      constrain .bool c g.span .condition
    | none => pure ()
    let u ← inferExpr body
    constrain result u body.span .branch
    change (·.popScope)
    checkArms t result r

def inferBlock : Block → Work Ty
  | ⟨_, stmts, tail⟩ => do
    change (·.pushScope)
    checkStmts stmts
    let t ← match tail with
      | some e => inferExpr e
      | none => if diverges stmts then fresh else pure .unit
    change (·.popScope)
    return t

def checkStmts : List Stmt → Work Unit
  | [] => return
  | s :: r => do
    checkStmt s
    checkStmts r

def checkStmt : Stmt → Work Unit
  | .letBind _ pattern ty value mutable =>
    match value with
    | some e => do
      let actual ← inferExpr e
      match ty with
      | some ty =>
        let declared ← lower ty
        constrain declared actual e.span .annotated
        bindLet pattern declared true mutable
      | none => bindLet pattern actual true mutable
    | none => do
      let t ← lowerOr fresh ty
      bindLet pattern t false mutable
  | .assign _ target value => do
    let t ← inferExpr target
    let u ← inferExpr value
    constrain t u value.span .assignment
  | .expr e => do
    let _ ← inferExpr e
  | .ret span value => do
    let t ← match value with
      | some e => inferExpr e
      | none => pure .unit
    check fun w => checkReturn w.context t span
  | .brk span value => do
    let t ← match value with
      | some e => inferExpr e
      | none => pure .unit
    check fun w => checkBreak w.context t value.isSome span
  | .cont span => do
    if (← context).loops.isEmpty then
      report .continueOutside span

end

end Inference

section Declaring

/-- Declare a type, unless there is one of the name. -/
def declareType (name : Ident) (add : Declarations → Declarations) : Work Unit := do
  if (← context).scope.decls.declares name.node then
    report (.duplicateType name.node) name.span
  else
    change (·.onDecls add)

def importName (name : String) : Work Unit := do
  let v ← freshVar
  declare fun i => { i with env := i.env.bindGlobal name ⟨[v], .var v⟩ }
  change (·.onDecls fun d => { d with imported := d.imported ++ [name] })

def declareItem : Item → Work Unit
  | .typeAlias a => declareType a.name (·.addAlias a)
  | .struct s => declareType s.name fun d => { d with structs := d.structs.insert s.name.node s }
  | .enum e => declareType e.name fun d => { d with enums := d.enums.insert e.name.node e }
  | .trait t => change (·.onDecls fun d => { d with traits := d.traits.insert t.name.node t })
  | .imports i => i.names.forM importName
  | .function _ | .const _ | .impl _ => return

/-- Work where `Self` is a type. -/
def withSelf (self : Ty) (m : Work Unit) : Work Unit := do
  let previous := (← context).scope.selfTy
  change (·.putSelf (some self))
  m
  change (·.putSelf previous)

def paramType (p : Param) : Work Ty := do
  match p.ty, (← context).scope.selfTy with
  | some t, _ => lower t
  | none, some self => if p.name.node = "self" then return self else fresh
  | none, none => fresh

def signature (d : FunctionDef) (outer : List (String × Ty)) : Work Signature := do
  let generics := outer ++ (← supply d.generics [])
  withParams (.ofList generics) do
    let params ← d.params.mapM paramType
    let ret ← lowerOr (pure .unit) d.ret
    return ⟨params, ret, d.effectSet, generics⟩

def declareMethod (typeName : String) (outer : List (String × Ty)) (d : FunctionDef) :
    Work Unit := do
  let s ← signature d outer
  declare (·.addMethod typeName d.name.node s)

/-- The type of a variant, by its fields. -/
def variantType (result : Ty) (fields : List TypeExpr) : Work Ty := do
  if fields.isEmpty then return result
  else return .fn (← fields.mapM lower) result .pure

def declareVariant (enum : String) (vars : List Nat) (result : Ty) (v : VariantDef) :
    Work Unit := do
  let body ← variantType result v.fields
  declare (·.addConstructor (enum ++ "::" ++ v.name.node) ⟨vars, body⟩)

def declareEnum (d : EnumDef) : Work Unit := do
  let params ← supply d.generics []
  let types := params.map (·.2)
  withParams (.ofList params) <| d.variants.forM <|
    declareVariant d.name.node (types.filterMap Ty.asVar) (.nominal d.name.node types)

/-- A method of a trait, in a block that implements it. -/
def inheritMethod (b : ImplBlock) (traitName typeName : String) (outer : List (String × Ty))
    (d : FunctionDef) : Work Unit := do
  if b.methods.any (·.name.node == d.name.node) then
    return
  else if d.body.isSome then
    declareMethod typeName outer d
  else
    report (.missingMethod d.name.node traitName typeName) b.span

def implementTrait (b : ImplBlock) (typeName : String) (outer : List (String × Ty))
    (traitName : Ident) : Work Unit := do
  match (← context).scope.decls.traits.get? traitName.node with
  | none => report (.undefinedTrait traitName.node) traitName.span
  | some d =>
    d.methods.forM (inheritMethod b traitName.node typeName outer)
    (b.methods.forM fun m =>
      if d.methods.any (·.name.node == m.name.node) then return
      else report (.foreignMethod m.name.node traitName.node) m.name.span : Check Unit)

def declareImpl (b : ImplBlock) : Work Unit := do
  let generics ← supply b.generics []
  let self ← withParams (.ofList generics) (lower b.target)
  let typeName := self.nominalName?.getD b.target.text
  withSelf self do
    b.methods.forM (declareMethod typeName generics)
    match b.traitName with
    | some t => implementTrait b typeName generics t
    | none => pure ()
  declare fun i => { i with impls := i.impls ++ [⟨typeName, self⟩] }

def declareTrait (d : TraitDef) : Work Unit :=
  withSelf (.named d.name.node) do
    let generics ← supply d.generics []
    d.methods.forM (declareMethod d.name.node generics)

def interfaceItem : Item → Work Unit
  | .function d => do
    if (← place).interface.signatures.contains d.name.node then
      report (.duplicateFunction d.name.node) d.name.span
    else
      let s ← signature d []
      declare (·.addFunction d.name.node s)
  | .const d => do
    let t ← lower d.ty
    declare (·.addConst d.name.node t)
  | .enum d => declareEnum d
  | .impl b => declareImpl b
  | .trait d => declareTrait d
  | .struct _ | .typeAlias _ | .imports _ => return

end Declaring

section Bodies

def checkContract (ret : Ty) (c : Contract) : Work Unit := do
  if c.kind = .ensures then
    change (·.pushScope)
    change (·.bind "result" (.mono ret))
  let t ← inferExpr c.condition
  constrain .bool t c.condition.span .contract
  if c.kind = .ensures then
    change (·.popScope)

def checkFunction (d : FunctionDef) (name : String) : Work Unit := do
  match d.body, (← place).interface.signatures.get? name with
  | some body, some s =>
    change (·.pushScope)
    change (·.enterParams (.ofList s.generics))
    change (·.bind name (.mono s.type))
    bindEach ((d.params.map (·.name.node)).zip s.params)
    change (·.enterFrame ⟨name, s.ret, s.effects, d.isAsync || s.effects.contains .async⟩)
    d.contracts.forM (checkContract s.ret)
    let t ← inferBlock body
    constrain s.ret t ((body.tail.map (·.span)).getD body.span) .return
    change (·.leaveFrame)
    change (·.leaveParams)
    change (·.popScope)
    recordGenerics name d.name.span s.generics
  | _, _ => return

def checkMethods (typeName : String) (self : Ty) (methods : List FunctionDef) : Work Unit :=
  withSelf self <| methods.forM fun m => checkFunction m (typeName ++ "::" ++ m.name.node)

def checkBodies : List ImplTarget → List Item → Work Unit
  | _, [] => return
  | targets, .function d :: r => do
    checkFunction d d.name.node
    checkBodies targets r
  | targets, .const d :: r => do
    let t ← inferExpr d.value
    match (← place).interface.consts.get? d.name.node with
    | some declared => constrain declared t d.value.span .annotated
    | none => pure ()
    checkBodies targets r
  | targets, .impl b :: r => do
    match targets with
    | target :: rest =>
      checkMethods target.typeName target.selfTy b.methods
      checkBodies rest r
    | [] => checkBodies [] r
  | targets, .trait d :: r => do
    checkMethods d.name.node (.named d.name.node) d.methods
    checkBodies targets r
  | targets, .struct _ :: r | targets, .enum _ :: r | targets, .typeAlias _ :: r
  | targets, .imports _ :: r => checkBodies targets r

end Bodies

section Members

def resolveStructField (base : Ty) (field : String) (result : Ty) (span : Span) : Work Unit := do
  match base.nominalName?.bind ((← context).scope.decls.structs.get? ·) with
  | none => report (.noTypeField field base) span
  | some d =>
    match d.fields.find? (·.name.node == field) with
    | none => report (.noField d.name.node field) span
    | some decl =>
      let params ← supply d.generics base.args
      let t ← withParams (.ofList params) (lower decl.ty)
      constrain t result span .field

def resolveField (base : Ty) (field : String) (result : Ty) (span : Span) : Work Unit :=
  match base.unbranded with
  | .app name elems =>
    if name = Ty.tupleName then resolveTupleField base.unbranded elems field result span
    else resolveStructField base.unbranded field result span
  | t => resolveStructField t field result span

def resolveMethod (receiver : Ty) (call : MemberCall) : Work Unit := do
  match receiver.nominalName? with
  | none => report (.noMethod call.method receiver.text) call.span
  | some typeName =>
    match (← place).interface.methods.find? typeName call.method with
    | none => report (.noMethod call.method typeName) call.span
    | some scheme =>
      let signature ← instantiate scheme
      match signature with
      | .fn params ret _ =>
        if params.length - 1 ≠ call.args.length then
          report (.methodArguments typeName call.method (params.length - 1) call.args.length)
            call.span
          constrain ret call.ret call.span .member
        else callMethod receiver signature call
      | _ => callMethod receiver signature call

def resolveMember (receiver : Ty) : Deferred → Work Unit
  | .field _ name result span => resolveField receiver name result span
  | .method call => resolveMethod receiver call
  | .iter _ elem span => resolveIter receiver elem span

/-- Work that a failed solve ends. -/
abbrev Settling := ExceptT SolveFault Work

def solveAll : Settling Unit := do
  match ← (solvePending : Check _) with
  | some fault => throw fault
  | none => return

def settleAmbiguous : Deferred → Settling Unit
  | .iter iterable elem span => do
    (constrain (.array elem) iterable span .iteration : Check Unit)
    solveAll
  | .field _ name _ span => (report (.ambiguousField name) span : Check Unit)
  | .method call => (report (.ambiguousMethod call.method) call.span : Check Unit)

def settleRound : List Deferred → Settling (List Deferred)
  | [] => do
    solveAll
    return []
  | d :: r => do
    solveAll
    let receiver := (← (get : Check Session)).solver.apply d.receiver
    if receiver.asVar.isSome then
      return d :: (← settleRound r)
    else
      (resolveMember receiver d : Work Unit)
      settleRound r

def settle (pending : List Deferred) : Settling Unit := do
  if pending.isEmpty then
    return
  let waiting ← settleRound pending
  if _h : waiting.length < pending.length then
    settle waiting
  else
    waiting.forM settleAmbiguous
termination_by pending.length

def solveProgram : Settling Unit := do
  solveAll
  settle (← (get : Check Session)).deferred.toList

def finish : Work Bool := do
  match ← solveProgram.run with
  | .error fault =>
    report (.unsolved fault) fault.span
    return false
  | .ok _ =>
    let s ← (get : Check Session)
    checkGenerics s.solver.subst .empty s.generics.entries
    check fun w =>
      if w.context.checkEffects then
        checkSites [] (undeclaredEffects s.solver.subst s.sites.toList)
      else return
    return true

end Members

/-- The whole check of a program. -/
def checkItems (items : List Item) : Work Bool := do
  items.forM declareItem
  items.forM interfaceItem
  checkBodies (← place).interface.impls items
  finish

end Work

end Sema
