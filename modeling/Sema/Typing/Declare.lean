import Sema.Typing.Lower

/-!
# Declarations and signatures

Two passes over the items come before any body. The first collects the names of types, and
the imported names; the second gives every function, constant, variant and method its
scheme, so that bodies may use what is declared after them.
-/

namespace Sema

def Declarations.declares (d : Declarations) (name : String) : Bool :=
  d.aliases.contains name || d.structs.contains name || d.enums.contains name

/-- Run `add` unless the type is declared already. -/
def Declarations.unlessDeclared (d : Declarations) (name : Ident) (add : Declarations) :
    Check Declarations := do
  if d.declares name.node then
    report (.duplicateType name.node) name.span
    return d
  else
    return add

/-- The brand of an alias is declared with it. -/
def Declarations.addAlias (d : Declarations) (a : TypeAlias) : Declarations :=
  { d with
    aliases := d.aliases.insert a.name.node a
    brands :=
      match a.target.kind with
      | .branded base brand => d.brands.insert brand base
      | _ => d.brands }

/-- An imported name is a value of any type. -/
def importNames (env : Env) : List String → Check Env
  | [] => return env
  | name :: r => do
    let v ← freshVar
    importNames (env.bindGlobal name ⟨[v], .var v⟩) r

/-- The first pass over one item. -/
def declareItem : Declarations × Env → Item → Check (Declarations × Env)
  | (d, env), .typeAlias a => return (← d.unlessDeclared a.name (d.addAlias a), env)
  | (d, env), .struct s =>
    return (← d.unlessDeclared s.name { d with structs := d.structs.insert s.name.node s }, env)
  | (d, env), .enum e =>
    return (← d.unlessDeclared e.name { d with enums := d.enums.insert e.name.node e }, env)
  | (d, env), .trait t => return ({ d with traits := d.traits.insert t.name.node t }, env)
  | (d, env), .imports i =>
    return ({ d with imported := d.imported ++ i.names }, ← importNames env i.names)
  | (d, env), .function _ | (d, env), .const _ | (d, env), .impl _ => return (d, env)

/-- A function as its own body sees it. -/
structure Signature where
  params : List Ty
  ret : Ty
  effects : EffectSet
  /-- The generic parameters in scope: those around the function, then its own. -/
  generics : List (String × Ty)

namespace Signature

def type (s : Signature) : Ty := .fn s.params s.ret (.closed s.effects)

/-- The function type, quantified over the declared parameters only. -/
def scheme (s : Signature) : Scheme := ⟨s.generics.filterMap fun g => g.2.asVar, s.type⟩

end Signature

/-- The type of one parameter; `self` stands for the type of the block around it. -/
def paramType (sc : TypeScope) (p : Param) : Check Ty :=
  match p.ty, sc.selfTy with
  | some t, _ => lower sc t
  | none, some self => if p.name.node = "self" then return self else fresh
  | none, none => fresh

def FunctionDef.effectSet (d : FunctionDef) : EffectSet :=
  let declared := EffectSet.ofList (d.effects.map (·.kind))
  if d.isAsync then declared.insert .async else declared

/-- The signature of a function inside a block with the generic parameters `outer`. -/
def signature (sc : TypeScope) (d : FunctionDef) (outer : List (String × Ty)) :
    Check Signature := do
  let generics := outer ++ (← supply d.generics [])
  let inside := sc.enter (.ofList generics)
  let params ← d.params.mapM (paramType inside)
  let ret ← lowerOr inside (pure .unit) d.ret
  return ⟨params, ret, d.effectSet, generics⟩

/-- The type that an `impl` block is for, and the name its methods are filed under. -/
structure ImplTarget where
  typeName : String
  selfTy : Ty

/-- What the bodies of a program may refer to. -/
structure Interface where
  env : Env
  constructors : Table String Scheme
  methods : Methods
  signatures : Table String Signature := .empty
  consts : Table String Ty := .empty
  /-- One target for each `impl` block, in order. -/
  impls : List ImplTarget := []

namespace Interface

def addFunction (i : Interface) (name : String) (s : Signature) : Interface :=
  { i with
    env := i.env.bindGlobal name s.scheme
    signatures := i.signatures.insert name s }

def addConst (i : Interface) (name : String) (t : Ty) : Interface :=
  { i with
    env := i.env.bindGlobal name (.mono t)
    consts := i.consts.insert name t }

def addConstructor (i : Interface) (name : String) (s : Scheme) : Interface :=
  { i with
    env := i.env.bindGlobal name s
    constructors := i.constructors.insert name s }

/-- A method is also a function under its qualified name. -/
def addMethod (i : Interface) (typeName method : String) (s : Signature) : Interface :=
  { i.addFunction (typeName ++ "::" ++ method) s with
    methods := i.methods.add typeName method s.scheme }

end Interface

/-- The methods of a block for the type `typeName`. -/
def declareMethods (sc : TypeScope) (typeName : String) (outer : List (String × Ty)) :
    Interface → List FunctionDef → Check Interface
  | i, [] => return i
  | i, d :: r => do
    let s ← signature sc d outer
    declareMethods sc typeName outer (i.addMethod typeName d.name.node s) r

/-- A variant with a payload is a function, one without is a value. -/
def declareVariants (sc : TypeScope) (enum : String) (vars : List Nat) (result : Ty) :
    Interface → List VariantDef → Check Interface
  | i, [] => return i
  | i, v :: r => do
    let body ← if v.fields.isEmpty then pure result else do
      pure (.fn (← v.fields.mapM (lower sc)) result .pure)
    let i := i.addConstructor (enum ++ "::" ++ v.name.node) ⟨vars, body⟩
    declareVariants sc enum vars result i r

def declareEnum (sc : TypeScope) (i : Interface) (d : EnumDef) : Check Interface := do
  let params ← supply d.generics []
  let types := params.map (·.2)
  declareVariants (sc.enter (.ofList params)) d.name.node (types.filterMap Ty.asVar)
    (.nominal d.name.node types) i d.variants

/-- The methods of a trait that a block lacks: those with a body are taken over, the others
are missing. -/
def inheritMethods (sc : TypeScope) (b : ImplBlock) (traitName typeName : String)
    (outer : List (String × Ty)) : Interface → List FunctionDef → Check Interface
  | i, [] => return i
  | i, d :: r => do
    if b.methods.any (·.name.node == d.name.node) then
      inheritMethods sc b traitName typeName outer i r
    else if d.body.isSome then
      let i ← declareMethods sc typeName outer i [d]
      inheritMethods sc b traitName typeName outer i r
    else
      report (.missingMethod d.name.node traitName typeName) b.span
      inheritMethods sc b traitName typeName outer i r

/-- Compare a block with the trait it implements. -/
def implementTrait (sc : TypeScope) (b : ImplBlock) (typeName : String)
    (outer : List (String × Ty)) (i : Interface) (traitName : Ident) : Check Interface :=
  match sc.decls.traits.get? traitName.node with
  | none => do
    report (.undefinedTrait traitName.node) traitName.span
    return i
  | some d => do
    let i ← inheritMethods sc b traitName.node typeName outer i d.methods
    b.methods.forM fun m =>
      if d.methods.any (·.name.node == m.name.node) then return
      else report (.foreignMethod m.name.node traitName.node) m.name.span
    return i

def declareImpl (sc : TypeScope) (i : Interface) (b : ImplBlock) : Check Interface := do
  let generics ← supply b.generics []
  let self ← lower (sc.enter (.ofList generics)) b.target
  let typeName := self.nominalName?.getD b.target.text
  let inside := { sc with selfTy := some self }
  let i ← declareMethods inside typeName generics i b.methods
  let i ← match b.traitName with
    | some t => implementTrait inside b typeName generics i t
    | none => pure i
  return { i with impls := i.impls ++ [⟨typeName, self⟩] }

/-- `Self` in a trait is the trait's own nominal type. -/
def declareTrait (sc : TypeScope) (i : Interface) (d : TraitDef) : Check Interface := do
  let generics ← supply d.generics []
  declareMethods { sc with selfTy := some (.named d.name.node) } d.name.node generics i d.methods

/-- The second pass over one item. -/
def interfaceItem (sc : TypeScope) (i : Interface) : Item → Check Interface
  | .function d => do
    if i.signatures.contains d.name.node then
      report (.duplicateFunction d.name.node) d.name.span
      return i
    else
      return i.addFunction d.name.node (← signature sc d [])
  | .const d => return i.addConst d.name.node (← lower sc d.ty)
  | .enum d => declareEnum sc i d
  | .impl b => declareImpl sc i b
  | .trait d => declareTrait sc i d
  | .struct _ | .typeAlias _ | .imports _ => return i

end Sema
