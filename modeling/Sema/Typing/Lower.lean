import Sema.Typing.Session

/-!
# From type syntax to types

References are transparent, and an alias stands for its target. An alias cannot be expanded
inside its own expansion, so expansions nest no deeper than there are aliases.
-/

namespace Sema

/-- A declared type applied to arguments; without any, all are inferred. -/
def applyNominal (name : String) (arity : Nat) (args : List Ty) (span : Span) : Check Ty := do
  if arity = 0 then
    if !args.isEmpty then
      report (.noTypeArguments name) span
    return .named name
  if !args.isEmpty && args.length != arity then
    report (.typeArguments name arity args.length) span
  let given := args.take arity
  return .app name (given ++ (← freshMany (arity - given.length)))

/-- How many type arguments a declared type or one of the catalog takes. -/
def TypeScope.arity? (sc : TypeScope) (name : String) : Option Nat :=
  ((sc.decls.structs.get? name).map (·.generics.length)).or
    (((sc.decls.enums.get? name).map (·.generics.length)).or (sc.catalog.types.get? name))

/-- What a name means that is neither a parameter nor `Self` nor an alias. -/
def lowerName (sc : TypeScope) (name : String) (args : List Ty) (span : Span) : Check Ty :=
  match sc.arity? name with
  | some arity => applyNominal name arity args span
  | none =>
    match sc.catalog.aliases.get? name with
    | some t => return t
    | none =>
      if sc.decls.imported.contains name || sc.decls.traits.contains name then
        return .nominal name args
      else
        match Primitive.ofName? name with
        | some p => return .prim p
        | none => reportFresh (.unknownType name) span

/-- How an alias applied to arguments is expanded. -/
abbrev Expander := TypeScope → TypeAlias → List Ty → Span → Check Ty

/-- A path applied to arguments. A single segment may be a parameter or `Self`. -/
def lowerPath (expand : Expander) (sc : TypeScope) (segments : List String) (args : List Ty)
    (span : Span) : Check Ty :=
  let name := joinPath segments
  let single := segments.length == 1
  match if single then sc.param? name else none with
  | some t => return t
  | none =>
    if single && name == "Self" then
      match sc.selfTy with
      | some t => return t
      | none => reportFresh .selfOutside span
    else
      match sc.decls.aliases.get? name with
      | some a => expand sc a args span
      | none => lowerName sc name args span

mutual

def lowerWith (expand : Expander) (sc : TypeScope) : TypeExpr → Check Ty
  | ⟨span, kind⟩ => lowerKind expand sc span kind

def lowerKind (expand : Expander) (sc : TypeScope) (span : Span) : TypeExprKind → Check Ty
  | .primitive p => return .prim p
  | .path segments args => do
    let args ← lowerAll expand sc args
    lowerPath expand sc segments args span
  | .branded base brand => return .branded brand (← lowerWith expand sc base)
  | .function params ret effects => do
    let params ← lowerAll expand sc params
    let ret ← match ret with
      | some ret => lowerWith expand sc ret
      | none => pure .unit
    return .fn params ret (.closed (.ofList (effects.map (·.kind))))
  | .reference inner _ _ => lowerWith expand sc inner
  | .tuple elems => return .tuple (← lowerAll expand sc elems)
  | .array elem _ => return .array (← lowerWith expand sc elem)

def lowerAll (expand : Expander) (sc : TypeScope) : List TypeExpr → Check (List Ty)
  | [] => return []
  | t :: r => do
    let t ← lowerWith expand sc t
    return t :: (← lowerAll expand sc r)

end

/-- Expand an alias, with at most `n` aliases nested in it. -/
def expandAlias : Nat → Expander
  | 0, _, a, _, span => reportFresh (.cyclicAlias a.name.node) span
  | n + 1, sc, a, args, span => do
    let name := a.name.node
    if sc.resolving.contains name then
      reportFresh (.cyclicAlias name) span
    else
      if args.length > a.generics.length then
        report (.aliasArguments name a.generics.length args.length) span
      let params ← supply a.generics args
      lowerWith (expandAlias n)
        { sc.enter (.ofList params) with resolving := name :: sc.resolving } a.target

/-- The type that a type expression denotes. -/
def lower (sc : TypeScope) (t : TypeExpr) : Check Ty :=
  lowerWith (expandAlias sc.decls.aliases.size) sc t

def lowerOr (sc : TypeScope) (otherwise : Check Ty) : Option TypeExpr → Check Ty
  | some t => lower sc t
  | none => otherwise

end Sema
