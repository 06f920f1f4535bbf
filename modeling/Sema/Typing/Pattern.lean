import Sema.Text.Uppercase
import Sema.Typing.Lower

/-!
# Patterns

Checking a pattern against a type gives the names it binds and their types, in order; where a
name comes twice the later one counts. The names of an or-pattern are those of its first
alternative, and every other alternative has to bind the same.
-/

namespace Sema

/-- The type of a literal of each kind, and the primitives its suffix may choose. -/
def LiteralKind.primitive? : LiteralKind → Option Primitive
  | .int _ => some .i32
  | .float _ => some .f64
  | .str _ => some .str
  | .bool _ => some .bool
  | .char _ => some .char
  | .unit => none

def LiteralKind.admits (k : LiteralKind) (p : Primitive) : Bool :=
  match k with
  | .int _ => p.isInteger || p.isFloat
  | .float _ => p.isFloat
  | _ => false

/-- The type of a literal: what its suffix says, else the default of its kind. -/
def literalType (lit : Literal) (span : Span) : Check Ty :=
  match lit.kind.primitive? with
  | none => return .unit
  | some p =>
    match lit.suffix with
    | none => return .prim p
    | some suffix =>
      match (Primitive.ofName? suffix).filter lit.kind.admits with
      | some q => return .prim q
      | none => do
        report (.literalSuffix suffix p) span
        return .prim p

/-- A constructor that is a value, such as `None`, under an upper-case name. -/
def Context.valueConstructor? (cx : Context) (name : String) : Option Scheme :=
  if startsUppercase name then (cx.constructors.get? name).filter fun s => !s.body.isFn
  else none

def checkLiteral (lit : Literal) (expected : Ty) (span : Span) : Check Unit := do
  constrain expected (← literalType lit span) span .pattern

/-- Names with types, as patterns bind them. -/
abbrev Bound := List (String × Ty)

/-- Make the alternatives of an or-pattern agree with the first of them. -/
def agree (first : Table String Ty) (span : Span) (alternative : Span × Table String Ty) :
    Check Unit :=
  if first.keys = alternative.2.keys then
    (first.entries.zip alternative.2.entries).forM fun (a, b) =>
      constrain a.2 b.2 span .pattern
  else
    report .alternativeNames alternative.1

/-- What to expect of the field of a struct pattern. -/
def fieldType (sc : TypeScope) (d : StructDef) (struct : String) (name : Ident) : Check Ty :=
  match d.fields.find? (·.name.node == name.node) with
  | some field => lower sc field.ty
  | none => reportFresh (.noField struct name.node) name.span

/-- The fields of a struct pattern without `..` have to be all there are. -/
def checkMentioned (d : StructDef) (struct : String) (mentioned : List String) (span : Span) :
    Check Unit := do
  let missing := (d.fields.map (·.name.node)).filter fun n => !mentioned.contains n
  if !missing.isEmpty then
    report (.unmentionedFields missing struct) span

mutual

def checkPattern (cx : Context) : Pattern → Ty → Check Bound
  | .wildcard _, _ => return []
  | .ident span name _ _, expected =>
    match cx.valueConstructor? name with
    | some s => do
      constrain expected (← instantiate s) span .pattern
      return []
    | none => return [(name, expected)]
  | .literal span value, expected => do
    checkLiteral value expected span
    return []
  | .range span start stop _, expected => do
    for lit in start.toList ++ stop.toList do
      checkLiteral lit expected span
    return []
  | .tuple span elems, expected => do
    let types ← freshMany elems.length
    constrain expected (.tuple types) span .pattern
    checkPatterns cx elems types
  | .struct span name fields rest, expected =>
    let struct := cx.scope.structName name.node
    match cx.scope.decls.structs.get? struct with
    | none => do
      report (.unknownStruct name.node) name.span
      checkFields cx (fun _ => fresh) fields
    | some d => do
      let (type, params) ← instantiateNominal struct d.generics
      constrain expected type span .pattern
      let inside := cx.enterParams params
      let bound ← checkFields inside (fieldType inside.scope d struct) fields
      if !rest then
        checkMentioned d struct (fields.map (·.name.node)) span
      return bound
  | .enum span path fields, expected =>
    let name := joinPath (path.map (·.node))
    match cx.constructors.get? name with
    | none => do
      report (.unknownVariant name) span
      checkUnknown cx fields
    | some s => do
      match ← instantiate s with
      | .fn params ret _ =>
        constrain expected ret span .pattern
        if params.length ≠ fields.length then
          report (.variantFields name params.length fields.length) span
        checkPatterns cx fields params
      | value =>
        constrain expected value span .pattern
        if !fields.isEmpty then
          report (.fieldlessVariant name) span
        return []
  | .or span alternatives, expected =>
    match alternatives with
    | [] => return []
    | p :: rest => do
      let first := Table.ofList (← checkPattern cx p expected)
      checkAlternatives cx rest expected span first
      return first.entries

/-- Patterns against types, pairwise. -/
def checkPatterns (cx : Context) : List Pattern → List Ty → Check Bound
  | p :: ps, t :: ts => return (← checkPattern cx p t) ++ (← checkPatterns cx ps ts)
  | _, _ => return []

/-- Patterns against types of which nothing is known. -/
def checkUnknown (cx : Context) : List Pattern → Check Bound
  | [] => return []
  | p :: ps => do
    let t ← fresh
    return (← checkPattern cx p t) ++ (← checkUnknown cx ps)

def checkFields (cx : Context) (type : Ident → Check Ty) : List FieldPattern → Check Bound
  | [] => return []
  | ⟨_, name, pattern⟩ :: r => do
    let t ← type name
    let bound ← match pattern with
      | some p => checkPattern cx p t
      | none => pure [(name.node, t)]
    return bound ++ (← checkFields cx type r)

/-- The other alternatives of an or-pattern, each against the first. -/
def checkAlternatives (cx : Context) : List Pattern → Ty → Span → Table String Ty → Check Unit
  | [], _, _, _ => return
  | p :: r, expected, span, first => do
    agree first span (p.span, Table.ofList (← checkPattern cx p expected))
    checkAlternatives cx r expected span first

end

end Sema
