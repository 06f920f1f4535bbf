import Sema.Syntax.Expr

/-!
# Items and programs
-/

namespace Sema

structure GenericParam where
  span : Span
  name : Ident
  bounds : List Ident

inductive ContractKind where
  | requires | ensures | invariant
  deriving DecidableEq, Inhabited

namespace ContractKind

def name : ContractKind → String
  | requires => "Requires"
  | ensures => "Ensures"
  | invariant => "Invariant"

def ofName? (s : String) : Option ContractKind :=
  [requires, ensures, invariant].find? (·.name == s)

@[simp] theorem ofName?_name (k : ContractKind) : ofName? k.name = some k := by
  cases k <;> decide

end ContractKind

structure Contract where
  span : Span
  kind : ContractKind
  condition : Expr

/-- A function; the body is absent from the methods that a trait only requires. -/
structure FunctionDef where
  span : Span
  name : Ident
  generics : List GenericParam
  params : List Param
  ret : Option TypeExpr
  effects : List EffectExpr
  contracts : List Contract
  body : Option Block
  isAsync : Bool

structure FieldDef where
  span : Span
  name : Ident
  ty : TypeExpr

structure StructDef where
  span : Span
  name : Ident
  generics : List GenericParam
  fields : List FieldDef

/-- A variant with a positional payload, empty for a unit variant. -/
structure VariantDef where
  span : Span
  name : Ident
  fields : List TypeExpr

structure EnumDef where
  span : Span
  name : Ident
  generics : List GenericParam
  variants : List VariantDef

structure TypeAlias where
  span : Span
  name : Ident
  generics : List GenericParam
  target : TypeExpr

structure ConstDef where
  span : Span
  name : Ident
  ty : TypeExpr
  value : Expr

structure TraitDef where
  span : Span
  name : Ident
  generics : List GenericParam
  methods : List FunctionDef
  superTraits : List Ident

structure ImplBlock where
  span : Span
  generics : List GenericParam
  target : TypeExpr
  traitName : Option Ident
  methods : List FunctionDef

structure Import where
  span : Span
  path : List Ident
  rename : Option Ident
  items : List Ident

/-- The names an import brings into scope: those it lists, else its new name, else the last
segment of its path. -/
def Import.names (i : Import) : List String :=
  if !i.items.isEmpty then i.items.map (·.node)
  else
    match i.rename with
    | some name => [name.node]
    | none => (i.path.getLast?.map (·.node)).toList

inductive Item where
  | function (d : FunctionDef)
  | struct (d : StructDef)
  | enum (d : EnumDef)
  | typeAlias (d : TypeAlias)
  | const (d : ConstDef)
  | trait (d : TraitDef)
  | impl (d : ImplBlock)
  | imports (d : Import)

structure Program where
  span : Span := {}
  items : List Item

def Program.functions (p : Program) : List FunctionDef :=
  p.items.filterMap fun
    | .function d => some d
    | _ => none

end Sema
