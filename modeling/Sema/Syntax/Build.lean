import Sema.Syntax.Walk

/-!
# Building trees

Short constructors for trees that come from no source text: every span is the dummy span
unless the node is placed.
-/

namespace Sema.Build

def name (s : String) : Ident := ⟨.dummy, s⟩

def names (l : List String) : List Ident := l.map name

def typeNode (kind : TypeExprKind) : TypeExpr := ⟨.dummy, kind⟩

/-- A path written with `::`, applied to arguments. -/
def pathType (s : String) (args : List TypeExpr) : TypeExpr :=
  typeNode (.path (s.splitOn "::") args)

/-- The primitive type of that name, else a path. -/
def type (s : String) : TypeExpr :=
  match Primitive.ofName? s with
  | some p => typeNode (.primitive p)
  | none => pathType s []

def unitType : TypeExpr := typeNode (.tuple [])

def tupleType (elems : List TypeExpr) : TypeExpr := typeNode (.tuple elems)

def arrayType (elem : TypeExpr) : TypeExpr := typeNode (.array elem none)

def refType (inner : TypeExpr) (mutable : Bool) : TypeExpr :=
  typeNode (.reference inner mutable none)

def branded (base : TypeExpr) (brand : String) : TypeExpr := typeNode (.branded base brand)

def effect (kind : EffectKind) : EffectExpr := ⟨.dummy, kind, none⟩

def fnType (params : List TypeExpr) (ret : TypeExpr) (effects : List EffectKind) : TypeExpr :=
  typeNode (.function params (some ret) (effects.map effect))

def expr (kind : ExprKind) : Expr := ⟨0, .dummy, kind⟩

def literal (kind : LiteralKind) (suffix : Option String := none) : Expr :=
  expr (.literal ⟨kind, suffix⟩)

def int (n : UInt64) : Expr := literal (.int n)

def ident (s : String) : Expr := expr (.ident s)

def path (segments : List String) : Expr := expr (.path (names segments))

def binary (op : BinOp) (left right : Expr) : Expr := expr (.binary op left right)

def unary (op : UnaryOp) (operand : Expr) : Expr := expr (.unary op operand)

def call (callee : Expr) (args : List Expr) : Expr := expr (.call callee args)

def method (receiver : Expr) (m : String) (args : List Expr) : Expr :=
  expr (.methodCall receiver (name m) args)

def field (base : Expr) (f : String) : Expr := expr (.field base (name f))

def index (base i : Expr) : Expr := expr (.index base i)

def ifThen (cond : Expr) (yes : Block) (no : Option Expr) : Expr := expr (.ifThen cond yes no)

def arm (pattern : Pattern) (guard : Option Expr) (body : Expr) : MatchArm :=
  ⟨.dummy, pattern, guard, body⟩

def matchOn (scrutinee : Expr) (arms : List MatchArm) : Expr := expr (.matchOn scrutinee arms)

def param (s : String) (ty : Option TypeExpr) : Param := ⟨.dummy, name s, ty, false⟩

/-- A lambda whose parameters have no annotation. -/
def lambda (params : List String) (body : Expr) : Expr :=
  expr (.lambda (params.map fun p => param p none) none body false)

def structLit (s : String) (fields : List (String × Expr)) : Expr :=
  expr (.structLit (name s) (fields.map fun (f, value) => ⟨.dummy, name f, value⟩) none)

def range (start stop : Expr) : Expr := expr (.range (some start) (some stop) false)

def block (stmts : List Stmt) (tail : Option Expr) : Block := ⟨.dummy, stmts, tail⟩

def patIdent (s : String) : Pattern := .ident .dummy s false false

def patLiteral (kind : LiteralKind) : Pattern := .literal .dummy ⟨kind, none⟩

def patEnum (segments : List String) (fields : List Pattern) : Pattern :=
  .enum .dummy (names segments) fields

/-- A struct pattern that binds each field under its own name. -/
def patStruct (s : String) (fields : List String) : Pattern :=
  .struct .dummy (name s) (fields.map fun f => ⟨.dummy, name f, none⟩) false

def letPattern (pattern : Pattern) (ty : Option TypeExpr) (value : Expr) : Stmt :=
  .letBind .dummy pattern ty (some value) false

def letIdent (s : String) (value : Expr) : Stmt := letPattern (patIdent s) none value

def assign (target value : Expr) : Stmt := .assign .dummy target value

def ret (value : Option Expr) : Stmt := .ret .dummy value

def generic (s : String) : GenericParam := ⟨.dummy, name s, []⟩

/-- A function of that name with nothing to it, to which the parts are added in turn. -/
def function (s : String) : FunctionDef :=
  ⟨.dummy, name s, [], [], none, [], [], none, false⟩

/-- A part of a function. -/
inductive Part where
  | generic (name : String)
  | param (name : String) (ty : Option TypeExpr)
  | returns (ty : TypeExpr)
  | effect (kind : EffectKind)
  | contract (kind : ContractKind) (condition : Expr)
  | body (b : Block)
  /-- The place of the whole; the name stands three columns on. -/
  | place (line column : UInt32)

def Part.add (d : FunctionDef) : Part → FunctionDef
  | .generic s => { d with generics := d.generics ++ [Build.generic s] }
  | .param s ty => { d with params := d.params ++ [Build.param s ty] }
  | .returns ty => { d with ret := some ty }
  | .effect kind => { d with effects := d.effects ++ [Build.effect kind] }
  | .contract kind condition =>
    { d with contracts := d.contracts ++ [⟨.dummy, kind, condition⟩] }
  | .body b => { d with body := some b }
  | .place line column =>
    { d with
      span := .onLine line column 1
      name := { d.name with span := .onLine line (column + 3) 1 } }

def functionOf (s : String) (parts : List Part) : FunctionDef := parts.foldl Part.add (function s)

def typeAlias (s : String) (target : TypeExpr) : Item := .typeAlias ⟨.dummy, name s, [], target⟩

/-- An alias for a brand of its own name. -/
def brandedAlias (s : String) (base : TypeExpr) : Item := typeAlias s (branded base s)

def struct (s : String) (generics : List String) (fields : List (String × TypeExpr)) : Item :=
  .struct ⟨.dummy, name s, generics.map generic, fields.map fun (f, t) => ⟨.dummy, name f, t⟩⟩

def enum (s : String) (generics : List String) (variants : List (String × List TypeExpr)) :
    Item :=
  .enum ⟨.dummy, name s, generics.map generic,
    variants.map fun (v, fields) => ⟨.dummy, name v, fields⟩⟩

def const (s : String) (ty : TypeExpr) (value : Expr) : Item := .const ⟨.dummy, name s, ty, value⟩

def trait (s : String) (methods : List FunctionDef) : Item :=
  .trait ⟨.dummy, name s, [], methods, []⟩

def impl (target : TypeExpr) (traitName : Option String) (methods : List FunctionDef) : Item :=
  .impl ⟨.dummy, [], target, traitName.map name, methods⟩

def imports (segments : List String) : Item := .imports ⟨.dummy, names segments, none, []⟩

end Sema.Build
