import Sema.Syntax.Type
import Sema.Syntax.Pattern

/-!
# Expressions, statements and blocks

Every expression has an identity, which the checkers use to record facts about it.
-/

namespace Sema

inductive UnaryOp where
  | neg | not | ref | refMut | deref
  deriving DecidableEq, Inhabited

namespace UnaryOp

def name : UnaryOp → String
  | neg => "Neg"
  | not => "Not"
  | ref => "Ref"
  | refMut => "RefMut"
  | deref => "Deref"

def all : List UnaryOp := [.neg, .not, .ref, .refMut, .deref]

def ofName? (s : String) : Option UnaryOp := all.find? (·.name == s)

@[simp] theorem ofName?_name (op : UnaryOp) : ofName? op.name = some op := by
  cases op <;> decide

end UnaryOp

inductive BinOp where
  | add | sub | mul | div | rem
  | eq | ne | lt | gt | le | ge
  | and | or
  | bitAnd | bitOr | bitXor | shl | shr
  deriving DecidableEq, Inhabited

namespace BinOp

def isComparison : BinOp → Bool
  | eq | ne | lt | gt | le | ge => true
  | _ => false

def isLogical : BinOp → Bool
  | and | or => true
  | _ => false

def isArithmetic (op : BinOp) : Bool := !op.isComparison && !op.isLogical

def name : BinOp → String
  | add => "Add"
  | sub => "Sub"
  | mul => "Mul"
  | div => "Div"
  | rem => "Rem"
  | eq => "Eq"
  | ne => "Ne"
  | lt => "Lt"
  | gt => "Gt"
  | le => "Le"
  | ge => "Ge"
  | and => "And"
  | or => "Or"
  | bitAnd => "BitAnd"
  | bitOr => "BitOr"
  | bitXor => "BitXor"
  | shl => "Shl"
  | shr => "Shr"

def all : List BinOp :=
  [.add, .sub, .mul, .div, .rem, .eq, .ne, .lt, .gt, .le, .ge, .and, .or, .bitAnd, .bitOr,
    .bitXor, .shl, .shr]

def ofName? (s : String) : Option BinOp := all.find? (·.name == s)

@[simp] theorem ofName?_name (op : BinOp) : ofName? op.name = some op := by
  cases op <;> decide

end BinOp

/-- A parameter; those of lambdas, and `self`, may go without a type. -/
structure Param where
  span : Span
  name : Ident
  ty : Option TypeExpr
  mutable : Bool

abbrev ExprId := UInt32

mutual

structure Expr where
  id : ExprId
  span : Span
  kind : ExprKind

inductive ExprKind where
  | literal (lit : Literal)
  | ident (name : String)
  | path (segments : List Ident)
  | binary (op : BinOp) (left right : Expr)
  | unary (op : UnaryOp) (operand : Expr)
  | call (callee : Expr) (args : List Expr)
  | methodCall (receiver : Expr) (method : Ident) (args : List Expr)
  | field (base : Expr) (field : Ident)
  | index (base index : Expr)
  /-- The other branch is a block or a chained conditional. -/
  | ifThen (cond : Expr) (thenBranch : Block) (elseBranch : Option Expr)
  | matchOn (scrutinee : Expr) (arms : List MatchArm)
  | block (body : Block)
  | lambda (params : List Param) (ret : Option TypeExpr) (body : Expr) (isMove : Bool)
  | tuple (elems : List Expr)
  | array (elems : List Expr)
  | structLit (name : Ident) (fields : List FieldInit) (base : Option Expr)
  | cast (expr : Expr) (ty : TypeExpr)
  /-- Postfix `?`. -/
  | tryOp (expr : Expr)
  | await (expr : Expr)
  | whileLoop (cond : Expr) (body : Block)
  | loop (body : Block)
  | forLoop (pattern : Pattern) (iterable : Expr) (body : Block)
  | range (start stop : Option Expr) (inclusive : Bool)

inductive Stmt where
  | letBind (span : Span) (pattern : Pattern) (ty : Option TypeExpr) (value : Option Expr)
      (mutable : Bool)
  | assign (span : Span) (target value : Expr)
  | expr (e : Expr)
  | ret (span : Span) (value : Option Expr)
  | brk (span : Span) (value : Option Expr)
  | cont (span : Span)

/-- Statements, then the expression that is the value of the block. -/
structure Block where
  span : Span
  stmts : List Stmt
  tail : Option Expr

structure MatchArm where
  span : Span
  pattern : Pattern
  guard : Option Expr
  body : Expr

structure FieldInit where
  span : Span
  name : Ident
  value : Expr

end

namespace Expr

/-- The name, when the expression is a bare identifier. -/
def asIdent (e : Expr) : Option String :=
  match e.kind with
  | .ident name => some name
  | _ => none

def isBorrow (e : Expr) : Bool :=
  match e.kind with
  | .unary .ref _ | .unary .refMut _ => true
  | _ => false

/-- The same node, placed at `line:column`. -/
def placed (e : Expr) (line column : UInt32) : Expr := { e with span := .onLine line column 1 }

end Expr

/-- The constructor's name as programs and reports spell it. -/
def ExprKind.name : ExprKind → String
  | .literal _ => "Literal"
  | .ident _ => "Ident"
  | .path _ => "Path"
  | .binary .. => "Binary"
  | .unary .. => "Unary"
  | .call .. => "Call"
  | .methodCall .. => "MethodCall"
  | .field .. => "Field"
  | .index .. => "Index"
  | .ifThen .. => "If"
  | .matchOn .. => "Match"
  | .block _ => "Block"
  | .lambda .. => "Lambda"
  | .tuple _ => "Tuple"
  | .array _ => "Array"
  | .structLit .. => "Struct"
  | .cast .. => "Cast"
  | .tryOp _ => "Try"
  | .await _ => "Await"
  | .whileLoop .. => "While"
  | .loop _ => "Loop"
  | .forLoop .. => "For"
  | .range .. => "Range"

end Sema
