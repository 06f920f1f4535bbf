import Sema.Json.Reader
import Sema.Json.Record
import Sema.Syntax.Item

/-!
# Programs from JSON

Readers for every part of a program. Each takes the number of levels that brackets may still
nest, which text bounds and a tree handed over does not; the recursion is on that number.
-/

namespace Sema

namespace Decode

open Json (Value Medium optional defaulted record unitVariant)

def position : Nat → Value → Option Position :=
  record ["line", "column", "offset"] fun _ fields =>
    match fields with
    | [line, column, offset] => do
      return ⟨← line.bind Value.uint32?, ← column.bind Value.uint32?,
        ← defaulted 0 Value.uint64? offset⟩
    | _ => none

def span : Nat → Value → Option Span :=
  record ["file", "start", "end"] fun n fields =>
    match fields with
    | [file, start, stop] => do
      return ⟨← optional Value.str? file, ← start.bind (position n), ← stop.bind (position n)⟩
    | _ => none

def ident : Nat → Value → Option Ident :=
  record ["span", "node"] fun n fields =>
    match fields with
    | [place, node] => do
      return ⟨← place.bind (span n), ← node.bind Value.str?⟩
    | _ => none

def idents : Nat → Value → Option (List Ident) := Json.list ident

def strings : Nat → Value → Option (List String) := Json.list fun _ => Value.str?

variable (m : Medium)

mutual

def typeExpr : Nat → Value → Option TypeExpr
  | 0, _ => none
  | n + 1, v =>
    match v.fields? ["span", "kind"] with
    | some [place, kind] => do
      return ⟨← place.bind (span n), ← kind.bind (typeKind n)⟩
    | _ => none

def typeKind : Nat → Value → Option TypeExprKind
  | 0, _ => none
  | n + 1, v =>
    match v.variant? with
    | some ("Primitive", some p) => .primitive <$> unitVariant Primitive.ofName? n p
    | some ("Path", some p) => pathType n p
    | some ("Branded", some p) => brandedType n p
    | some ("Function", some p) => functionType n p
    | some ("Reference", some p) => referenceType n p
    | some ("Tuple", some p) => .tuple <$> types n p
    | some ("Array", some p) => arrayType n p
    | _ => none

def pathType : Nat → Value → Option TypeExprKind
  | 0, _ => none
  | n + 1, v =>
    match v.payload? m ["segments", "args"] with
    | some [segments, args] => do
      return .path (← segments.bind (strings n)) (← defaulted [] (types n) args)
    | _ => none

def brandedType : Nat → Value → Option TypeExprKind
  | 0, _ => none
  | n + 1, v =>
    match v.payload? m ["base", "brand"] with
    | some [base, brand] => do
      return .branded (← base.bind (typeExpr n)) (← brand.bind Value.str?)
    | _ => none

def functionType : Nat → Value → Option TypeExprKind
  | 0, _ => none
  | n + 1, v =>
    match v.payload? m ["params", "ret", "effects"] with
    | some [params, ret, effs] => do
      return .function (← params.bind (types n)) (← optional (typeExpr n) ret)
        (← defaulted [] (effects n) effs)
    | _ => none

def referenceType : Nat → Value → Option TypeExprKind
  | 0, _ => none
  | n + 1, v =>
    match v.payload? m ["inner", "mutable", "lifetime"] with
    | some [inner, mutable, lifetime] => do
      return .reference (← inner.bind (typeExpr n)) (← defaulted false Value.bool? mutable)
        (← optional Value.str? lifetime)
    | _ => none

def arrayType : Nat → Value → Option TypeExprKind
  | 0, _ => none
  | n + 1, v =>
    match v.payload? m ["elem", "len"] with
    | some [elem, len] => do
      return .array (← elem.bind (typeExpr n)) (← optional Value.uint64? len)
    | _ => none

def types : Nat → Value → Option (List TypeExpr)
  | n + 1, .arr elems => elems.mapM (typeExpr n)
  | _, _ => none

def effect : Nat → Value → Option EffectExpr
  | 0, _ => none
  | n + 1, v =>
    match v.fields? ["span", "kind", "type_arg"] with
    | some [place, kind, arg] => do
      return ⟨← place.bind (span n), ← kind.bind (unitVariant EffectKind.ofName? n),
        ← optional (typeExpr n) arg⟩
    | _ => none

def effects : Nat → Value → Option (List EffectExpr)
  | n + 1, .arr elems => elems.mapM (effect n)
  | _, _ => none

end

def literalKind : Nat → Value → Option LiteralKind
  | 0, v => if v.str? = some "Unit" then some .unit else none
  | _ + 1, v =>
    match v.variant? with
    | some ("Int", some p) => .int <$> p.uint64?
    | some ("Float", some p) => .float <$> p.float?
    | some ("Str", some p) => .str <$> p.str?
    | some ("Bool", some p) => .bool <$> p.bool?
    | some ("Char", some p) => .char <$> p.char?
    | some ("Unit", none) => some .unit
    | some ("Unit", some .null) => some .unit
    | _ => none

def literal : Nat → Value → Option Literal :=
  record ["kind", "suffix"] fun n fields =>
    match fields with
    | [kind, suffix] => do
      return ⟨← kind.bind (literalKind n), ← optional Value.str? suffix⟩
    | _ => none

mutual

def pattern : Nat → Value → Option Pattern
  | 0, _ => none
  | n + 1, v =>
    match v.variant? with
    | some ("Wildcard", some p) => wildcardPattern n p
    | some ("Ident", some p) => identPattern n p
    | some ("Literal", some p) => literalPattern n p
    | some ("Tuple", some p) => tuplePattern n p
    | some ("Struct", some p) => structPattern n p
    | some ("Enum", some p) => enumPattern n p
    | some ("Or", some p) => orPattern n p
    | some ("Range", some p) => rangePattern n p
    | _ => none

def wildcardPattern : Nat → Value → Option Pattern
  | 0, _ => none
  | n + 1, v =>
    match v.payload? m ["span"] with
    | some [place] => .wildcard <$> place.bind (span n)
    | _ => none

def identPattern : Nat → Value → Option Pattern
  | 0, _ => none
  | n + 1, v =>
    match v.payload? m ["span", "name", "mutable", "by_ref"] with
    | some [place, name, mutable, byRef] => do
      return .ident (← place.bind (span n)) (← name.bind Value.str?)
        (← defaulted false Value.bool? mutable) (← defaulted false Value.bool? byRef)
    | _ => none

def literalPattern : Nat → Value → Option Pattern
  | 0, _ => none
  | n + 1, v =>
    match v.payload? m ["span", "value"] with
    | some [place, value] => do
      return .literal (← place.bind (span n)) (← value.bind (literal n))
    | _ => none

def tuplePattern : Nat → Value → Option Pattern
  | 0, _ => none
  | n + 1, v =>
    match v.payload? m ["span", "elems"] with
    | some [place, elems] => do
      return .tuple (← place.bind (span n)) (← elems.bind (patterns n))
    | _ => none

def structPattern : Nat → Value → Option Pattern
  | 0, _ => none
  | n + 1, v =>
    match v.payload? m ["span", "name", "fields", "rest"] with
    | some [place, name, fields, rest] => do
      return .struct (← place.bind (span n)) (← name.bind (ident n))
        (← fields.bind (fieldPatterns n)) (← defaulted false Value.bool? rest)
    | _ => none

def enumPattern : Nat → Value → Option Pattern
  | 0, _ => none
  | n + 1, v =>
    match v.payload? m ["span", "path", "fields"] with
    | some [place, path, fields] => do
      return .enum (← place.bind (span n)) (← path.bind (idents n))
        (← defaulted [] (patterns n) fields)
    | _ => none

def orPattern : Nat → Value → Option Pattern
  | 0, _ => none
  | n + 1, v =>
    match v.payload? m ["span", "alternatives"] with
    | some [place, alternatives] => do
      return .or (← place.bind (span n)) (← alternatives.bind (patterns n))
    | _ => none

def rangePattern : Nat → Value → Option Pattern
  | 0, _ => none
  | n + 1, v =>
    match v.payload? m ["span", "start", "end", "inclusive"] with
    | some [place, start, stop, inclusive] => do
      return .range (← place.bind (span n)) (← optional (literal n) start)
        (← optional (literal n) stop) (← defaulted false Value.bool? inclusive)
    | _ => none

def patterns : Nat → Value → Option (List Pattern)
  | n + 1, .arr elems => elems.mapM (pattern n)
  | _, _ => none

def fieldPattern : Nat → Value → Option FieldPattern
  | 0, _ => none
  | n + 1, v =>
    match v.fields? ["span", "name", "pattern"] with
    | some [place, name, inner] => do
      return ⟨← place.bind (span n), ← name.bind (ident n), ← optional (pattern n) inner⟩
    | _ => none

def fieldPatterns : Nat → Value → Option (List FieldPattern)
  | n + 1, .arr elems => elems.mapM (fieldPattern n)
  | _, _ => none

end

def param : Nat → Value → Option Param :=
  record ["span", "name", "ty", "mutable"] fun n fields =>
    match fields with
    | [place, name, ty, mutable] => do
      return ⟨← place.bind (span n), ← name.bind (ident n), ← optional (typeExpr m n) ty,
        ← defaulted false Value.bool? mutable⟩
    | _ => none

mutual

def expr : Nat → Value → Option Expr
  | 0, _ => none
  | n + 1, v =>
    match v.fields? ["id", "span", "kind"] with
    | some [id, place, kind] => do
      return ⟨← defaulted 0 Value.uint32? id, ← place.bind (span n), ← kind.bind (exprKind n)⟩
    | _ => none

def exprKind : Nat → Value → Option ExprKind
  | 0, _ => none
  | n + 1, v =>
    match v.variant? with
    | some ("Literal", some p) => .literal <$> literal n p
    | some ("Ident", some p) => .ident <$> p.str?
    | some ("Path", some p) => .path <$> idents n p
    | some ("Binary", some p) => binaryExpr n p
    | some ("Unary", some p) => unaryExpr n p
    | some ("Call", some p) => callExpr n p
    | some ("MethodCall", some p) => methodExpr n p
    | some ("Field", some p) => fieldExpr n p
    | some ("Index", some p) => indexExpr n p
    | some ("If", some p) => ifExpr n p
    | some ("Match", some p) => matchExpr n p
    | some ("Block", some p) => .block <$> block n p
    | some ("Lambda", some p) => lambdaExpr n p
    | some ("Tuple", some p) => .tuple <$> exprs n p
    | some ("Array", some p) => .array <$> exprs n p
    | some ("Struct", some p) => structExpr n p
    | some ("Cast", some p) => castExpr n p
    | some ("Try", some p) => .tryOp <$> expr n p
    | some ("Await", some p) => .await <$> expr n p
    | some ("While", some p) => whileExpr n p
    | some ("Loop", some p) => loopExpr n p
    | some ("For", some p) => forExpr n p
    | some ("Range", some p) => rangeExpr n p
    | _ => none

def binaryExpr : Nat → Value → Option ExprKind
  | 0, _ => none
  | n + 1, v =>
    match v.payload? m ["op", "left", "right"] with
    | some [op, left, right] => do
      return .binary (← op.bind (unitVariant BinOp.ofName? n)) (← left.bind (expr n))
        (← right.bind (expr n))
    | _ => none

def unaryExpr : Nat → Value → Option ExprKind
  | 0, _ => none
  | n + 1, v =>
    match v.payload? m ["op", "operand"] with
    | some [op, operand] => do
      return .unary (← op.bind (unitVariant UnaryOp.ofName? n)) (← operand.bind (expr n))
    | _ => none

def callExpr : Nat → Value → Option ExprKind
  | 0, _ => none
  | n + 1, v =>
    match v.payload? m ["callee", "args"] with
    | some [callee, args] => do
      return .call (← callee.bind (expr n)) (← args.bind (exprs n))
    | _ => none

def methodExpr : Nat → Value → Option ExprKind
  | 0, _ => none
  | n + 1, v =>
    match v.payload? m ["receiver", "method", "args"] with
    | some [receiver, method, args] => do
      return .methodCall (← receiver.bind (expr n)) (← method.bind (ident n))
        (← args.bind (exprs n))
    | _ => none

def fieldExpr : Nat → Value → Option ExprKind
  | 0, _ => none
  | n + 1, v =>
    match v.payload? m ["base", "field"] with
    | some [base, field] => do
      return .field (← base.bind (expr n)) (← field.bind (ident n))
    | _ => none

def indexExpr : Nat → Value → Option ExprKind
  | 0, _ => none
  | n + 1, v =>
    match v.payload? m ["base", "index"] with
    | some [base, index] => do
      return .index (← base.bind (expr n)) (← index.bind (expr n))
    | _ => none

def ifExpr : Nat → Value → Option ExprKind
  | 0, _ => none
  | n + 1, v =>
    match v.payload? m ["cond", "then_branch", "else_branch"] with
    | some [cond, thenBranch, elseBranch] => do
      return .ifThen (← cond.bind (expr n)) (← thenBranch.bind (block n))
        (← optional (expr n) elseBranch)
    | _ => none

def matchExpr : Nat → Value → Option ExprKind
  | 0, _ => none
  | n + 1, v =>
    match v.payload? m ["scrutinee", "arms"] with
    | some [scrutinee, branches] => do
      return .matchOn (← scrutinee.bind (expr n)) (← branches.bind (arms n))
    | _ => none

def lambdaExpr : Nat → Value → Option ExprKind
  | 0, _ => none
  | n + 1, v =>
    match v.payload? m ["params", "ret", "body", "is_move"] with
    | some [params, ret, body, isMove] => do
      return .lambda (← params.bind (Json.list (param m) n)) (← optional (typeExpr m n) ret)
        (← body.bind (expr n)) (← defaulted false Value.bool? isMove)
    | _ => none

def structExpr : Nat → Value → Option ExprKind
  | 0, _ => none
  | n + 1, v =>
    match v.payload? m ["name", "fields", "base"] with
    | some [name, fields, base] => do
      return .structLit (← name.bind (ident n)) (← fields.bind (inits n))
        (← optional (expr n) base)
    | _ => none

def castExpr : Nat → Value → Option ExprKind
  | 0, _ => none
  | n + 1, v =>
    match v.payload? m ["expr", "ty"] with
    | some [inner, ty] => do
      return .cast (← inner.bind (expr n)) (← ty.bind (typeExpr m n))
    | _ => none

def whileExpr : Nat → Value → Option ExprKind
  | 0, _ => none
  | n + 1, v =>
    match v.payload? m ["cond", "body"] with
    | some [cond, body] => do
      return .whileLoop (← cond.bind (expr n)) (← body.bind (block n))
    | _ => none

def loopExpr : Nat → Value → Option ExprKind
  | 0, _ => none
  | n + 1, v =>
    match v.payload? m ["body"] with
    | some [body] => .loop <$> body.bind (block n)
    | _ => none

def forExpr : Nat → Value → Option ExprKind
  | 0, _ => none
  | n + 1, v =>
    match v.payload? m ["pattern", "iterable", "body"] with
    | some [pat, iterable, body] => do
      return .forLoop (← pat.bind (pattern m n)) (← iterable.bind (expr n))
        (← body.bind (block n))
    | _ => none

def rangeExpr : Nat → Value → Option ExprKind
  | 0, _ => none
  | n + 1, v =>
    match v.payload? m ["start", "end", "inclusive"] with
    | some [start, stop, inclusive] => do
      return .range (← optional (expr n) start) (← optional (expr n) stop)
        (← defaulted false Value.bool? inclusive)
    | _ => none

def exprs : Nat → Value → Option (List Expr)
  | n + 1, .arr elems => elems.mapM (expr n)
  | _, _ => none

def arm : Nat → Value → Option MatchArm
  | 0, _ => none
  | n + 1, v =>
    match v.fields? ["span", "pattern", "guard", "body"] with
    | some [place, pat, guard, body] => do
      return ⟨← place.bind (span n), ← pat.bind (pattern m n), ← optional (expr n) guard,
        ← body.bind (expr n)⟩
    | _ => none

def arms : Nat → Value → Option (List MatchArm)
  | n + 1, .arr elems => elems.mapM (arm n)
  | _, _ => none

def init : Nat → Value → Option FieldInit
  | 0, _ => none
  | n + 1, v =>
    match v.fields? ["span", "name", "value"] with
    | some [place, name, value] => do
      return ⟨← place.bind (span n), ← name.bind (ident n), ← value.bind (expr n)⟩
    | _ => none

def inits : Nat → Value → Option (List FieldInit)
  | n + 1, .arr elems => elems.mapM (init n)
  | _, _ => none

def block : Nat → Value → Option Block
  | 0, _ => none
  | n + 1, v =>
    match v.fields? ["span", "stmts", "tail"] with
    | some [place, body, tail] => do
      return ⟨← place.bind (span n), ← body.bind (stmts n), ← optional (expr n) tail⟩
    | _ => none

def stmt : Nat → Value → Option Stmt
  | 0, _ => none
  | n + 1, v =>
    match v.variant? with
    | some ("Let", some p) => letStmt n p
    | some ("Assign", some p) => assignStmt n p
    | some ("Expr", some p) => .expr <$> expr n p
    | some ("Return", some p) => valueStmt Stmt.ret n p
    | some ("Break", some p) => valueStmt Stmt.brk n p
    | some ("Continue", some p) => .cont <$> span n p
    | _ => none

def letStmt : Nat → Value → Option Stmt
  | 0, _ => none
  | n + 1, v =>
    match v.fields? ["span", "pattern", "ty", "value", "mutable"] with
    | some [place, pat, ty, value, mutable] => do
      return .letBind (← place.bind (span n)) (← pat.bind (pattern m n))
        (← optional (typeExpr m n) ty) (← optional (expr n) value)
        (← defaulted false Value.bool? mutable)
    | _ => none

def assignStmt : Nat → Value → Option Stmt
  | 0, _ => none
  | n + 1, v =>
    match v.fields? ["span", "target", "value"] with
    | some [place, target, value] => do
      return .assign (← place.bind (span n)) (← target.bind (expr n)) (← value.bind (expr n))
    | _ => none

def valueStmt (make : Span → Option Expr → Stmt) : Nat → Value → Option Stmt
  | 0, _ => none
  | n + 1, v =>
    match v.fields? ["span", "value"] with
    | some [place, value] => do
      return make (← place.bind (span n)) (← optional (expr n) value)
    | _ => none

def stmts : Nat → Value → Option (List Stmt)
  | n + 1, .arr elems => elems.mapM (stmt n)
  | _, _ => none

end

def generic : Nat → Value → Option GenericParam :=
  record ["span", "name", "bounds"] fun n fields =>
    match fields with
    | [place, name, bounds] => do
      return ⟨← place.bind (span n), ← name.bind (ident n), ← defaulted [] (idents n) bounds⟩
    | _ => none

def generics : Nat → Value → Option (List GenericParam) := Json.list generic

def contract : Nat → Value → Option Contract :=
  record ["span", "kind", "condition"] fun n fields =>
    match fields with
    | [place, kind, condition] => do
      return ⟨← place.bind (span n), ← kind.bind (unitVariant ContractKind.ofName? n),
        ← condition.bind (expr m n)⟩
    | _ => none

def function : Nat → Value → Option FunctionDef :=
  record ["span", "name", "generics", "params", "ret", "effects", "contracts", "body", "is_async"]
    fun n fields =>
      match fields with
      | [place, name, gs, params, ret, effs, contracts, body, isAsync] => do
        return {
          span := ← place.bind (span n)
          name := ← name.bind (ident n)
          generics := ← defaulted [] (generics n) gs
          params := ← params.bind (Json.list (param m) n)
          ret := ← optional (typeExpr m n) ret
          effects := ← defaulted [] (effects m n) effs
          contracts := ← defaulted [] (Json.list (contract m) n) contracts
          body := ← optional (block m n) body
          isAsync := ← defaulted false Value.bool? isAsync }
      | _ => none

def field : Nat → Value → Option FieldDef :=
  record ["span", "name", "ty"] fun n fields =>
    match fields with
    | [place, name, ty] => do
      return ⟨← place.bind (span n), ← name.bind (ident n), ← ty.bind (typeExpr m n)⟩
    | _ => none

def struct : Nat → Value → Option StructDef :=
  record ["span", "name", "generics", "fields"] fun n fields =>
    match fields with
    | [place, name, gs, fs] => do
      return ⟨← place.bind (span n), ← name.bind (ident n), ← defaulted [] (generics n) gs,
        ← fs.bind (Json.list (field m) n)⟩
    | _ => none

def variant : Nat → Value → Option VariantDef :=
  record ["span", "name", "fields"] fun n fields =>
    match fields with
    | [place, name, fs] => do
      return ⟨← place.bind (span n), ← name.bind (ident n), ← defaulted [] (types m n) fs⟩
    | _ => none

def enum : Nat → Value → Option EnumDef :=
  record ["span", "name", "generics", "variants"] fun n fields =>
    match fields with
    | [place, name, gs, variants] => do
      return ⟨← place.bind (span n), ← name.bind (ident n), ← defaulted [] (generics n) gs,
        ← variants.bind (Json.list (variant m) n)⟩
    | _ => none

def typeAlias : Nat → Value → Option TypeAlias :=
  record ["span", "name", "generics", "target"] fun n fields =>
    match fields with
    | [place, name, gs, target] => do
      return ⟨← place.bind (span n), ← name.bind (ident n), ← defaulted [] (generics n) gs,
        ← target.bind (typeExpr m n)⟩
    | _ => none

def const : Nat → Value → Option ConstDef :=
  record ["span", "name", "ty", "value"] fun n fields =>
    match fields with
    | [place, name, ty, value] => do
      return ⟨← place.bind (span n), ← name.bind (ident n), ← ty.bind (typeExpr m n),
        ← value.bind (expr m n)⟩
    | _ => none

def trait : Nat → Value → Option TraitDef :=
  record ["span", "name", "generics", "methods", "super_traits"] fun n fields =>
    match fields with
    | [place, name, gs, methods, supers] => do
      return ⟨← place.bind (span n), ← name.bind (ident n), ← defaulted [] (generics n) gs,
        ← methods.bind (Json.list (function m) n), ← defaulted [] (idents n) supers⟩
    | _ => none

def impl : Nat → Value → Option ImplBlock :=
  record ["span", "generics", "target", "trait_name", "methods"] fun n fields =>
    match fields with
    | [place, gs, target, traitName, methods] => do
      return ⟨← place.bind (span n), ← defaulted [] (generics n) gs,
        ← target.bind (typeExpr m n), ← optional (ident n) traitName,
        ← methods.bind (Json.list (function m) n)⟩
    | _ => none

def imports : Nat → Value → Option Import :=
  record ["span", "path", "alias", "items"] fun n fields =>
    match fields with
    | [place, path, rename, items] => do
      return ⟨← place.bind (span n), ← path.bind (idents n), ← optional (ident n) rename,
        ← defaulted [] (idents n) items⟩
    | _ => none

def item : Nat → Value → Option Item
  | 0, _ => none
  | n + 1, v =>
    match v.variant? with
    | some ("Function", some p) => .function <$> function m n p
    | some ("Struct", some p) => .struct <$> struct m n p
    | some ("Enum", some p) => .enum <$> enum m n p
    | some ("TypeAlias", some p) => .typeAlias <$> typeAlias m n p
    | some ("Const", some p) => .const <$> const m n p
    | some ("Trait", some p) => .trait <$> trait m n p
    | some ("Impl", some p) => .impl <$> impl m n p
    | some ("Import", some p) => .imports <$> imports n p
    | _ => none

def program : Nat → Value → Option Program :=
  record ["span", "items"] fun n fields =>
    match fields with
    | [place, items] => do
      return ⟨← defaulted {} (span n) place, ← items.bind (Json.list (item m) n)⟩
    | _ => none

/-- Read with a tree reader, whose bound is as deep as the tree. -/
def tree {α : Type} (read : Nat → Value → Option α) (v : Value) : Option α := read v.depth v

end Decode

/-- The program a JSON tree stands for. -/
def Program.ofJson? (v : Json.Value) : Option Program := Decode.tree (Decode.program .tree) v

/-- The program JSON text stands for. -/
def Program.parse? (text : String) : Option Program :=
  (Json.parse? text).bind (Decode.program .text Json.textDepth)

end Sema
