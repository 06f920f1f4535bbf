import Sema.Json.Basic
import Sema.Syntax.Item

/-!
# Programs as JSON

Every field is written, optional ones as `null`, save the file of a span, which is left out
when there is none.
-/

namespace Sema

open Json (Value)

def Position.toJson (p : Position) : Value :=
  .obj [("line", .nat p.line.toNat), ("column", .nat p.column.toNat), ("offset", .nat p.offset.toNat)]

def Span.toJson (s : Span) : Value :=
  let ends := [("start", s.start.toJson), ("end", s.stop.toJson)]
  .obj (match s.file with
    | some file => ("file", .str file) :: ends
    | none => ends)

def Spanned.toJson (x : Ident) : Value := .obj [("span", x.span.toJson), ("node", .str x.node)]

def identsToJson (l : List Ident) : Value := .arr (l.map Spanned.toJson)

def optStr (s : Option String) : Value := .ofOption (s.map .str)

def optIdent (x : Option Ident) : Value := .ofOption (x.map Spanned.toJson)

def Primitive.toJson (p : Primitive) : Value := .str p.name

def EffectKind.toJson (k : EffectKind) : Value := .str k.name

mutual

def TypeExpr.toJson : TypeExpr → Value
  | ⟨span, kind⟩ => .obj [("span", span.toJson), ("kind", kind.toJson)]

def TypeExprKind.toJson : TypeExprKind → Value
  | .primitive p => .tagged "Primitive" p.toJson
  | .path segments args =>
    .tagged "Path" (.obj [("segments", .arr (segments.map .str)), ("args", .arr (typesToJson args))])
  | .branded base brand => .tagged "Branded" (.obj [("base", base.toJson), ("brand", .str brand)])
  | .function params ret effects =>
    let ret := match ret with
      | some t => t.toJson
      | none => .null
    .tagged "Function" (.obj [("params", .arr (typesToJson params)), ("ret", ret),
      ("effects", .arr (effectsToJson effects))])
  | .reference inner mutable lifetime =>
    .tagged "Reference" (.obj [("inner", inner.toJson), ("mutable", .bool mutable),
      ("lifetime", optStr lifetime)])
  | .tuple elems => .tagged "Tuple" (.arr (typesToJson elems))
  | .array elem len =>
    .tagged "Array" (.obj [("elem", elem.toJson), ("len", .ofOption (len.map fun n => .nat n.toNat))])

def typesToJson : List TypeExpr → List Value
  | [] => []
  | t :: r => t.toJson :: typesToJson r

def EffectExpr.toJson : EffectExpr → Value
  | ⟨span, kind, arg⟩ =>
    let arg := match arg with
      | some t => t.toJson
      | none => .null
    .obj [("span", span.toJson), ("kind", kind.toJson), ("type_arg", arg)]

def effectsToJson : List EffectExpr → List Value
  | [] => []
  | e :: r => e.toJson :: effectsToJson r

end

def optType (t : Option TypeExpr) : Value := .ofOption (t.map TypeExpr.toJson)

/-- A literal that is not finite has no written form but `null`. -/
def LiteralKind.toJson : LiteralKind → Value
  | .int n => .tagged "Int" (.nat n.toNat)
  | .float x => .tagged "Float" (if x.isFinite then .float x else .null)
  | .str s => .tagged "Str" (.str s)
  | .bool b => .tagged "Bool" (.bool b)
  | .char c => .tagged "Char" (.str (String.singleton c))
  | .unit => .str "Unit"

def Literal.toJson (l : Literal) : Value :=
  .obj [("kind", l.kind.toJson), ("suffix", optStr l.suffix)]

def optLiteral (l : Option Literal) : Value := .ofOption (l.map Literal.toJson)

mutual

def Pattern.toJson : Pattern → Value
  | .wildcard span => .tagged "Wildcard" (.obj [("span", span.toJson)])
  | .ident span name mutable byRef =>
    .tagged "Ident" (.obj [("span", span.toJson), ("name", .str name), ("mutable", .bool mutable),
      ("by_ref", .bool byRef)])
  | .literal span value =>
    .tagged "Literal" (.obj [("span", span.toJson), ("value", value.toJson)])
  | .tuple span elems =>
    .tagged "Tuple" (.obj [("span", span.toJson), ("elems", .arr (patternsToJson elems))])
  | .struct span name fields rest =>
    .tagged "Struct" (.obj [("span", span.toJson), ("name", name.toJson),
      ("fields", .arr (fieldPatternsToJson fields)), ("rest", .bool rest)])
  | .enum span path fields =>
    .tagged "Enum" (.obj [("span", span.toJson), ("path", identsToJson path),
      ("fields", .arr (patternsToJson fields))])
  | .or span alternatives =>
    .tagged "Or" (.obj [("span", span.toJson), ("alternatives", .arr (patternsToJson alternatives))])
  | .range span start stop inclusive =>
    .tagged "Range" (.obj [("span", span.toJson), ("start", optLiteral start),
      ("end", optLiteral stop), ("inclusive", .bool inclusive)])

def patternsToJson : List Pattern → List Value
  | [] => []
  | p :: r => p.toJson :: patternsToJson r

def fieldPatternsToJson : List FieldPattern → List Value
  | [] => []
  | ⟨span, name, pattern⟩ :: r =>
    let pattern := match pattern with
      | some p => p.toJson
      | none => .null
    .obj [("span", span.toJson), ("name", name.toJson), ("pattern", pattern)] ::
      fieldPatternsToJson r

end

def Param.toJson (p : Param) : Value :=
  .obj [("span", p.span.toJson), ("name", p.name.toJson), ("ty", optType p.ty),
    ("mutable", .bool p.mutable)]

mutual

def Expr.toJson : Expr → Value
  | ⟨id, span, kind⟩ =>
    .obj [("id", .nat id.toNat), ("span", span.toJson), ("kind", kind.toJson)]

def ExprKind.toJson : ExprKind → Value
  | .literal lit => .tagged "Literal" lit.toJson
  | .ident name => .tagged "Ident" (.str name)
  | .path segments => .tagged "Path" (identsToJson segments)
  | .binary op left right =>
    .tagged "Binary" (.obj [("op", .str op.name), ("left", left.toJson), ("right", right.toJson)])
  | .unary op operand =>
    .tagged "Unary" (.obj [("op", .str op.name), ("operand", operand.toJson)])
  | .call callee args =>
    .tagged "Call" (.obj [("callee", callee.toJson), ("args", .arr (exprsToJson args))])
  | .methodCall receiver method args =>
    .tagged "MethodCall" (.obj [("receiver", receiver.toJson), ("method", method.toJson),
      ("args", .arr (exprsToJson args))])
  | .field base field =>
    .tagged "Field" (.obj [("base", base.toJson), ("field", field.toJson)])
  | .index base index =>
    .tagged "Index" (.obj [("base", base.toJson), ("index", index.toJson)])
  | .ifThen cond thenBranch elseBranch =>
    let elseBranch := match elseBranch with
      | some e => e.toJson
      | none => .null
    .tagged "If" (.obj [("cond", cond.toJson), ("then_branch", thenBranch.toJson),
      ("else_branch", elseBranch)])
  | .matchOn scrutinee arms =>
    .tagged "Match" (.obj [("scrutinee", scrutinee.toJson), ("arms", .arr (armsToJson arms))])
  | .block body => .tagged "Block" body.toJson
  | .lambda params ret body isMove =>
    .tagged "Lambda" (.obj [("params", .arr (params.map Param.toJson)), ("ret", optType ret),
      ("body", body.toJson), ("is_move", .bool isMove)])
  | .tuple elems => .tagged "Tuple" (.arr (exprsToJson elems))
  | .array elems => .tagged "Array" (.arr (exprsToJson elems))
  | .structLit name fields base =>
    let base := match base with
      | some e => e.toJson
      | none => .null
    .tagged "Struct" (.obj [("name", name.toJson), ("fields", .arr (initsToJson fields)),
      ("base", base)])
  | .cast e ty => .tagged "Cast" (.obj [("expr", e.toJson), ("ty", ty.toJson)])
  | .tryOp e => .tagged "Try" e.toJson
  | .await e => .tagged "Await" e.toJson
  | .whileLoop cond body => .tagged "While" (.obj [("cond", cond.toJson), ("body", body.toJson)])
  | .loop body => .tagged "Loop" (.obj [("body", body.toJson)])
  | .forLoop pattern iterable body =>
    .tagged "For" (.obj [("pattern", pattern.toJson), ("iterable", iterable.toJson),
      ("body", body.toJson)])
  | .range start stop inclusive =>
    let start := match start with
      | some e => e.toJson
      | none => .null
    let stop := match stop with
      | some e => e.toJson
      | none => .null
    .tagged "Range" (.obj [("start", start), ("end", stop), ("inclusive", .bool inclusive)])

def exprsToJson : List Expr → List Value
  | [] => []
  | e :: r => e.toJson :: exprsToJson r

def armsToJson : List MatchArm → List Value
  | [] => []
  | ⟨span, pattern, guard, body⟩ :: r =>
    let guard := match guard with
      | some g => g.toJson
      | none => .null
    .obj [("span", span.toJson), ("pattern", pattern.toJson), ("guard", guard),
      ("body", body.toJson)] :: armsToJson r

def initsToJson : List FieldInit → List Value
  | [] => []
  | ⟨span, name, value⟩ :: r =>
    .obj [("span", span.toJson), ("name", name.toJson), ("value", value.toJson)] ::
      initsToJson r

def Block.toJson : Block → Value
  | ⟨span, stmts, tail⟩ =>
    let tail := match tail with
      | some e => e.toJson
      | none => .null
    .obj [("span", span.toJson), ("stmts", .arr (stmtsToJson stmts)), ("tail", tail)]

def Stmt.toJson : Stmt → Value
  | .letBind span pattern ty value mutable =>
    let value := match value with
      | some e => e.toJson
      | none => .null
    .tagged "Let" (.obj [("span", span.toJson), ("pattern", pattern.toJson), ("ty", optType ty),
      ("value", value), ("mutable", .bool mutable)])
  | .assign span target value =>
    .tagged "Assign" (.obj [("span", span.toJson), ("target", target.toJson),
      ("value", value.toJson)])
  | .expr e => .tagged "Expr" e.toJson
  | .ret span value =>
    let value := match value with
      | some e => e.toJson
      | none => .null
    .tagged "Return" (.obj [("span", span.toJson), ("value", value)])
  | .brk span value =>
    let value := match value with
      | some e => e.toJson
      | none => .null
    .tagged "Break" (.obj [("span", span.toJson), ("value", value)])
  | .cont span => .tagged "Continue" span.toJson

def stmtsToJson : List Stmt → List Value
  | [] => []
  | s :: r => s.toJson :: stmtsToJson r

end

def GenericParam.toJson (g : GenericParam) : Value :=
  .obj [("span", g.span.toJson), ("name", g.name.toJson), ("bounds", identsToJson g.bounds)]

def genericsToJson (l : List GenericParam) : Value := .arr (l.map GenericParam.toJson)

def Contract.toJson (c : Contract) : Value :=
  .obj [("span", c.span.toJson), ("kind", .str c.kind.name), ("condition", c.condition.toJson)]

def FunctionDef.toJson (d : FunctionDef) : Value :=
  .obj [("span", d.span.toJson), ("name", d.name.toJson), ("generics", genericsToJson d.generics),
    ("params", .arr (d.params.map Param.toJson)), ("ret", optType d.ret),
    ("effects", .arr (effectsToJson d.effects)),
    ("contracts", .arr (d.contracts.map Contract.toJson)),
    ("body", .ofOption (d.body.map Block.toJson)), ("is_async", .bool d.isAsync)]

def functionsToJson (l : List FunctionDef) : Value := .arr (l.map FunctionDef.toJson)

def FieldDef.toJson (d : FieldDef) : Value :=
  .obj [("span", d.span.toJson), ("name", d.name.toJson), ("ty", d.ty.toJson)]

def VariantDef.toJson (d : VariantDef) : Value :=
  .obj [("span", d.span.toJson), ("name", d.name.toJson), ("fields", .arr (typesToJson d.fields))]

def Item.toJson : Item → Value
  | .function d => .tagged "Function" d.toJson
  | .struct d =>
    .tagged "Struct" (.obj [("span", d.span.toJson), ("name", d.name.toJson),
      ("generics", genericsToJson d.generics), ("fields", .arr (d.fields.map FieldDef.toJson))])
  | .enum d =>
    .tagged "Enum" (.obj [("span", d.span.toJson), ("name", d.name.toJson),
      ("generics", genericsToJson d.generics),
      ("variants", .arr (d.variants.map VariantDef.toJson))])
  | .typeAlias d =>
    .tagged "TypeAlias" (.obj [("span", d.span.toJson), ("name", d.name.toJson),
      ("generics", genericsToJson d.generics), ("target", d.target.toJson)])
  | .const d =>
    .tagged "Const" (.obj [("span", d.span.toJson), ("name", d.name.toJson), ("ty", d.ty.toJson),
      ("value", d.value.toJson)])
  | .trait d =>
    .tagged "Trait" (.obj [("span", d.span.toJson), ("name", d.name.toJson),
      ("generics", genericsToJson d.generics), ("methods", functionsToJson d.methods),
      ("super_traits", identsToJson d.superTraits)])
  | .impl d =>
    .tagged "Impl" (.obj [("span", d.span.toJson), ("generics", genericsToJson d.generics),
      ("target", d.target.toJson), ("trait_name", optIdent d.traitName),
      ("methods", functionsToJson d.methods)])
  | .imports d =>
    .tagged "Import" (.obj [("span", d.span.toJson), ("path", identsToJson d.path),
      ("alias", optIdent d.rename), ("items", identsToJson d.items)])

def Program.toJson (p : Program) : Value :=
  .obj [("span", p.span.toJson), ("items", .arr (p.items.map Item.toJson))]

end Sema
