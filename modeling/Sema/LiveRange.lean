import Sema.Syntax.Walk

/-!
# Live ranges

The range of a binding goes from its definition to its last mention. A mention belongs to the
latest definition of that name before it, by position in the text.
-/

namespace Sema

structure LiveRange where
  name : String
  defined : Span
  /-- The definition itself, when nothing mentions the binding. -/
  lastUse : Span
  deriving DecidableEq, Inhabited

namespace LiveRange

def start (r : LiveRange) : Position := r.defined.start

/-- The range ends with the last use, and not before the definition does. -/
def stop (r : LiveRange) : Position :=
  if r.lastUse.precedes r.defined then r.defined.stop else r.lastUse.stop

def isUsed (r : LiveRange) : Bool := r.lastUse != r.defined

/-- Do the ranges have a position in common? -/
def overlaps (r s : LiveRange) : Bool :=
  r.start.atOrBefore s.stop && s.start.atOrBefore r.stop

def contains (r : LiveRange) (span : Span) : Bool :=
  r.start.atOrBefore span.start && span.stop.atOrBefore r.stop

/-- The range of a binding that is not mentioned yet. -/
def ofDefinition (d : String × Span) : LiveRange := ⟨d.1, d.2, d.2⟩

def extend (r : LiveRange) (span : Span) : LiveRange :=
  if r.lastUse.precedes span then { r with lastUse := span } else r

/-- Attribute a mention to the first of the ranges, listed latest first, that it can belong
to. -/
def mention (ranges : List LiveRange) (m : String × Span) : List LiveRange :=
  match ranges with
  | [] => []
  | r :: rest =>
    if r.name = m.1 && r.defined.precedes m.2 then r.extend m.2 :: rest
    else r :: mention rest m

end LiveRange

def Stmt.bindings : Stmt → List (String × Span)
  | .letBind _ pattern _ _ _ => pattern.bindings
  | _ => []

/-- The names that the statements of a block bind, not those in nested blocks. -/
def Block.bindings (b : Block) : List (String × Span) := b.stmts.flatMap Stmt.bindings

def Param.binding (p : Param) : String × Span := (p.name.node, p.name.span)

/-- The names that an expression itself binds. -/
def Expr.bindings (e : Expr) : List (String × Span) :=
  match e.kind with
  | .block body | .loop body | .whileLoop _ body => body.bindings
  | .ifThen _ body _ => body.bindings
  | .forLoop pattern _ body => pattern.bindings ++ body.bindings
  | .matchOn _ arms => arms.flatMap (·.pattern.bindings)
  | .lambda params _ _ _ => params.map Param.binding
  | _ => []

/-- The identifier that an expression is, with its place. -/
def Expr.mention? (e : Expr) : Option (String × Span) := e.asIdent.map fun name => (name, e.span)

/-- The ranges of the parameters and bindings of a function, by position of definition. -/
def FunctionDef.liveRanges (d : FunctionDef) : List LiveRange :=
  let params := d.params.map Param.binding
  match d.body with
  | none => params.map .ofDefinition
  | some body =>
    let definitions := params ++ body.bindings ++ body.nodes.flatMap Expr.bindings
    let sorted := (definitions.map LiveRange.ofDefinition).mergeSort
      fun r s => r.start.atOrBefore s.start
    ((body.nodes.filterMap Expr.mention?).foldl LiveRange.mention sorted.reverse).reverse

end Sema
