import Sema.Ownership.Flow
import Sema.Syntax.Walk

/-!
# Moves and borrows

A bare name that a call, a binding, an assignment or a return takes by value is moved away;
`&` and `&mut` borrow instead. The check goes by names alone. Branches are checked from the
same state and joined after. A borrow in a value that is stored is held by the name the value
is stored under; every other borrow ends with its statement.
-/

namespace Sema

inductive OwnershipFault where
  | useMoved (name : String) (movedAt : Option Span)
  | borrowMoved (name : String) (movedAt : Option Span)
  | sharedWhileMutable (name : String)
  | mutableWhileBorrowed (name : String)
  deriving DecidableEq

namespace OwnershipFault

def message : OwnershipFault → String
  | useMoved name _ => s!"use of moved value: `{name}`"
  | borrowMoved name _ => s!"cannot borrow moved value: `{name}`"
  | sharedWhileMutable name =>
    s!"cannot borrow `{name}` as immutable, already borrowed as mutable"
  | mutableWhileBorrowed name => s!"cannot borrow `{name}` as mutable, already borrowed"

def movedAt : OwnershipFault → Option Span
  | useMoved _ span | borrowMoved _ span => span
  | _ => none

def help : OwnershipFault → Option String
  | useMoved name _ => some s!"borrow `{name}` with `&{name}` instead of moving it"
  | _ => none

end OwnershipFault

/-- An error as it is reported. -/
structure OwnershipError where
  message : String
  span : Span
  movedAt : Option Span := none
  help : Option String := none
  deriving DecidableEq, Inhabited

def OwnershipError.ofFault (f : Spanned OwnershipFault) : OwnershipError :=
  ⟨f.node.message, f.span, f.node.movedAt, f.node.help⟩

/-- What the context of an expression does with its value. -/
inductive Mode where
  | use | move
  deriving DecidableEq, Inhabited

/-- The state along the path, and the faults found on the way. -/
structure Walk where
  flow : Flow := .initial
  faults : Array (Spanned OwnershipFault) := #[]

namespace Walk

def onFlow (w : Walk) (f : Flow → Flow) : Walk := { w with flow := f w.flow }

def report (w : Walk) (fault : OwnershipFault) (span : Span) : Walk :=
  { w with faults := w.faults.push ⟨span, fault⟩ }

/-- Mention a name. -/
def use (w : Walk) (name : String) (span : Span) : Walk :=
  match w.flow.lookup name with
  | some b => if b.moved then w.report (.useMoved name b.movedAt) span else w
  | none => w

/-- A use changes nothing. -/
@[simp] theorem flow_use (w : Walk) (name : String) (span : Span) :
    (w.use name span).flow = w.flow := by
  unfold use
  split
  · split <;> rfl
  · rfl

end Walk

def UnaryOp.borrowKind? : UnaryOp → Option BorrowKind
  | .ref => some .shared
  | .refMut => some .mutable
  | _ => none

/-- What stands in the way of a new borrow. -/
def Binding.conflict? (b : Binding) (name : String) (kind : BorrowKind) :
    Option OwnershipFault :=
  match b.moved, kind with
  | true, _ => some (.borrowMoved name b.movedAt)
  | false, .shared => if b.hasMutable then some (.sharedWhileMutable name) else none
  | false, .mutable => if b.borrows.isEmpty then none else some (.mutableWhileBorrowed name)

/-- Borrow a binding, unless something stands in the way. -/
def Walk.borrow (w : Walk) (name : String) (r : Borrow) : Walk :=
  match w.flow.lookup name with
  | none => w
  | some b =>
    match b.conflict? name r.kind with
    | some fault => w.report fault r.span
    | none => w.onFlow (·.addBorrow name r)

mutual

/-- The binding at the root of a chain of fields and indices. -/
def Expr.root? : Expr → Option String
  | ⟨_, _, kind⟩ => kind.root?

def ExprKind.root? : ExprKind → Option String
  | .ident name => some name
  | .field base _ => base.root?
  | .index base _ => base.root?
  | _ => none

end

mutual

/-- Can the value carry a borrow that is taken inside it? -/
def Expr.holdsBorrow : Expr → Bool
  | ⟨_, _, kind⟩ => kind.holdsBorrow

def ExprKind.holdsBorrow : ExprKind → Bool
  | .unary .ref _ | .unary .refMut _ => true
  | .tuple elems => anyHoldsBorrow elems
  | .array elems => anyHoldsBorrow elems
  | .call _ args => anyHoldsBorrow args
  | .methodCall _ _ args => anyHoldsBorrow args
  | .structLit _ fields base =>
    anyInitHoldsBorrow fields ||
      (match base with
        | some e => e.holdsBorrow
        | none => false)
  | .cast e _ => e.holdsBorrow
  | .tryOp e => e.holdsBorrow
  | .await e => e.holdsBorrow
  | .block body => body.holdsBorrow
  | _ => false

def anyHoldsBorrow : List Expr → Bool
  | [] => false
  | e :: r => e.holdsBorrow || anyHoldsBorrow r

def anyInitHoldsBorrow : List FieldInit → Bool
  | [] => false
  | ⟨_, _, value⟩ :: r => value.holdsBorrow || anyInitHoldsBorrow r

def Block.holdsBorrow : Block → Bool
  | ⟨_, _, tail⟩ =>
    match tail with
    | some e => e.holdsBorrow
    | none => false

end

/-- The outer names that a lambda mentions, other than its parameters. -/
def captures (params : List String) (body : Expr) : List String :=
  (body.nodes.filterMap Expr.asIdent).filter fun name => !params.contains name

/-- Move every captured binding away. -/
def Flow.moveAll (s : Flow) (names : List String) (span : Span) : Flow :=
  names.foldl (fun s name => s.move name span) s

/-- The holder of the borrows in a value that a pattern binds: its first name. -/
def letHolder (s : Flow) (pattern : Pattern) (value : Expr) : Option Holder :=
  if value.holdsBorrow then pattern.names.head?.map fun name => ⟨name, s.innermost⟩ else none

/-- The holder of the borrows in a value assigned to `target`. -/
def assignHolder (s : Flow) (target : String) (value : Expr) : Option Holder :=
  if value.holdsBorrow then (s.depthOf target).map fun depth => ⟨target, depth⟩ else none

mutual

/-- Check an expression whose borrows `holder` will hold. -/
def ownExpr (holder : Option Holder) (mode : Mode) : Expr → Walk → Walk
  | ⟨_, span, kind⟩, w => ownKind holder mode span kind w

def ownKind (holder : Option Holder) (mode : Mode) (span : Span) : ExprKind → Walk → Walk
  | .literal _, w | .path _, w => w
  | .ident name, w =>
    let w := w.use name span
    if mode = .move then w.onFlow (·.move name span) else w
  | .unary op operand, w =>
    -- A borrow of a place borrows its root and evaluates its indices.
    match op.borrowKind?, operand.root? with
    | some kind, some name => ownIndices holder operand (w.borrow name ⟨kind, span, holder⟩)
    | _, _ => ownExpr holder .use operand w
  | .binary _ left right, w => ownExpr holder .use right (ownExpr holder .use left w)
  | .call callee args, w => ownAll holder args (ownExpr holder .use callee w)
  | .methodCall receiver _ args, w => ownAll holder args (ownExpr holder .use receiver w)
  | .field base _, w => ownExpr holder .use base w
  | .index base index, w => ownExpr holder .use index (ownExpr holder .use base w)
  | .ifThen cond thenBranch elseBranch, w =>
    let before := ownExpr holder .use cond w
    let yes := ownBlock holder mode thenBranch before
    let no :=
      match elseBranch with
      | some other => ownExpr holder mode other { yes with flow := before.flow }
      | none => { yes with flow := before.flow }
    { no with flow := yes.flow.join no.flow }
  | .matchOn scrutinee arms, w =>
    let before := ownExpr holder .use scrutinee w
    let (exits, after) := ownArms holder mode before.flow arms before
    { after with flow := (Flow.joinAll exits).getD before.flow.clearBorrows }
  | .block body, w => ownBlock holder mode body w
  | .lambda params _ body isMove, w =>
    let names := params.map (·.name.node)
    let inside := ownExpr none .move body (w.onFlow fun s => s.push.declareAll names)
    let flow := if isMove then w.flow.moveAll (captures names body) span else w.flow
    { inside with flow }
  | .tuple elems, w => ownAll holder elems w
  | .array elems, w => ownAll holder elems w
  | .structLit _ fields base, w =>
    let w := ownInits holder fields w
    match base with
    | some e => ownExpr holder .move e w
    | none => w
  | .cast e _, w => ownExpr holder mode e w
  | .tryOp e, w => ownExpr holder mode e w
  | .await e, w => ownExpr holder mode e w
  | .whileLoop cond body, w =>
    let after := ownBlock holder .use body (ownExpr holder .use cond w)
    { after with flow := w.flow.join after.flow }
  | .loop body, w => (ownBlock holder .use body w).onFlow (·.clearBorrows)
  | .forLoop pattern iterable body, w =>
    let before := (ownExpr holder .move iterable w).onFlow (·.releaseTemporaries)
    let inside := before.onFlow fun s => s.push.declareAll pattern.names
    let after := (ownBlock holder .use body inside).onFlow (·.pop)
    { after with flow := before.flow.join after.flow }
  | .range start stop _, w =>
    let w :=
      match start with
      | some e => ownExpr holder .use e w
      | none => w
    match stop with
    | some e => ownExpr holder .use e w
    | none => w

/-- Values that are moved, in order. -/
def ownAll (holder : Option Holder) : List Expr → Walk → Walk
  | [], w => w
  | e :: r, w => ownAll holder r (ownExpr holder .move e w)

def ownInits (holder : Option Holder) : List FieldInit → Walk → Walk
  | [], w => w
  | ⟨_, _, value⟩ :: r, w => ownInits holder r (ownExpr holder .move value w)

/-- The arms of a match, each from the state `before`; gives the states at their ends. -/
def ownArms (holder : Option Holder) (mode : Mode) (before : Flow) :
    List MatchArm → Walk → List Flow × Walk
  | [], w => ([], w)
  | ⟨_, pattern, guard, body⟩ :: r, w =>
    let w := { w with flow := before.push.declareAll pattern.names }
    let w :=
      match guard with
      | some g => ownExpr holder .use g w
      | none => w
    let w := (ownExpr holder mode body w).onFlow (·.pop)
    let (exits, after) := ownArms holder mode before r w
    (w.flow :: exits, after)

/-- The indices in a place, from the root outwards. -/
def ownIndices (holder : Option Holder) : Expr → Walk → Walk
  | ⟨_, _, kind⟩, w => ownIndicesKind holder kind w

def ownIndicesKind (holder : Option Holder) : ExprKind → Walk → Walk
  | .field base _, w => ownIndices holder base w
  | .index base index, w => ownExpr holder .use index (ownIndices holder base w)
  | _, w => w

/-- Only the value of a block can be held. -/
def ownBlock (holder : Option Holder) (mode : Mode) : Block → Walk → Walk
  | ⟨_, stmts, tail⟩, w =>
    let w := ownStmts stmts (w.onFlow (·.push))
    let w :=
      match tail with
      | some e => ownExpr holder mode e w
      | none => w
    w.onFlow (·.pop)

def ownStmts : List Stmt → Walk → Walk
  | [], w => w
  | s :: r, w => ownStmts r ((ownStmt s w).onFlow (·.releaseTemporaries))

def ownStmt : Stmt → Walk → Walk
  | .letBind _ pattern _ value _, w =>
    let w :=
      match value with
      | some e => ownExpr (letHolder w.flow pattern e) .move e w
      | none => w
    w.onFlow (·.declareAll pattern.names)
  | .assign _ target value, w =>
    match target.asIdent with
    | some name =>
      (ownExpr (assignHolder w.flow name value) .move value w).onFlow (·.renew name)
    | none => ownExpr none .use target (ownExpr none .move value w)
  | .expr e, w => ownExpr none .use e w
  | .ret _ value, w =>
    match value with
    | some e => ownExpr none .move e w
    | none => w
  | .brk _ value, w =>
    match value with
    | some e => ownExpr none .move e w
    | none => w
  | .cont _, w => w

end

/-- The contracts of a function and then its body, whose value goes to the caller. -/
def ownFunction (d : FunctionDef) : Array (Spanned OwnershipFault) :=
  match d.body with
  | none => #[]
  | some body =>
    let start : Walk := { flow := Flow.initial.declareAll (d.params.map (·.name.node)) }
    let w := d.contracts.foldl
      (fun w c => (ownExpr none .use c.condition w).onFlow (·.releaseTemporaries)) start
    (ownBlock none .move body w).faults

/-- The functions of an item, each with the name it is known by. -/
def Item.namedFunctions : Item → List (String × FunctionDef)
  | .function d => [(d.name.node, d)]
  | .impl b => b.methods.map fun m => (b.target.text ++ "::" ++ m.name.node, m)
  | .trait d => d.methods.map fun m => (d.name.node ++ "::" ++ m.name.node, m)
  | _ => []

/-- The faults of an item; no item depends on another. -/
def Item.ownershipFaults : Item → List (Spanned OwnershipFault)
  | .const d => (ownExpr none .use d.value {}).faults.toList
  | item => item.namedFunctions.flatMap fun f => (ownFunction f.2).toList

def Program.ownershipFaults (p : Program) : List (Spanned OwnershipFault) :=
  p.items.flatMap Item.ownershipFaults

end Sema
