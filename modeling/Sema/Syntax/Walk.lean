import Sema.Syntax.Item

/-!
# Visiting expressions

`nodes` lists every expression of a tree, each before the expressions inside it, in source
order. `relabel` runs through the same nodes in the same order and gives each a new identity;
`Program.renumber` makes them `0, 1, 2, …`.
-/

namespace Sema

mutual

/-- The expression and every expression inside it. -/
def Expr.nodes : Expr → List Expr
  | ⟨id, span, kind⟩ => ⟨id, span, kind⟩ :: kind.nodes

def ExprKind.nodes : ExprKind → List Expr
  | .literal _ | .ident _ | .path _ => []
  | .binary _ left right => left.nodes ++ right.nodes
  | .unary _ operand => operand.nodes
  | .call callee args => callee.nodes ++ nodesAll args
  | .methodCall receiver _ args => receiver.nodes ++ nodesAll args
  | .field base _ => base.nodes
  | .index base index => base.nodes ++ index.nodes
  | .ifThen cond thenBranch elseBranch =>
    cond.nodes ++ thenBranch.nodes ++
      (match elseBranch with
        | some e => e.nodes
        | none => [])
  | .matchOn scrutinee arms => scrutinee.nodes ++ nodesArms arms
  | .block body => body.nodes
  | .lambda _ _ body _ => body.nodes
  | .tuple elems => nodesAll elems
  | .array elems => nodesAll elems
  | .structLit _ fields base =>
    nodesInits fields ++
      (match base with
        | some e => e.nodes
        | none => [])
  | .cast e _ => e.nodes
  | .tryOp e => e.nodes
  | .await e => e.nodes
  | .whileLoop cond body => cond.nodes ++ body.nodes
  | .loop body => body.nodes
  | .forLoop _ iterable body => iterable.nodes ++ body.nodes
  | .range start stop _ =>
    (match start with
      | some e => e.nodes
      | none => []) ++
    (match stop with
      | some e => e.nodes
      | none => [])

def nodesAll : List Expr → List Expr
  | [] => []
  | e :: r => e.nodes ++ nodesAll r

def nodesArms : List MatchArm → List Expr
  | [] => []
  | ⟨_, _, guard, body⟩ :: r =>
    (match guard with
      | some g => g.nodes
      | none => []) ++ body.nodes ++ nodesArms r

def nodesInits : List FieldInit → List Expr
  | [] => []
  | ⟨_, _, value⟩ :: r => value.nodes ++ nodesInits r

/-- Every expression of the block, statement by statement. -/
def Block.nodes : Block → List Expr
  | ⟨_, stmts, tail⟩ =>
    nodesStmts stmts ++
      (match tail with
        | some e => e.nodes
        | none => [])

def Stmt.nodes : Stmt → List Expr
  | .letBind _ _ _ value _ =>
    match value with
    | some e => e.nodes
    | none => []
  | .assign _ target value => target.nodes ++ value.nodes
  | .expr e => e.nodes
  | .ret _ value =>
    match value with
    | some e => e.nodes
    | none => []
  | .brk _ value =>
    match value with
    | some e => e.nodes
    | none => []
  | .cont _ => []

def nodesStmts : List Stmt → List Expr
  | [] => []
  | s :: r => s.nodes ++ nodesStmts r

end

def FunctionDef.nodes (d : FunctionDef) : List Expr :=
  d.contracts.flatMap (·.condition.nodes) ++
    (match d.body with
      | some b => b.nodes
      | none => [])

def Item.nodes : Item → List Expr
  | .function d => d.nodes
  | .const d => d.value.nodes
  | .trait d => d.methods.flatMap (·.nodes)
  | .impl d => d.methods.flatMap (·.nodes)
  | .struct _ | .enum _ | .typeAlias _ | .imports _ => []

/-- Every expression of the program. -/
def Program.nodes (p : Program) : List Expr := p.items.flatMap (·.nodes)

section Relabel

variable {m : Type → Type} [Monad m] (f : Expr → m ExprId)

mutual

/-- Give every node the identity that `f` chooses for it, a parent before its children. -/
def Expr.relabel : Expr → m Expr
  | ⟨id, span, kind⟩ => do
    let chosen ← f ⟨id, span, kind⟩
    return ⟨chosen, span, ← kind.relabel⟩

def ExprKind.relabel : ExprKind → m ExprKind
  | .literal lit => return .literal lit
  | .ident name => return .ident name
  | .path segments => return .path segments
  | .binary op left right => return .binary op (← left.relabel) (← right.relabel)
  | .unary op operand => return .unary op (← operand.relabel)
  | .call callee args => return .call (← callee.relabel) (← relabelAll args)
  | .methodCall receiver method args =>
    return .methodCall (← receiver.relabel) method (← relabelAll args)
  | .field base field => return .field (← base.relabel) field
  | .index base index => return .index (← base.relabel) (← index.relabel)
  | .ifThen cond thenBranch elseBranch => do
    let cond ← cond.relabel
    let thenBranch ← thenBranch.relabel
    match elseBranch with
    | some e => return .ifThen cond thenBranch (some (← e.relabel))
    | none => return .ifThen cond thenBranch none
  | .matchOn scrutinee arms => return .matchOn (← scrutinee.relabel) (← relabelArms arms)
  | .block body => return .block (← body.relabel)
  | .lambda params ret body isMove => return .lambda params ret (← body.relabel) isMove
  | .tuple elems => return .tuple (← relabelAll elems)
  | .array elems => return .array (← relabelAll elems)
  | .structLit name fields base => do
    let fields ← relabelInits fields
    match base with
    | some e => return .structLit name fields (some (← e.relabel))
    | none => return .structLit name fields none
  | .cast e ty => return .cast (← e.relabel) ty
  | .tryOp e => return .tryOp (← e.relabel)
  | .await e => return .await (← e.relabel)
  | .whileLoop cond body => return .whileLoop (← cond.relabel) (← body.relabel)
  | .loop body => return .loop (← body.relabel)
  | .forLoop pattern iterable body =>
    return .forLoop pattern (← iterable.relabel) (← body.relabel)
  | .range start stop inclusive => do
    let start ← match start with
      | some e => some <$> e.relabel
      | none => pure none
    let stop ← match stop with
      | some e => some <$> e.relabel
      | none => pure none
    return .range start stop inclusive

def relabelAll : List Expr → m (List Expr)
  | [] => return []
  | e :: r => return (← e.relabel) :: (← relabelAll r)

def relabelArms : List MatchArm → m (List MatchArm)
  | [] => return []
  | ⟨span, pattern, guard, body⟩ :: r => do
    let guard ← match guard with
      | some g => some <$> g.relabel
      | none => pure none
    return ⟨span, pattern, guard, ← body.relabel⟩ :: (← relabelArms r)

def relabelInits : List FieldInit → m (List FieldInit)
  | [] => return []
  | ⟨span, name, value⟩ :: r => return ⟨span, name, ← value.relabel⟩ :: (← relabelInits r)

def Block.relabel : Block → m Block
  | ⟨span, stmts, tail⟩ => do
    let stmts ← relabelStmts stmts
    match tail with
    | some e => return ⟨span, stmts, some (← e.relabel)⟩
    | none => return ⟨span, stmts, none⟩

def Stmt.relabel : Stmt → m Stmt
  | .letBind span pattern ty value mutable =>
    match value with
    | some e => return .letBind span pattern ty (some (← e.relabel)) mutable
    | none => return .letBind span pattern ty none mutable
  | .assign span target value => return .assign span (← target.relabel) (← value.relabel)
  | .expr e => return .expr (← e.relabel)
  | .ret span value =>
    match value with
    | some e => return .ret span (some (← e.relabel))
    | none => return .ret span none
  | .brk span value =>
    match value with
    | some e => return .brk span (some (← e.relabel))
    | none => return .brk span none
  | .cont span => return .cont span

def relabelStmts : List Stmt → m (List Stmt)
  | [] => return []
  | s :: r => return (← s.relabel) :: (← relabelStmts r)

end

def Contract.relabel (c : Contract) : m Contract :=
  return { c with condition := ← c.condition.relabel f }

def FunctionDef.relabel (d : FunctionDef) : m FunctionDef := do
  let contracts ← d.contracts.mapM (·.relabel f)
  match d.body with
  | some b => return { d with contracts, body := some (← b.relabel f) }
  | none => return { d with contracts, body := none }

def Item.relabel : Item → m Item
  | .function d => return .function (← d.relabel f)
  | .const d => return .const { d with value := ← d.value.relabel f }
  | .trait d => return .trait { d with methods := ← d.methods.mapM (·.relabel f) }
  | .impl d => return .impl { d with methods := ← d.methods.mapM (·.relabel f) }
  | item => return item

def Program.relabel (p : Program) : m Program :=
  return { p with items := ← p.items.mapM (·.relabel f) }

end Relabel

/-- Give every node a new identity in the place of its old one. -/
def Program.mapIds {m : Type → Type} [Monad m] (f : ExprId → m ExprId) (p : Program) :
    m Program :=
  p.relabel fun e => f e.id

/-- The next identity in sequence, whatever the old one was. -/
def nextId (_ : ExprId) : StateM ExprId ExprId := modifyGet fun n => (n, n + 1)

/-- Number the expressions in the order of `nodes`, from zero. -/
def Program.renumber (p : Program) : Program := ((p.mapIds nextId).run 0).1

/-- The program of some items, numbered. -/
def Program.ofItems (items : List Item) : Program := Program.renumber { items }

end Sema
