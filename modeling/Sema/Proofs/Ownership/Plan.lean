import Sema.Ownership.Check
import Sema.Proofs.Ownership.Tracking

/-!
# The paths of an expression

The plan of an expression says which paths it has: a conditional takes one branch, a match one
arm, the body of a loop runs once, of a `while` and a `for` once or not at all, jumps fall
through, and a lambda runs on a copy. A name that is taken by value is marked after its mention,
and an assignment clears the mark of its target after the value. What a `move` lambda marks is what
the check takes for its `captures`; these are the free names of its body and the names bound inside
it (`mem_captures`, `Expr.accounts`).
-/

namespace Sema

/-- One of several plans; nothing if there are none. -/
def Plan.oneOf : List Plan → Plan
  | [] => .skip
  | p :: r => r.foldl .choice p

mutual

/-- The paths of an expression whose value its context uses or takes. -/
def Expr.plan (mode : Mode) : Expr → Plan
  | ⟨_, span, kind⟩ => kind.plan mode span

def ExprKind.plan (mode : Mode) (span : Span) : ExprKind → Plan
  | .literal _ | .path _ => .skip
  | .ident name =>
    match mode with
    | .use => .use name span
    | .move => .seq (.use name span) (.mark [name] true)
  | .unary op operand =>
    -- The root of a borrowed place is borrowed, not used.
    match op.borrowKind?, operand.root? with
    | some _, some _ => operand.indexPlan
    | _, _ => operand.plan .use
  | .binary _ left right => .seq (left.plan .use) (right.plan .use)
  | .call callee args => .seq (callee.plan .use) (planAll args)
  | .methodCall receiver _ args => .seq (receiver.plan .use) (planAll args)
  | .field base _ => base.plan .use
  | .index base index => .seq (base.plan .use) (index.plan .use)
  | .ifThen cond thenBranch elseBranch =>
    .seq (cond.plan .use) (.choice (thenBranch.plan mode) (planOption mode elseBranch))
  | .matchOn scrutinee arms => .seq (scrutinee.plan .use) (.oneOf (planArms mode arms))
  | .block body => body.plan mode
  | .lambda params _ body isMove =>
    let names := params.map (·.name.node)
    -- The names that the body mentions, also where a binder of the body hides them.
    .seq (.aside (.scope (.seq (.declare names) (body.plan .move))))
      (if isMove then .mark (captures names body) true else .skip)
  | .tuple elems => planAll elems
  | .array elems => planAll elems
  | .structLit _ fields base => .seq (planInits fields) (planOption .move base)
  | .cast e _ => e.plan mode
  | .tryOp e => e.plan mode
  | .await e => e.plan mode
  | .whileLoop cond body => .choice .skip (.seq (cond.plan .use) (body.plan .use))
  | .loop body => body.plan .use
  | .forLoop pattern iterable body =>
    .seq (iterable.plan .move)
      (.choice .skip (.scope (.seq (.declare pattern.names) (body.plan .use))))
  | .range start stop _ => .seq (planOption .use start) (planOption .use stop)

def planOption (mode : Mode) : Option Expr → Plan
  | some e => e.plan mode
  | none => .skip

def planAll : List Expr → Plan
  | [] => .skip
  | e :: r => .seq (e.plan .move) (planAll r)

def planInits : List FieldInit → Plan
  | [] => .skip
  | ⟨_, _, value⟩ :: r => .seq (value.plan .move) (planInits r)

/-- A plan for each arm. -/
def planArms (mode : Mode) : List MatchArm → List Plan
  | [] => []
  | arm :: r => arm.plan mode :: planArms mode r

def MatchArm.plan (mode : Mode) : MatchArm → Plan
  | ⟨_, pattern, guard, body⟩ =>
    .scope (.seq (.declare pattern.names) (.seq (planOption .use guard) (body.plan mode)))

/-- The indices of a place that is borrowed. -/
def Expr.indexPlan : Expr → Plan
  | ⟨_, _, kind⟩ => kind.indexPlan

def ExprKind.indexPlan : ExprKind → Plan
  | .field base _ => base.indexPlan
  | .index base index => .seq base.indexPlan (index.plan .use)
  | _ => .skip

def Block.plan (mode : Mode) : Block → Plan
  | ⟨_, stmts, tail⟩ => .scope (.seq (planStmts stmts) (planOption mode tail))

def planStmts : List Stmt → Plan
  | [] => .skip
  | s :: r => .seq s.plan (planStmts r)

def Stmt.plan : Stmt → Plan
  | .letBind _ pattern _ value _ => .seq (planOption .move value) (.declare pattern.names)
  | .assign _ target value =>
    match target.asIdent with
    | some name => .seq (value.plan .move) (.mark [name] false)
    | none => .seq (value.plan .move) (target.plan .use)
  | .expr e => e.plan .use
  | .ret _ value => planOption .move value
  | .brk _ value => planOption .move value
  | .cont _ => .skip

end

namespace Plan

variable {p q : Plan}

theorem closed_seq (hp : p.closed = true) (hq : q.closed = true) :
    (Plan.seq p q).closed = true := by
  rw [closed, hp, hq]
  rfl

theorem closed_choice (hp : p.closed = true) (hq : q.closed = true) :
    (Plan.choice p q).closed = true := by
  rw [closed, hp, hq]
  rfl

theorem closed_foldl_choice (hp : p.closed = true) {l : List Plan}
    (hl : ∀ q ∈ l, q.closed = true) : (l.foldl Plan.choice p).closed = true := by
  induction l generalizing p with
  | nil => exact hp
  | cons q l ih =>
    exact ih (closed_choice hp (hl q List.mem_cons_self)) fun r hr =>
      hl r (List.mem_cons_of_mem q hr)

theorem closed_oneOf {l : List Plan} (hl : ∀ q ∈ l, q.closed = true) :
    (Plan.oneOf l).closed = true := by
  cases l with
  | nil => rfl
  | cons p l =>
    exact closed_foldl_choice (hl p List.mem_cons_self) fun q hq => hl q (List.mem_cons_of_mem p hq)

end Plan

open Plan (closed_seq closed_choice closed_oneOf)

theorem MatchArm.closed_plan (mode : Mode) : (arm : MatchArm) → (arm.plan mode).closed = true
  | ⟨_, _, _, _⟩ => rfl

theorem closed_planArms (mode : Mode) : (arms : List MatchArm) →
    ∀ p ∈ planArms mode arms, p.closed = true
  | [], p, hp => by
    rw [planArms] at hp
    cases hp
  | arm :: r, p, hp => by
    rw [planArms] at hp
    rcases List.mem_cons.mp hp with rfl | hp
    · exact arm.closed_plan mode
    · exact closed_planArms mode r p hp

theorem Block.closed_plan (mode : Mode) : (b : Block) → (b.plan mode).closed = true
  | ⟨_, _, _⟩ => rfl

theorem ExprKind.plan_unary (mode : Mode) (span : Span) (op : UnaryOp) (operand : Expr) :
    (ExprKind.unary op operand).plan mode span =
      match op.borrowKind?, operand.root? with
      | some _, some _ => operand.indexPlan
      | _, _ => operand.plan .use := rfl

-- Plans unfold by computation at each form, here and where they are followed.
mutual

/-- An expression binds names only in frames of its own. -/
theorem Expr.closed_plan (mode : Mode) : (e : Expr) → (e.plan mode).closed = true
  | ⟨_, span, kind⟩ => kind.closed_plan mode span

theorem ExprKind.closed_plan (mode : Mode) (span : Span) :
    (k : ExprKind) → (k.plan mode span).closed = true
  | .literal _ => rfl
  | .path _ => rfl
  | .ident _ => by cases mode <;> rfl
  | .unary op operand => by
    rw [ExprKind.plan_unary]
    split
    · exact operand.closed_indexPlan
    · exact operand.closed_plan .use
  | .binary _ left right => closed_seq (left.closed_plan .use) (right.closed_plan .use)
  | .call callee args => closed_seq (callee.closed_plan .use) (closed_planAll args)
  | .methodCall receiver _ args => closed_seq (receiver.closed_plan .use) (closed_planAll args)
  | .field base _ => base.closed_plan .use
  | .index base index => closed_seq (base.closed_plan .use) (index.closed_plan .use)
  | .ifThen cond thenBranch elseBranch =>
    closed_seq (cond.closed_plan .use)
      (closed_choice (thenBranch.closed_plan mode) (closed_planOption mode elseBranch))
  | .matchOn scrutinee arms =>
    closed_seq (scrutinee.closed_plan .use) (closed_oneOf (closed_planArms mode arms))
  | .block body => body.closed_plan mode
  | .lambda _ _ _ isMove => by cases isMove <;> rfl
  | .tuple elems => closed_planAll elems
  | .array elems => closed_planAll elems
  | .structLit _ fields base => closed_seq (closed_planInits fields) (closed_planOption .move base)
  | .cast e _ => e.closed_plan mode
  | .tryOp e => e.closed_plan mode
  | .await e => e.closed_plan mode
  | .whileLoop cond body =>
    closed_choice rfl (closed_seq (cond.closed_plan .use) (body.closed_plan .use))
  | .loop body => body.closed_plan .use
  | .forLoop _ iterable _ => closed_seq (iterable.closed_plan .move) rfl
  | .range start stop _ => closed_seq (closed_planOption .use start) (closed_planOption .use stop)

theorem closed_planOption (mode : Mode) : (o : Option Expr) → (planOption mode o).closed = true
  | some e => e.closed_plan mode
  | none => rfl

theorem closed_planAll : (l : List Expr) → (planAll l).closed = true
  | [] => rfl
  | e :: r => closed_seq (e.closed_plan .move) (closed_planAll r)

theorem closed_planInits : (l : List FieldInit) → (planInits l).closed = true
  | [] => rfl
  | ⟨_, _, value⟩ :: r => closed_seq (value.closed_plan .move) (closed_planInits r)

theorem Expr.closed_indexPlan : (e : Expr) → e.indexPlan.closed = true
  | ⟨_, _, kind⟩ => kind.closed_indexPlan

theorem ExprKind.closed_indexPlan (k : ExprKind) : k.indexPlan.closed = true := by
  cases k with
  | field base _ => exact base.closed_indexPlan
  | index base index => exact closed_seq base.closed_indexPlan (index.closed_plan .use)
  | _ => rfl

end

end Sema
