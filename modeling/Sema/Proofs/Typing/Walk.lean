import Mathlib.Logic.Relation
import Sema.Proofs.Typing.Accepted
import Sema.Proofs.Typing.Passes

/-!
# The walk over the bodies

A `Task` is one recursive call of the checker, with its context. `Task.calls` lists the tasks
that a task runs directly, each with the session it is started in, and `Reaches` closes this
under repetition; so a reachable pair says which expression is inferred, in which context and
when. What a task leaves behind is never lost on the way back to the tasks around it. And a set
of variables that a task stays in is one that the tasks inside start in, and that the tasks
around stay in once it has been left there.
-/

namespace Sema

/-- One recursive call of the checker. -/
inductive Task where
  | expr (cx : Context) (e : Expr)
  | exprs (cx : Context) (l : List Expr)
  | elems (cx : Context) (elem : Ty) (origin : Origin) (l : List Expr)
  | values (cx : Context) (l : List FieldInit)
  | inits (cx : Context) (d : StructDef) (struct : String) (seen : List String)
      (l : List FieldInit)
  | arms (cx : Context) (t result : Ty) (l : List MatchArm)
  | block (cx : Context) (b : Block)
  | stmts (cx : Context) (l : List Stmt)
  | stmt (cx : Context) (s : Stmt)
  | contracts (cx : Context) (ret : Ty) (l : List Contract)
  | function (cx : Context) (i : Interface) (d : FunctionDef) (name : String)
  | methods (cx : Context) (i : Interface) (typeName : String) (l : List FunctionDef)
  | items (cx : Context) (i : Interface) (targets : List ImplTarget) (l : List Item)

namespace Task

/-- The session that the task leaves. -/
def after : Task → Session → Session
  | expr cx e, s => Sema.after (inferExpr cx e) s
  | exprs cx l, s => Sema.after (inferAll cx l) s
  | elems cx elem origin l, s => Sema.after (inferElems cx elem origin l) s
  | values cx l, s => Sema.after (inferFields cx l) s
  | inits cx d struct seen l, s => Sema.after (checkInits cx d struct seen l) s
  | arms cx t result l, s => Sema.after (checkArms cx t result l) s
  | block cx b, s => Sema.after (inferBlock cx b) s
  | stmts cx l, s => Sema.after (checkStmts cx l) s
  | stmt cx st, s => Sema.after (checkStmt cx st) s
  | contracts cx ret l, s => Sema.after (l.forM (checkContract cx ret)) s
  | function cx i d name, s => Sema.after (checkFunction cx i d name) s
  | methods cx i typeName l, s =>
    Sema.after (l.forM fun m => checkFunction cx i m (typeName ++ "::" ++ m.name.node)) s
  | items cx i targets l, s => Sema.after (checkBodies cx i targets l) s

/-- What the task is given is over the set. -/
def Over (U : Nat → Prop) : Task → Prop
  | expr cx _ | exprs cx _ | values cx _ | inits cx _ _ _ _ | block cx _ | stmts cx _
  | stmt cx _ => cx.Over U
  | elems cx elem _ _ => cx.Over U ∧ elem.Over U
  | arms cx t result _ => cx.Over U ∧ t.Over U ∧ result.Over U
  | contracts cx ret _ => cx.Over U ∧ ret.Over U
  | function cx i _ _ | methods cx i _ _ => cx.Over U ∧ i.Over U
  | items cx i targets _ => (cx.Over U ∧ i.Over U) ∧ ∀ target ∈ targets, target.selfTy.Over U

/-- What the task gives, started in `s`, is over the set. -/
def Gives (U : Nat → Prop) (s : Session) : Task → Prop
  | expr cx e => ((inferExpr cx e).run s).1.Over U
  | exprs cx l => ∀ t ∈ ((inferAll cx l).run s).1, t.Over U
  | block cx b => ((inferBlock cx b).run s).1.Over U
  | stmts cx l => ((checkStmts cx l).run s).1.Over U
  | stmt cx st => ((checkStmt cx st).run s).1.Over U
  | _ => True

end Task

/-- The call for an expression that may be absent. -/
def optionCall (cx : Context) (s : Session) (e : Option Expr) : List (Task × Session) :=
  (e.map fun e => (Task.expr cx e, s)).toList

/-- The calls for the parts of an expression, in the order in which they are made. -/
def ExprKind.calls (cx : Context) (s : Session) : ExprKind → List (Task × Session)
  | .literal _ | .ident _ | .path _ => []
  | .binary _ left right => [(.expr cx left, s), (.expr cx right, after (inferExpr cx left) s)]
  | .unary _ operand => [(.expr cx operand, s)]
  | .call callee args => [(.expr cx callee, s), (.exprs cx args, after (inferExpr cx callee) s)]
  | .methodCall receiver _ args =>
    [(.expr cx receiver, s), (.exprs cx args, after (inferExpr cx receiver) s)]
  | .field base _ => [(.expr cx base, s)]
  | .index base i => [(.expr cx base, s), (.expr cx i, after (inferExpr cx base) s)]
  | .ifThen cond thenBranch elseBranch =>
    let c := (inferExpr cx cond).run s
    let s₁ := after (constrain .bool c.1 cond.span .condition) c.2
    (.expr cx cond, s) :: (.block cx thenBranch, s₁) ::
      optionCall cx (after (inferBlock cx thenBranch) s₁) elseBranch
  | .matchOn scrutinee arms =>
    let t := (inferExpr cx scrutinee).run s
    let result := fresh.run t.2
    [(.expr cx scrutinee, s), (.arms cx t.1 result.1 arms, result.2)]
  | .block body => [(.block cx body, s)]
  | .lambda params ret body _ =>
    let types := (paramTypes cx.scope params).run s
    let ret := (lowerOr cx.scope fresh ret).run types.2
    [(.expr { cx.pushScope.bindAll types.1 with
      frames := cx.lambdaFrame ret.1 :: cx.frames, loops := [] } body, ret.2)]
  | .tuple elems => [(.exprs cx elems, s)]
  | .array elems =>
    let elem := fresh.run s
    [(.elems cx elem.1 .element elems, elem.2)]
  | .structLit name fields base =>
    let struct := cx.scope.structName name.node
    match cx.scope.decls.structs.get? struct with
    | none =>
      let s₁ := after (report (.unknownStruct name.node) name.span) s
      (.values cx fields, s₁) :: optionCall cx (after (inferFields cx fields) s₁) base
    | some d =>
      let x := (instantiateNominal struct d.generics).run s
      (.inits (cx.enterParams x.1.2) d struct [] fields, x.2) ::
        optionCall cx (after (checkInits (cx.enterParams x.1.2) d struct [] fields) x.2) base
  | .cast e _ => [(.expr cx e, s)]
  | .tryOp e => [(.expr cx e, s)]
  | .await e => [(.expr cx e, s)]
  | .whileLoop cond body =>
    let c := (inferExpr cx cond).run s
    [(.expr cx cond, s),
      (.block (cx.enterLoop none) body, after (constrain .bool c.1 cond.span .condition) c.2)]
  | .loop body =>
    let result := fresh.run s
    [(.block (cx.enterLoop (some result.1)) body, result.2)]
  | .forLoop pattern iterable body =>
    let t := (inferExpr cx iterable).run s
    let elem := fresh.run t.2
    let bound := (checkPattern cx.pushScope pattern elem.1).run
      (after (defer (.iter t.1 elem.1 iterable.span)) elem.2)
    [(.expr cx iterable, s),
      (.block ((cx.pushScope.bindAll bound.1).enterLoop none) body, bound.2)]
  | .range start stop _ =>
    let bound := fresh.run s
    let s₁ := match start with
      | some e =>
        let t := (inferExpr cx e).run bound.2
        after (constrain bound.1 t.1 e.span .operand) t.2
      | none => bound.2
    optionCall cx bound.2 start ++ optionCall cx s₁ stop

/-- The calls for the guard and the body of the first arm, and for the other arms. -/
def armCalls (cx : Context) (t result : Ty) (s : Session) :
    List MatchArm → List (Task × Session)
  | [] => []
  | ⟨_, pattern, guard, body⟩ :: r =>
    let bound := (checkPattern cx.pushScope pattern t).run s
    let inside := cx.pushScope.bindAll bound.1
    let s₁ := match guard with
      | some g =>
        let c := (inferExpr inside g).run bound.2
        after (constrain .bool c.1 g.span .condition) c.2
      | none => bound.2
    let u := (inferExpr inside body).run s₁
    optionCall inside bound.2 guard ++
      [(.expr inside body, s₁),
        (.arms cx t result r, after (constrain result u.1 body.span .branch) u.2)]

def Stmt.calls (cx : Context) (s : Session) : Stmt → List (Task × Session)
  | .letBind _ _ _ value _ => optionCall cx s value
  | .assign _ target value =>
    [(.expr cx target, s), (.expr cx value, after (inferExpr cx target) s)]
  | .expr e => [(.expr cx e, s)]
  | .ret _ value => optionCall cx s value
  | .brk _ value => optionCall cx s value
  | .cont _ => []

/-- The calls for the first item, and for the others. -/
def itemCalls (cx : Context) (i : Interface) (s : Session) :
    List ImplTarget → List Item → List (Task × Session)
  | _, [] => []
  | targets, .function d :: r =>
    [(.function cx i d d.name.node, s),
      (.items cx i targets r, after (checkFunction cx i d d.name.node) s)]
  | targets, .const d :: r =>
    let t := (inferExpr cx d.value).run s
    [(.expr cx d.value, s),
      (.items cx i targets r,
        match i.consts.get? d.name.node with
        | some declared => after (constrain declared t.1 d.value.span .annotated) t.2
        | none => t.2)]
  | target :: rest, .impl b :: r =>
    [(.methods (cx.withSelf target.selfTy) i target.typeName b.methods, s),
      (.items cx i rest r,
        after (checkMethods cx i target.typeName target.selfTy b.methods) s)]
  | [], .impl _ :: r => [(.items cx i [] r, s)]
  | targets, .trait d :: r =>
    [(.methods (cx.withSelf (.named d.name.node)) i d.name.node d.methods, s),
      (.items cx i targets r,
        after (checkMethods cx i d.name.node (.named d.name.node) d.methods) s)]
  | targets, .struct _ :: r | targets, .enum _ :: r | targets, .typeAlias _ :: r
  | targets, .imports _ :: r => [(.items cx i targets r, s)]

/-- The tasks that a task runs directly, each with the session it is started in. -/
def Task.calls : Task → Session → List (Task × Session)
  | expr cx ⟨_, _, kind⟩, s => kind.calls cx s
  | exprs _ [], _ => []
  | exprs cx (e :: r), s => [(.expr cx e, s), (.exprs cx r, Sema.after (inferExpr cx e) s)]
  | elems _ _ _ [], _ => []
  | elems cx elem origin (e :: r), s =>
    let t := (inferExpr cx e).run s
    [(.expr cx e, s),
      (.elems cx elem origin r, Sema.after (constrain elem t.1 e.span origin) t.2)]
  | values _ [], _ => []
  | values cx (⟨_, _, value⟩ :: r), s =>
    [(.expr cx value, s), (.values cx r, Sema.after (inferExpr cx value) s)]
  | inits _ _ _ _ [], _ => []
  | inits cx d struct seen (⟨span, name, value⟩ :: r), s =>
    let t := (inferExpr cx value).run s
    let s₁ := Sema.after (if seen.contains name.node then report (.repeatedField name.node) span
      else checkInit cx.scope d struct name t.1 value.span) t.2
    [(.expr cx value, s), (.inits cx d struct (name.node :: seen) r, s₁)]
  | arms cx t result l, s => armCalls cx t result s l
  | block cx ⟨_, l, tail⟩, s =>
    let env := (checkStmts cx.pushScope l).run s
    (.stmts cx.pushScope l, s) :: optionCall { cx with env := env.1 } env.2 tail
  | stmts _ [], _ => []
  | stmts cx (st :: r), s =>
    let env := (checkStmt cx st).run s
    [(.stmt cx st, s), (.stmts { cx with env := env.1 } r, env.2)]
  | stmt cx st, s => st.calls cx s
  | contracts _ _ [], _ => []
  | contracts cx ret (c :: r), s =>
    [(.expr (c.context cx ret) c.condition, s),
      (.contracts cx ret r, Sema.after (checkContract cx ret c) s)]
  | function cx i d name, s =>
    match d.body, i.signatures.get? name with
    | some body, some sig =>
      let inside := bodyContext cx d name sig
      [(.contracts inside sig.ret d.contracts, s),
        (.block inside body, Sema.after (d.contracts.forM (checkContract inside sig.ret)) s)]
    | _, _ => []
  | methods _ _ _ [], _ => []
  | methods cx i typeName (m :: r), s =>
    let name := typeName ++ "::" ++ m.name.node
    [(.function cx i m name, s),
      (.methods cx i typeName r, Sema.after (checkFunction cx i m name) s)]
  | items cx i targets l, s => itemCalls cx i s targets l

/-- A task that runs inside another, at any depth, with the session it is started in. -/
abbrev Reaches : Task × Session → Task × Session → Prop :=
  Relation.ReflTransGen fun a b => b ∈ a.1.calls a.2

/-- The task of `x` runs inside the check `m`, started in `s`: what is there before is there
when it starts, and what it leaves is there in the end. If `m` is started within the set, so is
the task; and if the task leaves the set as it should, so does `m`. -/
structure Within (U : Nat → Prop) {α : Type} (P : Prop) (m : Check α) (s : Session)
    (Q : α → Prop) (x : Task × Session) : Prop where
  before : Grows s x.2
  rest : Grows (x.1.after x.2) (after m s)
  start : P → ∀ τ, s.Confined U τ → Takes U s x.2 → x.2.Confined U τ ∧ x.1.Over U
  resume : P → ∀ σ τ, s.Confined U σ → Takes U s x.2 → (x.1.after x.2).Confined U τ →
    x.1.Gives U x.2 → Takes U (x.1.after x.2) (after m s) →
    (after m s).Confined U τ ∧ Q (m.run s).1

namespace Within

variable {U : Nat → Prop} {α β : Type} {P : Prop} {s : Session} {Q : α → Prop} {R : β → Prop}
  {x : Task × Session}

theorem self {m : Check α} {t : Task} (hafter : t.after s = after m s) (hover : P → t.Over U)
    (hgives : t.Gives U s → Q (m.run s).1) : Within U P m s Q (t, s) where
  before := .refl s
  rest := hafter ▸ .refl _
  start hP _ hs _ := ⟨hs, hover hP⟩
  resume _ _ _ _ _ hleft hout _ := ⟨hafter ▸ hleft, hgives hout⟩

theorem left {m : Check α} {f : α → Check β} (h : Within U P m s Q x)
    (hf : ∀ a, Keeps U (P ∧ Q a) (f a) R) : Within U P (m >>= f) s R x where
  before := h.before
  rest := h.rest.trans ((hf _).growing _)
  start := h.start
  resume hP σ τ hs hbefore hafter hout htakes := by
    have hlast := (hf (m.run s).1).growing (after m s)
    obtain ⟨hmid, hQ⟩ := h.resume hP σ τ hs hbefore hafter hout (htakes.left hlast)
    exact (hf _).keeps ⟨hP, hQ⟩ τ _ hmid (htakes.right h.rest)

theorem right {m : Check α} {f : α → Check β} (hm : Keeps U P m Q)
    (h : Within U (P ∧ Q (m.run s).1) (f (m.run s).1) (after m s) R x) :
    Within U P (m >>= f) s R x where
  before := (hm.growing s).trans h.before
  rest := h.rest
  start hP τ hs htakes := by
    obtain ⟨hmid, hQ⟩ := hm.keeps hP τ s hs (htakes.left h.before)
    exact h.start ⟨hP, hQ⟩ τ hmid (htakes.right (hm.growing s))
  resume hP σ τ hs hbefore := by
    obtain ⟨hmid, hQ⟩ := hm.keeps hP σ s hs (hbefore.left h.before)
    exact h.resume ⟨hP, hQ⟩ σ τ hmid (hbefore.right (hm.growing s))

theorem given {A : Prop} {m : Check α} (h : Within U P m s Q x) (hP : A → P) :
    Within U A m s Q x :=
  ⟨h.before, h.rest, fun h' => h.start (hP h'), fun h' => h.resume (hP h')⟩

/-- A step before whose result does not matter. -/
theorem later {m : Check α} {f : α → Check β} (hm : Keeps U P m Q)
    (h : Within U P (f (m.run s).1) (after m s) R x) : Within U P (m >>= f) s R x :=
  .right hm (h.given And.left)

variable {cx : Context}

theorem expr (h : P → cx.Over U) (e : Expr) :
    Within U P (inferExpr cx e) s (·.Over U) (.expr cx e, s) := .self rfl h id

theorem exprs (h : P → cx.Over U) (l : List Expr) :
    Within U P (inferAll cx l) s (fun types => ∀ t ∈ types, t.Over U) (.exprs cx l, s) :=
  .self rfl h id

theorem elems {elem : Ty} (h : P → cx.Over U ∧ elem.Over U) (origin : Origin) (l : List Expr) :
    Within U P (inferElems cx elem origin l) s (fun _ => True) (.elems cx elem origin l, s) :=
  .self rfl h id

theorem values (h : P → cx.Over U) (l : List FieldInit) :
    Within U P (inferFields cx l) s (fun _ => True) (.values cx l, s) := .self rfl h id

theorem inits (h : P → cx.Over U) (d : StructDef) (struct : String) (seen : List String)
    (l : List FieldInit) :
    Within U P (checkInits cx d struct seen l) s (fun _ => True) (.inits cx d struct seen l, s) :=
  .self rfl h id

theorem arms {t result : Ty} (h : P → cx.Over U ∧ t.Over U ∧ result.Over U) (l : List MatchArm) :
    Within U P (checkArms cx t result l) s (fun _ => True) (.arms cx t result l, s) :=
  .self rfl h id

theorem block (h : P → cx.Over U) (b : Block) :
    Within U P (inferBlock cx b) s (·.Over U) (.block cx b, s) := .self rfl h id

theorem stmts (h : P → cx.Over U) (l : List Stmt) :
    Within U P (checkStmts cx l) s (·.Over U) (.stmts cx l, s) := .self rfl h id

theorem stmt (h : P → cx.Over U) (st : Stmt) :
    Within U P (checkStmt cx st) s (·.Over U) (.stmt cx st, s) := .self rfl h id

theorem contracts {ret : Ty} (h : P → cx.Over U ∧ ret.Over U) (l : List Contract) :
    Within U P (l.forM (checkContract cx ret)) s (fun _ => True) (.contracts cx ret l, s) :=
  .self rfl h id

variable {i : Interface}

theorem function (h : P → cx.Over U ∧ i.Over U) (d : FunctionDef) (name : String) :
    Within U P (checkFunction cx i d name) s (fun _ => True) (.function cx i d name, s) :=
  .self rfl h id

theorem methods (h : P → cx.Over U ∧ i.Over U) (typeName : String) (l : List FunctionDef) :
    Within U P (l.forM fun m => checkFunction cx i m (typeName ++ "::" ++ m.name.node)) s
      (fun _ => True) (.methods cx i typeName l, s) := .self rfl h id

theorem items {targets : List ImplTarget}
    (h : P → (cx.Over U ∧ i.Over U) ∧ ∀ target ∈ targets, target.selfTy.Over U) (l : List Item) :
    Within U P (checkBodies cx i targets l) s (fun _ => True) (.items cx i targets l, s) :=
  .self rfl h id

end Within

theorem forall_mem_pair {α : Type} {P : α → Prop} {a b : α} (ha : P a) (hb : P b) :
    ∀ x ∈ [a, b], P x := by
  simp [ha, hb]

section Calls

variable {U : Nat → Prop} (cx : Context) (s : Session)

theorem structLit_calls_within (span : Span) (name : Ident) (fields : List FieldInit)
    (base : Option Expr) : ∀ x ∈ (ExprKind.structLit name fields base).calls cx s,
      Within U (cx.Over U) (inferKind cx span (.structLit name fields base)) s (·.Over U) x := by
  rw [inferKind]
  simp only [ExprKind.calls]
  cases cx.scope.decls.structs.get? (cx.scope.structName name.node) with
  | none =>
    cases base with
    | none =>
      refine List.forall_mem_singleton.mpr (.later (report_keeps _ _) ?_)
      exact .left (.values id fields) fun _ => fresh_keeps
    | some e =>
      have he : Keeps U (cx.Over U) (discard (inferExpr cx e)) fun _ => True :=
        (inferExpr_keeps cx e).andThen fun _ => .pure fun _ => trivial
      refine forall_mem_pair (.later (report_keeps _ _) (.left (.values id fields) fun _ => ?_))
        (.later (report_keeps _ _) (.later (inferFields_keeps cx fields) ?_))
      · exact (he.given And.left).andThen fun _ => fresh_keeps
      · exact .left (.left (.expr id e) fun _ => .pure (Q := fun _ => True) fun _ => trivial)
          fun _ => fresh_keeps
  | some d =>
    let x := (instantiateNominal (cx.scope.structName name.node) d.generics).run s
    let given : Prop := cx.Over U ∧ x.1.1.Over U ∧ ∃ l, x.1.2 = .ofList l ∧ ∀ y ∈ l, y.2.Over U
    have hinside : given → (cx.enterParams x.1.2).Over U := by
      rintro ⟨hcx, _, l, hl, hover⟩
      rw [hl]
      exact hcx.enterParams hover
    have hinits := (checkInits_keeps (U := U) (cx.enterParams x.1.2) d
      (cx.scope.structName name.node) [] fields).given hinside
    have hnew := instantiateNominal_keeps (U := U) (P := cx.Over U)
      (cx.scope.structName name.node) d.generics
    cases base with
    | none =>
      refine List.forall_mem_singleton.mpr (.right hnew (.left (.inits hinside _ _ _ _) fun _ => ?_))
      exact (checkComplete_keeps _ _ _ _).andThen fun _ => .pure fun h => h.1.2.1
    | some e =>
      have hbase : ∀ t, Keeps U (given ∧ t.Over U) (do
          constrain x.1.1 t e.span .field
          return x.1.1) (·.Over U) :=
        fun t => constrain_pure_keeps fun h => ⟨⟨h.1.2.1, h.2⟩, h.1.2.1⟩
      refine forall_mem_pair (.right hnew (.left (.inits hinside _ _ _ _) fun _ => ?_))
        (.right hnew (.later hinits (.left (.expr And.left e) hbase)))
      exact ((inferExpr_keeps cx e).given fun h => h.1.1).bind fun t =>
        (hbase t).given fun h => ⟨h.1.1, h.2⟩

theorem range_calls_within (span : Span) (start stop : Option Expr) (inclusive : Bool) :
    ∀ x ∈ (ExprKind.range start stop inclusive).calls cx s,
      Within U (cx.Over U) (inferKind cx span (.range start stop inclusive)) s (·.Over U) x := by
  have hend : ∀ (bound t : Ty) (sp : Span), Keeps U ((cx.Over U ∧ bound.Over U) ∧ t.Over U) (do
      constrain bound t sp .operand
      return Ty.app Ty.rangeName [bound]) (·.Over U) := by
    intro bound t sp
    refine constrain_pure_keeps fun h => ⟨⟨h.1.2, h.2⟩, ?_⟩
    exact Ty.over_app.mpr (List.forall_mem_singleton.mpr h.1.2)
  rw [inferKind]
  cases start with
  | none =>
    cases stop with
    | none => simp [ExprKind.calls, optionCall]
    | some e =>
      exact List.forall_mem_singleton.mpr (.right fresh_keeps (.left (.expr And.left e) fun _ =>
        hend _ _ _))
  | some d =>
    have hfirst : ∀ bound t : Ty, Keeps U ((cx.Over U ∧ bound.Over U) ∧ t.Over U)
        (constrain bound t d.span .operand) fun _ => True :=
      fun bound t => (constrain_keeps _ _ _ _).given fun h => ⟨h.1.2, h.2⟩
    cases stop with
    | none =>
      refine List.forall_mem_singleton.mpr (.right fresh_keeps (.left (.expr And.left d)
        fun _ => ?_))
      exact (hfirst _ _).andThen fun _ => .pure fun h =>
        Ty.over_app.mpr (List.forall_mem_singleton.mpr h.1.2)
    | some e =>
      refine forall_mem_pair (.right fresh_keeps (.left (.expr And.left d) fun _ => ?_))
        (.right fresh_keeps (.right ((inferExpr_keeps cx d).given And.left)
          (.later (hfirst _ _) (.left (.expr (fun h => h.1.1) e) fun _ => ?_))))
      · exact (hfirst _ _).andThen fun _ => ((inferExpr_keeps cx e).given fun h => h.1.1).bind
          fun _ => (hend _ _ _).given fun h => ⟨h.1.1, h.2⟩
      · exact (hend _ _ _).given fun h => ⟨h.1.1, h.2⟩

/-- The parts of an expression are inferred inside it. -/
theorem ExprKind.calls_within (span : Span) (k : ExprKind) :
    ∀ x ∈ k.calls cx s, Within U (cx.Over U) (inferKind cx span k) s (·.Over U) x := by
  have hexpr := inferExpr_keeps (U := U) cx
  have hcond : ∀ (c : Ty) (sp : Span), Keeps U (cx.Over U ∧ c.Over U)
      (constrain .bool c sp .condition) fun _ => True :=
    fun c sp => (constrain_keeps _ _ _ _).given fun h => ⟨Ty.over_bool, h.2⟩
  cases k with
  | literal _ => simp [calls]
  | ident _ => simp [calls]
  | path _ => simp [calls]
  | binary op left right =>
    rw [inferKind]
    have hop : ∀ l r, Keeps U ((cx.Over U ∧ l.Over U) ∧ r.Over U)
        (binaryType op l r left.span right.span) (·.Over U) :=
      fun l r => (binaryType_keeps op l r _ _).given fun h => ⟨h.1.2, h.2⟩
    exact forall_mem_pair
      (.left (.expr id left) fun _ => ((hexpr right).given And.left).bind fun _ => hop _ _)
      (.right (hexpr left) (.left (.expr And.left right) fun _ => hop _ _))
  | unary op operand =>
    rw [inferKind]
    refine List.forall_mem_singleton.mpr (.left (.expr id operand) fun t => ?_)
    cases op with
    | not => exact constrain_pure_keeps fun h => ⟨⟨Ty.over_bool, h.2⟩, Ty.over_bool⟩
    | _ => exact .pure And.right
  | call callee args =>
    rw [inferKind]
    have hcall : ∀ t types, Keeps U ((cx.Over U ∧ t.Over U) ∧ ∀ u ∈ types, u.Over U)
        (checkCall cx callee.calleeName? t types span) (·.Over U) :=
      fun t types => (checkCall_keeps cx _ t types span).given fun h => ⟨h.1.2, h.2⟩
    exact forall_mem_pair
      (.left (.expr id callee) fun _ => ((inferAll_keeps cx args).given And.left).bind fun _ =>
        hcall _ _)
      (.right (hexpr callee) (.left (.exprs And.left args) fun _ => hcall _ _))
  | methodCall receiver method args =>
    rw [inferKind]
    have hdefer : ∀ t types, Keeps U ((cx.Over U ∧ t.Over U) ∧ ∀ u ∈ types, u.Over U) (do
        let ret ← fresh
        defer (.method ⟨t, method.node, types, ret, cx.frames.head?, span⟩)
        return ret) (·.Over U) := by
      intro t types
      refine fresh_keeps.bind fun r => ((defer_keeps _).given fun h => ?_).andThen fun _ =>
        .pure And.right
      exact List.forall_mem_cons.mpr ⟨h.1.1.2, List.forall_mem_cons.mpr ⟨h.2, h.1.2⟩⟩
    exact forall_mem_pair
      (.left (.expr id receiver) fun _ => ((inferAll_keeps cx args).given And.left).bind fun _ =>
        hdefer _ _)
      (.right (hexpr receiver) (.left (.exprs And.left args) fun _ => hdefer _ _))
  | field base f =>
    rw [inferKind]
    refine List.forall_mem_singleton.mpr (.left (.expr id base) fun _ => fresh_keeps.bind fun _ =>
      ((defer_keeps _).given fun h => ?_).andThen fun _ => .pure And.right)
    exact List.forall_mem_cons.mpr ⟨h.1.2, List.forall_mem_singleton.mpr h.2⟩
  | index base i =>
    rw [inferKind]
    have hend : ∀ t, Keeps U (cx.Over U ∧ t.Over U) (do
        let elem ← fresh
        constrain (.array elem) t base.span .element
        return elem) (·.Over U) :=
      fun t => fresh_keeps.bind fun _ => constrain_pure_keeps fun h =>
        ⟨⟨Ty.over_array.mpr h.2, h.1.2⟩, h.2⟩
    exact forall_mem_pair
      (.left (.expr id base) fun _ => ((hexpr i).given And.left).andThen fun _ => hend _)
      (.right (hexpr base) (.left (.expr And.left i) fun _ => (hend _).given And.left))
  | ifThen cond thenBranch elseBranch =>
    rw [inferKind]
    have hblock := inferBlock_keeps (U := U) cx thenBranch
    cases elseBranch with
    | none =>
      refine forall_mem_pair (.left (.expr id cond) fun _ => (hcond _ _).andThen fun _ => ?_)
        (.right (hexpr cond) (.later (hcond _ _) (.left (.block And.left thenBranch) fun _ => ?_)))
      · exact (hblock.given And.left).andThen fun _ => .pure fun _ => Ty.over_unit
      · exact .pure fun _ => Ty.over_unit
    | some other =>
      have hend : ∀ (P : Prop) (t u : Ty), Keeps U ((P ∧ t.Over U) ∧ u.Over U) (do
          constrain t u other.span .branch
          return t) (·.Over U) :=
        fun _ t u => constrain_pure_keeps fun h => ⟨⟨h.1.2, h.2⟩, h.1.2⟩
      refine List.forall_mem_cons.mpr ⟨.left (.expr id cond) fun _ => ?_, forall_mem_pair
        (.right (hexpr cond) (.later (hcond _ _) (.left (.block And.left thenBranch) fun _ => ?_)))
        (.right (hexpr cond) (.later (hcond _ _) (.right (hblock.given And.left)
          (.left (.expr (fun h => h.1.1) other) fun _ => hend _ _ _))))⟩
      · exact (hcond _ _).andThen fun _ => (hblock.given And.left).bind fun _ =>
          ((hexpr other).given fun h => h.1.1).bind fun _ => hend _ _ _
      · exact ((hexpr other).given fun h => h.1.1).bind fun _ => hend _ _ _
  | matchOn scrutinee arms =>
    rw [inferKind]
    refine forall_mem_pair (.left (.expr id scrutinee) fun _ => fresh_keeps.bind fun _ => ?_)
      (.right (hexpr scrutinee) (.right fresh_keeps (.left (.arms (fun h =>
        ⟨h.1.1, h.1.2, h.2⟩) arms) fun _ => .pure fun h => h.1.2)))
    exact ((checkArms_keeps cx _ _ arms).given fun h => ⟨h.1.1, h.1.2, h.2⟩).andThen fun _ =>
      .pure And.right
  | block body =>
    rw [inferKind]
    exact List.forall_mem_singleton.mpr (.block id body)
  | lambda params ret body isMove =>
    rw [inferKind]
    have hparams := (paramTypes_keeps (U := U) cx.scope params).given (A := cx.Over U) (·.scope)
    have hret := lowerOr_keeps (U := U) cx.scope fresh_keeps ret
    refine List.forall_mem_singleton.mpr (.right hparams (.right (hret.given fun h => h.1.scope)
      (.left (.expr (fun h => h.1.1.lambda h.1.2 h.2) body) fun _ => ?_)))
    refine constrain_pure_keeps fun h => ⟨⟨h.1.2, h.2⟩, Ty.over_fn.mpr ⟨?_, h.1.2⟩⟩
    exact List.forall_mem_map.mpr h.1.1.2
  | tuple elems =>
    rw [inferKind]
    exact List.forall_mem_singleton.mpr (.left (.exprs id elems) fun _ =>
      .pure fun h => Ty.over_tuple.mpr h.2)
  | array elems =>
    rw [inferKind]
    exact List.forall_mem_singleton.mpr (.right fresh_keeps (.left (.elems id _ elems) fun _ =>
      .pure fun h => Ty.over_array.mpr h.1.2))
  | structLit name fields base => exact structLit_calls_within cx s span name fields base
  | cast e ty =>
    rw [inferKind]
    exact List.forall_mem_singleton.mpr (.left (.expr id e) fun _ =>
      (lower_keeps _ ty).given fun h => h.1.scope)
  | tryOp e =>
    rw [inferKind]
    refine List.forall_mem_singleton.mpr (.left (.expr id e) fun t => fresh_keeps.bind fun ok =>
      fresh_keeps.bind fun err => constrain_pure_keeps fun h => ⟨⟨?_, h.1.1.2⟩, h.1.2⟩)
    exact Ty.over_app.mpr (List.forall_mem_cons.mpr ⟨h.1.2, List.forall_mem_singleton.mpr h.2⟩)
  | await e =>
    rw [inferKind]
    refine List.forall_mem_singleton.mpr (.left (.expr id e) fun t => ?_)
    split
    · exact (report_keeps _ _).andThen fun _ => .pure And.right
    · exact .pure And.right
  | whileLoop cond body =>
    rw [inferKind]
    refine forall_mem_pair (.left (.expr id cond) fun _ => ?_)
      (.right (hexpr cond) (.later (hcond _ _)
        (.left (.block (fun h => h.1.enterLoop_none) body) fun _ => .pure fun _ => Ty.over_unit)))
    exact (hcond _ _).andThen fun _ => ((inferBlock_keeps _ body).given fun h =>
      h.1.enterLoop_none).andThen fun _ => .pure fun _ => Ty.over_unit
  | loop body =>
    rw [inferKind]
    exact List.forall_mem_singleton.mpr (.right fresh_keeps (.left (.block (fun h =>
      h.1.enterLoop_some h.2) body) fun _ => .pure fun h => h.1.2))
  | forLoop pattern iterable body =>
    rw [inferKind]
    have hdefer : ∀ t elem : Ty, Keeps U ((cx.Over U ∧ t.Over U) ∧ elem.Over U)
        (defer (.iter t elem iterable.span)) fun _ => True :=
      fun t elem => (defer_keeps _).given fun h =>
        List.forall_mem_cons.mpr ⟨h.1.2, List.forall_mem_singleton.mpr h.2⟩
    have hpattern : ∀ t elem : Ty, Keeps U ((cx.Over U ∧ t.Over U) ∧ elem.Over U)
        (checkPattern cx.pushScope pattern elem) (Bound.Over · U) :=
      fun t elem => (checkPattern_keeps _ pattern elem).given fun h => ⟨h.1.1.pushScope, h.2⟩
    refine forall_mem_pair (.left (.expr id iterable) fun _ => ?_)
      (.right (hexpr iterable) (.right fresh_keeps (.later (hdefer _ _) (.right (hpattern _ _)
        (.left (.block (fun h => (h.1.1.1.pushScope.bindAll h.2).enterLoop_none) body) fun _ =>
          .pure fun _ => Ty.over_unit)))))
    exact fresh_keeps.bind fun _ => (hdefer _ _).andThen fun _ => (hpattern _ _).bind fun _ =>
      ((inferBlock_keeps _ body).given fun h =>
        (h.1.1.1.pushScope.bindAll h.2).enterLoop_none).andThen fun _ =>
      .pure fun _ => Ty.over_unit
  | range start stop inclusive => exact range_calls_within cx s span start stop inclusive

theorem armCalls_within (t result : Ty) (l : List MatchArm) :
    ∀ x ∈ armCalls cx t result s l, Within U (cx.Over U ∧ t.Over U ∧ result.Over U)
      (checkArms cx t result l) s (fun _ => True) x := by
  cases l with
  | nil => simp [armCalls]
  | cons arm r =>
    obtain ⟨span, pattern, guard, body⟩ := arm
    let given : Prop := cx.Over U ∧ t.Over U ∧ result.Over U
    have hpattern : Keeps U given (checkPattern cx.pushScope pattern t) (Bound.Over · U) :=
      (checkPattern_keeps _ pattern t).given fun h => ⟨h.1.pushScope, h.2.1⟩
    have hinside : ∀ bound : Bound, given ∧ bound.Over U → (cx.pushScope.bindAll bound).Over U :=
      fun _ h => h.1.1.pushScope.bindAll h.2
    have hlast : ∀ (bound : Bound) (u : Ty), Keeps U ((given ∧ bound.Over U) ∧ u.Over U) (do
        constrain result u body.span .branch
        checkArms cx t result r) fun _ => True := fun _ u =>
      ((constrain_keeps _ _ _ _).given fun h => ⟨h.1.1.2.2, h.2⟩).andThen fun _ =>
        (checkArms_keeps cx t result r).given fun h => h.1.1
    have hbody : ∀ bound : Bound, Keeps U (given ∧ bound.Over U) (do
        let u ← inferExpr (cx.pushScope.bindAll bound) body
        constrain result u body.span .branch
        checkArms cx t result r) fun _ => True := fun bound =>
      ((inferExpr_keeps _ body).given (hinside bound)).bind (hlast bound)
    -- Both the body and the other arms follow the pattern and the guard.
    have hrest : ∀ (bound : Bound) (s : Session),
        ∀ x ∈ [(Task.expr (cx.pushScope.bindAll bound) body, s),
          (.arms cx t result r, after (constrain result
            ((inferExpr (cx.pushScope.bindAll bound) body).run s).1 body.span .branch)
            ((inferExpr (cx.pushScope.bindAll bound) body).run s).2)],
        Within U (given ∧ bound.Over U) (do
          let u ← inferExpr (cx.pushScope.bindAll bound) body
          constrain result u body.span .branch
          checkArms cx t result r) s (fun _ => True) x := fun bound s =>
      forall_mem_pair (.left (.expr (hinside bound) body) (hlast bound))
        (.right ((inferExpr_keeps _ body).given (hinside bound))
          (.later ((constrain_keeps _ _ _ _).given fun h => ⟨h.1.1.2.2, h.2⟩)
            (.arms (fun h => h.1.1) r)))
    rw [checkArms]
    cases guard with
    | none => exact fun x hx => .right hpattern (hrest _ _ x hx)
    | some g =>
      have hguard : ∀ (bound : Bound) (c : Ty), Keeps U ((given ∧ bound.Over U) ∧ c.Over U)
          (constrain .bool c g.span .condition) fun _ => True :=
        fun _ c => (constrain_keeps _ _ _ _).given fun h => ⟨Ty.over_bool, h.2⟩
      refine List.forall_mem_cons.mpr ⟨.right hpattern (.left (.expr (hinside _) g) fun _ => ?_),
        fun x hx => .right hpattern (.right ((inferExpr_keeps _ g).given (hinside _))
          (.later (hguard _ _) ((hrest _ _ x hx).given And.left)))⟩
      exact (hguard _ _).andThen fun _ => (hbody _).given And.left

theorem Stmt.calls_within (st : Stmt) : ∀ x ∈ st.calls cx s,
    Within U (cx.Over U) (checkStmt cx st) s (·.Over U) x := by
  have hexpr := inferExpr_keeps (U := U) cx
  cases st with
  | letBind span pattern ty value mutable =>
    cases value with
    | none => simp [calls, optionCall]
    | some e =>
      rw [checkStmt]
      refine List.forall_mem_singleton.mpr (.left (.expr id e) fun t => ?_)
      cases ty with
      | none => exact bindLet_keeps cx pattern t true mutable
      | some ty => exact bindDeclared_keeps cx pattern ty t e.span mutable
  | assign span target value =>
    rw [checkStmt]
    have hend : ∀ t u : Ty, Keeps U ((cx.Over U ∧ t.Over U) ∧ u.Over U) (do
        constrain t u value.span .assignment
        return cx.env) (·.Over U) :=
      fun _ _ => constrain_pure_keeps fun h => ⟨⟨h.1.2, h.2⟩, h.1.1.env⟩
    exact forall_mem_pair
      (.left (.expr id target) fun _ => ((hexpr value).given And.left).bind fun _ => hend _ _)
      (.right (hexpr target) (.left (.expr And.left value) fun _ => hend _ _))
  | expr e =>
    rw [checkStmt]
    exact List.forall_mem_singleton.mpr (.left (.expr id e) fun _ => .pure fun h => h.1.env)
  | ret span value =>
    cases value with
    | none => simp [calls, optionCall]
    | some e =>
      rw [checkStmt]
      refine List.forall_mem_singleton.mpr (.left (.expr id e) fun _ => ?_)
      exact (checkReturn_keeps _ _ _).andThen fun _ => .pure fun h => h.1.env
  | brk span value =>
    cases value with
    | none => simp [calls, optionCall]
    | some e =>
      rw [checkStmt]
      refine List.forall_mem_singleton.mpr (.left (.expr id e) fun _ => ?_)
      exact (checkBreak_keeps _ _ _ _).andThen fun _ => .pure fun h => h.1.env
  | cont span => simp [calls]

end Calls

section Bodies

variable {U : Nat → Prop} (cx : Context) (i : Interface)

theorem itemCalls_within (s : Session) (targets : List ImplTarget) (l : List Item) :
    ∀ x ∈ itemCalls cx i s targets l,
      Within U ((cx.Over U ∧ i.Over U) ∧ ∀ target ∈ targets, target.selfTy.Over U)
        (checkBodies cx i targets l) s (fun _ => True) x := by
  have hrest := checkBodies_keeps (U := U) cx i
  cases l with
  | nil => simp [itemCalls]
  | cons item r =>
    cases item with
    | function d =>
      exact forall_mem_pair
        (.left (.function And.left d _) fun _ => (hrest targets r).given And.left)
        (.later ((checkFunction_keeps cx i d _).given And.left) (.items id r))
    | const d =>
      have hvalue := (inferExpr_keeps (U := U) cx d.value).given (A := (cx.Over U ∧ i.Over U) ∧
        ∀ target ∈ targets, target.selfTy.Over U) fun h => h.1.1
      simp only [itemCalls, checkBodies]
      cases hconst : i.consts.get? d.name.node with
      | none =>
        exact forall_mem_pair
          (.left (.expr (fun h => h.1.1) d.value) fun _ => (hrest targets r).given And.left)
          (.later hvalue (.items id r))
      | some declared =>
        have hdeclared : ∀ t : Ty, Keeps U (((cx.Over U ∧ i.Over U) ∧
            ∀ target ∈ targets, target.selfTy.Over U) ∧ t.Over U)
            (constrain declared t d.value.span .annotated) fun _ => True :=
          fun t => (constrain_keeps _ _ _ _).given fun h => ⟨h.1.1.2.consts _ _ hconst, h.2⟩
        exact forall_mem_pair
          (.left (.expr (fun h => h.1.1) d.value) fun _ => (hdeclared _).andThen fun _ =>
            (hrest targets r).given And.left)
          (.right hvalue (.later (hdeclared _) (.items And.left r)))
    | impl b =>
      cases targets with
      | nil => exact List.forall_mem_singleton.mpr (.items id r)
      | cons target rest =>
        have hself : (cx.Over U ∧ i.Over U) ∧ (∀ x ∈ target :: rest, x.selfTy.Over U) →
            (cx.withSelf target.selfTy).Over U ∧ i.Over U :=
          fun h => ⟨h.1.1.withSelf (h.2 target (by simp)), h.1.2⟩
        have htail : (cx.Over U ∧ i.Over U) ∧ (∀ x ∈ target :: rest, x.selfTy.Over U) →
            (cx.Over U ∧ i.Over U) ∧ ∀ x ∈ rest, x.selfTy.Over U :=
          fun h => ⟨h.1, fun x hx => h.2 x (by simp [hx])⟩
        exact forall_mem_pair
          (.left (.methods hself _ b.methods) fun _ => (hrest rest r).given fun h => htail h.1)
          (.later ((checkMethods_keeps cx i _ _ b.methods).given fun h =>
            ⟨h.1, h.2 target (by simp)⟩) (.items htail r))
    | trait d =>
      exact forall_mem_pair
        (.left (.methods (fun h => ⟨h.1.1.withSelf (Ty.over_named _), h.1.2⟩) _ d.methods)
          fun _ => (hrest targets r).given And.left)
        (.later ((checkMethods_keeps cx i _ _ d.methods).given fun h =>
          ⟨h.1, Ty.over_named _⟩) (.items id r))
    | struct _ => exact List.forall_mem_singleton.mpr (.items id r)
    | enum _ => exact List.forall_mem_singleton.mpr (.items id r)
    | typeAlias _ => exact List.forall_mem_singleton.mpr (.items id r)
    | imports _ => exact List.forall_mem_singleton.mpr (.items id r)

end Bodies

namespace Task

/-- What a task runs directly runs inside it. -/
structure Encloses (U : Nat → Prop) (t : Task) (s : Session) (x : Task × Session) : Prop where
  before : Grows s x.2
  rest : Grows (x.1.after x.2) (t.after s)
  start : t.Over U → ∀ τ, s.Confined U τ → Takes U s x.2 → x.2.Confined U τ ∧ x.1.Over U
  resume : t.Over U → ∀ σ τ, s.Confined U σ → Takes U s x.2 → (x.1.after x.2).Confined U τ →
    x.1.Gives U x.2 → Takes U (x.1.after x.2) (t.after s) →
    (t.after s).Confined U τ ∧ t.Gives U s

/-- What a task runs directly runs inside it. -/
theorem calls_enclosed (U : Nat → Prop) (t : Task) (s : Session) :
    ∀ x ∈ t.calls s, t.Encloses U s x := by
  have hcheck : ∀ {α : Type} {m : Check α} {Q : α → Prop} {l : List (Task × Session)},
      (∀ x ∈ l, Within U (t.Over U) m s Q x) → t.after s = Sema.after m s →
      (Q (m.run s).1 → t.Gives U s) → ∀ x ∈ l, t.Encloses U s x := by
    intro α m Q l hl hm hQ x hx
    obtain ⟨hbefore, hrest, hstart, hresume⟩ := hl x hx
    rw [← hm] at hrest hresume
    exact ⟨hbefore, hrest, hstart, fun hP σ τ hs hb ha hg ht =>
      (hresume hP σ τ hs hb ha hg ht).imp_right hQ⟩
  cases t with
  | expr cx e =>
    obtain ⟨id, span, kind⟩ := e
    refine hcheck (m := inferExpr cx ⟨id, span, kind⟩) (Q := (·.Over U)) (fun x hx => ?_) rfl
      fun h => h
    rw [inferExpr]
    exact .left (ExprKind.calls_within cx s span kind x hx) fun t =>
      (record_keeps id t).andThen fun _ => .pure And.right
  | exprs cx l =>
    cases l with
    | nil => simp [calls]
    | cons e r =>
      refine hcheck (m := inferAll cx (e :: r)) (Q := fun types => ∀ t ∈ types, t.Over U) ?_ rfl
        fun h => h
      rw [inferAll]
      have hend : ∀ t types, Keeps U ((cx.Over U ∧ t.Over U) ∧ ∀ u ∈ types, u.Over U)
          (pure (t :: types) : Check (List Ty)) fun types => ∀ t ∈ types, t.Over U :=
        fun t types => .pure fun h => List.forall_mem_cons.mpr ⟨h.1.2, h.2⟩
      exact forall_mem_pair
        (.left (.expr id e) fun _ => ((inferAll_keeps cx r).given And.left).bind fun _ => hend _ _)
        (.right (inferExpr_keeps cx e) (.left (.exprs And.left r) fun _ => hend _ _))
  | elems cx elem origin l =>
    cases l with
    | nil => simp [calls]
    | cons e r =>
      refine hcheck (m := inferElems cx elem origin (e :: r)) (Q := fun _ => True) ?_ rfl
        fun h => h
      rw [inferElems]
      have hvalue := (inferExpr_keeps (U := U) cx e).given
        (And.left : cx.Over U ∧ elem.Over U → cx.Over U)
      have hstep : ∀ t : Ty, Keeps U ((cx.Over U ∧ elem.Over U) ∧ t.Over U)
          (constrain elem t e.span origin) fun _ => True :=
        fun t => (constrain_keeps _ _ _ _).given fun h => ⟨h.1.2, h.2⟩
      exact forall_mem_pair
        (.left (.expr And.left e) fun _ => (hstep _).andThen fun _ =>
          (inferElems_keeps cx elem origin r).given And.left)
        (.right hvalue (.later (hstep _) (.elems And.left origin r)))
  | values cx l =>
    cases l with
    | nil => simp [calls]
    | cons init r =>
      obtain ⟨span, name, value⟩ := init
      refine hcheck (m := inferFields cx (⟨span, name, value⟩ :: r)) (Q := fun _ => True) ?_ rfl
        fun h => h
      rw [inferFields]
      exact forall_mem_pair
        (.left (.expr id value) fun _ => (inferFields_keeps cx r).given And.left)
        (.later (inferExpr_keeps cx value) (.values id r))
  | inits cx d struct seen l =>
    cases l with
    | nil => simp [calls]
    | cons init r =>
      obtain ⟨span, name, value⟩ := init
      refine hcheck (m := checkInits cx d struct seen (⟨span, name, value⟩ :: r))
        (Q := fun _ => True) ?_ rfl fun h => h
      have hrest : ∀ t : Ty, Keeps U (cx.Over U ∧ t.Over U)
          (checkInits cx d struct (name.node :: seen) r) fun _ => True :=
        fun t => (checkInits_keeps cx d struct (name.node :: seen) r).given And.left
      have hvalue := inferExpr_keeps (U := U) cx value
      have hinit : ∀ t : Ty, Keeps U (cx.Over U ∧ t.Over U)
          (checkInit cx.scope d struct name t value.span) fun _ => True :=
        fun t => (checkInit_keeps _ _ _ _ _ _).given fun h => ⟨h.1.scope, h.2⟩
      rw [checkInits]
      simp only [calls]
      split
      · exact forall_mem_pair
          (.left (.expr id value) fun _ => (report_keeps _ _).andThen fun _ => hrest _)
          (.later hvalue (.later (report_keeps _ _) (.inits id _ _ _ r)))
      · exact forall_mem_pair
          (.left (.expr id value) fun _ => (hinit _).andThen fun _ => hrest _)
          (.right hvalue (.later (hinit _) (.inits And.left _ _ _ r)))
  | arms cx t result l =>
    exact hcheck (m := checkArms cx t result l) (armCalls_within cx s t result l) rfl fun h => h
  | block cx b =>
    obtain ⟨span, l, tail⟩ := b
    refine hcheck (m := inferBlock cx ⟨span, l, tail⟩) (Q := (·.Over U)) ?_ rfl fun h => h
    rw [inferBlock]
    cases tail with
    | none =>
      refine List.forall_mem_singleton.mpr (.left (.stmts (·.pushScope) l) fun _ => ?_)
      dsimp only
      split
      · exact fresh_keeps
      · exact .pure fun _ => Ty.over_unit
    | some e =>
      exact forall_mem_pair
        (.left (.stmts (·.pushScope) l) fun _ => (inferExpr_keeps _ e).given fun h =>
          h.1.withEnv h.2)
        (.right ((checkStmts_keeps _ l).given (·.pushScope))
          (.expr (fun h => h.1.withEnv h.2) e))
  | stmts cx l =>
    cases l with
    | nil => simp [calls]
    | cons st r =>
      refine hcheck (m := checkStmts cx (st :: r)) (Q := (·.Over U)) ?_ rfl fun h => h
      rw [checkStmts]
      exact forall_mem_pair
        (.left (.stmt id st) fun _ => (checkStmts_keeps _ r).given fun h => h.1.withEnv h.2)
        (.right (checkStmt_keeps cx st) (.stmts (fun h => h.1.withEnv h.2) r))
  | stmt cx st =>
    exact hcheck (m := checkStmt cx st) (Stmt.calls_within cx s st) rfl fun h => h
  | contracts cx ret l =>
    cases l with
    | nil => simp [calls]
    | cons c r =>
      refine hcheck (m := (c :: r).forM (checkContract cx ret)) (Q := fun _ => True) ?_ rfl
        fun h => h
      have hrest := Keeps.forM (checkContract_keeps (U := U) cx ret) r
      exact forall_mem_pair
        (.left (.left (.expr (fun h => h.1.contract h.2 c) c.condition) fun _ =>
          (constrain_keeps _ _ _ _).given fun h => ⟨Ty.over_bool, h.2⟩) fun _ =>
          hrest.given And.left)
        (.later (checkContract_keeps cx ret c) (.contracts id r))
  | function cx i d name =>
    refine hcheck (m := checkFunction cx i d name) (Q := fun _ => True) ?_ rfl fun h => h
    simp only [calls, checkFunction]
    cases d.body with
    | none => simp
    | some body =>
      cases hsig : i.signatures.get? name with
      | none => simp
      | some sig =>
        have hinside : cx.Over U ∧ i.Over U →
            (bodyContext cx d name sig).Over U ∧ sig.ret.Over U := fun h =>
          ⟨h.1.body d name (h.2.signatures name sig hsig), (h.2.signatures name sig hsig).ret⟩
        have hcontracts := (Keeps.forM (checkContract_keeps (U := U) (bodyContext cx d name sig)
          sig.ret) d.contracts).given hinside
        have hend : ∀ (t : Ty) (span : Span), Keeps U ((cx.Over U ∧ i.Over U) ∧ t.Over U) (do
            constrain sig.ret t span .return
            recordGenerics name d.name.span sig.generics) fun _ => True :=
          fun t span => ((constrain_keeps _ _ _ _).given fun h =>
            ⟨(hinside h.1).2, h.2⟩).andThen fun _ => recordGenerics_keeps _ _ _
        exact forall_mem_pair
          (.left (.contracts hinside d.contracts) fun _ => ((inferBlock_keeps _ body).given
            fun h => (hinside h.1).1).bind fun _ => (hend _ _).given fun h => ⟨h.1.1, h.2⟩)
          (.later hcontracts (.left (.block (fun h => (hinside h).1) body) fun _ => hend _ _))
  | methods cx i typeName l =>
    cases l with
    | nil => simp [calls]
    | cons m r =>
      refine hcheck (m := (m :: r).forM fun m => checkFunction cx i m
        (typeName ++ "::" ++ m.name.node)) (Q := fun _ => True) ?_ rfl fun h => h
      exact forall_mem_pair
        (.left (.function id m _) fun _ => (Keeps.forM (fun _ => checkFunction_keeps cx i _ _)
          r).given And.left)
        (.later (checkFunction_keeps cx i m _) (.methods id typeName r))
  | items cx i targets l =>
    exact hcheck (m := checkBodies cx i targets l) (itemCalls_within cx i s targets l) rfl
      fun h => h

end Task

/-- Nothing that a task finds when it starts is lost in a task inside it, and nothing that it
leaves is lost in the task around it. -/
theorem Reaches.grows {a b : Task × Session} (h : Reaches a b) :
    Grows a.2 b.2 ∧ Grows (b.1.after b.2) (a.1.after a.2) := by
  induction h with
  | refl => exact ⟨.refl _, .refl _⟩
  | @tail b c _ hcall ih =>
    have hcalls := b.1.calls_enclosed (fun _ => True) b.2 c hcall
    exact ⟨ih.1.trans hcalls.before, hcalls.rest.trans ih.2⟩

/-- A task inside starts in the set that the task around is in. -/
theorem Reaches.start {U : Nat → Prop} {a b : Task × Session} (h : Reaches a b)
    (hover : a.1.Over U) {τ : Subst} (ha : a.2.Confined U τ) (htakes : Takes U a.2 b.2) :
    b.2.Confined U τ ∧ b.1.Over U := by
  induction h with
  | refl => exact ⟨ha, hover⟩
  | @tail b c hab hcall ih =>
    have hcalls := b.1.calls_enclosed U b.2 c hcall
    obtain ⟨hb, hbover⟩ := ih (htakes.left hcalls.before)
    exact hcalls.start hbover τ hb (htakes.right (Reaches.grows hab).1)

/-- If a task inside is left in the set, so is the task around. By induction from the inside. -/
theorem Reaches.resume {U : Nat → Prop} {a b : Task × Session} (h : Reaches a b)
    (hover : a.1.Over U) {σ τ : Subst} (ha : a.2.Confined U σ) (htakes : Takes U a.2 b.2)
    (hb : (b.1.after b.2).Confined U τ) (hgives : b.1.Gives U b.2)
    (hrest : Takes U (b.1.after b.2) (a.1.after a.2)) :
    (a.1.after a.2).Confined U τ ∧ a.1.Gives U a.2 := by
  induction h using Relation.ReflTransGen.head_induction_on with
  | refl => exact ⟨hb, hgives⟩
  | @head a c hcall hcb ih =>
    have hcalls := a.1.calls_enclosed U a.2 c hcall
    have hinner := Reaches.grows hcb
    obtain ⟨hc, hcover⟩ := hcalls.start hover σ ha (htakes.left hinner.1)
    obtain ⟨hleft, hcgives⟩ := ih hcover hc (htakes.right hcalls.before) (hrest.left hcalls.rest)
    exact hcalls.resume hover σ τ ha (htakes.left hinner.1) hleft hcgives
      (hrest.right hinner.2)

end Sema
