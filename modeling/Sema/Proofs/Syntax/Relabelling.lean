import Mathlib.Logic.Basic
import Sema.Syntax.Walk

/-!
# What relabelling does

To relabel a tree is one recursion over its syntax and to list its nodes is another. Relabelling
asks for an identity for each node of the list, in the order of the list and once, and gives the
same tree with these identities in their places and nothing else changed. This holds whatever the
function that chooses the identities does on the side.
-/

namespace Sema

mutual

/-- The expression with the identity zero at every node. -/
def Expr.unlabelled : Expr → Expr
  | ⟨_, span, kind⟩ => ⟨0, span, kind.unlabelled⟩

def ExprKind.unlabelled : ExprKind → ExprKind
  | .literal lit => .literal lit
  | .ident name => .ident name
  | .path segments => .path segments
  | .binary op left right => .binary op left.unlabelled right.unlabelled
  | .unary op operand => .unary op operand.unlabelled
  | .call callee args => .call callee.unlabelled (unlabelledAll args)
  | .methodCall receiver method args =>
    .methodCall receiver.unlabelled method (unlabelledAll args)
  | .field base field => .field base.unlabelled field
  | .index base index => .index base.unlabelled index.unlabelled
  | .ifThen cond thenBranch elseBranch =>
    .ifThen cond.unlabelled thenBranch.unlabelled (unlabelledOption elseBranch)
  | .matchOn scrutinee arms => .matchOn scrutinee.unlabelled (unlabelledArms arms)
  | .block body => .block body.unlabelled
  | .lambda params ret body isMove => ExprKind.lambda params ret body.unlabelled isMove
  | .tuple elems => .tuple (unlabelledAll elems)
  | .array elems => .array (unlabelledAll elems)
  | .structLit name fields base => .structLit name (unlabelledInits fields) (unlabelledOption base)
  | .cast e ty => ExprKind.cast e.unlabelled ty
  | .tryOp e => .tryOp e.unlabelled
  | .await e => .await e.unlabelled
  | .whileLoop cond body => .whileLoop cond.unlabelled body.unlabelled
  | .loop body => .loop body.unlabelled
  | .forLoop pattern iterable body => .forLoop pattern iterable.unlabelled body.unlabelled
  | .range start stop inclusive =>
    .range (unlabelledOption start) (unlabelledOption stop) inclusive

def unlabelledOption : Option Expr → Option Expr
  | some e => some e.unlabelled
  | none => none

def unlabelledAll : List Expr → List Expr
  | [] => []
  | e :: r => e.unlabelled :: unlabelledAll r

def unlabelledArms : List MatchArm → List MatchArm
  | [] => []
  | ⟨span, pattern, guard, body⟩ :: r =>
    ⟨span, pattern, unlabelledOption guard, body.unlabelled⟩ :: unlabelledArms r

def unlabelledInits : List FieldInit → List FieldInit
  | [] => []
  | ⟨span, name, value⟩ :: r => ⟨span, name, value.unlabelled⟩ :: unlabelledInits r

def Block.unlabelled : Block → Block
  | ⟨span, stmts, tail⟩ => ⟨span, unlabelledStmts stmts, unlabelledOption tail⟩

def Stmt.unlabelled : Stmt → Stmt
  | .letBind span pattern ty value mutable =>
    .letBind span pattern ty (unlabelledOption value) mutable
  | .assign span target value => .assign span target.unlabelled value.unlabelled
  | .expr e => .expr e.unlabelled
  | .ret span value => .ret span (unlabelledOption value)
  | .brk span value => .brk span (unlabelledOption value)
  | .cont span => .cont span

def unlabelledStmts : List Stmt → List Stmt
  | [] => []
  | s :: r => s.unlabelled :: unlabelledStmts r

end

def Contract.unlabelled (c : Contract) : Contract :=
  { c with condition := c.condition.unlabelled }

def FunctionDef.unlabelled (d : FunctionDef) : FunctionDef :=
  { d with contracts := d.contracts.map (·.unlabelled), body := d.body.map (·.unlabelled) }

def Item.unlabelled : Item → Item
  | .function d => .function d.unlabelled
  | .const d => Item.const { d with value := d.value.unlabelled }
  | .trait d => Item.trait { d with methods := d.methods.map (·.unlabelled) }
  | .impl d => Item.impl { d with methods := d.methods.map (·.unlabelled) }
  | item => item

/-- The program without its identities: all of them are zero. -/
def Program.unlabelled (p : Program) : Program := { p with items := p.items.map (·.unlabelled) }

/-- The expressions of a part that may be absent. -/
def optionNodes : Option Expr → List Expr
  | some e => e.nodes
  | none => []

theorem range_nodes (start stop : Option Expr) (inclusive : Bool) :
    (ExprKind.range start stop inclusive).nodes = optionNodes start ++ optionNodes stop := by
  cases start <;> cases stop <;> rfl

theorem nodesArms_cons (arm : MatchArm) (r : List MatchArm) :
    nodesArms (arm :: r) = optionNodes arm.guard ++ arm.body.nodes ++ nodesArms r := by
  obtain ⟨_, _, guard, _⟩ := arm
  cases guard <;> rfl

/-- `fill` puts identities, in order, into the nodes that `view` lists. With those that are there
already nothing changes, and with others nothing that `plain` shows. -/
structure Filling {α β : Type} (view : α → List Expr) (plain : α → β) (a : α)
    (fill : List ExprId → α) : Prop where
  own : fill ((view a).map (·.id)) = a
  plain_eq : ∀ ids, ids.length = (view a).length → plain (fill ids) = plain a
  ids_eq : ∀ ids, ids.length = (view a).length → (view (fill ids)).map (·.id) = ids

section Fills

variable {M : Type → Type} [Monad M] [LawfulMonad M] (f : Expr → M ExprId)

/-- The computation asks `f` about the nodes of `a`, in order and once each, and fills in what `f`
chooses. -/
def Fills {α β : Type} (m : M α) (view : α → List Expr) (plain : α → β) (a : α) : Prop :=
  ∃ fill, Filling view plain a fill ∧ m = fill <$> (view a).mapM f

/-- What is done with the chosen identities may use that there are as many as nodes. -/
theorem mapM_bind_congr {γ : Type} {l : List Expr} {h k : List ExprId → M γ}
    (hk : ∀ ids, ids.length = l.length → h ids = k ids) : l.mapM f >>= h = l.mapM f >>= k := by
  induction l generalizing h k with
  | nil => simpa using hk []
  | cons e l ih =>
    simp only [List.mapM_cons, bind_assoc, pure_bind]
    congr 1
    funext id
    exact ih fun ids hids => hk (id :: ids) (congrArg (· + 1) hids)

namespace Fills

variable {f} {α β γ δ α' β' γ' δ' : Type} {view : α → List Expr} {plain : α → α'}
  {view' : β → List Expr} {plain' : β → β'} {view'' : γ → List Expr} {plain'' : γ → γ'}
  {shown : δ → List Expr} {forgotten : δ → δ'} {a : α} {b : β} {c : γ} {m : M α} {m' : M β}
  {m'' : M γ}

/-- What has no node has no identity to be filled in. -/
theorem pure (h : view a = []) : Fills f (pure a) view plain a := by
  refine ⟨fun _ => a, ⟨rfl, fun _ _ => rfl, fun ids hids => ?_⟩, ?_⟩
  · rw [h] at hids ⊢
    exact (List.eq_nil_of_length_eq_zero hids).symm
  · simp [h]

/-- A node with one part, with two, and with three. -/
theorem one {g : α → δ} (hm : Fills f m view plain a) (hview : ∀ a, shown (g a) = view a)
    (hplain : ∀ {x}, plain x = plain a → forgotten (g x) = forgotten (g a)) :
    Fills f (do return g (← m)) shown forgotten (g a) := by
  obtain ⟨fill, hfill, rfl⟩ := hm
  refine ⟨fun ids => g (fill ids), ⟨?_, fun ids hids => ?_, fun ids hids => ?_⟩, ?_⟩
  · rw [hview, hfill.own]
  · exact hplain (hfill.plain_eq ids (hview a ▸ hids))
  · exact (congrArg (List.map (·.id)) (hview _)).trans (hfill.ids_eq ids (hview a ▸ hids))
  · rw [hview]
    simp

theorem two {g : α → β → δ} (hm : Fills f m view plain a) (hm' : Fills f m' view' plain' b)
    (hview : ∀ a b, shown (g a b) = view a ++ view' b)
    (hplain : ∀ {x y}, plain x = plain a → plain' y = plain' b →
      forgotten (g x y) = forgotten (g a b)) :
    Fills f (do return g (← m) (← m')) shown forgotten (g a b) := by
  obtain ⟨fill, hfill, rfl⟩ := hm
  obtain ⟨fill', hfill', rfl⟩ := hm'
  have hlengths : ∀ ids : List ExprId, ids.length = (shown (g a b)).length →
      (ids.take (view a).length).length = (view a).length ∧
        (ids.drop (view a).length).length = (view' b).length := by
    intro ids hids
    rw [hview, List.length_append] at hids
    constructor
    · simp [hids]
    · simp [hids]
  refine ⟨fun ids => g (fill (ids.take (view a).length)) (fill' (ids.drop (view a).length)),
    ⟨?_, fun ids hids => ?_, fun ids hids => ?_⟩, ?_⟩
  · simp [hview, hfill.own, hfill'.own]
  · obtain ⟨hfirst, hsecond⟩ := hlengths ids hids
    exact hplain (hfill.plain_eq _ hfirst) (hfill'.plain_eq _ hsecond)
  · obtain ⟨hfirst, hsecond⟩ := hlengths ids hids
    rw [hview, List.map_append, hfill.ids_eq _ hfirst, hfill'.ids_eq _ hsecond,
      List.take_append_drop]
  · rw [hview, List.mapM_append]
    simp only [map_eq_pure_bind, bind_assoc, pure_bind]
    refine mapM_bind_congr f fun ids hids => ?_
    simp [← hids]

theorem three {g : α → β → γ → δ} (hm : Fills f m view plain a) (hm' : Fills f m' view' plain' b)
    (hm'' : Fills f m'' view'' plain'' c)
    (hview : ∀ a b c, shown (g a b c) = view a ++ view' b ++ view'' c)
    (hplain : ∀ {x y z}, plain x = plain a → plain' y = plain' b → plain'' z = plain'' c →
      forgotten (g x y z) = forgotten (g a b c)) :
    Fills f (do return g (← m) (← m') (← m'')) shown forgotten (g a b c) := by
  have hpair : Fills f (do return (← m, ← m')) (fun x => view x.1 ++ view' x.2)
      (Prod.map plain plain') (a, b) :=
    hm.two hm' (fun _ _ => rfl) fun h h' => Prod.ext h h'
  have hall : Fills f (do
      let x ← (do return (← m, ← m') : M (α × β))
      return g x.1 x.2 (← m'')) shown forgotten (g a b c) :=
    hpair.two hm'' (fun _ _ => hview _ _ _)
      fun h h' => hplain (congrArg Prod.fst h) (congrArg Prod.snd h) h'
  simpa using hall

theorem present {e : Expr} {m : M Expr} (h : Fills f m Expr.nodes Expr.unlabelled e) :
    Fills f (some <$> m) optionNodes unlabelledOption (some e) := by
  rw [map_eq_pure_bind]
  exact h.one (fun _ => rfl) (congrArg some)

theorem absent : Fills f (Pure.pure none) optionNodes unlabelledOption none := .pure rfl

/-- Parts one after the other. -/
theorem mapM {h : α → M α} (hh : ∀ a, Fills f (h a) view plain a) (l : List α) :
    Fills f (l.mapM h) (List.flatMap view) (List.map plain) l := by
  induction l with
  | nil => exact .pure rfl
  | cons a l ih =>
    rw [List.mapM_cons]
    exact (hh a).two ih (fun _ _ => rfl) fun h h' => congrArg₂ List.cons h h'

end Fills

end Fills

section Syntax

variable {M : Type → Type} [Monad M] [LawfulMonad M] (f : Expr → M ExprId)

mutual

theorem expr_fills : (e : Expr) → Fills f (e.relabel f) Expr.nodes Expr.unlabelled e
  | ⟨id, span, kind⟩ => by
    obtain ⟨fill, hfill, hlaw⟩ := kind_fills kind
    refine ⟨fun ids => ⟨ids.headD 0, span, fill ids.tail⟩, ⟨?_, ?_, ?_⟩, ?_⟩
    · exact congrArg (Expr.mk id span) hfill.own
    · rintro (_ | ⟨_, ids⟩) hids
      · cases hids
      · exact congrArg (Expr.mk 0 span) (hfill.plain_eq ids (Nat.succ.inj hids))
    · rintro (_ | ⟨chosen, ids⟩) hids
      · cases hids
      · exact congrArg (chosen :: ·) (hfill.ids_eq ids (Nat.succ.inj hids))
    · rw [Expr.relabel, hlaw, Expr.nodes, List.mapM_cons]
      simp

theorem kind_fills : (k : ExprKind) →
    Fills f (k.relabel f) ExprKind.nodes ExprKind.unlabelled k
  | .literal _ => .pure rfl
  | .ident _ => .pure rfl
  | .path _ => .pure rfl
  | .binary op left right =>
    (expr_fills left).two (expr_fills right) (fun _ _ => rfl) (congrArg₂ (ExprKind.binary op))
  | .unary op operand => (expr_fills operand).one (fun _ => rfl) (congrArg (ExprKind.unary op))
  | .call callee args =>
    (expr_fills callee).two (exprs_fill args) (fun _ _ => rfl) (congrArg₂ ExprKind.call)
  | .methodCall receiver method args =>
    (expr_fills receiver).two (exprs_fill args) (fun _ _ => rfl)
      (congrArg₂ fun r l => ExprKind.methodCall r method l)
  | .field base name => (expr_fills base).one (fun _ => rfl) (congrArg fun e => ExprKind.field e name)
  | .index base i => (expr_fills base).two (expr_fills i) (fun _ _ => rfl) (congrArg₂ ExprKind.index)
  | .ifThen cond thenBranch (some other) =>
    (expr_fills cond).three (block_fills thenBranch) (expr_fills other) (fun _ _ _ => rfl)
      fun hc hb ho => by simp only [ExprKind.unlabelled, unlabelledOption, hc, hb, ho]
  | .ifThen cond thenBranch none =>
    (expr_fills cond).two (block_fills thenBranch) (fun _ _ => List.append_nil _)
      (congrArg₂ fun c b => ExprKind.ifThen c b none)
  | .matchOn scrutinee arms =>
    (expr_fills scrutinee).two (arms_fill arms) (fun _ _ => rfl) (congrArg₂ ExprKind.matchOn)
  | .block body => (block_fills body).one (fun _ => rfl) (congrArg ExprKind.block)
  | .lambda params ret body isMove =>
    (expr_fills body).one (fun _ => rfl) (congrArg fun e => ExprKind.lambda params ret e isMove)
  | .tuple elems => (exprs_fill elems).one (fun _ => rfl) (congrArg ExprKind.tuple)
  | .array elems => (exprs_fill elems).one (fun _ => rfl) (congrArg ExprKind.array)
  | .structLit name fields (some base) =>
    (inits_fill fields).two (expr_fills base) (fun _ _ => rfl)
      (congrArg₂ fun l e => ExprKind.structLit name l (some e))
  | .structLit name fields none =>
    (inits_fill fields).one (fun _ => List.append_nil _)
      (congrArg fun l => ExprKind.structLit name l none)
  | .cast e ty => (expr_fills e).one (fun _ => rfl) (congrArg fun e => ExprKind.cast e ty)
  | .tryOp e => (expr_fills e).one (fun _ => rfl) (congrArg ExprKind.tryOp)
  | .await e => (expr_fills e).one (fun _ => rfl) (congrArg ExprKind.await)
  | .whileLoop cond body =>
    (expr_fills cond).two (block_fills body) (fun _ _ => rfl) (congrArg₂ ExprKind.whileLoop)
  | .loop body => (block_fills body).one (fun _ => rfl) (congrArg ExprKind.loop)
  | .forLoop pattern iterable body =>
    (expr_fills iterable).two (block_fills body) (fun _ _ => rfl) (congrArg₂ (ExprKind.forLoop pattern))
  | .range (some start) (some stop) inclusive =>
    (expr_fills start).present.two (expr_fills stop).present (fun _ _ => range_nodes _ _ _)
      (congrArg₂ fun a b => ExprKind.range a b inclusive)
  | .range (some start) none inclusive =>
    (expr_fills start).present.two .absent (fun _ _ => range_nodes _ _ _)
      (congrArg₂ fun a b => ExprKind.range a b inclusive)
  | .range none (some stop) inclusive =>
    Fills.absent.two (expr_fills stop).present (fun _ _ => range_nodes _ _ _)
      (congrArg₂ fun a b => ExprKind.range a b inclusive)
  | .range none none inclusive =>
    Fills.absent.two .absent (fun _ _ => range_nodes _ _ _)
      (congrArg₂ fun a b => ExprKind.range a b inclusive)

theorem exprs_fill : (l : List Expr) → Fills f (relabelAll f l) nodesAll unlabelledAll l
  | [] => .pure rfl
  | e :: r => (expr_fills e).two (exprs_fill r) (fun _ _ => rfl) (congrArg₂ List.cons)

theorem arms_fill : (l : List MatchArm) → Fills f (relabelArms f l) nodesArms unlabelledArms l
  | [] => .pure rfl
  | ⟨span, pattern, some g, body⟩ :: r =>
    (expr_fills g).present.three (expr_fills body) (arms_fill r) (fun _ _ _ => nodesArms_cons _ _)
      fun hg hb hr => by simp only [unlabelledArms, hg, hb, hr]
  | ⟨span, pattern, none, body⟩ :: r =>
    Fills.absent.three (expr_fills body) (arms_fill r) (fun _ _ _ => nodesArms_cons _ _)
      fun hg hb hr => by simp only [unlabelledArms, hg, hb, hr]

theorem inits_fill : (l : List FieldInit) →
    Fills f (relabelInits f l) nodesInits unlabelledInits l
  | [] => .pure rfl
  | ⟨span, name, value⟩ :: r =>
    (expr_fills value).two (inits_fill r) (fun _ _ => rfl)
      (congrArg₂ fun e l => FieldInit.mk span name e :: l)

theorem block_fills : (b : Block) → Fills f (b.relabel f) Block.nodes Block.unlabelled b
  | ⟨span, stmts, some e⟩ =>
    (stmts_fill stmts).two (expr_fills e) (fun _ _ => rfl)
      (congrArg₂ fun l e => Block.mk span l (some e))
  | ⟨span, stmts, none⟩ =>
    (stmts_fill stmts).one (fun _ => List.append_nil _) (congrArg fun l => Block.mk span l none)

theorem stmt_fills : (s : Stmt) → Fills f (s.relabel f) Stmt.nodes Stmt.unlabelled s
  | .letBind span pattern ty (some e) mutable =>
    (expr_fills e).one (fun _ => rfl) (congrArg fun e => Stmt.letBind span pattern ty (some e) mutable)
  | .letBind _ _ _ none _ => .pure rfl
  | .assign span target value =>
    (expr_fills target).two (expr_fills value) (fun _ _ => rfl) (congrArg₂ (Stmt.assign span))
  | .expr e => (expr_fills e).one (fun _ => rfl) (congrArg Stmt.expr)
  | .ret span (some e) => (expr_fills e).one (fun _ => rfl) (congrArg fun e => Stmt.ret span (some e))
  | .ret _ none => .pure rfl
  | .brk span (some e) => (expr_fills e).one (fun _ => rfl) (congrArg fun e => Stmt.brk span (some e))
  | .brk _ none => .pure rfl
  | .cont _ => .pure rfl

theorem stmts_fill : (l : List Stmt) → Fills f (relabelStmts f l) nodesStmts unlabelledStmts l
  | [] => .pure rfl
  | s :: r => (stmt_fills s).two (stmts_fill r) (fun _ _ => rfl) (congrArg₂ List.cons)

end

theorem contract_fills : (c : Contract) →
    Fills f (c.relabel f) (fun c => c.condition.nodes) Contract.unlabelled c
  | ⟨span, kind, condition⟩ =>
    (expr_fills f condition).one (fun _ => rfl) (congrArg (Contract.mk span kind))

theorem function_fills (d : FunctionDef) :
    Fills f (d.relabel f) FunctionDef.nodes FunctionDef.unlabelled d := by
  obtain ⟨span, name, generics, params, ret, effects, contracts, body, isAsync⟩ := d
  have hcontracts := Fills.mapM (contract_fills f) contracts
  cases body with
  | some b =>
    exact hcontracts.two (block_fills f b) (fun _ _ => rfl) (congrArg₂ fun l b =>
      FunctionDef.mk span name generics params ret effects l (some b) isAsync)
  | none =>
    exact hcontracts.one (fun _ => List.append_nil _) (congrArg fun l =>
      FunctionDef.mk span name generics params ret effects l none isAsync)

theorem item_fills (i : Item) : Fills f (i.relabel f) Item.nodes Item.unlabelled i := by
  cases i with
  | function d => exact (function_fills f d).one (fun _ => rfl) (congrArg Item.function)
  | const d =>
    exact (expr_fills f d.value).one (g := fun e => Item.const { d with value := e }) (fun _ => rfl)
      (congrArg fun e => Item.const { d with value := e })
  | trait d =>
    exact (Fills.mapM (function_fills f) d.methods).one
      (g := fun l => Item.trait { d with methods := l }) (fun _ => rfl)
      (congrArg fun l => Item.trait { d with methods := l })
  | impl d =>
    exact (Fills.mapM (function_fills f) d.methods).one
      (g := fun l => Item.impl { d with methods := l }) (fun _ => rfl)
      (congrArg fun l => Item.impl { d with methods := l })
  | _ => exact .pure rfl

/-- To relabel a program is to ask about its nodes in order and to fill in the answers. -/
theorem program_fills : (p : Program) →
    Fills f (p.relabel f) Program.nodes Program.unlabelled p
  | ⟨span, items⟩ =>
    (Fills.mapM (item_fills f) items).one (fun _ => rfl) (congrArg (Program.mk span))

end Syntax

end Sema
