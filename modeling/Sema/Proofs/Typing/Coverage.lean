import Sema.Proofs.Typing.Walk

/-!
# What the walk comes to

Every call is for a smaller piece of syntax, and the calls of a task have all the expressions of
the task between them; so every expression that is checked is the task of some reachable pair.
The context changes on the way, but the declared types stay the same.
-/

namespace Sema

/-- The expressions that the third pass visits. -/
def itemNodes (i : Interface) : List ImplTarget → List Item → List Expr
  | _, [] => []
  | targets, .function d :: r =>
    (if i.signatures.contains d.name.node then d.checked else []) ++ itemNodes i targets r
  | targets, .const d :: r => d.value.nodes ++ itemNodes i targets r
  | target :: rest, .impl b :: r => methodNodes i target.typeName b.methods ++ itemNodes i rest r
  | [], .impl _ :: r => itemNodes i [] r
  | targets, .trait d :: r => methodNodes i d.name.node d.methods ++ itemNodes i targets r
  | targets, .struct _ :: r | targets, .enum _ :: r | targets, .typeAlias _ :: r
  | targets, .imports _ :: r => itemNodes i targets r
where
  methodNodes (i : Interface) (typeName : String) (l : List FunctionDef) : List Expr :=
    l.flatMap fun m =>
      if i.signatures.contains (typeName ++ "::" ++ m.name.node) then m.checked else []

namespace Task

/-- The expressions that the task visits. -/
def nodes : Task → List Expr
  | expr _ e => e.nodes
  | exprs _ l => nodesAll l
  | elems _ _ _ l => nodesAll l
  | values _ l => nodesInits l
  | inits _ _ _ _ l => nodesInits l
  | arms _ _ _ l => nodesArms l
  | block _ b => b.nodes
  | stmts _ l => nodesStmts l
  | stmt _ s => s.nodes
  | contracts _ _ l => l.flatMap (·.condition.nodes)
  | function _ i d name => if i.signatures.contains name then d.checked else []
  | methods _ i typeName l => itemNodes.methodNodes i typeName l
  | items _ i targets l => itemNodes i targets l

/-- The size of the syntax that the task goes through. -/
noncomputable def size : Task → Nat
  | expr _ e => sizeOf e
  | exprs _ l => sizeOf l
  | elems _ _ _ l => sizeOf l
  | values _ l => sizeOf l
  | inits _ _ _ _ l => sizeOf l
  | arms _ _ _ l => sizeOf l
  | block _ b => sizeOf b
  | stmts _ l => sizeOf l
  | stmt _ s => sizeOf s
  | contracts _ _ l => sizeOf l
  | function _ _ d _ => sizeOf d
  | methods _ _ _ l => sizeOf l
  | items _ _ _ l => sizeOf l

theorem optionCall_size (cx : Context) (s : Session) (e : Option Expr) :
    ∀ x ∈ optionCall cx s e, x.1.size < sizeOf e := by
  cases e <;> simp [optionCall, size]

theorem kindCalls_size (cx : Context) (s : Session) (k : ExprKind) :
    ∀ x ∈ k.calls cx s, x.1.size < sizeOf k := by
  cases k with
  | structLit name fields base =>
    simp only [ExprKind.calls]
    split <;> cases base <;> simp [optionCall, size] <;> omega
  | ifThen cond thenBranch elseBranch =>
    cases elseBranch <;> simp [ExprKind.calls, optionCall, size] <;> omega
  | range start stop inclusive =>
    cases start <;> cases stop <;> simp [ExprKind.calls, optionCall, size] <;> omega
  | _ => simp [ExprKind.calls, size] <;> omega

theorem stmtCalls_size (cx : Context) (s : Session) (st : Stmt) :
    ∀ x ∈ st.calls cx s, x.1.size < sizeOf st := by
  cases st with
  | letBind span pattern ty value mutable =>
    exact fun x hx => (optionCall_size cx s value x hx).trans (by simp)
  | ret span value => exact fun x hx => (optionCall_size cx s value x hx).trans (by simp)
  | brk span value => exact fun x hx => (optionCall_size cx s value x hx).trans (by simp)
  | _ => simp [Stmt.calls, size] <;> omega

theorem itemCalls_size (cx : Context) (i : Interface) (s : Session) (targets : List ImplTarget)
    (l : List Item) : ∀ x ∈ itemCalls cx i s targets l, x.1.size < sizeOf l := by
  cases l with
  | nil => simp [itemCalls]
  | cons item r =>
    cases item with
    | impl b =>
      obtain ⟨span, generics, target, traitName, methods⟩ := b
      cases targets with
      | nil => simp [itemCalls, size]
      | cons target rest =>
        simp [itemCalls, size]
        omega
    | trait d =>
      obtain ⟨span, name, generics, methods, superTraits⟩ := d
      simp [itemCalls, size]
      omega
    | const d =>
      obtain ⟨span, name, ty, value⟩ := d
      simp [itemCalls, size]
      omega
    | _ => simp [itemCalls, size] <;> omega

/-- Every call is for a smaller piece of syntax. -/
theorem calls_size (t : Task) (s : Session) : ∀ x ∈ t.calls s, x.1.size < t.size := by
  cases t with
  | expr cx e =>
    obtain ⟨id, span, kind⟩ := e
    intro x hx
    have hkind := kindCalls_size cx s kind x hx
    have hsize : (expr cx ⟨id, span, kind⟩).size = 1 + sizeOf id + sizeOf span + sizeOf kind := by
      simp [size]
    omega
  | stmt cx st => exact stmtCalls_size cx s st
  | items cx i targets l => exact itemCalls_size cx i s targets l
  | block cx b =>
    obtain ⟨span, l, tail⟩ := b
    cases tail with
    | none => simp [calls, optionCall, size]
    | some e =>
      simp [calls, optionCall, size]
      omega
  | function cx i d name =>
    obtain ⟨span, ident, generics, params, ret, effects, contracts, body, isAsync⟩ := d
    simp only [calls]
    cases body with
    | none => simp
    | some body =>
      cases i.signatures.get? name with
      | none => simp
      | some sig =>
        simp [size]
        omega
  | arms cx t result l =>
    cases l with
    | nil => simp [calls, armCalls]
    | cons arm r =>
      obtain ⟨span, pattern, guard, body⟩ := arm
      cases guard <;> simp [calls, armCalls, optionCall, size] <;> omega
  | values cx l =>
    cases l with
    | nil => simp [calls]
    | cons init r =>
      obtain ⟨span, name, value⟩ := init
      simp [calls, size]
      omega
  | inits cx d struct seen l =>
    cases l with
    | nil => simp [calls]
    | cons init r =>
      obtain ⟨span, name, value⟩ := init
      simp [calls, size]
      omega
  | contracts cx ret l =>
    cases l with
    | nil => simp [calls]
    | cons c r =>
      obtain ⟨span, kind, condition⟩ := c
      simp [calls, size]
      omega
  | exprs cx l =>
    cases l with
    | nil => simp [calls]
    | cons e r =>
      simp [calls, size]
      omega
  | elems cx elem origin l =>
    cases l with
    | nil => simp [calls]
    | cons e r =>
      simp [calls, size]
      omega
  | stmts cx l =>
    cases l with
    | nil => simp [calls]
    | cons e r =>
      simp [calls, size]
      omega
  | methods cx i typeName l =>
    cases l with
    | nil => simp [calls]
    | cons e r =>
      simp [calls, size]
      omega

/-- The expression that the task is for, if it is for one. -/
def own : Task → List Expr
  | expr _ e => [e]
  | _ => []

theorem kindCalls_nodes (cx : Context) (s : Session) (k : ExprKind) :
    (k.calls cx s).flatMap (·.1.nodes) = k.nodes := by
  cases k with
  | structLit name fields base =>
    simp only [ExprKind.calls]
    split <;> cases base <;> simp [optionCall, nodes, ExprKind.nodes]
  | ifThen cond thenBranch elseBranch =>
    cases elseBranch <;> simp [ExprKind.calls, optionCall, nodes, ExprKind.nodes]
  | range start stop inclusive =>
    cases start <;> cases stop <;> simp [ExprKind.calls, optionCall, nodes, ExprKind.nodes]
  | _ => simp [ExprKind.calls, nodes, ExprKind.nodes]

theorem stmtCalls_nodes (cx : Context) (s : Session) (st : Stmt) :
    (st.calls cx s).flatMap (·.1.nodes) = st.nodes := by
  cases st with
  | letBind span pattern ty value mutable =>
    cases value <;> simp [Stmt.nodes, Stmt.calls, optionCall, nodes]
  | ret span value => cases value <;> simp [Stmt.nodes, Stmt.calls, optionCall, nodes]
  | brk span value => cases value <;> simp [Stmt.nodes, Stmt.calls, optionCall, nodes]
  | _ => simp [Stmt.nodes, Stmt.calls, nodes]

theorem itemCalls_nodes (cx : Context) (i : Interface) (s : Session)
    (targets : List ImplTarget) (l : List Item) :
    (itemCalls cx i s targets l).flatMap (·.1.nodes) = itemNodes i targets l := by
  cases l with
  | nil => simp [itemNodes, itemCalls]
  | cons item r =>
    cases item with
    | impl b => cases targets <;> simp [itemNodes, itemCalls, nodes]
    | _ => simp [itemNodes, itemCalls, nodes]

theorem functionCalls_nodes (cx : Context) (i : Interface) (s : Session) (d : FunctionDef)
    (name : String) : ((function cx i d name).calls s).flatMap (·.1.nodes) =
      (function cx i d name).nodes := by
  simp only [nodes, FunctionDef.checked, calls]
  cases hbody : d.body with
  | none => simp
  | some body =>
    cases hsig : i.signatures.get? name with
    | none => simp [Table.contains, hsig]
    | some sig => simp [Table.contains, hsig]

/-- A task visits its own expression, and then what its calls visit, in the order of the calls. -/
theorem nodes_eq (t : Task) (s : Session) :
    t.nodes = t.own ++ (t.calls s).flatMap (·.1.nodes) := by
  cases t with
  | expr cx e =>
    obtain ⟨id, span, kind⟩ := e
    rw [nodes, Expr.nodes]
    exact congrArg _ (kindCalls_nodes cx s kind).symm
  | stmt cx st => exact (stmtCalls_nodes cx s st).symm
  | items cx i targets l => exact (itemCalls_nodes cx i s targets l).symm
  | function cx i d name => exact (functionCalls_nodes cx i s d name).symm
  | block cx b =>
    obtain ⟨span, l, tail⟩ := b
    cases tail <;> simp [nodes, own, Block.nodes, calls, optionCall]
  | arms cx t result l =>
    cases l with
    | nil => simp [nodes, own, nodesArms, calls, armCalls]
    | cons arm r =>
      obtain ⟨span, pattern, guard, body⟩ := arm
      cases guard <;> simp [nodes, own, nodesArms, calls, armCalls, optionCall]
  | values cx l =>
    cases l with
    | nil => simp [nodes, own, nodesInits, calls]
    | cons init r =>
      obtain ⟨span, name, value⟩ := init
      simp [nodes, own, nodesInits, calls]
  | inits cx e struct seen l =>
    cases l with
    | nil => simp [nodes, own, nodesInits, calls]
    | cons init r =>
      obtain ⟨span, name, value⟩ := init
      simp [nodes, own, nodesInits, calls]
  | exprs cx l => cases l <;> simp [nodes, own, nodesAll, calls]
  | elems cx elem origin l => cases l <;> simp [nodes, own, nodesAll, calls]
  | stmts cx l => cases l <;> simp [nodes, own, nodesStmts, calls]
  | contracts cx ret l => cases l <;> simp [nodes, own, calls]
  | methods cx i typeName l => cases l <;> simp [nodes, own, itemNodes.methodNodes, calls]

theorem mem_own {t : Task} {d : Expr} (h : d ∈ t.own) : ∃ cx, t = .expr cx d := by
  cases t with
  | expr cx e => exact ⟨cx, by rw [List.mem_singleton.mp h]⟩
  | _ => exact absurd h List.not_mem_nil

/-- Every expression that a task visits is inferred inside it. By induction on the size of the
syntax. -/
theorem reaches_nodes (t : Task) (s : Session) (d : Expr) (hd : d ∈ t.nodes) :
    ∃ cx r, Reaches (t, s) (.expr cx d, r) := by
  induction hn : t.size using Nat.strongRecOn generalizing t s with
  | ind n ih =>
    rw [t.nodes_eq s, List.mem_append, List.mem_flatMap] at hd
    rcases hd with hown | ⟨x, hx, hdx⟩
    · obtain ⟨cx, rfl⟩ := mem_own hown
      exact ⟨cx, s, .refl⟩
    · obtain ⟨cx, r, hreach⟩ := ih _ (hn ▸ t.calls_size s x hx) x.1 x.2 hdx rfl
      exact ⟨cx, r, .head hx hreach⟩

/-- The calls of a task visit nothing but what the task visits. -/
theorem calls_nodes (t : Task) (s : Session) : ∀ x ∈ t.calls s, x.1.nodes ⊆ t.nodes := by
  intro x hx d hd
  rw [t.nodes_eq s]
  exact List.mem_append_right _ (List.mem_flatMap.mpr ⟨x, hx, hd⟩)

end Task

/-- Nothing else is visited on a walk. -/
theorem Reaches.nodes_subset {a b : Task × Session} (h : Reaches a b) :
    b.1.nodes ⊆ a.1.nodes := by
  induction h with
  | refl => exact fun _ hd => hd
  | @tail x y _ hxy ih => exact List.Subset.trans (x.1.calls_nodes x.2 y hxy) ih

/-- The third pass visits what is checked of the items that the second has declared. -/
theorem itemNodes_of_declares {i : Interface} {targets : List ImplTarget} {items : List Item}
    (h : i.Declares targets items) : itemNodes i targets items = items.flatMap (·.checked) := by
  have hmethods : ∀ {typeName l}, i.HasMethods typeName l →
      itemNodes.methodNodes i typeName l = l.flatMap (·.checked) := by
    intro typeName l hl
    simp only [itemNodes.methodNodes, List.flatMap]
    exact congrArg List.flatten (List.map_congr_left fun m hm => if_pos (hl m hm))
  induction h with
  | nil => rfl
  | @cons targets rest item items hitem _ ih =>
    cases item with
    | function d =>
      obtain ⟨rfl, hd⟩ := hitem
      simp [itemNodes, Item.checked, hd, ih]
    | impl b =>
      obtain ⟨target, rfl, hb⟩ := hitem
      simp [itemNodes, Item.checked, hmethods hb, ih]
    | trait d =>
      obtain ⟨rfl, hd⟩ := hitem
      simp [itemNodes, Item.checked, hmethods hd, ih]
    | _ =>
      obtain rfl := hitem
      simp [itemNodes, Item.checked, ih]

/-- The context that a task is run in. -/
def Task.context : Task → Context
  | .expr cx _ | .exprs cx _ | .elems cx _ _ _ | .values cx _ | .inits cx _ _ _ _
  | .arms cx _ _ _ | .block cx _ | .stmts cx _ | .stmt cx _ | .contracts cx _ _
  | .function cx _ _ _ | .methods cx _ _ _ | .items cx _ _ _ => cx

/-- Two contexts with the same declarations and the same catalog. -/
def Context.SameTypes (cx cy : Context) : Prop :=
  cx.scope.decls = cy.scope.decls ∧ cx.scope.catalog = cy.scope.catalog

namespace Task

theorem optionCall_sameTypes {cx cy : Context} (h : cy.SameTypes cx) (s : Session)
    (e : Option Expr) : ∀ x ∈ optionCall cy s e, x.1.context.SameTypes cx := by
  cases e <;> simp [optionCall, context, h]

theorem kindCalls_sameTypes (cx : Context) (s : Session) (k : ExprKind) :
    ∀ x ∈ k.calls cx s, x.1.context.SameTypes cx := by
  have hself : cx.SameTypes cx := ⟨rfl, rfl⟩
  cases k with
  | structLit name fields base =>
    simp only [ExprKind.calls]
    split <;> exact List.forall_mem_cons.mpr ⟨⟨rfl, rfl⟩, optionCall_sameTypes hself _ base⟩
  | ifThen cond thenBranch elseBranch =>
    have helse := fun s => optionCall_sameTypes hself s elseBranch
    simpa [ExprKind.calls, context, hself] using fun x y => helse _ (x, y)
  | range start stop inclusive =>
    exact List.forall_mem_append.mpr
      ⟨optionCall_sameTypes hself _ start, optionCall_sameTypes hself _ stop⟩
  | lambda params ret body span => exact List.forall_mem_singleton.mpr ⟨rfl, rfl⟩
  | loop body => exact List.forall_mem_singleton.mpr ⟨rfl, rfl⟩
  | whileLoop cond body => exact forall_mem_pair hself ⟨rfl, rfl⟩
  | forLoop pattern iterable body => exact forall_mem_pair hself ⟨rfl, rfl⟩
  | _ => simp [ExprKind.calls, context, hself]

theorem armCalls_sameTypes (cx : Context) (t result : Ty) (s : Session) (l : List MatchArm) :
    ∀ x ∈ armCalls cx t result s l, x.1.context.SameTypes cx := by
  cases l with
  | nil => simp [armCalls]
  | cons arm r =>
    obtain ⟨span, pattern, guard, body⟩ := arm
    exact List.forall_mem_append.mpr ⟨optionCall_sameTypes ⟨rfl, rfl⟩ _ guard,
      forall_mem_pair ⟨rfl, rfl⟩ ⟨rfl, rfl⟩⟩

theorem itemCalls_sameTypes (cx : Context) (i : Interface) (s : Session)
    (targets : List ImplTarget) (l : List Item) :
    ∀ x ∈ itemCalls cx i s targets l, x.1.context.SameTypes cx := by
  have hself : cx.SameTypes cx := ⟨rfl, rfl⟩
  cases l with
  | nil => simp [itemCalls]
  | cons item r =>
    cases item with
    | impl b =>
      cases targets with
      | nil => exact List.forall_mem_singleton.mpr hself
      | cons target rest => exact forall_mem_pair ⟨rfl, rfl⟩ hself
    | trait d => exact forall_mem_pair ⟨rfl, rfl⟩ hself
    | _ => simp [itemCalls, context, hself]

theorem calls_sameTypes (t : Task) (s : Session) :
    ∀ x ∈ t.calls s, x.1.context.SameTypes t.context := by
  cases t with
  | expr cx e =>
    obtain ⟨id, span, kind⟩ := e
    exact kindCalls_sameTypes cx s kind
  | arms cx t result l => exact armCalls_sameTypes cx t result s l
  | items cx i targets l => exact itemCalls_sameTypes cx i s targets l
  | stmt cx st =>
    have hself : cx.SameTypes cx := ⟨rfl, rfl⟩
    cases st with
    | letBind span pattern ty value mutable => exact optionCall_sameTypes hself s value
    | ret span value => exact optionCall_sameTypes hself s value
    | brk span value => exact optionCall_sameTypes hself s value
    | _ => simp [calls, Stmt.calls, context, hself]
  | block cx b =>
    obtain ⟨span, l, tail⟩ := b
    exact List.forall_mem_cons.mpr ⟨⟨rfl, rfl⟩, optionCall_sameTypes ⟨rfl, rfl⟩ _ tail⟩
  | function cx i d name =>
    simp only [calls]
    split
    · exact forall_mem_pair ⟨rfl, rfl⟩ ⟨rfl, rfl⟩
    · simp
  | contracts cx ret l =>
    cases l with
    | nil => simp [calls]
    | cons c r =>
      refine forall_mem_pair ?_ ⟨rfl, rfl⟩
      change (c.context cx ret).SameTypes cx
      unfold Contract.context
      split <;> exact ⟨rfl, rfl⟩
  | exprs cx l => cases l with
    | nil => simp [calls]
    | cons e r => exact forall_mem_pair ⟨rfl, rfl⟩ ⟨rfl, rfl⟩
  | elems cx elem origin l => cases l with
    | nil => simp [calls]
    | cons e r => exact forall_mem_pair ⟨rfl, rfl⟩ ⟨rfl, rfl⟩
  | values cx l => cases l with
    | nil => simp [calls]
    | cons init r =>
      obtain ⟨span, name, value⟩ := init
      exact forall_mem_pair ⟨rfl, rfl⟩ ⟨rfl, rfl⟩
  | inits cx d struct seen l => cases l with
    | nil => simp [calls]
    | cons init r =>
      obtain ⟨span, name, value⟩ := init
      exact forall_mem_pair ⟨rfl, rfl⟩ ⟨rfl, rfl⟩
  | stmts cx l => cases l with
    | nil => simp [calls]
    | cons e r => exact forall_mem_pair ⟨rfl, rfl⟩ ⟨rfl, rfl⟩
  | methods cx i typeName l => cases l with
    | nil => simp [calls]
    | cons e r => exact forall_mem_pair ⟨rfl, rfl⟩ ⟨rfl, rfl⟩

end Task

/-- The declarations and the catalog are the same everywhere on a walk. -/
theorem Reaches.sameTypes {a b : Task × Session} (h : Reaches a b) :
    b.1.context.SameTypes a.1.context := by
  induction h with
  | refl => exact ⟨rfl, rfl⟩
  | @tail x y _ hxy ih =>
    obtain ⟨hdecls, hcatalog⟩ := Task.calls_sameTypes x.1 x.2 y hxy
    exact ⟨hdecls.trans ih.1, hcatalog.trans ih.2⟩

section Program

variable (catalog : Catalog) (checkEffects : Bool) (p : Program)

/-- The walk over all bodies of a program, and the session it starts in. -/
def Program.walk : Task × Session :=
  (.items (p.context catalog checkEffects) (p.present catalog).1 (p.present catalog).1.impls
    p.items, (p.present catalog).2)

theorem Program.after_walk :
    (p.walk catalog checkEffects).1.after (p.walk catalog checkEffects).2 =
      p.visited catalog checkEffects := rfl

/-- Every expression that is checked is inferred on the walk. -/
theorem Program.reaches_checked {e : Expr} (he : e ∈ p.checked) :
    ∃ cx s, Reaches (p.walk catalog checkEffects) (.expr cx e, s) := by
  have hnodes : (p.walk catalog checkEffects).1.nodes = p.checked :=
    itemNodes_of_declares (p.present_declares catalog)
  exact Task.reaches_nodes _ _ e (hnodes ▸ he)

/-- And what is inferred there is an expression that is checked. -/
theorem Program.checked_of_reaches {cx : Context} {e : Expr} {s : Session}
    (h : Reaches (p.walk catalog checkEffects) (.expr cx e, s)) : e ∈ p.checked := by
  have hnodes : (p.walk catalog checkEffects).1.nodes = p.checked :=
    itemNodes_of_declares (p.present_declares catalog)
  have hself : e ∈ (Task.expr cx e).nodes := by
    obtain ⟨id, span, kind⟩ := e
    exact List.mem_cons_self
  exact hnodes ▸ h.nodes_subset hself

end Program

end Sema
