import Sema.Proofs.Typing.Scoping

/-!
# Inference stays in its scope

What a function of the checker infers, collects and leaves waiting is over any set of variables
that holds those of its context and those it takes. For a `let` this includes what is solved on
the way, and so the scheme that it binds.
-/

namespace Sema

section Bindings

variable {U : Nat → Prop} {P : Prop}

theorem generalizeBinding_run (cx : Context) (t : Ty) (r : Session) :
    (generalizeBinding cx t).run r =
      ((r.solver.solve r.constraints).failure.elim
        (.generalize (cx.rigidVars (Event.solve.apply r)) ((Event.solve.apply r).solver.apply t))
        fun _ => .mono t, Event.solve.apply r) := by
  have hpending : solvePending.run r =
      ((r.solver.solve r.constraints).failure, Event.solve.apply r) := rfl
  rw [generalizeBinding, StateT.run_bind, hpending]
  cases (r.solver.solve r.constraints).failure <;> rfl

/-- A solved session's solver has the solution. -/
theorem Session.Solved.subst_eq {s : Session} (h : s.Solved) : s.solver.subst = s.solution := by
  rw [Session.solution, ← h.2]

theorem Session.Confined.solve {τ : Subst} {s : Session} (h : s.Confined U τ) :
    (Event.solve.apply s).Confined U τ :=
  ⟨h.moves, h.deferred, (Event.solve.grows s).solving h.solving⟩

theorem Session.Confined.apply {τ : Subst} {s : Session} (h : s.Confined U τ) (hs : s.Solved)
    {t : Ty} (ht : t.Over U) : (s.solver.apply t).Over U := by
  rw [Solver.apply, hs.subst_eq]
  exact h.moves.closed.apply ht

theorem generalizeBinding_keeps (cx : Context) (t : Ty) :
    Keeps U (t.Over U) (generalizeBinding cx t) (Scheme.Over · U) where
  growing := (generalizeBinding_quiet cx t).growing
  keeps ht τ s hs _ := by
    rw [after, generalizeBinding_run]
    refine ⟨hs.solve, ?_⟩
    cases hfailure : (s.solver.solve s.constraints).failure with
    | some fault => exact Scheme.over_mono ht
    | none => exact Scheme.over_of_body (hs.solve.apply (hs.solving.solved hfailure) ht)

theorem bindLet_keeps (cx : Context) (pattern : Pattern) (t : Ty) (hasValue mutable : Bool) :
    Keeps U (cx.Over U ∧ t.Over U) (bindLet cx pattern t hasValue mutable) (Env.Over · U) := by
  unfold bindLet
  split
  · exact ((generalizeBinding_keeps cx t).given And.right).bind fun _ =>
      .pure fun h => h.1.1.env.bind _ h.2
  · exact (checkPattern_keeps cx pattern t).bind fun _ => .pure fun h => h.1.1.env.bindAll h.2

/-- The end of a `let` that declares a type. -/
theorem bindDeclared_keeps (cx : Context) (pattern : Pattern) (ty : TypeExpr) (actual : Ty)
    (span : Span) (mutable : Bool) : Keeps U (cx.Over U ∧ actual.Over U) (do
      let declared ← lower cx.scope ty
      constrain declared actual span .annotated
      bindLet cx pattern declared true mutable) (Env.Over · U) := by
  refine ((lower_keeps cx.scope ty).given fun h => h.1.scope).bind fun declared => ?_
  exact ((constrain_keeps _ _ _ _).given fun h => ⟨h.2, h.1.2⟩).andThen fun _ =>
    (bindLet_keeps cx pattern declared true mutable).given fun h => ⟨h.1.1, h.2⟩

theorem lookupName_keeps (cx : Context) (name : String) (missing : TypeFault) (span : Span) :
    Keeps U (cx.Over U) (lookupName cx name missing span) (·.Over U) := by
  unfold lookupName
  split
  · rename_i s hs
    exact (instantiate_keeps s).given fun h => h.env name s hs
  · exact reportFresh_keeps _ _

end Bindings

section Steps

variable {U : Nat → Prop} {P : Prop}

theorem binaryType_keeps (op : BinOp) (l r : Ty) (left right : Span) :
    Keeps U (l.Over U ∧ r.Over U) (binaryType op l r left right) (·.Over U) := by
  unfold binaryType
  split
  · exact ((constrain_keeps _ _ _ _).given fun h => ⟨Ty.over_bool, h.1⟩).andThen fun _ =>
      ((constrain_keeps _ _ _ _).given fun h => ⟨Ty.over_bool, h.2⟩).andThen fun _ =>
      .pure fun _ => Ty.over_bool
  · refine (constrain_keeps _ _ _ _).andThen fun _ => .pure fun h => ?_
    split
    · exact Ty.over_bool
    · exact h.1

theorem recordSite_keeps (cx : Context) (callee : Ty) (span : Span) :
    Keeps U P (recordSite cx callee span) fun _ => True := by
  refine .idle (recordSite_quiet cx callee span).growing fun s => ?_
  unfold recordSite
  split <;> exact ⟨rfl, rfl⟩

theorem callType_keeps (cx : Context) (callee : Ty) (args : List Ty) (span : Span) :
    Keeps U (callee.Over U ∧ ∀ t ∈ args, t.Over U) (callType cx callee args span) (·.Over U) := by
  refine fresh_keeps.bind fun ret => ?_
  refine ((constrain_keeps _ _ _ _).given fun h => ⟨h.1.1, Ty.over_fn.mpr ⟨h.1.2, h.2⟩⟩).andThen
    fun _ => ?_
  exact (recordSite_keeps cx callee span).andThen fun _ => .pure fun h => h.2

theorem checkCall_keeps (cx : Context) (name : Option String) (callee : Ty) (args : List Ty)
    (span : Span) : Keeps U (callee.Over U ∧ ∀ t ∈ args, t.Over U)
      (checkCall cx name callee args span) (·.Over U) := by
  unfold checkCall
  split
  · split
    · exact (report_keeps _ _).andThen fun _ => .pure fun h => (Ty.over_fn.mp h.1).2
    · exact callType_keeps _ _ _ _
  · exact callType_keeps _ _ _ _

theorem checkReturn_keeps (cx : Context) (t : Ty) (span : Span) :
    Keeps U (cx.Over U ∧ t.Over U) (checkReturn cx t span) fun _ => True := by
  unfold checkReturn
  split
  · rename_i f hf
    exact (constrain_keeps _ _ _ _).given fun h => ⟨h.1.frames f (List.mem_of_head? hf), h.2⟩
  · exact report_keeps _ _

theorem checkBreak_keeps (cx : Context) (t : Ty) (hasValue : Bool) (span : Span) :
    Keeps U (cx.Over U ∧ t.Over U) (checkBreak cx t hasValue span) fun _ => True := by
  unfold checkBreak
  split
  · exact report_keeps _ _
  · rename_i expected r hloops
    exact (constrain_keeps _ _ _ _).given fun h => ⟨h.1.loops expected (by simp [hloops]), h.2⟩
  · split
    · exact report_keeps _ _
    · exact .pure fun _ => trivial

theorem checkInit_keeps (sc : TypeScope) (d : StructDef) (struct : String) (name : Ident) (t : Ty)
    (span : Span) :
    Keeps U (sc.Over U ∧ t.Over U) (checkInit sc d struct name t span) fun _ => True := by
  unfold checkInit
  split
  · exact ((lower_keeps sc _).given And.left).bind fun _ =>
      (constrain_keeps _ _ _ _).given fun h => ⟨h.2, h.1.2⟩
  · exact report_keeps _ _

theorem checkComplete_keeps (d : StructDef) (struct : String) (seen : List String) (span : Span) :
    Keeps U P (checkComplete d struct seen span) fun _ => True := by
  refine .forM (fun f => ?_) _
  split
  · exact .pure fun _ => trivial
  · exact report_keeps _ _

theorem paramTypes_keeps (sc : TypeScope) (l : List Param) :
    Keeps U (sc.Over U) (paramTypes sc l) fun types => ∀ x ∈ types, x.2.Over U := by
  induction l with
  | nil => exact .pure fun _ => by simp
  | cons p r ih =>
    refine (lowerOr_keeps sc fresh_keeps p.ty).bind fun t => (ih.given And.left).bind fun l => ?_
    exact .pure fun h => List.forall_mem_cons.mpr ⟨h.1.2, h.2⟩

theorem Context.lambdaFrame_ret (cx : Context) (ret : Ty) : (cx.lambdaFrame ret).ret = ret := by
  unfold lambdaFrame
  split <;> rfl

/-- The context of the body of a lambda. -/
theorem Context.Over.lambda {cx : Context} (h : cx.Over U) {types : List (String × Ty)} {ret : Ty}
    (htypes : ∀ x ∈ types, x.2.Over U) (hret : ret.Over U) :
    ({ cx.pushScope.bindAll types with
      frames := cx.lambdaFrame ret :: cx.frames, loops := [] } : Context).Over U := by
  have hframe : (cx.lambdaFrame ret).ret.Over U := by
    rw [cx.lambdaFrame_ret]
    exact hret
  exact { h.pushScope.bindAll htypes with
    frames := List.forall_mem_cons.mpr ⟨hframe, h.frames⟩, loops := by simp }

end Steps

section Inference

variable {U : Nat → Prop} {P : Prop}

theorem constrain_pure_keeps {α : Type} {Q : α → Prop} {expected actual : Ty} {span : Span}
    {origin : Origin} {a : α} (h : P → (expected.Over U ∧ actual.Over U) ∧ Q a) :
    Keeps U P (do
      constrain expected actual span origin
      return a) Q :=
  ((constrain_keeps _ _ _ _).given fun hP => (h hP).1).andThen fun _ => .pure fun hP => (h hP).2

mutual

theorem inferExpr_keeps (cx : Context) : (e : Expr) →
    Keeps U (cx.Over U) (inferExpr cx e) (·.Over U)
  | ⟨id, span, kind⟩ => by
    rw [inferExpr]
    exact (inferKind_keeps cx span kind).bind fun t => (record_keeps id t).andThen fun _ =>
      .pure And.right

theorem inferKind_keeps (cx : Context) (span : Span) : (k : ExprKind) →
    Keeps U (cx.Over U) (inferKind cx span k) (·.Over U)
  | .literal lit => by
    rw [inferKind]
    exact literalType_keeps lit span
  | .ident name => by
    rw [inferKind]
    exact lookupName_keeps cx _ _ _
  | .path segments => by
    rw [inferKind]
    exact lookupName_keeps cx _ _ _
  | .binary op left right => by
    rw [inferKind]
    exact (inferExpr_keeps cx left).bind fun _ => ((inferExpr_keeps cx right).given And.left).bind
      fun _ => (binaryType_keeps op _ _ _ _).given fun h => ⟨h.1.2, h.2⟩
  | .unary op operand => by
    rw [inferKind]
    refine (inferExpr_keeps cx operand).bind fun t => ?_
    cases op with
    | not => exact constrain_pure_keeps fun h => ⟨⟨Ty.over_bool, h.2⟩, Ty.over_bool⟩
    | _ => exact .pure And.right
  | .call callee args => by
    rw [inferKind]
    exact (inferExpr_keeps cx callee).bind fun _ => ((inferAll_keeps cx args).given And.left).bind
      fun _ => (checkCall_keeps cx _ _ _ _).given fun h => ⟨h.1.2, h.2⟩
  | .methodCall receiver method args => by
    rw [inferKind]
    refine (inferExpr_keeps cx receiver).bind fun t => ?_
    refine ((inferAll_keeps cx args).given And.left).bind fun types => fresh_keeps.bind fun r => ?_
    refine ((defer_keeps _).given fun h => ?_).andThen fun _ => .pure And.right
    exact List.forall_mem_cons.mpr ⟨h.1.1.2, List.forall_mem_cons.mpr ⟨h.2, h.1.2⟩⟩
  | .field base field => by
    rw [inferKind]
    refine (inferExpr_keeps cx base).bind fun t => fresh_keeps.bind fun r => ?_
    refine ((defer_keeps _).given fun h => ?_).andThen fun _ => .pure And.right
    exact List.forall_mem_cons.mpr ⟨h.1.2, List.forall_mem_singleton.mpr h.2⟩
  | .index base index => by
    rw [inferKind]
    refine (inferExpr_keeps cx base).bind fun t => ((inferExpr_keeps cx index).given
      And.left).andThen fun _ => fresh_keeps.bind fun elem => ?_
    exact constrain_pure_keeps fun h => ⟨⟨Ty.over_array.mpr h.2, h.1.2⟩, h.2⟩
  | .ifThen cond thenBranch elseBranch => by
    rw [inferKind]
    refine (inferExpr_keeps cx cond).bind fun c => ?_
    refine ((constrain_keeps _ _ _ _).given fun h => ⟨Ty.over_bool, h.2⟩).andThen fun _ => ?_
    refine ((inferBlock_keeps cx thenBranch).given And.left).bind fun t => ?_
    cases elseBranch with
    | none => exact .pure fun _ => Ty.over_unit
    | some other =>
      exact ((inferExpr_keeps cx other).given fun h => h.1.1).bind fun u =>
        constrain_pure_keeps fun h => ⟨⟨h.1.2, h.2⟩, h.1.2⟩
  | .matchOn scrutinee arms => by
    rw [inferKind]
    refine (inferExpr_keeps cx scrutinee).bind fun t => fresh_keeps.bind fun result => ?_
    exact ((checkArms_keeps cx t result arms).given fun h => ⟨h.1.1, h.1.2, h.2⟩).andThen
      fun _ => .pure And.right
  | .block body => by
    rw [inferKind]
    exact inferBlock_keeps cx body
  | .lambda params ret body _ => by
    rw [inferKind]
    refine ((paramTypes_keeps cx.scope params).given (·.scope)).bind fun types => ?_
    refine ((lowerOr_keeps cx.scope fresh_keeps ret).given fun h => h.1.scope).bind fun ret => ?_
    refine ((inferExpr_keeps _ body).given fun h => h.1.1.lambda h.1.2 h.2).bind fun t => ?_
    refine constrain_pure_keeps fun h => ⟨⟨h.1.2, h.2⟩, Ty.over_fn.mpr ⟨?_, h.1.2⟩⟩
    exact List.forall_mem_map.mpr h.1.1.2
  | .tuple elems => by
    rw [inferKind]
    exact (inferAll_keeps cx elems).bind fun _ => .pure fun h => Ty.over_tuple.mpr h.2
  | .array elems => by
    rw [inferKind]
    exact fresh_keeps.bind fun elem => (inferElems_keeps cx elem _ elems).andThen fun _ =>
      .pure fun h => Ty.over_array.mpr h.2
  | .structLit name fields base => by
    rw [inferKind]
    dsimp only
    split
    · refine (report_keeps _ _).andThen fun _ => (inferFields_keeps cx fields).andThen fun _ => ?_
      cases base with
      | none => exact fresh_keeps
      | some base =>
        exact .andThen (Q := fun _ => True) ((inferExpr_keeps cx base).andThen fun _ =>
          .pure fun _ => trivial) fun _ => fresh_keeps
    · rename_i d _
      refine (instantiateNominal_keeps _ d.generics).bind fun x => ?_
      obtain ⟨type, params⟩ := x
      refine ((checkInits_keeps (cx.enterParams params) d _ [] fields).given ?_).andThen
        fun _ => ?_
      · rintro ⟨hcx, _, l, rfl, hl⟩
        exact hcx.enterParams hl
      · cases base with
        | none => exact (checkComplete_keeps _ _ _ _).andThen fun _ => .pure fun h => h.2.1
        | some base =>
          exact ((inferExpr_keeps cx base).given And.left).bind fun t =>
            constrain_pure_keeps fun h => ⟨⟨h.1.2.1, h.2⟩, h.1.2.1⟩
  | .cast expr ty => by
    rw [inferKind]
    exact (inferExpr_keeps cx expr).andThen fun _ => (lower_keeps cx.scope ty).given (·.scope)
  | .tryOp expr => by
    rw [inferKind]
    refine (inferExpr_keeps cx expr).bind fun t => fresh_keeps.bind fun ok =>
      fresh_keeps.bind fun err => constrain_pure_keeps fun h => ⟨⟨?_, h.1.1.2⟩, h.1.2⟩
    exact Ty.over_app.mpr (List.forall_mem_cons.mpr ⟨h.1.2, List.forall_mem_singleton.mpr h.2⟩)
  | .await expr => by
    rw [inferKind]
    refine (inferExpr_keeps cx expr).bind fun t => ?_
    split
    · exact (report_keeps _ _).andThen fun _ => .pure And.right
    · exact .pure And.right
  | .whileLoop cond body => by
    rw [inferKind]
    refine (inferExpr_keeps cx cond).bind fun c => ?_
    refine ((constrain_keeps _ _ _ _).given fun h => ⟨Ty.over_bool, h.2⟩).andThen fun _ => ?_
    exact ((inferBlock_keeps _ body).given fun h => h.1.enterLoop_none).andThen fun _ =>
      .pure fun _ => Ty.over_unit
  | .loop body => by
    rw [inferKind]
    exact fresh_keeps.bind fun result => ((inferBlock_keeps _ body).given fun h =>
      h.1.enterLoop_some h.2).andThen fun _ => .pure And.right
  | .forLoop pattern iterable body => by
    rw [inferKind]
    refine (inferExpr_keeps cx iterable).bind fun t => fresh_keeps.bind fun elem => ?_
    refine ((defer_keeps _).given fun h => ?_).andThen fun _ => ?_
    · exact List.forall_mem_cons.mpr ⟨h.1.2, List.forall_mem_singleton.mpr h.2⟩
    · refine ((checkPattern_keeps cx.pushScope pattern elem).given fun h =>
        ⟨h.1.1.pushScope, h.2⟩).bind fun bound => ?_
      exact ((inferBlock_keeps _ body).given fun h =>
        (h.1.1.1.pushScope.bindAll h.2).enterLoop_none).andThen fun _ =>
        .pure fun _ => Ty.over_unit
  | .range start stop _ => by
    rw [inferKind]
    refine fresh_keeps.bind fun bound => ?_
    have hbound : bound.Over U → (Ty.app Ty.rangeName [bound]).Over U :=
      fun h => Ty.over_app.mpr (List.forall_mem_singleton.mpr h)
    have hstop : Keeps U (cx.Over U ∧ bound.Over U) (match stop with
        | some e => do
          let t ← inferExpr cx e
          constrain bound t e.span .operand
          return Ty.app Ty.rangeName [bound]
        | none => return Ty.app Ty.rangeName [bound]) (·.Over U) := by
      cases stop with
      | none => exact .pure fun h => hbound h.2
      | some e =>
        exact ((inferExpr_keeps cx e).given And.left).bind fun t =>
          constrain_pure_keeps fun h => ⟨⟨h.1.2, h.2⟩, hbound h.1.2⟩
    cases start with
    | none => exact hstop
    | some e =>
      exact ((inferExpr_keeps cx e).given And.left).bind fun t =>
        ((constrain_keeps _ _ _ _).given fun h => ⟨h.1.2, h.2⟩).andThen fun _ =>
        hstop.given And.left

theorem inferAll_keeps (cx : Context) : (l : List Expr) →
    Keeps U (cx.Over U) (inferAll cx l) fun types => ∀ t ∈ types, t.Over U
  | [] => by
    rw [inferAll]
    exact .pure fun _ => by simp
  | e :: r => by
    rw [inferAll]
    exact (inferExpr_keeps cx e).bind fun _ => ((inferAll_keeps cx r).given And.left).bind fun _ =>
      .pure fun h => List.forall_mem_cons.mpr ⟨h.1.2, h.2⟩

theorem inferElems_keeps (cx : Context) (elem : Ty) (origin : Origin) : (l : List Expr) →
    Keeps U (cx.Over U ∧ elem.Over U) (inferElems cx elem origin l) fun _ => True
  | [] => by
    rw [inferElems]
    exact .pure fun _ => trivial
  | e :: r => by
    rw [inferElems]
    exact ((inferExpr_keeps cx e).given And.left).bind fun t =>
      ((constrain_keeps _ _ _ _).given fun h => ⟨h.1.2, h.2⟩).andThen fun _ =>
      (inferElems_keeps cx elem origin r).given And.left

theorem inferFields_keeps (cx : Context) : (l : List FieldInit) →
    Keeps U (cx.Over U) (inferFields cx l) fun _ => True
  | [] => by
    rw [inferFields]
    exact .pure fun _ => trivial
  | ⟨_, _, value⟩ :: r => by
    rw [inferFields]
    exact (inferExpr_keeps cx value).andThen fun _ => inferFields_keeps cx r

theorem checkInits_keeps (cx : Context) (d : StructDef) (struct : String) :
    (seen : List String) → (l : List FieldInit) →
    Keeps U (cx.Over U) (checkInits cx d struct seen l) fun _ => True
  | _, [] => by
    rw [checkInits]
    exact .pure fun _ => trivial
  | seen, ⟨span, name, value⟩ :: r => by
    rw [checkInits]
    refine (inferExpr_keeps cx value).bind fun t => ?_
    have hrest := (checkInits_keeps cx d struct (name.node :: seen) r).given
      (And.left : cx.Over U ∧ t.Over U → _)
    split
    · exact (report_keeps _ _).andThen fun _ => hrest
    · exact ((checkInit_keeps _ _ _ _ _ _).given fun h => ⟨h.1.scope, h.2⟩).andThen fun _ => hrest

theorem checkArms_keeps (cx : Context) (t result : Ty) : (l : List MatchArm) →
    Keeps U (cx.Over U ∧ t.Over U ∧ result.Over U) (checkArms cx t result l) fun _ => True
  | [] => by
    rw [checkArms]
    exact .pure fun _ => trivial
  | ⟨_, pattern, guard, body⟩ :: r => by
    rw [checkArms]
    refine ((checkPattern_keeps cx.pushScope pattern t).given fun h =>
      ⟨h.1.pushScope, h.2.1⟩).bind fun bound => ?_
    have hinside : (cx.Over U ∧ t.Over U ∧ result.Over U) ∧ bound.Over U →
        (cx.pushScope.bindAll bound).Over U := fun h => h.1.1.pushScope.bindAll h.2
    have hrest : Keeps U ((cx.Over U ∧ t.Over U ∧ result.Over U) ∧ bound.Over U) (do
        let u ← inferExpr (cx.pushScope.bindAll bound) body
        constrain result u body.span .branch
        checkArms cx t result r) fun _ => True :=
      ((inferExpr_keeps _ body).given hinside).bind fun u =>
        ((constrain_keeps _ _ _ _).given fun h => ⟨h.1.1.2.2, h.2⟩).andThen fun _ =>
        (checkArms_keeps cx t result r).given fun h => h.1.1
    cases guard with
    | none => exact hrest
    | some g =>
      exact ((inferExpr_keeps _ g).given hinside).bind fun c =>
        ((constrain_keeps _ _ _ _).given fun h => ⟨Ty.over_bool, h.2⟩).andThen fun _ =>
        hrest.given And.left

theorem inferBlock_keeps (cx : Context) : (b : Block) →
    Keeps U (cx.Over U) (inferBlock cx b) (·.Over U)
  | ⟨_, stmts, tail⟩ => by
    rw [inferBlock]
    refine ((checkStmts_keeps cx.pushScope stmts).given (·.pushScope)).bind fun env => ?_
    cases tail with
    | some e => exact (inferExpr_keeps _ e).given fun h => h.1.withEnv h.2
    | none =>
      dsimp only
      split
      · exact fresh_keeps
      · exact .pure fun _ => Ty.over_unit

theorem checkStmts_keeps (cx : Context) : (l : List Stmt) →
    Keeps U (cx.Over U) (checkStmts cx l) (Env.Over · U)
  | [] => by
    rw [checkStmts]
    exact .pure (·.env)
  | s :: r => by
    rw [checkStmts]
    exact (checkStmt_keeps cx s).bind fun env => (checkStmts_keeps _ r).given fun h =>
      h.1.withEnv h.2

theorem checkStmt_keeps (cx : Context) : (s : Stmt) →
    Keeps U (cx.Over U) (checkStmt cx s) (Env.Over · U)
  | .letBind _ pattern ty value mutable => by
    cases value with
    | none =>
      rw [checkStmt]
      exact ((lowerOr_keeps cx.scope fresh_keeps ty).given (·.scope)).bind fun t =>
        bindLet_keeps cx pattern t false mutable
    | some e =>
      rw [checkStmt]
      refine (inferExpr_keeps cx e).bind fun t => ?_
      cases ty with
      | none => exact bindLet_keeps cx pattern t true mutable
      | some ty => exact bindDeclared_keeps cx pattern ty t e.span mutable
  | .assign _ target value => by
    rw [checkStmt]
    exact (inferExpr_keeps cx target).bind fun t => ((inferExpr_keeps cx value).given
      And.left).bind fun u => constrain_pure_keeps fun h => ⟨⟨h.1.2, h.2⟩, h.1.1.env⟩
  | .expr e => by
    rw [checkStmt]
    exact (inferExpr_keeps cx e).andThen fun _ => .pure (·.env)
  | .ret span value => by
    cases value with
    | none =>
      rw [checkStmt]
      exact .bind (Q := (Ty.Over · U)) (.pure fun _ => Ty.over_unit) fun t =>
        (checkReturn_keeps cx t span).andThen fun _ => .pure fun h => h.1.env
    | some e =>
      rw [checkStmt]
      exact (inferExpr_keeps cx e).bind fun t =>
        (checkReturn_keeps cx t span).andThen fun _ => .pure fun h => h.1.env
  | .brk span value => by
    cases value with
    | none =>
      rw [checkStmt]
      exact .bind (Q := (Ty.Over · U)) (.pure fun _ => Ty.over_unit) fun t =>
        (checkBreak_keeps cx t _ span).andThen fun _ => .pure fun h => h.1.env
    | some e =>
      rw [checkStmt]
      exact (inferExpr_keeps cx e).bind fun t =>
        (checkBreak_keeps cx t _ span).andThen fun _ => .pure fun h => h.1.env
  | .cont span => by
    rw [checkStmt]
    split
    · exact (report_keeps _ _).andThen fun _ => .pure (·.env)
    · exact .pure (·.env)

end

end Inference

end Sema
