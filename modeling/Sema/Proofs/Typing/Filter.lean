import Sema.Proofs.Typing.Accepted

/-!
# Checking with some faults left out

A check that never makes certain complaints is the full check with those complaints deleted
from its list: results, constraints, solver and recorded types are the same. Only `await` and
the last look at the calls ask whether effects are checked, so a check that ignores effects
finds what the full one finds, without the faults of these two places.
-/

namespace Sema

/-- A choice of faults that leaves out none that is routine. -/
structure FaultFilter where
  keeps : TypeFault → Bool
  routine : ∀ f : TypeFault, f.isRoutine = true → keeps f = true

/-- The session with only the faults that `p` keeps. -/
def Session.keep (p : FaultFilter) (s : Session) : Session :=
  s.withFaults (s.faults.filter fun f => p.keeps f.node)

/-- The context in which `await` complains only if `p` keeps the complaint. -/
def Context.keep (p : FaultFilter) (cx : Context) : Context :=
  { cx with checkEffects := cx.checkEffects && p.keeps .awaitOutside }

theorem Event.apply_keep {p : FaultFilter} {e : Event}
    (h : ∀ f, e = .report f → p.keeps f.node = true) (s : Session) :
    e.apply (s.keep p) = (e.apply s).keep p := by
  cases e with
  | report f =>
    have hkeep := h f rfl
    simp [apply, Session.keep, Session.withFaults, hkeep]
  | _ => rfl

theorem replay_keep {p : FaultFilter} {l : List Event}
    (h : ∀ f, Event.report f ∈ l → p.keeps f.node = true) (s : Session) :
    replay l (s.keep p) = (replay l s).keep p := by
  induction l generalizing s with
  | nil => rfl
  | cons e l ih =>
    have hhead : e.apply (s.keep p) = (e.apply s).keep p :=
      e.apply_keep (fun f hf => h f (by simp [hf])) s
    have htail := ih (fun f hf => h f (by simp [hf])) (e.apply s)
    rw [← hhead] at htail
    exact htail

/-- `m'` is `m` without the faults that `p` does not keep. -/
def Filters (p : FaultFilter) {α : Type} (m m' : Check α) : Prop :=
  ∀ s, m'.run (s.keep p) = ((m.run s).1, (m.run s).2.keep p)

namespace Filters

variable {p : FaultFilter} {α β : Type}

theorem pure (a : α) : Filters p (pure a : Check α) (pure a) := fun _ => rfl

theorem bind {m m' : Check α} {f f' : α → Check β} (hm : Filters p m m')
    (hf : ∀ a, Filters p (f a) (f' a)) : Filters p (m >>= f) (m' >>= f') := by
  intro s
  rw [StateT.run_bind, hm s]
  exact hf _ _

theorem forM {f f' : α → Check Unit} (hf : ∀ a, Filters p (f a) (f' a)) (l : List α) :
    Filters p (l.forM f) (l.forM f') := by
  induction l with
  | nil => exact .pure _
  | cons a l ih => exact (hf a).bind fun _ => ih

theorem report {fault : TypeFault} (h : p.keeps fault = true) (span : Span) :
    Filters p (report fault span) (Sema.report fault span) := by
  intro s
  have hkeep : ∀ f, Event.report ⟨span, fault⟩ = .report f → p.keeps f.node = true := by
    intro f hf
    cases hf
    exact h
  exact congrArg (Prod.mk ()) (Event.apply_keep hkeep s)

/-- A complaint that is not kept leaves no trace. -/
theorem dropped {fault : TypeFault} (h : p.keeps fault = false) (span : Span) :
    Filters p (Sema.report fault span) (Pure.pure ()) := by
  intro s
  have hpush : (s.faults.push ⟨span, fault⟩).filter (fun f => p.keeps f.node) =
      s.faults.filter fun f => p.keeps f.node := by
    simp [h]
  exact congrArg (fun fs => ((), s.withFaults fs)) hpush.symm

/-- What makes only routine complaints is its own filtered form. -/
theorem quiet {m : Check α} (hm : Quiet m) : Filters p m m := by
  intro s
  obtain ⟨l, hl, hrun⟩ := hm s
  have hafter : (m.run s).2 = replay l s := congrArg Prod.snd (hrun s.faults)
  have hreplay : replay l (s.keep p) = (replay l s).keep p :=
    replay_keep (fun f hf => p.routine f.node (hl _ hf)) s
  rw [hafter, ← hreplay]
  exact hrun _

theorem notes {m : Check α} (hm : Notes m) : Filters p m m := quiet hm.quiet

theorem constrain (expected actual : Ty) (span : Span) (origin : Origin) :
    Filters p (constrain expected actual span origin) (Sema.constrain expected actual span origin) :=
  fun _ => rfl

theorem record (id : ExprId) (t : Ty) : Filters p (record id t) (Sema.record id t) :=
  fun _ => rfl

theorem fresh : Filters p fresh Sema.fresh := fun _ => rfl

theorem defer (d : Deferred) : Filters p (defer d) (Sema.defer d) := fun _ => rfl

end Filters

section Patterns

variable (p : FaultFilter)

@[simp] theorem Context.valueConstructor?_keep (cx : Context) (name : String) :
    (cx.keep p).valueConstructor? name = cx.valueConstructor? name := rfl

@[simp] theorem Context.enterParams_keep (cx : Context) (params : Table String Ty) :
    (cx.keep p).enterParams params = (cx.enterParams params).keep p := rfl

@[simp] theorem Context.scope_keep (cx : Context) : (cx.keep p).scope = cx.scope := rfl

@[simp] theorem Context.constructors_keep (cx : Context) :
    (cx.keep p).constructors = cx.constructors := rfl

mutual

/-- A pattern is checked without regard to effects. -/
theorem checkPattern_keep (cx : Context) : (pattern : Pattern) → (expected : Ty) →
    checkPattern (cx.keep p) pattern expected = checkPattern cx pattern expected
  | .wildcard _, _ => by rw [checkPattern, checkPattern]
  | .ident _ _ _ _, _ => by rw [checkPattern, checkPattern, Context.valueConstructor?_keep]
  | .literal _ _, _ => by rw [checkPattern, checkPattern]
  | .range _ _ _ _, _ => by rw [checkPattern, checkPattern]
  | .tuple _ elems, _ => by simp only [checkPattern, checkPatterns_keep cx elems]
  | .struct _ _ fields _, _ => by
    simp only [checkPattern, Context.scope_keep, Context.enterParams_keep,
      fun cx type => checkFields_keep cx type fields]
  | .enum _ _ fields, _ => by
    simp only [checkPattern, Context.constructors_keep, checkUnknown_keep cx fields,
      checkPatterns_keep cx fields]
  | .or _ [], _ => by rw [checkPattern, checkPattern]
  | .or _ (first :: rest), _ => by
    simp only [checkPattern, checkPattern_keep cx first, checkAlternatives_keep cx rest]

theorem checkPatterns_keep (cx : Context) : (l : List Pattern) → (types : List Ty) →
    checkPatterns (cx.keep p) l types = checkPatterns cx l types
  | [], _ => by simp only [checkPatterns]
  | _ :: _, [] => by simp only [checkPatterns]
  | first :: rest, _ :: _ => by
    simp only [checkPatterns, checkPattern_keep cx first, checkPatterns_keep cx rest]

theorem checkUnknown_keep (cx : Context) : (l : List Pattern) →
    checkUnknown (cx.keep p) l = checkUnknown cx l
  | [] => by rw [checkUnknown, checkUnknown]
  | first :: rest => by
    simp only [checkUnknown, checkPattern_keep cx first, checkUnknown_keep cx rest]

theorem checkFields_keep (cx : Context) (type : Ident → Check Ty) : (l : List FieldPattern) →
    checkFields (cx.keep p) type l = checkFields cx type l
  | [] => by rw [checkFields, checkFields]
  | ⟨_, _, some pattern⟩ :: rest => by
    simp only [checkFields, checkPattern_keep cx pattern, checkFields_keep cx type rest]
  | ⟨_, _, none⟩ :: rest => by simp only [checkFields, checkFields_keep cx type rest]

theorem checkAlternatives_keep (cx : Context) : (l : List Pattern) → (expected : Ty) →
    (span : Span) → (first : Table String Ty) →
    checkAlternatives (cx.keep p) l expected span first =
      checkAlternatives cx l expected span first
  | [], _, _, _ => by rw [checkAlternatives, checkAlternatives]
  | pattern :: rest, _, _, _ => by
    simp only [checkAlternatives, checkPattern_keep cx pattern, checkAlternatives_keep cx rest]

end

end Patterns

section Inference

variable (p : FaultFilter)

theorem bindLet_keep (cx : Context) (pattern : Pattern) (t : Ty) (hasValue mutable : Bool) :
    bindLet (cx.keep p) pattern t hasValue mutable = bindLet cx pattern t hasValue mutable := by
  unfold bindLet
  rw [checkPattern_keep]
  rfl

variable {p}

theorem bindLet_filters (cx : Context) (pattern : Pattern) (t : Ty) (hasValue mutable : Bool) :
    Filters p (bindLet cx pattern t hasValue mutable)
      (bindLet (cx.keep p) pattern t hasValue mutable) := by
  rw [bindLet_keep]
  exact .quiet (bindLet_quiet cx pattern t hasValue mutable)

theorem checkPattern_filters (cx : Context) (pattern : Pattern) (expected : Ty) :
    Filters p (checkPattern cx pattern expected) (checkPattern (cx.keep p) pattern expected) := by
  rw [checkPattern_keep]
  exact .notes (checkPattern_notes cx pattern expected)

/-- `await` is the one place of a body that asks whether effects are checked. -/
theorem await_filters (cx : Context) (span : Span) (t : Ty) :
    Filters p
      (do
        if cx.checkEffects && !(cx.frames.head?.any (·.isAsync)) then
          report .awaitOutside span
        return t)
      (do
        if (cx.keep p).checkEffects && !((cx.keep p).frames.head?.any (·.isAsync)) then
          report .awaitOutside span
        return t) := by
  have hframes : (cx.keep p).frames = cx.frames := rfl
  have hflag : (cx.keep p).checkEffects = (cx.checkEffects && p.keeps .awaitOutside) := rfl
  rw [hframes, hflag]
  cases hkept : p.keeps .awaitOutside with
  | true =>
    rw [Bool.and_true]
    split
    · exact (Filters.report hkept span).bind fun _ => .pure t
    · exact .pure t
  | false =>
    rw [Bool.and_false, Bool.false_and]
    split
    · exact (Filters.dropped hkept span).bind fun _ => .pure t
    · exact .pure t

mutual

theorem inferExpr_filters (cx : Context) : (e : Expr) →
    Filters p (inferExpr cx e) (inferExpr (cx.keep p) e)
  | ⟨id, span, kind⟩ => by
    rw [inferExpr, inferExpr]
    exact (inferKind_filters cx span kind).bind fun t => (Filters.record id t).bind fun _ =>
      .pure t

theorem inferKind_filters (cx : Context) (span : Span) : (k : ExprKind) →
    Filters p (inferKind cx span k) (inferKind (cx.keep p) span k)
  | .literal lit => by
    rw [inferKind, inferKind]
    exact .notes (literalType_notes lit span)
  | .ident name => by
    rw [inferKind, inferKind]
    exact .notes (lookupName_notes cx name _ span rfl rfl)
  | .path segments => by
    rw [inferKind, inferKind]
    exact .notes (lookupName_notes cx _ _ span rfl rfl)
  | .binary op left right => by
    rw [inferKind, inferKind]
    exact (inferExpr_filters cx left).bind fun _ => (inferExpr_filters cx right).bind fun _ =>
      .notes (binaryType_notes _ _ _ _ _)
  | .unary op operand => by
    rw [inferKind, inferKind]
    refine (inferExpr_filters cx operand).bind fun t => ?_
    cases op with
    | not => exact (Filters.constrain _ _ _ _).bind fun _ => .pure _
    | _ => exact .pure _
  | .call callee args => by
    rw [inferKind, inferKind]
    exact (inferExpr_filters cx callee).bind fun _ => (inferAll_filters cx args).bind fun _ =>
      .quiet (checkCall_quiet cx _ _ _ _)
  | .methodCall receiver method args => by
    rw [inferKind, inferKind]
    exact (inferExpr_filters cx receiver).bind fun _ => (inferAll_filters cx args).bind fun _ =>
      Filters.fresh.bind fun _ => (Filters.defer _).bind fun _ => .pure _
  | .field base field => by
    rw [inferKind, inferKind]
    exact (inferExpr_filters cx base).bind fun _ => Filters.fresh.bind fun _ =>
      (Filters.defer _).bind fun _ => .pure _
  | .index base index => by
    rw [inferKind, inferKind]
    exact (inferExpr_filters cx base).bind fun _ => (inferExpr_filters cx index).bind fun _ =>
      Filters.fresh.bind fun _ => (Filters.constrain _ _ _ _).bind fun _ => .pure _
  | .ifThen cond thenBranch elseBranch => by
    rw [inferKind, inferKind]
    refine (inferExpr_filters cx cond).bind fun _ => (Filters.constrain _ _ _ _).bind fun _ =>
      (inferBlock_filters cx thenBranch).bind fun _ => ?_
    match elseBranch with
    | some other =>
      exact (inferExpr_filters cx other).bind fun _ => (Filters.constrain _ _ _ _).bind fun _ =>
        .pure _
    | none => exact .pure _
  | .matchOn scrutinee arms => by
    rw [inferKind, inferKind]
    exact (inferExpr_filters cx scrutinee).bind fun t => Filters.fresh.bind fun result =>
      (checkArms_filters cx t result arms).bind fun _ => .pure _
  | .block body => by
    rw [inferKind, inferKind]
    exact inferBlock_filters cx body
  | .lambda params ret body _ => by
    rw [inferKind, inferKind]
    exact (Filters.notes (paramTypes_notes _ _)).bind fun types =>
      (Filters.notes (lowerOr_notes _ fresh_notes ret)).bind fun ret =>
      (inferExpr_filters { cx.pushScope.bindAll types with
        frames := cx.lambdaFrame ret :: cx.frames, loops := [] } body).bind fun _ =>
      (Filters.constrain _ _ _ _).bind fun _ => .pure _
  | .tuple elems => by
    rw [inferKind, inferKind]
    exact (inferAll_filters cx elems).bind fun _ => .pure _
  | .array elems => by
    rw [inferKind, inferKind]
    exact Filters.fresh.bind fun elem => (inferElems_filters cx elem .element elems).bind fun _ =>
      .pure _
  | .structLit name fields base => by
    rw [inferKind, inferKind]
    dsimp only [Context.scope_keep]
    split
    · refine (Filters.notes (report_notes _ _ rfl rfl)).bind fun _ =>
        (inferFields_filters cx fields).bind fun _ => ?_
      match base with
      | some base =>
        exact ((inferExpr_filters cx base).bind fun _ => .pure _).bind fun _ => .fresh
      | none => exact .fresh
    · rename_i d _
      refine (Filters.notes (instantiateNominal_notes _ _)).bind fun x =>
        (checkInits_filters (cx.enterParams x.2) d _ [] fields).bind fun _ => ?_
      match base with
      | some base =>
        exact (inferExpr_filters cx base).bind fun _ => (Filters.constrain _ _ _ _).bind fun _ =>
          .pure _
      | none =>
        exact (Filters.notes (checkComplete_notes _ _ _ _)).bind fun _ => .pure _
  | .cast e ty => by
    rw [inferKind, inferKind]
    exact (inferExpr_filters cx e).bind fun _ => .notes (lower_notes cx.scope ty)
  | .tryOp e => by
    rw [inferKind, inferKind]
    exact (inferExpr_filters cx e).bind fun _ => Filters.fresh.bind fun _ =>
      Filters.fresh.bind fun _ => (Filters.constrain _ _ _ _).bind fun _ => .pure _
  | .await e => by
    rw [inferKind, inferKind]
    exact (inferExpr_filters cx e).bind fun t => await_filters cx span t
  | .whileLoop cond body => by
    rw [inferKind, inferKind]
    exact (inferExpr_filters cx cond).bind fun _ => (Filters.constrain _ _ _ _).bind fun _ =>
      (inferBlock_filters (cx.enterLoop none) body).bind fun _ => .pure _
  | .loop body => by
    rw [inferKind, inferKind]
    exact Filters.fresh.bind fun result =>
      (inferBlock_filters (cx.enterLoop (some result)) body).bind fun _ => .pure _
  | .forLoop pattern iterable body => by
    rw [inferKind, inferKind]
    exact (inferExpr_filters cx iterable).bind fun _ => Filters.fresh.bind fun _ =>
      (Filters.defer _).bind fun _ => (checkPattern_filters cx.pushScope pattern _).bind
      fun bound => (inferBlock_filters ((cx.pushScope.bindAll bound).enterLoop none) body).bind
      fun _ => .pure _
  | .range none none _ => by
    rw [inferKind, inferKind]
    exact Filters.fresh.bind fun _ => .pure _
  | .range none (some stop) _ => by
    rw [inferKind, inferKind]
    exact Filters.fresh.bind fun _ => (inferExpr_filters cx stop).bind fun _ =>
      (Filters.constrain _ _ _ _).bind fun _ => .pure _
  | .range (some start) none _ => by
    rw [inferKind, inferKind]
    exact Filters.fresh.bind fun _ => (inferExpr_filters cx start).bind fun _ =>
      (Filters.constrain _ _ _ _).bind fun _ => .pure _
  | .range (some start) (some stop) _ => by
    rw [inferKind, inferKind]
    exact Filters.fresh.bind fun _ => (inferExpr_filters cx start).bind fun _ =>
      (Filters.constrain _ _ _ _).bind fun _ => (inferExpr_filters cx stop).bind fun _ =>
      (Filters.constrain _ _ _ _).bind fun _ => .pure _

theorem inferAll_filters (cx : Context) : (l : List Expr) →
    Filters p (inferAll cx l) (inferAll (cx.keep p) l)
  | [] => by
    rw [inferAll, inferAll]
    exact .pure _
  | e :: r => by
    rw [inferAll, inferAll]
    exact (inferExpr_filters cx e).bind fun _ => (inferAll_filters cx r).bind fun _ => .pure _

theorem inferElems_filters (cx : Context) (elem : Ty) (origin : Origin) : (l : List Expr) →
    Filters p (inferElems cx elem origin l) (inferElems (cx.keep p) elem origin l)
  | [] => by
    rw [inferElems, inferElems]
    exact .pure _
  | e :: r => by
    rw [inferElems, inferElems]
    exact (inferExpr_filters cx e).bind fun _ => (Filters.constrain _ _ _ _).bind fun _ =>
      inferElems_filters cx elem origin r

theorem inferFields_filters (cx : Context) : (l : List FieldInit) →
    Filters p (inferFields cx l) (inferFields (cx.keep p) l)
  | [] => by
    rw [inferFields, inferFields]
    exact .pure _
  | ⟨_, _, value⟩ :: r => by
    rw [inferFields, inferFields]
    exact (inferExpr_filters cx value).bind fun _ => inferFields_filters cx r

theorem checkInits_filters (cx : Context) (d : StructDef) (struct : String) :
    (seen : List String) → (l : List FieldInit) →
    Filters p (checkInits cx d struct seen l) (checkInits (cx.keep p) d struct seen l)
  | _, [] => by
    rw [checkInits, checkInits]
    exact .pure _
  | seen, ⟨span, name, value⟩ :: r => by
    rw [checkInits, checkInits]
    refine (inferExpr_filters cx value).bind fun t => ?_
    have hrest := checkInits_filters cx d struct (name.node :: seen) r
    split
    · exact (Filters.notes (report_notes _ _ rfl rfl)).bind fun _ => hrest
    · exact (Filters.notes (checkInit_notes cx.scope _ _ _ _ _)).bind fun _ => hrest

theorem checkArms_filters (cx : Context) (t result : Ty) : (l : List MatchArm) →
    Filters p (checkArms cx t result l) (checkArms (cx.keep p) t result l)
  | [] => by
    rw [checkArms, checkArms]
    exact .pure _
  | ⟨_, pattern, guard, body⟩ :: r => by
    rw [checkArms, checkArms]
    refine (checkPattern_filters cx.pushScope pattern t).bind fun bound => ?_
    have hbody := (inferExpr_filters (cx.pushScope.bindAll bound) body).bind fun u =>
      (Filters.constrain result u body.span .branch).bind fun _ => checkArms_filters cx t result r
    match guard with
    | some g =>
      exact (inferExpr_filters (cx.pushScope.bindAll bound) g).bind fun _ =>
        (Filters.constrain _ _ _ _).bind fun _ => hbody
    | none => exact hbody

theorem inferBlock_filters (cx : Context) : (b : Block) →
    Filters p (inferBlock cx b) (inferBlock (cx.keep p) b)
  | ⟨_, stmts, tail⟩ => by
    rw [inferBlock, inferBlock]
    refine (checkStmts_filters cx.pushScope stmts).bind fun env => ?_
    match tail with
    | some e => exact inferExpr_filters { cx with env } e
    | none =>
      dsimp only
      split
      · exact .fresh
      · exact .pure _

theorem checkStmts_filters (cx : Context) : (l : List Stmt) →
    Filters p (checkStmts cx l) (checkStmts (cx.keep p) l)
  | [] => by
    rw [checkStmts, checkStmts]
    exact .pure _
  | s :: r => by
    rw [checkStmts, checkStmts]
    exact (checkStmt_filters cx s).bind fun env => checkStmts_filters { cx with env } r

theorem checkStmt_filters (cx : Context) : (s : Stmt) →
    Filters p (checkStmt cx s) (checkStmt (cx.keep p) s)
  | .letBind _ pattern ty (some e) mutable => by
    rw [checkStmt, checkStmt]
    refine (inferExpr_filters cx e).bind fun actual => ?_
    match ty with
    | some ty =>
      exact (Filters.notes (lower_notes cx.scope ty)).bind fun _ =>
        (Filters.constrain _ _ _ _).bind fun _ => bindLet_filters cx pattern _ true mutable
    | none => exact bindLet_filters cx pattern actual true mutable
  | .letBind _ pattern ty none mutable => by
    rw [checkStmt, checkStmt]
    exact (Filters.notes (lowerOr_notes cx.scope fresh_notes ty)).bind fun _ =>
      bindLet_filters cx pattern _ false mutable
  | .assign _ target value => by
    rw [checkStmt, checkStmt]
    exact (inferExpr_filters cx target).bind fun _ => (inferExpr_filters cx value).bind fun _ =>
      (Filters.constrain _ _ _ _).bind fun _ => .pure _
  | .expr e => by
    rw [checkStmt, checkStmt]
    exact (inferExpr_filters cx e).bind fun _ => .pure _
  | .ret span (some e) => by
    rw [checkStmt, checkStmt]
    exact (inferExpr_filters cx e).bind fun _ =>
      (Filters.notes (checkReturn_notes cx _ span)).bind fun _ => .pure _
  | .ret span none => by
    rw [checkStmt, checkStmt]
    exact (Filters.notes (checkReturn_notes cx _ span)).bind fun _ => .pure _
  | .brk span (some e) => by
    rw [checkStmt, checkStmt]
    exact (inferExpr_filters cx e).bind fun _ =>
      (Filters.notes (checkBreak_notes cx _ _ span)).bind fun _ => .pure _
  | .brk span none => by
    rw [checkStmt, checkStmt]
    exact (Filters.notes (checkBreak_notes cx _ _ span)).bind fun _ => .pure _
  | .cont span => by
    rw [checkStmt, checkStmt]
    have hloops : (cx.keep p).loops = cx.loops := rfl
    rw [hloops]
    split
    · exact (Filters.notes (report_notes _ _ rfl rfl)).bind fun _ => .pure _
    · exact .pure _

end

end Inference

section Bodies

variable {p : FaultFilter}

theorem checkContract_filters (cx : Context) (ret : Ty) (c : Contract) :
    Filters p (checkContract cx ret c) (checkContract (cx.keep p) ret c) := by
  unfold checkContract
  by_cases hkind : c.kind = .ensures
  · simp only [hkind, if_true]
    exact (inferExpr_filters (cx.pushScope.bindAll [("result", ret)]) c.condition).bind fun _ =>
      .constrain _ _ _ _
  · simp only [hkind, if_false]
    exact (inferExpr_filters cx c.condition).bind fun _ => .constrain _ _ _ _

theorem checkFunction_filters (cx : Context) (i : Interface) (d : FunctionDef) (name : String) :
    Filters p (checkFunction cx i d name) (checkFunction (cx.keep p) i d name) := by
  unfold checkFunction
  split
  · rename_i body s _ _
    exact (Filters.forM (checkContract_filters (bodyContext cx d name s) s.ret) _).bind fun _ =>
      (inferBlock_filters (bodyContext cx d name s) body).bind fun _ =>
      (Filters.constrain _ _ _ _).bind fun _ => .quiet (recordGenerics_quiet _ _ _)
  · exact .pure _

theorem checkMethods_filters (cx : Context) (i : Interface) (typeName : String) (self : Ty)
    (methods : List FunctionDef) :
    Filters p (checkMethods cx i typeName self methods)
      (checkMethods (cx.keep p) i typeName self methods) :=
  .forM (fun m => checkFunction_filters
    { cx with scope := { cx.scope with selfTy := some self } } i m _) methods

theorem checkBodies_filters (cx : Context) (i : Interface) (items : List Item) :
    ∀ targets, Filters p (checkBodies cx i targets items) (checkBodies (cx.keep p) i targets items) := by
  induction items with
  | nil => exact fun _ => .pure _
  | cons item r ih =>
    intro targets
    cases item with
    | function d => exact (checkFunction_filters cx i d _).bind fun _ => ih targets
    | const d =>
      refine (inferExpr_filters cx d.value).bind fun t => ?_
      split
      · exact (Filters.constrain _ _ _ _).bind fun _ => ih targets
      · exact ih targets
    | impl b =>
      cases targets with
      | nil => exact ih []
      | cons target rest =>
        exact (checkMethods_filters cx i _ _ b.methods).bind fun _ => ih rest
    | trait d => exact (checkMethods_filters cx i _ _ d.methods).bind fun _ => ih targets
    | struct _ => exact ih targets
    | enum _ => exact ih targets
    | typeAlias _ => exact ih targets
    | imports _ => exact ih targets

end Bodies

section Settling

variable {p : FaultFilter} {α β : Type}

namespace Filters

theorem liftSettle {m m' : Check α} (hm : Filters p m m') :
    Filters p (liftM m : Settle α).run (liftM m' : Settle α).run := by
  intro s
  have hlift : ∀ (k : Check α) (t : Session), (ExceptT.run (liftM k : Settle α)).run t =
      (.ok (k.run t).1, (k.run t).2) := fun _ _ => rfl
  rw [hlift, hlift, hm s]

theorem bindSettle {m m' : Settle α} {f f' : α → Settle β} (hm : Filters p m.run m'.run)
    (hf : ∀ a, Filters p (f a).run (f' a).run) : Filters p (m >>= f).run (m' >>= f').run := by
  rw [ExceptT.run_bind, ExceptT.run_bind]
  refine hm.bind fun r => ?_
  cases r with
  | error fault => exact .pure _
  | ok a => exact hf a

/-- Reading anything of the session but its faults. -/
theorem getSettle {f : Session → Settle α} (hread : ∀ s fs, f (s.withFaults fs) = f s)
    (hf : ∀ s, Filters p (f s).run (f s).run) :
    Filters p ((liftM (MonadState.get : Check Session) : Settle Session) >>= f).run
      ((liftM (MonadState.get : Check Session) : Settle Session) >>= f).run := by
  intro s
  have hsame : f (s.keep p) = f s := hread s _
  change (f (s.keep p)).run.run (s.keep p) = _
  rw [hsame]
  exact hf s s

theorem forMSettle {f : α → Settle Unit} (hf : ∀ a, Filters p (f a).run (f a).run) (l : List α) :
    Filters p (l.forM f).run (l.forM f).run := by
  induction l with
  | nil => exact .pure _
  | cons a l ih => exact (hf a).bindSettle fun _ => ih

end Filters

theorem solveAll_filters : Filters p solveAll.run solveAll.run := by
  intro s
  rw [solveAll_run, solveAll_run]
  rfl

theorem settleAmbiguous_filters : (d : Deferred) →
    Filters p (settleAmbiguous d).run (settleAmbiguous d).run
  | .iter _ _ _ => (Filters.liftSettle (.constrain _ _ _ _)).bindSettle fun _ => solveAll_filters
  | .field _ _ _ _ => .liftSettle (.quiet (report_emits _ _ rfl))
  | .method _ => .liftSettle (.quiet (report_emits _ _ rfl))

theorem settleRound_filters (sc : TypeScope) (methods : Methods) (pending : List Deferred) :
    Filters p (settleRound sc methods pending).run (settleRound sc methods pending).run := by
  induction pending with
  | nil => exact solveAll_filters.bindSettle fun _ => .pure _
  | cons d r ih =>
    refine solveAll_filters.bindSettle fun _ => Filters.getSettle (fun _ _ => rfl) fun s => ?_
    dsimp only
    split
    · exact ih.bindSettle fun _ => .pure _
    · exact (Filters.liftSettle (.quiet (resolveMember_quiet sc methods _ d))).bindSettle fun _ => ih

theorem settle_filters (sc : TypeScope) (methods : Methods) (pending : List Deferred) :
    Filters p (settle sc methods pending).run (settle sc methods pending).run := by
  induction hn : pending.length using Nat.strongRecOn generalizing pending with
  | ind n ih =>
    rw [settle]
    split
    · exact .pure _
    · refine (settleRound_filters sc methods pending).bindSettle fun waiting => ?_
      split
      · rename_i hlt
        exact ih waiting.length (hn ▸ hlt) waiting rfl
      · exact .forMSettle settleAmbiguous_filters waiting

theorem solveProgram_filters (sc : TypeScope) (methods : Methods) :
    Filters p (solveProgram sc methods).run (solveProgram sc methods).run :=
  solveAll_filters.bindSettle fun _ => Filters.getSettle (fun _ _ => rfl) fun _ =>
    settle_filters sc methods _

end Settling

end Sema
