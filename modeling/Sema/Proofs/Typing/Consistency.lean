import Sema.Proofs.Typing.Settling
import Sema.Syntax.Walk

/-!
# Types that fit together

`Expr.Consistent` says what the types of an expression and of its immediate parts have to do
with each other, form by form. Inference is judged by a valuation, which gives types to
expressions and to type variables: if a valuation agrees with every type that a check has
recorded and satisfies every constraint it has collected, and nothing has been reported, then
the types are consistent at every expression the check has visited. What one function of the
checker contributes is said by `Infers`, which composes along the steps of a check.
-/

namespace Sema

/-- Types for expressions, by identity. -/
abbrev Typing := ExprId → Option Ty

/-- The value of a block is that of its tail, and unit without one, unless the block ends in a
jump. -/
def Block.HasValue (τ : Typing) (b : Block) (t : Ty) : Prop :=
  match b.tail with
  | some e => τ e.id = some t
  | none => diverges b.stmts = false → t = .unit

/-- The expression has a type compatible with `t`. -/
def Expr.Fits (τ : Typing) (t : Ty) (e : Expr) : Prop :=
  ∃ u, τ e.id = some u ∧ t.compatible u = true

/-- A guard is a condition, and the body fits the type of the whole match. -/
def MatchArm.Consistent (τ : Typing) (t : Ty) (arm : MatchArm) : Prop :=
  (∀ g, arm.guard = some g → τ g.id = some .bool) ∧ arm.body.Fits τ t

/-- How the type `t` of an expression and the types of its parts hang together. -/
def ExprKind.Consistent (τ : Typing) (t : Ty) : ExprKind → Prop
  | .binary op left right => ∃ l r, τ left.id = some l ∧ τ right.id = some r ∧
      if op.isLogical then l = .bool ∧ r = .bool ∧ t = .bool
      else l.compatible r = true ∧ t = if op.isComparison then .bool else l
  | .unary op operand => τ operand.id = some t ∧ (op = .not → t = .bool)
  | .call callee args => ∃ params ret row types, τ callee.id = some (.fn params ret row) ∧
      args.map (fun e => τ e.id) = types.map some ∧ Ty.compatibleAll params types = true ∧
      ret.compatible t = true
  | .index base _ => ∃ elem, τ base.id = some (.array elem) ∧ t.compatible elem = true
  | .ifThen cond thenBranch elseBranch => τ cond.id = some .bool ∧
      match elseBranch with
      | some other => thenBranch.HasValue τ t ∧ other.Fits τ t
      | none => t = .unit
  | .matchOn _ arms => ∀ arm ∈ arms, arm.Consistent τ t
  | .block body => body.HasValue τ t
  | .lambda params _ body _ => ∃ types ret, t = .fn types ret .openRow ∧
      types.length = params.length ∧ body.Fits τ ret
  | .tuple elems => ∃ types, elems.map (fun e => τ e.id) = types.map some ∧ t = .tuple types
  | .array elems => ∃ elem, t = .array elem ∧ ∀ e ∈ elems, e.Fits τ elem
  | .structLit _ _ base => ∀ e, base = some e → e.Fits τ t
  | .tryOp e => ∃ ok err, τ e.id = some (.app Ty.resultName [ok, err]) ∧ t.compatible ok = true
  | .await e => τ e.id = some t
  | .whileLoop cond _ => τ cond.id = some .bool ∧ t = .unit
  | .forLoop .. => t = .unit
  | .range start stop _ => ∃ bound, t = .app Ty.rangeName [bound] ∧
      (∀ e, start = some e → e.Fits τ bound) ∧ ∀ e, stop = some e → e.Fits τ bound
  | .literal _ | .ident _ | .path _ | .methodCall .. | .field .. | .cast .. | .loop _ => True

/-- The expression has a type, and it goes with the types of its parts. -/
def Expr.Consistent (τ : Typing) (e : Expr) : Prop :=
  ∃ t, τ e.id = some t ∧ e.kind.Consistent τ t

namespace Ty

theorem eq_of_compatible_bool {t : Ty} (h : Ty.bool.compatible t = true) : t = .bool :=
  eq_of_compatible_atom h

theorem array_of_compatible {t u : Ty} (h : (Ty.array t).compatible u = true) :
    ∃ elem, u = .array elem ∧ t.compatible elem = true := by
  obtain ⟨as, rfl, has⟩ := app_of_compatible h
  obtain ⟨elem, r, rfl, helem, hr⟩ := cons_of_compatibleAll has
  rw [nil_of_compatibleAll hr]
  exact ⟨elem, rfl, helem⟩

theorem result_of_compatible {ok err u : Ty}
    (h : (Ty.app resultName [ok, err]).compatible u = true) :
    ∃ a b, u = .app resultName [a, b] ∧ ok.compatible a = true := by
  obtain ⟨as, rfl, has⟩ := app_of_compatible h
  obtain ⟨a, r, rfl, hok, hr⟩ := cons_of_compatibleAll has
  obtain ⟨b, q, rfl, _, hq⟩ := cons_of_compatibleAll hr
  rw [nil_of_compatibleAll hq]
  exact ⟨a, b, rfl, hok⟩

theorem replace_tuple (f : Nat → Ty) (l : List Ty) :
    (Ty.tuple l).replace f = .tuple (l.map (replace f)) := by
  rw [← replaceAll_eq_map]
  cases l <;> rfl

end Ty

/-- Types for expressions and for type variables. -/
structure Valuation where
  typing : Typing
  vars : Nat → Ty

namespace Valuation

/-- The type, with the variables put in. -/
def value (v : Valuation) (t : Ty) : Ty := t.replace v.vars

/-- What the session has recorded and collected is true of the valuation, and nothing has been
reported. -/
structure Satisfies (v : Valuation) (s : Session) : Prop where
  typed : ∀ x ∈ s.typed, v.typing x.1 = some (v.value x.2)
  constraints : ∀ c ∈ s.constraints.toList,
    (v.value c.expected).compatible (v.value c.actual) = true
  faults : s.faults = #[]

theorem Satisfies.of_grows {v : Valuation} {s t : Session} (ht : v.Satisfies t)
    (h : Grows s t) : v.Satisfies s :=
  ⟨fun x hx => ht.typed x (h.mem_typed hx),
    fun c hc => ht.constraints c (h.mem_constraints hc), h.no_faults ht.faults⟩

end Valuation

/-- The identities recorded so far. -/
def Session.recorded (s : Session) : List ExprId := s.typed.map (·.1)

/-- The check visits the expressions `l`: it records each of them once, and under a valuation
that satisfies the session after it each of them is consistent and the result has `Q`. -/
structure Infers (v : Valuation) (l : List Expr) {α : Type} (m : Check α) (Q : α → Prop) :
    Prop where
  grows : ∀ s, Grows s (m.run s).2
  records : ∀ s, ((m.run s).2.recorded).Perm (l.map (·.id) ++ s.recorded)
  consistent : ∀ s, v.Satisfies (m.run s).2 → ∀ e ∈ l, e.Consistent v.typing
  result : ∀ s, v.Satisfies (m.run s).2 → Q (m.run s).1

namespace Infers

variable {v : Valuation} {α β : Type}

theorem untyped {m : Check α} (h : Emits Event.IsUntyped m) : Infers v [] m fun _ => True where
  grows s := (h.leads s).grows
  records s := by
    rw [Session.recorded, (h.leads s).typed_eq]
    exact .refl _
  consistent s _ e he := by simp at he
  result _ _ := trivial

theorem quiet {m : Check α} (h : Quiet m) : Infers v [] m fun _ => True :=
  untyped (h.mono fun _ => Event.IsQuiet.isUntyped)

theorem pure (a : α) : Infers v [] (pure a : Check α) (· = a) where
  grows s := .refl s
  records s := .refl _
  consistent s _ e he := by simp at he
  result _ _ := rfl

theorem bind {l k : List Expr} {m : Check α} {f : α → Check β} {P : α → Prop}
    {R : α → β → Prop} (hm : Infers v l m P) (hf : ∀ a, Infers v k (f a) (R a)) :
    Infers v (l ++ k) (m >>= f) fun b => ∃ a, P a ∧ R a b where
  grows s := (hm.grows s).trans ((hf _).grows _)
  records s := by
    refine ((hf _).records _).trans ?_
    rw [List.map_append, List.append_assoc]
    refine ((hm.records s).append_left _).trans ?_
    rw [← List.append_assoc, ← List.append_assoc]
    exact List.perm_append_comm.append_right _
  consistent s hs e he := by
    rcases List.mem_append.mp he with he | he
    · exact hm.consistent s (hs.of_grows ((hf _).grows _)) e he
    · exact (hf _).consistent _ hs e he
  result s hs := ⟨_, hm.result s (hs.of_grows ((hf _).grows _)), (hf _).result _ hs⟩

theorem mono {l k : List Expr} {m : Check α} {P Q : α → Prop} (hm : Infers v l m P)
    (hl : l = k) (hQ : ∀ a, P a → Q a) : Infers v k m Q := by
  subst hl
  exact ⟨hm.grows, hm.records, hm.consistent, fun s hs => hQ _ (hm.result s hs)⟩

theorem constrain (expected actual : Ty) (span : Span) (origin : Origin) :
    Infers v [] (constrain expected actual span origin)
      fun _ => (v.value expected).compatible (v.value actual) = true where
  grows := (quiet (v := v) (constrain_notes expected actual span origin).quiet).grows
  records := (quiet (v := v) (constrain_notes expected actual span origin).quiet).records
  consistent s _ e he := by simp at he
  result s hs := by
    have hafter : v.Satisfies ((Event.constrain { expected, actual, span, origin }).apply s) := hs
    exact hafter.constraints { expected, actual, span, origin } (by simp [Event.apply])

/-- No valuation satisfies a session with a fault. -/
theorem report (fault : TypeFault) (span : Span) :
    Infers v [] (report fault span) fun _ => False where
  grows := (untyped (v := v) (report_emits fault span trivial)).grows
  records := (untyped (v := v) (report_emits fault span trivial)).records
  consistent s _ e he := by simp at he
  result s hs := by
    have hafter : v.Satisfies ((Event.report ⟨span, fault⟩).apply s) := hs
    simpa [Event.apply] using hafter.faults

/-- An expression is visited by inferring its kind and recording the type. -/
theorem record {l : List Expr} {m : Check Ty} (e : Expr)
    (hm : Infers v l m fun t => e.kind.Consistent v.typing (v.value t)) :
    Infers v (e :: l) (do
      let t ← m
      record e.id t
      return t) fun t => v.typing e.id = some (v.value t) where
  grows s := (hm.grows s).trans ((Event.record e.id _).grows _)
  records s := (hm.records s).cons e.id
  consistent s hs d hd := by
    have hinside := hs.of_grows ((Event.record e.id (m.run s).1).grows (m.run s).2)
    rcases List.mem_cons.mp hd with rfl | hd
    · exact ⟨_, hs.typed _ List.mem_cons_self, hm.result s hinside⟩
    · exact hm.consistent s hinside d hd
  result s hs := hs.typed _ List.mem_cons_self

end Infers

section Steps

variable (v : Valuation)

theorem binaryType_infers (op : BinOp) (l r : Ty) (left right : Span) :
    Infers v [] (binaryType op l r left right) fun t =>
      if op.isLogical then v.value l = .bool ∧ v.value r = .bool ∧ v.value t = .bool
      else (v.value l).compatible (v.value r) = true ∧
        v.value t = if op.isComparison then .bool else v.value l := by
  unfold binaryType
  split
  · refine ((Infers.constrain _ _ _ _).bind fun _ => (Infers.constrain _ _ _ _).bind fun _ =>
      Infers.pure _).mono rfl ?_
    rintro t ⟨_, hl, _, hr, rfl⟩
    exact ⟨Ty.eq_of_compatible_bool hl, Ty.eq_of_compatible_bool hr, rfl⟩
  · refine ((Infers.constrain _ _ _ _).bind fun _ => Infers.pure _).mono rfl ?_
    rintro t ⟨_, hlr, rfl⟩
    refine ⟨hlr, ?_⟩
    split <;> rfl

theorem callType_infers (cx : Context) (callee : Ty) (args : List Ty) (span : Span) :
    Infers v [] (callType cx callee args span) fun t => ∃ params ret row,
      v.value callee = .fn params ret row ∧
        Ty.compatibleAll params (args.map v.value) = true ∧
        ret.compatible (v.value t) = true := by
  refine ((Infers.quiet fresh_notes.quiet).bind fun _ => (Infers.constrain _ _ _ _).bind fun _ =>
    (Infers.quiet (recordSite_quiet _ _ _)).bind fun _ => Infers.pure _).mono rfl ?_
  rintro t ⟨_, _, _, h, _, _, rfl⟩
  rw [Ty.compatible_comm] at h
  obtain ⟨ps, r, e, hcallee, hparams, hret, _⟩ := Ty.fn_of_compatible h
  rw [Ty.replaceAll_eq_map, Ty.compatibleAll_comm] at hparams
  rw [Ty.compatible_comm] at hret
  exact ⟨ps, r, e, hcallee, hparams, hret⟩

/-- A call with the wrong number of arguments is reported, so it needs no case of its own. -/
theorem checkCall_infers (cx : Context) (name : Option String) (callee : Ty) (args : List Ty)
    (span : Span) :
    Infers v [] (checkCall cx name callee args span) fun t => ∃ params ret row,
      v.value callee = .fn params ret row ∧
        Ty.compatibleAll params (args.map v.value) = true ∧
        ret.compatible (v.value t) = true := by
  unfold checkCall
  split
  · split
    · refine ((Infers.report _ _).bind fun _ => Infers.pure _).mono rfl ?_
      rintro t ⟨_, h, _⟩
      exact h.elim
    · exact callType_infers v _ _ _ _
  · exact callType_infers v _ _ _ _

theorem paramTypes_infers (sc : TypeScope) : (l : List Param) →
    Infers v [] (paramTypes sc l) fun types => types.length = l.length
  | [] => (Infers.pure _).mono rfl fun _ h => by rw [h]; rfl
  | p :: r => by
    refine ((Infers.quiet (lowerOr_notes sc fresh_notes p.ty).quiet).bind fun _ =>
      (paramTypes_infers sc r).bind fun _ => Infers.pure _).mono rfl ?_
    rintro _ ⟨_, _, types, htypes, rfl⟩
    simp [htypes]

end Steps

mutual

theorem inferExpr_infers (v : Valuation) (cx : Context) : (e : Expr) →
    Infers v e.nodes (inferExpr cx e) fun t => v.typing e.id = some (v.value t)
  | ⟨id, span, kind⟩ => by
    rw [inferExpr, Expr.nodes]
    exact .record ⟨id, span, kind⟩ (inferKind_infers v cx span kind)

theorem inferKind_infers (v : Valuation) (cx : Context) (span : Span) : (k : ExprKind) →
    Infers v k.nodes (inferKind cx span k) fun t => k.Consistent v.typing (v.value t)
  | .literal lit => by
    rw [inferKind, ExprKind.nodes]
    exact .quiet (literalType_notes _ _).quiet
  | .ident name => by
    rw [inferKind, ExprKind.nodes]
    exact .quiet (lookupName_notes _ _ _ _ rfl rfl).quiet
  | .path segments => by
    rw [inferKind, ExprKind.nodes]
    exact .quiet (lookupName_notes _ _ _ _ rfl rfl).quiet
  | .binary op left right => by
    rw [inferKind, ExprKind.nodes]
    refine ((inferExpr_infers v cx left).bind fun _ => (inferExpr_infers v cx right).bind fun _ =>
      binaryType_infers v op _ _ _ _).mono (by simp) ?_
    rintro t ⟨l, hl, r, hr, ht⟩
    exact ⟨_, _, hl, hr, ht⟩
  | .unary op operand => by
    rw [inferKind, ExprKind.nodes]
    have hoperand := inferExpr_infers v cx operand
    cases op with
    | not =>
      refine (hoperand.bind fun _ => (Infers.constrain _ _ _ _).bind fun _ =>
        Infers.pure _).mono (by simp) ?_
      rintro t ⟨u, hu, _, hbool, rfl⟩
      rw [Ty.eq_of_compatible_bool hbool] at hu
      exact ⟨hu, fun _ => rfl⟩
    | _ =>
      refine (hoperand.bind fun _ => Infers.pure _).mono (by simp) ?_
      rintro t ⟨u, hu, rfl⟩
      exact ⟨hu, nofun⟩
  | .call callee args => by
    rw [inferKind, ExprKind.nodes]
    refine ((inferExpr_infers v cx callee).bind fun _ => (inferAll_infers v cx args).bind fun _ =>
      checkCall_infers v cx _ _ _ _).mono (by simp) ?_
    rintro t ⟨c, hc, types, htypes, params, ret, row, hfn, hparams, hret⟩
    rw [hfn] at hc
    exact ⟨params, ret, row, _, hc, htypes, hparams, hret⟩
  | .methodCall receiver method args => by
    rw [inferKind, ExprKind.nodes]
    exact ((inferExpr_infers v cx receiver).bind fun _ => (inferAll_infers v cx args).bind fun _ =>
      (Infers.quiet fresh_notes.quiet).bind fun _ => (Infers.quiet (defer_quiet _)).bind fun _ =>
      Infers.pure _).mono (by simp) fun _ _ => trivial
  | .field base field => by
    rw [inferKind, ExprKind.nodes]
    exact ((inferExpr_infers v cx base).bind fun _ => (Infers.quiet fresh_notes.quiet).bind
      fun _ => (Infers.quiet (defer_quiet _)).bind fun _ => Infers.pure _).mono (by simp)
      fun _ _ => trivial
  | .index base index => by
    rw [inferKind, ExprKind.nodes]
    refine ((inferExpr_infers v cx base).bind fun _ => (inferExpr_infers v cx index).bind fun _ =>
      (Infers.quiet fresh_notes.quiet).bind fun _ => (Infers.constrain _ _ _ _).bind fun _ =>
      Infers.pure _).mono (by simp) ?_
    rintro t ⟨b, hb, _, _, elem, _, _, harray, rfl⟩
    obtain ⟨elem, helem, hcomp⟩ := Ty.array_of_compatible harray
    rw [helem] at hb
    exact ⟨elem, hb, hcomp⟩
  | .ifThen cond thenBranch (some other) => by
    rw [inferKind, ExprKind.nodes]
    refine ((inferExpr_infers v cx cond).bind fun _ => (Infers.constrain _ _ _ _).bind fun _ =>
      (inferBlock_infers v cx thenBranch).bind fun _ => (inferExpr_infers v cx other).bind fun _ =>
      (Infers.constrain _ _ _ _).bind fun _ => Infers.pure _).mono (by simp) ?_
    rintro t ⟨c, hc, _, hbool, _, hthen, u, hu, _, hcomp, rfl⟩
    rw [Ty.eq_of_compatible_bool hbool] at hc
    exact ⟨hc, hthen, _, hu, hcomp⟩
  | .ifThen cond thenBranch none => by
    rw [inferKind, ExprKind.nodes]
    refine ((inferExpr_infers v cx cond).bind fun _ => (Infers.constrain _ _ _ _).bind fun _ =>
      (inferBlock_infers v cx thenBranch).bind fun _ => Infers.pure _).mono (by simp) ?_
    rintro t ⟨c, hc, _, hbool, _, _, rfl⟩
    rw [Ty.eq_of_compatible_bool hbool] at hc
    exact ⟨hc, rfl⟩
  | .matchOn scrutinee arms => by
    rw [inferKind, ExprKind.nodes]
    refine ((inferExpr_infers v cx scrutinee).bind fun _ => (Infers.quiet fresh_notes.quiet).bind
      fun _ => (checkArms_infers v cx _ _ arms).bind fun _ => Infers.pure _).mono (by simp) ?_
    rintro t ⟨_, _, _, _, _, harms, rfl⟩
    exact harms
  | .block body => by
    rw [inferKind, ExprKind.nodes]
    exact inferBlock_infers v cx body
  | .lambda params ret body _ => by
    rw [inferKind, ExprKind.nodes]
    refine ((paramTypes_infers v _ params).bind fun _ =>
      (Infers.quiet (lowerOr_notes _ fresh_notes ret).quiet).bind fun _ =>
      (inferExpr_infers v _ body).bind fun _ => (Infers.constrain _ _ _ _).bind fun _ =>
      Infers.pure _).mono (by simp) ?_
    rintro t ⟨types, hlen, r, _, b, hb, _, hcomp, rfl⟩
    exact ⟨_, _, rfl, by simp [Ty.length_replaceAll, hlen], _, hb, hcomp⟩
  | .tuple elems => by
    rw [inferKind, ExprKind.nodes]
    refine ((inferAll_infers v cx elems).bind fun _ => Infers.pure _).mono (by simp) ?_
    rintro t ⟨types, htypes, rfl⟩
    exact ⟨_, htypes, Ty.replace_tuple _ _⟩
  | .array elems => by
    rw [inferKind, ExprKind.nodes]
    refine ((Infers.quiet fresh_notes.quiet).bind fun _ =>
      (inferElems_infers v cx _ _ elems).bind fun _ => Infers.pure _).mono (by simp) ?_
    rintro t ⟨elem, _, _, helems, rfl⟩
    exact ⟨_, rfl, helems⟩
  | .structLit name fields (some base) => by
    rw [inferKind, ExprKind.nodes]
    have hbase := inferExpr_infers v cx base
    split
    · refine ((Infers.report _ _).bind fun _ => (inferFields_infers v cx fields).bind fun _ =>
        (hbase.bind fun _ => Infers.pure _).bind fun _ =>
        Infers.quiet fresh_notes.quiet).mono (by simp) ?_
      rintro t ⟨_, h, _⟩
      exact h.elim
    · refine ((Infers.quiet (instantiateNominal_notes _ _).quiet).bind fun _ =>
        (checkInits_infers v _ _ _ _ fields).bind fun _ => hbase.bind fun _ =>
        (Infers.constrain _ _ _ _).bind fun _ => Infers.pure _).mono (by simp) ?_
      rintro t ⟨_, _, _, _, u, hu, _, hcomp, rfl⟩ e he
      cases he
      exact ⟨_, hu, hcomp⟩
  | .structLit name fields none => by
    rw [inferKind, ExprKind.nodes]
    split
    · exact ((Infers.report _ _).bind fun _ => (inferFields_infers v cx fields).bind fun _ =>
        Infers.quiet fresh_notes.quiet).mono (by simp) fun _ _ => nofun
    · exact ((Infers.quiet (instantiateNominal_notes _ _).quiet).bind fun _ =>
        (checkInits_infers v _ _ _ _ fields).bind fun _ =>
        (Infers.quiet (checkComplete_notes _ _ _ _).quiet).bind fun _ =>
        Infers.pure _).mono (by simp) fun _ _ => nofun
  | .cast e ty => by
    rw [inferKind, ExprKind.nodes]
    exact ((inferExpr_infers v cx e).bind fun _ => Infers.quiet (lower_notes _ _).quiet).mono
      (by simp) fun _ _ => trivial
  | .tryOp e => by
    rw [inferKind, ExprKind.nodes]
    refine ((inferExpr_infers v cx e).bind fun _ => (Infers.quiet fresh_notes.quiet).bind fun _ =>
      (Infers.quiet fresh_notes.quiet).bind fun _ => (Infers.constrain _ _ _ _).bind fun _ =>
      Infers.pure _).mono (by simp) ?_
    rintro t ⟨u, hu, ok, _, err, _, _, hresult, rfl⟩
    obtain ⟨a, b, hab, hok⟩ := Ty.result_of_compatible hresult
    rw [hab] at hu
    exact ⟨a, b, hu, hok⟩
  | .await e => by
    rw [inferKind, ExprKind.nodes]
    refine ((inferExpr_infers v cx e).bind (k := []) (R := fun t u => u = t) fun t => ?_).mono
      (by simp) ?_
    · split
      · exact ((Infers.report _ _).bind fun _ => Infers.pure _).mono rfl fun _ ⟨_, _, h⟩ => h
      · exact .pure t
    · rintro t ⟨_, ht, rfl⟩
      exact ht
  | .whileLoop cond body => by
    rw [inferKind, ExprKind.nodes]
    refine ((inferExpr_infers v cx cond).bind fun _ => (Infers.constrain _ _ _ _).bind fun _ =>
      (inferBlock_infers v _ body).bind fun _ => Infers.pure _).mono (by simp) ?_
    rintro t ⟨c, hc, _, hbool, _, _, rfl⟩
    rw [Ty.eq_of_compatible_bool hbool] at hc
    exact ⟨hc, rfl⟩
  | .loop body => by
    rw [inferKind, ExprKind.nodes]
    exact ((Infers.quiet fresh_notes.quiet).bind fun _ => (inferBlock_infers v _ body).bind fun _ =>
      Infers.pure _).mono (by simp) fun _ _ => trivial
  | .forLoop pattern iterable body => by
    rw [inferKind, ExprKind.nodes]
    refine ((inferExpr_infers v cx iterable).bind fun _ => (Infers.quiet fresh_notes.quiet).bind
      fun _ => (Infers.quiet (defer_quiet _)).bind fun _ =>
      (Infers.quiet (checkPattern_notes _ pattern _).quiet).bind fun _ =>
      (inferBlock_infers v _ body).bind fun _ => Infers.pure _).mono (by simp) ?_
    rintro t ⟨_, _, _, _, _, _, _, _, _, _, rfl⟩
    rfl
  | .range none none _ => by
    rw [inferKind, ExprKind.nodes]
    refine ((Infers.quiet fresh_notes.quiet).bind fun _ => Infers.pure _).mono rfl ?_
    rintro t ⟨_, _, rfl⟩
    exact ⟨_, rfl, nofun, nofun⟩
  | .range (some start) none _ => by
    rw [inferKind, ExprKind.nodes]
    refine ((Infers.quiet fresh_notes.quiet).bind fun _ => (inferExpr_infers v cx start).bind
      fun _ => (Infers.constrain _ _ _ _).bind fun _ => Infers.pure _).mono (by simp) ?_
    rintro t ⟨_, _, a, ha, _, hcomp, rfl⟩
    exact ⟨_, rfl, fun e he => by cases he; exact ⟨_, ha, hcomp⟩, nofun⟩
  | .range none (some stop) _ => by
    rw [inferKind, ExprKind.nodes]
    refine ((Infers.quiet fresh_notes.quiet).bind fun _ => (inferExpr_infers v cx stop).bind
      fun _ => (Infers.constrain _ _ _ _).bind fun _ => Infers.pure _).mono (by simp) ?_
    rintro t ⟨_, _, b, hb, _, hcomp, rfl⟩
    exact ⟨_, rfl, nofun, fun e he => by cases he; exact ⟨_, hb, hcomp⟩⟩
  | .range (some start) (some stop) _ => by
    rw [inferKind, ExprKind.nodes]
    refine ((Infers.quiet fresh_notes.quiet).bind fun _ => (inferExpr_infers v cx start).bind
      fun _ => (Infers.constrain _ _ _ _).bind fun _ => (inferExpr_infers v cx stop).bind
      fun _ => (Infers.constrain _ _ _ _).bind fun _ => Infers.pure _).mono (by simp) ?_
    rintro t ⟨_, _, a, ha, _, hleft, b, hb, _, hright, rfl⟩
    exact ⟨_, rfl, fun e he => by cases he; exact ⟨_, ha, hleft⟩,
      fun e he => by cases he; exact ⟨_, hb, hright⟩⟩

theorem inferAll_infers (v : Valuation) (cx : Context) : (l : List Expr) →
    Infers v (nodesAll l) (inferAll cx l) fun types =>
      l.map (fun e => v.typing e.id) = (types.map v.value).map some
  | [] => by
    rw [inferAll, nodesAll]
    exact (Infers.pure _).mono rfl fun _ h => by rw [h]; rfl
  | e :: r => by
    rw [inferAll, nodesAll]
    refine ((inferExpr_infers v cx e).bind fun _ => (inferAll_infers v cx r).bind fun _ =>
      Infers.pure _).mono (by simp) ?_
    rintro _ ⟨t, ht, types, htypes, rfl⟩
    simp [ht, htypes]

theorem inferElems_infers (v : Valuation) (cx : Context) (elem : Ty) (origin : Origin) :
    (l : List Expr) → Infers v (nodesAll l) (inferElems cx elem origin l) fun _ =>
      ∀ e ∈ l, e.Fits v.typing (v.value elem)
  | [] => by
    rw [inferElems, nodesAll]
    exact (Infers.pure _).mono rfl fun _ _ => by simp
  | e :: r => by
    rw [inferElems, nodesAll]
    refine ((inferExpr_infers v cx e).bind fun _ => (Infers.constrain _ _ _ _).bind fun _ =>
      inferElems_infers v cx elem origin r).mono (by simp) ?_
    rintro _ ⟨t, ht, _, hcomp, hr⟩ d hd
    rcases List.mem_cons.mp hd with rfl | hd
    · exact ⟨_, ht, hcomp⟩
    · exact hr d hd

theorem inferFields_infers (v : Valuation) (cx : Context) : (l : List FieldInit) →
    Infers v (nodesInits l) (inferFields cx l) fun _ => True
  | [] => by
    rw [inferFields, nodesInits]
    exact (Infers.pure _).mono rfl fun _ _ => trivial
  | ⟨_, _, value⟩ :: r => by
    rw [inferFields, nodesInits]
    exact ((inferExpr_infers v cx value).bind fun _ => inferFields_infers v cx r).mono (by simp)
      fun _ _ => trivial

theorem checkInits_infers (v : Valuation) (cx : Context) (d : StructDef) (struct : String) :
    (seen : List String) → (l : List FieldInit) →
    Infers v (nodesInits l) (checkInits cx d struct seen l) fun _ => True
  | _, [] => by
    rw [checkInits, nodesInits]
    exact (Infers.pure _).mono rfl fun _ _ => trivial
  | seen, ⟨span, name, value⟩ :: r => by
    rw [checkInits, nodesInits]
    refine ((inferExpr_infers v cx value).bind (k := nodesInits r) (R := fun _ _ => True)
      fun t => ?_).mono rfl fun _ _ => trivial
    have hrest := checkInits_infers v cx d struct (name.node :: seen) r
    split
    · exact ((Infers.quiet (report_notes _ _ rfl rfl).quiet).bind fun _ => hrest).mono (by simp)
        fun _ _ => trivial
    · exact ((Infers.quiet (checkInit_notes _ _ _ _ _ _).quiet).bind fun _ => hrest).mono
        (by simp) fun _ _ => trivial

theorem checkArms_infers (v : Valuation) (cx : Context) (t result : Ty) : (l : List MatchArm) →
    Infers v (nodesArms l) (checkArms cx t result l) fun _ =>
      ∀ arm ∈ l, arm.Consistent v.typing (v.value result)
  | [] => by
    rw [checkArms, nodesArms]
    exact (Infers.pure _).mono rfl fun _ _ => by simp
  | ⟨_, pattern, some g, body⟩ :: r => by
    rw [checkArms, nodesArms]
    refine ((Infers.quiet (checkPattern_notes _ pattern t).quiet).bind fun _ =>
      (inferExpr_infers v _ g).bind fun _ => (Infers.constrain _ _ _ _).bind fun _ =>
      (inferExpr_infers v _ body).bind fun _ => (Infers.constrain _ _ _ _).bind fun _ =>
      checkArms_infers v cx t result r).mono (by simp) ?_
    rintro _ ⟨_, _, c, hc, _, hbool, u, hu, _, hcomp, hr⟩ arm harm
    rw [Ty.eq_of_compatible_bool hbool] at hc
    rcases List.mem_cons.mp harm with rfl | harm
    · exact ⟨fun d hd => by cases hd; exact hc, _, hu, hcomp⟩
    · exact hr arm harm
  | ⟨_, pattern, none, body⟩ :: r => by
    rw [checkArms, nodesArms]
    refine ((Infers.quiet (checkPattern_notes _ pattern t).quiet).bind fun _ =>
      (inferExpr_infers v _ body).bind fun _ => (Infers.constrain _ _ _ _).bind fun _ =>
      checkArms_infers v cx t result r).mono (by simp) ?_
    rintro _ ⟨_, _, u, hu, _, hcomp, hr⟩ arm harm
    rcases List.mem_cons.mp harm with rfl | harm
    · exact ⟨nofun, _, hu, hcomp⟩
    · exact hr arm harm

theorem inferBlock_infers (v : Valuation) (cx : Context) : (b : Block) →
    Infers v b.nodes (inferBlock cx b) fun t => b.HasValue v.typing (v.value t)
  | ⟨_, stmts, some e⟩ => by
    rw [inferBlock, Block.nodes]
    refine ((checkStmts_infers v _ stmts).bind fun _ => inferExpr_infers v _ e).mono (by simp) ?_
    rintro t ⟨_, _, ht⟩
    exact ht
  | ⟨_, stmts, none⟩ => by
    rw [inferBlock, Block.nodes]
    refine ((checkStmts_infers v _ stmts).bind (k := [])
      (R := fun _ t => diverges stmts = false → v.value t = .unit) fun _ => ?_).mono rfl ?_
    · dsimp only
      split
      · rename_i hdiv
        exact (Infers.quiet fresh_notes.quiet).mono rfl fun _ _ h => by simp [hdiv] at h
      · exact (Infers.pure _).mono rfl fun _ h _ => by rw [h]; rfl
    · rintro t ⟨_, _, ht⟩
      exact ht

theorem checkStmts_infers (v : Valuation) (cx : Context) : (l : List Stmt) →
    Infers v (nodesStmts l) (checkStmts cx l) fun _ => True
  | [] => by
    rw [checkStmts, nodesStmts]
    exact (Infers.pure _).mono rfl fun _ _ => trivial
  | s :: r => by
    rw [checkStmts, nodesStmts]
    exact ((checkStmt_infers v cx s).bind fun _ => checkStmts_infers v _ r).mono (by simp)
      fun _ _ => trivial

theorem checkStmt_infers (v : Valuation) (cx : Context) : (s : Stmt) →
    Infers v s.nodes (checkStmt cx s) fun _ => True
  | .letBind _ pattern (some ty) (some e) mutable => by
    rw [checkStmt, Stmt.nodes]
    exact ((inferExpr_infers v cx e).bind fun _ => (Infers.quiet (lower_notes _ ty).quiet).bind
      fun _ => (Infers.quiet (constrain_notes _ _ _ _).quiet).bind fun _ =>
      Infers.quiet (bindLet_quiet _ pattern _ _ mutable)).mono (by simp) fun _ _ => trivial
  | .letBind _ pattern none (some e) mutable => by
    rw [checkStmt, Stmt.nodes]
    exact ((inferExpr_infers v cx e).bind fun _ =>
      Infers.quiet (bindLet_quiet _ pattern _ _ mutable)).mono (by simp) fun _ _ => trivial
  | .letBind _ pattern ty none mutable => by
    rw [checkStmt, Stmt.nodes]
    exact .quiet ((lowerOr_notes _ fresh_notes ty).quiet.bind fun _ => bindLet_quiet _ _ _ _ _)
  | .assign _ target value => by
    rw [checkStmt, Stmt.nodes]
    exact ((inferExpr_infers v cx target).bind fun _ => (inferExpr_infers v cx value).bind fun _ =>
      (Infers.quiet (constrain_notes _ _ _ _).quiet).bind fun _ => Infers.pure _).mono (by simp)
      fun _ _ => trivial
  | .expr e => by
    rw [checkStmt, Stmt.nodes]
    exact ((inferExpr_infers v cx e).bind fun _ => Infers.pure _).mono (by simp)
      fun _ _ => trivial
  | .ret span (some e) => by
    rw [checkStmt, Stmt.nodes]
    exact ((inferExpr_infers v cx e).bind fun _ =>
      (Infers.quiet (checkReturn_notes _ _ _).quiet).bind fun _ => Infers.pure _).mono (by simp)
      fun _ _ => trivial
  | .ret span none => by
    rw [checkStmt, Stmt.nodes]
    exact .quiet ((checkReturn_notes _ _ _).quiet.bind fun _ => .pure _)
  | .brk span (some e) => by
    rw [checkStmt, Stmt.nodes]
    exact ((inferExpr_infers v cx e).bind fun _ =>
      (Infers.quiet (checkBreak_notes _ _ _ _).quiet).bind fun _ => Infers.pure _).mono (by simp)
      fun _ _ => trivial
  | .brk span none => by
    rw [checkStmt, Stmt.nodes]
    exact .quiet ((checkBreak_notes _ _ _ _).quiet.bind fun _ => .pure _)
  | .cont span => by
    rw [checkStmt, Stmt.nodes]
    split
    · exact .quiet ((report_notes _ _ rfl rfl).quiet.bind fun _ => .pure _)
    · exact .quiet (.pure _)

end

end Sema
