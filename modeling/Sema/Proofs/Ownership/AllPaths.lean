import Sema.Proofs.Ownership.Plan
import Sema.Proofs.Ownership.View

/-!
# The ownership check follows all paths

The check walks over every branch once and joins their ends. It finds out as much as following
every path would: a binding ends up moved just when it is moved at the end of every path, and
a mention is an error just when the name is moved on every path that gets there.
-/

namespace Sema

/-- The walk from `w` to `after` follows every path of the plan. -/
def Walk.Follows (p : Plan) (w after : Walk) : Prop :=
  0 < w.flow.depth → Tracks p w.view after.view

namespace Walk.Follows

variable {p q : Plan} {w u after : Walk}

theorem depth (h : Follows p w after) (hw : 0 < w.flow.depth) :
    after.flow.depth = w.flow.depth := by
  have hlen := (h hw).length
  simpa [view] using hlen

theorem skip (w : Walk) : Follows .skip w w := fun _ => .skip w.view

theorem seq (h : Follows p w u) (k : Follows q u after) : Follows (.seq p q) w after := by
  intro hw
  have hu : 0 < u.flow.depth := by rw [h.depth hw]; exact hw
  exact (h hw).seq (k hu)

/-- What does not show at the end does not matter. -/
theorem ending (h : Follows p w u) (hv : after.view = u.view) : Follows p w after := by
  intro hw
  rw [hv]
  exact h hw

theorem starting (hv : w.view = u.view) (h : Follows p u after) : Follows p w after := by
  intro hw
  have hmarks : w.flow.marks.length = u.flow.marks.length := congrArg (·.marks.length) hv
  rw [Flow.length_marks, Flow.length_marks] at hmarks
  have hu : 0 < u.flow.depth := by omega
  rw [hv]
  exact h hu

theorem use (w : Walk) (name : String) (span : Span) :
    Follows (.use name span) w (w.use name span) := by
  intro _
  rw [view_use]
  exact .use name span w.view

theorem declare (w : Walk) (names : List String) :
    Follows (.declare names) w (w.onFlow (·.declareAll names)) := by
  intro _
  have hview : (w.onFlow (·.declareAll names)).view =
      ⟨names.foldl Marks.declare w.flow.marks, w.movedUses⟩ := by
    simp [view, onFlow, movedUses, Flow.marks_declareAll]
  rw [hview]
  exact .declare names w.view

theorem mark (w : Walk) (names : List String) (moved : Bool) {g : Flow → Flow}
    (hg : (g w.flow).marks = names.foldl (fun m name => m.set name moved) w.flow.marks) :
    Follows (.mark names moved) w (w.onFlow g) := by
  intro _
  have hview : (w.onFlow g).view =
      ⟨names.foldl (fun m name => m.set name moved) w.flow.marks, w.movedUses⟩ := by
    simp [view, onFlow, movedUses, hg]
  rw [hview]
  exact .mark names moved w.view

theorem scope (h : Follows p (w.onFlow Flow.push) after) :
    Follows (.scope p) w (after.onFlow Flow.pop) := by
  intro hw
  have hpush : 0 < (w.onFlow Flow.push).flow.depth := Nat.succ_pos _
  have hdepth : after.flow.depth = w.flow.depth + 1 := h.depth hpush
  have hview : (after.onFlow Flow.pop).view = ⟨after.flow.marks.tail, after.movedUses⟩ := by
    have hpop := Flow.marks_pop (s := after.flow) (by omega)
    simp [view, onFlow, movedUses, hpop]
  have hinside : Tracks p ⟨w.view.marks.push, w.view.errors⟩ after.view := h hpush
  rw [hview]
  exact hinside.scope

/-- A frame that starts with names of its own. -/
theorem binding {names : List String}
    (h : Follows p (w.onFlow fun s => s.push.declareAll names) after) :
    Follows (.scope (.seq (.declare names) p)) w (after.onFlow Flow.pop) :=
  scope ((declare (w.onFlow Flow.push) names).seq h)

theorem aside (h : Follows p w after) : Follows (.aside p) w { after with flow := w.flow } :=
  fun hw => (h hw).aside

/-- Two ways from the same state, the second after the complaints of the first. -/
theorem choice (h : Follows p w u) (k : Follows q { u with flow := w.flow } after)
    (hp : p.closed = true) (hq : q.closed = true) :
    Follows (.choice p q) w { after with flow := u.flow.join after.flow } := by
  intro hw
  have hdepth : u.flow.depth = after.flow.depth := by rw [h.depth hw, k.depth hw]
  exact (h hw).choice (k hw) hp hq (Flow.sameShape_join hdepth) (Flow.flag_join_eq_true hdepth)

end Walk.Follows

/-- One arm of a match, in a frame of its own. -/
def ownArm (holder : Option Holder) (mode : Mode) : MatchArm → Walk → Walk
  | ⟨_, pattern, guard, body⟩, w =>
    let w := w.onFlow fun s => s.push.declareAll pattern.names
    let w :=
      match guard with
      | some g => ownExpr holder .use g w
      | none => w
    (ownExpr holder mode body w).onFlow (·.pop)

theorem ownArms_cons (holder : Option Holder) (mode : Mode) (before : Flow) (w : Walk) :
    (arm : MatchArm) → (r : List MatchArm) →
    ownArms holder mode before (arm :: r) w =
      ((ownArm holder mode arm { w with flow := before }).flow ::
        (ownArms holder mode before r (ownArm holder mode arm { w with flow := before })).1,
        (ownArms holder mode before r (ownArm holder mode arm { w with flow := before })).2)
  | ⟨_, _, some _, _⟩, _ => rfl
  | ⟨_, _, none, _⟩, _ => rfl

open Walk (Follows)

-- The functions of the check unfold by computation at each form; their general equations are
-- too large to rewrite with.
mutual

theorem ownExpr_follows (holder : Option Holder) (mode : Mode) : (e : Expr) → (w : Walk) →
    Follows (e.plan mode) w (ownExpr holder mode e w)
  | ⟨_, span, kind⟩, w => ownKind_follows holder mode span kind w

theorem ownKind_follows (holder : Option Holder) (mode : Mode) (span : Span) :
    (k : ExprKind) → (w : Walk) → Follows (k.plan mode span) w (ownKind holder mode span k w)
  | .literal _, w => .skip w
  | .path _, w => .skip w
  | .ident name, w => by
    cases mode with
    | use => exact .use w name span
    | move =>
      exact (Follows.use w name span).seq (.mark _ [name] true (Flow.marks_move _ name span))
  | .unary op operand, w => by
    have hown : ownKind holder mode span (.unary op operand) w =
        match op.borrowKind?, operand.root? with
        | some kind, some name => ownIndices holder operand (w.borrow name ⟨kind, span, holder⟩)
        | _, _ => ownExpr holder .use operand w := rfl
    rw [ExprKind.plan_unary, hown]
    cases op.borrowKind? with
    | none => exact ownExpr_follows holder .use operand w
    | some kind =>
      cases operand.root? with
      | none => exact ownExpr_follows holder .use operand w
      | some name =>
        exact .starting (w.view_borrow _ _).symm (ownIndices_follows holder operand _)
  | .binary _ left right, w =>
    (ownExpr_follows holder .use left w).seq (ownExpr_follows holder .use right _)
  | .call callee args, w =>
    (ownExpr_follows holder .use callee w).seq (ownAll_follows holder args _)
  | .methodCall receiver _ args, w =>
    (ownExpr_follows holder .use receiver w).seq (ownAll_follows holder args _)
  | .field base _, w => ownExpr_follows holder .use base w
  | .index base index, w =>
    (ownExpr_follows holder .use base w).seq (ownExpr_follows holder .use index _)
  | .ifThen cond thenBranch (some other), w => by
    have hthen := ownBlock_follows holder mode thenBranch (ownExpr holder .use cond w)
    have helse := ownExpr_follows holder mode other
      { ownBlock holder mode thenBranch (ownExpr holder .use cond w) with
        flow := (ownExpr holder .use cond w).flow }
    exact (ownExpr_follows holder .use cond w).seq
      (hthen.choice helse (thenBranch.closed_plan mode) (other.closed_plan mode))
  | .ifThen cond thenBranch none, w => by
    have hthen := ownBlock_follows holder mode thenBranch (ownExpr holder .use cond w)
    exact (ownExpr_follows holder .use cond w).seq
      (hthen.choice (.skip _) (thenBranch.closed_plan mode) rfl)
  | .matchOn scrutinee [], w => by
    have hclear := Walk.view_onFlow (g := Flow.clearBorrows) (ownExpr holder .use scrutinee w)
      (Flow.marks_keepBorrows _ _)
    exact (ownExpr_follows holder .use scrutinee w).seq ((Follows.skip _).ending hclear)
  | .matchOn scrutinee (arm :: r), w => by
    let before := ownExpr holder .use scrutinee w
    have hown : ownKind holder mode span (.matchOn scrutinee (arm :: r)) w =
        { (ownArms holder mode before.flow (arm :: r) before).2 with
          flow := (Flow.joinAll (ownArms holder mode before.flow (arm :: r) before).1).getD
            before.flow.clearBorrows } := rfl
    rw [hown, ownArms_cons]
    have hfirst := ownArm_follows holder mode arm before
    have hrest := ownArms_follows holder mode r _ before _ (ownArm holder mode arm before)
      (arm.closed_plan mode) hfirst
    exact (ownExpr_follows holder .use scrutinee w).seq hrest
  | .block body, w => ownBlock_follows holder mode body w
  | .lambda params _ body isMove, w => by
    have hbody := ownExpr_follows none .move body
      (w.onFlow fun s => s.push.declareAll (params.map (·.name.node)))
    refine hbody.binding.aside.seq ?_
    cases isMove with
    | true => exact .mark _ _ true (Flow.marks_moveAll _ _ span)
    | false => exact .skip _
  | .tuple elems, w => ownAll_follows holder elems w
  | .array elems, w => ownAll_follows holder elems w
  | .structLit _ fields (some base), w =>
    (ownInits_follows holder fields w).seq (ownExpr_follows holder .move base _)
  | .structLit _ fields none, w => (ownInits_follows holder fields w).seq (.skip _)
  | .cast e _, w => ownExpr_follows holder mode e w
  | .tryOp e, w => ownExpr_follows holder mode e w
  | .await e, w => ownExpr_follows holder mode e w
  | .whileLoop cond body, w => by
    have hbody := (ownExpr_follows holder .use cond w).seq (ownBlock_follows holder .use body _)
    have hclosed := Plan.closed_seq (cond.closed_plan .use) (body.closed_plan .use)
    exact (Follows.skip w).choice hbody rfl hclosed
  | .loop body, w =>
    (ownBlock_follows holder .use body w).ending (Walk.view_onFlow _ (Flow.marks_keepBorrows _ _))
  | .forLoop pattern iterable body, w => by
    have hiterable := (ownExpr_follows holder .move iterable w).ending
      (Walk.view_onFlow _ (Flow.marks_keepBorrows (·.holder.isSome) _))
    have hbody := ownBlock_follows holder .use body
      (((ownExpr holder .move iterable w).onFlow (·.releaseTemporaries)).onFlow
        fun s => s.push.declareAll pattern.names)
    exact hiterable.seq ((Follows.skip _).choice hbody.binding rfl rfl)
  | .range (some start) (some stop) _, w =>
    (ownExpr_follows holder .use start w).seq (ownExpr_follows holder .use stop _)
  | .range (some start) none _, w => (ownExpr_follows holder .use start w).seq (.skip _)
  | .range none (some stop) _, w => (Follows.skip w).seq (ownExpr_follows holder .use stop w)
  | .range none none _, w => (Follows.skip w).seq (.skip w)

theorem ownAll_follows (holder : Option Holder) : (l : List Expr) → (w : Walk) →
    Follows (planAll l) w (ownAll holder l w)
  | [], w => .skip w
  | e :: r, w => (ownExpr_follows holder .move e w).seq (ownAll_follows holder r _)

theorem ownInits_follows (holder : Option Holder) : (l : List FieldInit) → (w : Walk) →
    Follows (planInits l) w (ownInits holder l w)
  | [], w => .skip w
  | ⟨_, _, value⟩ :: r, w =>
    (ownExpr_follows holder .move value w).seq (ownInits_follows holder r _)

theorem ownArm_follows (holder : Option Holder) (mode : Mode) : (arm : MatchArm) → (w : Walk) →
    Follows (arm.plan mode) w (ownArm holder mode arm w)
  | ⟨_, pattern, some g, body⟩, w =>
    ((ownExpr_follows holder .use g (w.onFlow fun s => s.push.declareAll pattern.names)).seq
      (ownExpr_follows holder mode body _)).binding
  | ⟨_, pattern, none, body⟩, w =>
    ((Follows.skip (w.onFlow fun s => s.push.declareAll pattern.names)).seq
      (ownExpr_follows holder mode body _)).binding

/-- The arms after those of the plan `p`, whose ends are joined in `s`. -/
theorem ownArms_follows (holder : Option Holder) (mode : Mode) : (arms : List MatchArm) →
    (p : Plan) → (w : Walk) → (s : Flow) → (u : Walk) → p.closed = true →
    Follows p w { u with flow := s } →
    Follows ((planArms mode arms).foldl .choice p) w
      { (ownArms holder mode w.flow arms u).2 with
        flow := (ownArms holder mode w.flow arms u).1.foldl Flow.join s }
  | [], _, _, _, _, _, h => h
  | arm :: r, p, w, s, u, hp, h => by
    rw [ownArms_cons]
    have harm := ownArm_follows holder mode arm { u with flow := w.flow }
    have hboth := h.choice harm hp (arm.closed_plan mode)
    exact ownArms_follows holder mode r _ w _ (ownArm holder mode arm { u with flow := w.flow })
      (Plan.closed_choice hp (arm.closed_plan mode)) hboth

theorem ownIndices_follows (holder : Option Holder) : (e : Expr) → (w : Walk) →
    Follows e.indexPlan w (ownIndices holder e w)
  | ⟨_, _, kind⟩, w => ownIndicesKind_follows holder kind w

theorem ownIndicesKind_follows (holder : Option Holder) (k : ExprKind) (w : Walk) :
    Follows k.indexPlan w (ownIndicesKind holder k w) := by
  cases k with
  | field base _ => exact ownIndices_follows holder base w
  | index base index =>
    exact (ownIndices_follows holder base w).seq (ownExpr_follows holder .use index _)
  | _ => exact .skip w

theorem ownBlock_follows (holder : Option Holder) (mode : Mode) : (b : Block) → (w : Walk) →
    Follows (b.plan mode) w (ownBlock holder mode b w)
  | ⟨_, stmts, some e⟩, w =>
    ((ownStmts_follows stmts (w.onFlow Flow.push)).seq (ownExpr_follows holder mode e _)).scope
  | ⟨_, stmts, none⟩, w =>
    ((ownStmts_follows stmts (w.onFlow Flow.push)).seq (.skip _)).scope

theorem ownStmts_follows : (l : List Stmt) → (w : Walk) → Follows (planStmts l) w (ownStmts l w)
  | [], w => .skip w
  | s :: r, w => by
    have hstmt := (ownStmt_follows s w).ending
      (Walk.view_onFlow _ (Flow.marks_keepBorrows (·.holder.isSome) _))
    exact hstmt.seq (ownStmts_follows r _)

theorem ownStmt_follows : (s : Stmt) → (w : Walk) → Follows s.plan w (ownStmt s w)
  | .letBind _ pattern _ (some e) _, w =>
    (ownExpr_follows _ .move e w).seq (.declare _ pattern.names)
  | .letBind _ pattern _ none _, w => (Follows.skip w).seq (.declare w pattern.names)
  | .assign sp target value, w => by
    have hplan : (Stmt.assign sp target value).plan =
        match target.asIdent with
        | some name => .seq (value.plan .move) (.mark [name] false)
        | none => .seq (value.plan .move) (target.plan .use) := rfl
    have hown : ownStmt (.assign sp target value) w =
        match target.asIdent with
        | some name =>
          (ownExpr (assignHolder w.flow name value) .move value w).onFlow (·.renew name)
        | none => ownExpr none .use target (ownExpr none .move value w) := rfl
    rw [hplan, hown]
    cases target.asIdent with
    | some name =>
      exact (ownExpr_follows _ .move value w).seq (.mark _ [name] false (Flow.marks_renew _ name))
    | none => exact (ownExpr_follows none .move value w).seq (ownExpr_follows none .use target _)
  | .expr e, w => ownExpr_follows none .use e w
  | .ret _ (some e), w => ownExpr_follows none .move e w
  | .ret _ none, w => .skip w
  | .brk _ (some e), w => ownExpr_follows none .move e w
  | .brk _ none, w => .skip w
  | .cont _, w => .skip w

end

/-- The walk from `w` to `after` finds out what following each path of the plan by itself would
find out. -/
structure Walk.MeetsPaths (p : Plan) (w after : Walk) : Prop where
  visible : ∀ (π : p.Path) (name : String),
    ((π.run w.flow.marks).lookup name).isSome = (after.flow.lookup name).isSome
  /-- A binding is moved just when it is moved at the end of every path. -/
  moved : ∀ name, (after.flow.lookup name).any Binding.moved = true ↔
    ∀ π : p.Path, (π.run w.flow.marks).lookup name = some true
  /-- The new errors are one for each mention whose name is moved on every path that gets
  there, and there are no others. -/
  complaints : ∃ bad : List p.Occurrence, bad.Nodup ∧
    (∀ o, o ∈ bad ↔ ∀ (π : p.Path) (b : Bool), o.seen π w.flow.marks = some b → b = true) ∧
    after.movedUses = w.movedUses ++ bad.map (·.label)
  reached : ∀ o : p.Occurrence, ∃ π : p.Path, (o.seen π w.flow.marks).isSome = true

theorem Walk.Follows.meetsPaths {p : Plan} {w after : Walk} (h : Follows p w after)
    (hw : 0 < w.flow.depth) : MeetsPaths p w after := by
  have hmeet := (h hw).exits (· = w.flow.marks) (.single w.flow.marks)
  have hpath : ∀ π : p.Path, p.image (· = w.flow.marks) (π.run w.flow.marks) :=
    fun π => ⟨w.flow.marks, rfl, π, rfl⟩
  refine ⟨fun π name => ?_, fun name => ?_, ?_, fun o => ⟨o.reaching, o.seen_reaching _⟩⟩
  · rw [(hmeet.shape _ (hpath π)).isSome_lookup]
    change (after.flow.marks.lookup name).isSome = _
    rw [Flow.lookup_marks, Option.isSome_map]
  · have hlookup : (after.flow.lookup name).any Binding.moved = true ↔
        after.flow.marks.lookup name = some true := by
      rw [Flow.lookup_marks]
      cases after.flow.lookup name <;> simp
    rw [hlookup]
    refine (hmeet.lookup name).trans ⟨fun hall π => hall _ (hpath π), ?_⟩
    rintro hall _ ⟨_, rfl, π, rfl⟩
    exact hall π
  · obtain ⟨bad, hnodup, hbad, herrors⟩ := (h hw).complaints _ (.single w.flow.marks)
    refine ⟨bad, hnodup, fun o => (hbad o).trans ⟨fun hall => hall _ rfl, ?_⟩, herrors⟩
    rintro hall _ rfl
    exact hall

/-- From any state, which has a frame at least, an expression and a block leave a binding moved
just when every path through them does, and are faulted for a mention of a moved name just
when every path to the mention has the name moved. -/
theorem own_meets_all_paths (holder : Option Holder) (mode : Mode) (f : Bindings)
    (r : List Bindings) (faults : Array (Spanned OwnershipFault)) :
    (∀ e : Expr, Walk.MeetsPaths (e.plan mode) ⟨⟨f :: r⟩, faults⟩
      (ownExpr holder mode e ⟨⟨f :: r⟩, faults⟩)) ∧
    ∀ b : Block, Walk.MeetsPaths (b.plan mode) ⟨⟨f :: r⟩, faults⟩
      (ownBlock holder mode b ⟨⟨f :: r⟩, faults⟩) := by
  have hdepth : 0 < (⟨f :: r⟩ : Flow).depth := Nat.succ_pos _
  constructor
  · intro e
    exact (ownExpr_follows holder mode e _).meetsPaths hdepth
  · intro b
    exact (ownBlock_follows holder mode b _).meetsPaths hdepth

end Sema
