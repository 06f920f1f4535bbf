import Sema.Proofs.Ownership.Temporaries

/-!
# Borrows in a value that is stored

A statement that stores a value decides beforehand whether the value can carry a borrow, and only
then has the borrows taken in it held by the name it stores under. `Stored` says which parts of a
value go into it, by the slots on the way from its root, and in which state the check comes to
them. The borrows at these parts are those that the name should hold.

Main statement: a borrow that the check accepts at such a part is held by the name, after the
statement and after the straight statements that follow it in its block; this if the way to the
part does not lead through the receiver of a method call, or if the value has another borrow that
it can carry. A borrow that goes in through receivers alone is overlooked, and ends with the
statement.
-/

namespace Sema

open Checking (Reaches)

/-- Where a part stands in the expression whose value it goes into. -/
inductive Slot where
  | element | argument | receiver | field | base | operand | tail
  deriving DecidableEq

/-- The value of `e'` goes into that of `e`. The check of `e` from `w` comes to `e'` in `w'`. -/
inductive Part (holder : Option Holder) : Slot → Expr → Walk → Expr → Walk → Prop
  | tuple {i : ExprId} {sp : Span} {before after : List Expr} {e : Expr} {w : Walk} :
      Part holder .element ⟨i, sp, .tuple (before ++ e :: after)⟩ w e (ownAll holder before w)
  | array {i : ExprId} {sp : Span} {before after : List Expr} {e : Expr} {w : Walk} :
      Part holder .element ⟨i, sp, .array (before ++ e :: after)⟩ w e (ownAll holder before w)
  | call {i : ExprId} {sp : Span} {callee : Expr} {before after : List Expr} {e : Expr}
      {w : Walk} :
      Part holder .argument ⟨i, sp, .call callee (before ++ e :: after)⟩ w e
        (ownAll holder before (ownExpr holder .use callee w))
  | methodCall {i : ExprId} {sp : Span} {receiver : Expr} {method : Ident}
      {before after : List Expr} {e : Expr} {w : Walk} :
      Part holder .argument ⟨i, sp, .methodCall receiver method (before ++ e :: after)⟩ w e
        (ownAll holder before (ownExpr holder .use receiver w))
  | receiver {i : ExprId} {sp : Span} {e : Expr} {method : Ident} {args : List Expr} {w : Walk} :
      Part holder .receiver ⟨i, sp, .methodCall e method args⟩ w e w
  | field {i : ExprId} {sp at' : Span} {name label : Ident} {before after : List FieldInit}
      {e : Expr} {base : Option Expr} {w : Walk} :
      Part holder .field ⟨i, sp, .structLit name (before ++ ⟨at', label, e⟩ :: after) base⟩ w e
        (ownInits holder before w)
  | base {i : ExprId} {sp : Span} {name : Ident} {fields : List FieldInit} {e : Expr} {w : Walk} :
      Part holder .base ⟨i, sp, .structLit name fields (some e)⟩ w e (ownInits holder fields w)
  | cast {i : ExprId} {sp : Span} {e : Expr} {ty : TypeExpr} {w : Walk} :
      Part holder .operand ⟨i, sp, .cast e ty⟩ w e w
  | tryOp {i : ExprId} {sp : Span} {e : Expr} {w : Walk} :
      Part holder .operand ⟨i, sp, .tryOp e⟩ w e w
  | await {i : ExprId} {sp : Span} {e : Expr} {w : Walk} :
      Part holder .operand ⟨i, sp, .await e⟩ w e w
  | tail {i : ExprId} {sp at' : Span} {stmts : List Stmt} {e : Expr} {w : Walk} :
      Part holder .tail ⟨i, sp, .block ⟨at', stmts, some e⟩⟩ w e
        (ownStmts stmts (w.onFlow Flow.push))

/-- The same along a way of slots, from the root of a value. -/
inductive Stored (holder : Option Holder) : List Slot → Expr → Walk → Expr → Walk → Prop
  | here {e : Expr} {w : Walk} : Stored holder [] e w e w
  | part {p : Slot} {way : List Slot} {e e' site : Expr} {w w' u : Walk}
      (first : Part holder p e w e' w') (rest : Stored holder way e' w' site u) :
      Stored holder (p :: way) e w site u

section Lists

theorem ownAll_append (holder : Option Holder) (l m : List Expr) (w : Walk) :
    ownAll holder (l ++ m) w = ownAll holder m (ownAll holder l w) := by
  induction l generalizing w with
  | nil => rfl
  | cons e l ih => exact ih _

theorem nodesAll_append (l m : List Expr) : nodesAll (l ++ m) = nodesAll l ++ nodesAll m := by
  induction l with
  | nil => rfl
  | cons e l ih => simp [nodesAll, ih]

theorem anyHoldsBorrow_append (l m : List Expr) :
    anyHoldsBorrow (l ++ m) = (anyHoldsBorrow l || anyHoldsBorrow m) := by
  induction l with
  | nil => rfl
  | cons e l ih => simp [anyHoldsBorrow, ih, Bool.or_assoc]

/-- Fields are checked like the values they have. -/
theorem ownInits_eq (holder : Option Holder) (l : List FieldInit) (w : Walk) :
    ownInits holder l w = ownAll holder (l.map (·.value)) w := by
  induction l generalizing w with
  | nil => rfl
  | cons f l ih =>
    obtain ⟨sp, name, value⟩ := f
    exact ih _

theorem nodesInits_eq (l : List FieldInit) : nodesInits l = nodesAll (l.map (·.value)) := by
  induction l with
  | nil => rfl
  | cons f l ih =>
    obtain ⟨sp, name, value⟩ := f
    simp [nodesInits, nodesAll, ih]

theorem anyInitHoldsBorrow_eq (l : List FieldInit) :
    anyInitHoldsBorrow l = anyHoldsBorrow (l.map (·.value)) := by
  induction l with
  | nil => rfl
  | cons f l ih =>
    obtain ⟨sp, name, value⟩ := f
    simp [anyInitHoldsBorrow, anyHoldsBorrow, ih]

end Lists

/-- A binding in a frame up to depth `k` holds the borrow. -/
def Borrow.HeldWithin (k : Nat) (r : Borrow) : Prop := ∃ h, r.holder = some h ∧ h.depth ≤ k

section Held

variable {k d : Nat} {x : String} {r : Borrow}

theorem Borrow.HeldWithin.outlives (h : r.HeldWithin k) :
    Flow.Borrow.outlives (k + 1) r = true := by
  obtain ⟨h, hr, hk⟩ := h
  simpa [Flow.Borrow.outlives, hr] using Nat.lt_succ_of_le hk

theorem Borrow.HeldWithin.ne_none (h : r.HeldWithin k) : r.holder ≠ none := by
  obtain ⟨h, hr, -⟩ := h
  simp [hr]

/-- Straight code keeps what is held in the frames around it. -/
theorem Flow.Carries.held {q : Bool} {l : List Expr} {s t : Flow} (hc : Carries q l k s t)
    (hd : d ≤ k) (hr : r.HeldWithin k) (hs : s.Borrowed d x r) : t.Borrowed d x r :=
  hc.kept hd hr.outlives (.inr hr.ne_none) hs

/-- One of several values: what is held after it is held after the others. -/
theorem ownAll_part (holder : Option Holder) {before after : List Expr} {e : Expr} {w : Walk}
    (straight : Straight (nodesAll (before ++ e :: after))) (hk : k < w.flow.depth) :
    Straight e.nodes ∧ k < (ownAll holder before w).flow.depth ∧
      (d ≤ k → r.HeldWithin k →
        (ownExpr holder .move e (ownAll holder before w)).flow.Borrowed d x r →
        (ownAll holder (before ++ e :: after) w).flow.Borrowed d x r) := by
  rw [nodesAll_append] at straight
  have hbefore := ownAll_carries k holder before straight.left w hk
  have hdepth : k < (ownAll holder before w).flow.depth := by rwa [hbefore.depth]
  have hvalue := ownExpr_carries k holder .move e straight.right.left _ hdepth
  refine ⟨straight.right.left, hdepth, fun hd hr hborrow => ?_⟩
  rw [ownAll_append]
  have hafter := ownAll_carries k holder after straight.right.right
    (ownExpr holder .move e (ownAll holder before w)) (by rwa [hvalue.depth])
  exact hafter.held hd hr hborrow

/-- The same of the fields of a struct. -/
theorem ownInits_part (holder : Option Holder) {before after : List FieldInit} {sp : Span}
    {label : Ident} {e : Expr} {w : Walk}
    (straight : Straight (nodesInits (before ++ ⟨sp, label, e⟩ :: after)))
    (hk : k < w.flow.depth) :
    Straight e.nodes ∧ k < (ownInits holder before w).flow.depth ∧
      (d ≤ k → r.HeldWithin k →
        (ownExpr holder .move e (ownInits holder before w)).flow.Borrowed d x r →
        (ownInits holder (before ++ ⟨sp, label, e⟩ :: after) w).flow.Borrowed d x r) := by
  rw [nodesInits_eq, List.map_append, List.map_cons] at straight
  rw [ownInits_eq, ownInits_eq, List.map_append, List.map_cons]
  exact ownAll_part holder straight hk

/-- What is held after a part is held after the whole. -/
theorem Part.kept {holder : Option Holder} {p : Slot} {e e' : Expr} {w w' : Walk}
    (h : Part holder p e w e' w') (straight : Straight e.nodes) (hk : k < w.flow.depth) :
    Straight e'.nodes ∧ k < w'.flow.depth ∧
      (d ≤ k → r.HeldWithin k → (∀ mode, (ownExpr holder mode e' w').flow.Borrowed d x r) →
        ∀ mode, (ownExpr holder mode e w).flow.Borrowed d x r) := by
  cases h with
  | tuple =>
    obtain ⟨hpart, hdepth, hkept⟩ := ownAll_part holder straight.tail hk
    exact ⟨hpart, hdepth, fun hd hr hborrow _ => hkept hd hr (hborrow .move)⟩
  | array =>
    obtain ⟨hpart, hdepth, hkept⟩ := ownAll_part holder straight.tail hk
    exact ⟨hpart, hdepth, fun hd hr hborrow _ => hkept hd hr (hborrow .move)⟩
  | @call i sp callee before after e w =>
    have hcallee := ownExpr_carries k holder .use callee straight.tail.left w hk
    obtain ⟨hpart, hdepth, hkept⟩ := ownAll_part holder straight.tail.right
      (w := ownExpr holder .use callee w) (by rwa [hcallee.depth])
    exact ⟨hpart, hdepth, fun hd hr hborrow _ => hkept hd hr (hborrow .move)⟩
  | @methodCall i sp receiver method before after e w =>
    have hreceiver := ownExpr_carries k holder .use receiver straight.tail.left w hk
    obtain ⟨hpart, hdepth, hkept⟩ := ownAll_part holder straight.tail.right
      (w := ownExpr holder .use receiver w) (by rwa [hreceiver.depth])
    exact ⟨hpart, hdepth, fun hd hr hborrow _ => hkept hd hr (hborrow .move)⟩
  | @receiver i sp _ method args _ =>
    have hreceiver := ownExpr_carries k holder .use e' straight.tail.left w hk
    refine ⟨straight.tail.left, hk, fun hd hr hborrow _ => ?_⟩
    have hargs := ownAll_carries k holder args straight.tail.right (ownExpr holder .use e' w)
      (by rwa [hreceiver.depth])
    exact hargs.held hd hr (hborrow .use)
  | @field i sp at' name label before after _ base _ =>
    cases base with
    | none =>
      obtain ⟨hpart, hdepth, hkept⟩ := ownInits_part holder straight.tail.left hk
      exact ⟨hpart, hdepth, fun hd hr hborrow _ => hkept hd hr (hborrow .move)⟩
    | some b =>
      obtain ⟨hpart, hdepth, hkept⟩ := ownInits_part holder straight.tail.left hk
      have hfields := ownInits_carries k holder _ straight.tail.left w hk
      have hbase := ownExpr_carries k holder .move b straight.tail.right _
        (by rwa [hfields.depth])
      exact ⟨hpart, hdepth, fun hd hr hborrow _ => hbase.held hd hr (hkept hd hr (hborrow .move))⟩
  | @base i sp name fields _ _ =>
    have hfields := ownInits_carries k holder fields straight.tail.left w hk
    exact ⟨straight.tail.right, by rwa [hfields.depth], fun _ _ hborrow _ => hborrow .move⟩
  | cast => exact ⟨straight.tail, hk, fun _ _ hborrow mode => hborrow mode⟩
  | tryOp => exact ⟨straight.tail, hk, fun _ _ hborrow mode => hborrow mode⟩
  | await => exact ⟨straight.tail, hk, fun _ _ hborrow mode => hborrow mode⟩
  | @tail i sp at' stmts _ _ =>
    have hstmts := ownStmts_carries k stmts straight.tail.left (w.onFlow Flow.push)
      (Nat.succ_lt_succ hk)
    have hinside : (ownStmts stmts (w.onFlow Flow.push)).flow.depth = w.flow.depth + 1 :=
      hstmts.depth
    have hdepth : k < (ownStmts stmts (w.onFlow Flow.push)).flow.depth := by omega
    refine ⟨straight.tail.right, hdepth, fun hd hr hborrow mode => ?_⟩
    have htail := (ownExpr_carries k holder mode e' straight.tail.right _ hdepth).depth
    change (ownExpr holder mode e' (ownStmts stmts (w.onFlow Flow.push))).flow.pop.Borrowed d x r
    refine (Flow.borrowed_pop (by omega)).mpr ⟨by omega, hborrow mode, ?_⟩
    exact Flow.outlives_mono (by omega) hr.outlives

theorem Stored.kept {holder : Option Holder} {way : List Slot} {e site : Expr} {w u : Walk}
    (h : Stored holder way e w site u) (straight : Straight e.nodes) (hk : k < w.flow.depth)
    (hd : d ≤ k) (hr : r.HeldWithin k) (hborrow : Straight site.nodes → k < u.flow.depth →
      ∀ mode, (ownExpr holder mode site u).flow.Borrowed d x r) (mode : Mode) :
    (ownExpr holder mode e w).flow.Borrowed d x r := by
  induction h generalizing mode with
  | here => exact hborrow straight hk mode
  | part first rest ih =>
    obtain ⟨hpart, hdepth, hkept⟩ := first.kept straight hk
    exact hkept hd hr (ih hpart hdepth hborrow) mode

end Held

/-- The binding that the expression borrows, and how. -/
def Expr.borrows? : Expr → Option (String × BorrowKind)
  | ⟨_, _, .unary op place⟩ =>
    match op.borrowKind?, place.root? with
    | some kind, some x => some (x, kind)
    | _, _ => none
  | _ => none

/-- Nothing stands in the way of the borrow. -/
def Flow.Accepts (s : Flow) (x : String) (kind : BorrowKind) : Prop :=
  ∃ b, s.lookup x = some b ∧ b.conflict? x kind = none

theorem Expr.borrows?_eq_some {e : Expr} {x : String} {kind : BorrowKind}
    (h : e.borrows? = some (x, kind)) : ∃ op place, e.kind = .unary op place ∧
      op.borrowKind? = some kind ∧ place.root? = some x := by
  obtain ⟨i, span, k⟩ := e
  cases k with
  | unary op place =>
    simp only [borrows?] at h
    split at h
    · rename_i hop hroot
      cases h
      exact ⟨op, place, rfl, hop, hroot⟩
    · cases h
  | _ => cases h

/-- A borrow that is accepted is active after it is taken. -/
theorem ownExpr_borrow_taken (holder : Option Holder) (mode : Mode) {e : Expr} {u : Walk}
    {k d : Nat} {x : String} {kind : BorrowKind} (hborrow : e.borrows? = some (x, kind))
    (haccepts : u.flow.Accepts x kind) (hx : u.flow.depthOf x = some d) (hd : d ≤ k)
    (hr : Borrow.HeldWithin k ⟨kind, e.span, holder⟩) (straight : Straight e.nodes)
    (hk : k < u.flow.depth) :
    (ownExpr holder mode e u).flow.Borrowed d x ⟨kind, e.span, holder⟩ := by
  obtain ⟨op, place, hkind, hop, hroot⟩ := Expr.borrows?_eq_some hborrow
  obtain ⟨i, span, _⟩ := e
  cases hkind
  obtain ⟨b, hb, hfree⟩ := haccepts
  have hfound : u.flow.binding? d x = some b := by
    simpa [Flow.lookup_eq_binding?, hx] using hb
  have hadd : u.borrow x ⟨kind, span, holder⟩ =
      u.onFlow (·.addBorrow x ⟨kind, span, holder⟩) := by
    simp [Walk.borrow, hb, hfree]
  have htaken : (u.onFlow (·.addBorrow x ⟨kind, span, holder⟩)).flow.Borrowed d x
      ⟨kind, span, holder⟩ :=
    Flow.borrowed_addBorrow.mpr (.inr ⟨hx, rfl, rfl, b, hfound⟩)
  have hdepth : k < (u.onFlow (·.addBorrow x ⟨kind, span, holder⟩)).flow.depth := by
    change k < (u.flow.addBorrow x ⟨kind, span, holder⟩).depth
    rwa [Flow.addBorrow, Flow.depth_modify]
  change (ownKind holder mode span (.unary op place) u).flow.Borrowed d x _
  rw [ownKind_unary, hop, hroot]
  simp only [hadd]
  exact (ownIndices_carries k holder place (by simp [hroot]) straight.tail _ hdepth).held hd hr
    htaken

/-- A value carries the borrows that go into it, unless they do so through a receiver. -/
theorem Part.holdsBorrow {holder : Option Holder} {p : Slot} {e e' : Expr} {w w' : Walk}
    (h : Part holder p e w e' w') (hp : p ≠ .receiver) (he : e'.holdsBorrow = true) :
    e.holdsBorrow = true := by
  cases h with
  | receiver => exact absurd rfl hp
  | @field _ _ _ _ _ _ _ _ base _ =>
    cases base <;> simp [Expr.holdsBorrow, ExprKind.holdsBorrow, anyInitHoldsBorrow_eq,
      anyHoldsBorrow_append, anyHoldsBorrow, he]
  | _ => simp [Expr.holdsBorrow, ExprKind.holdsBorrow, anyHoldsBorrow_append, anyHoldsBorrow,
      Block.holdsBorrow, he]

theorem Stored.holdsBorrow {holder : Option Holder} {way : List Slot} {e site : Expr}
    {w u : Walk} (h : Stored holder way e w site u) (hway : .receiver ∉ way)
    (hsite : site.holdsBorrow = true) : e.holdsBorrow = true := by
  induction h with
  | here => exact hsite
  | part first rest ih =>
    obtain ⟨hfirst, hrest⟩ := not_or.mp (mt List.mem_cons.mpr hway)
    exact first.holdsBorrow (Ne.symm hfirst) (ih hrest hsite)

theorem Expr.holdsBorrow_of_borrows? {e : Expr} {x : String} {kind : BorrowKind}
    (h : e.borrows? = some (x, kind)) : e.holdsBorrow = true := by
  obtain ⟨op, place, hkind, hop, -⟩ := Expr.borrows?_eq_some h
  obtain ⟨i, span, _⟩ := e
  cases hkind
  cases op with
  | ref => rfl
  | refMut => rfl
  | _ => cases hop

/-- The value that a statement stores under a name, and the binding of that name: the first of
a pattern, or the target of an assignment. -/
def Stmt.stores? (s : Flow) : Stmt → Option (Expr × Holder)
  | .letBind _ pattern _ (some value) _ =>
    pattern.names.head?.map fun name => (value, ⟨name, s.innermost⟩)
  | .assign _ target value =>
    target.asIdent.bind fun name => (s.depthOf name).map fun depth => (value, ⟨name, depth⟩)
  | _ => none

/-- The binding that is to hold the borrows of a stored value, if the value can carry any. -/
def heldBy (value : Expr) (h : Holder) : Option Holder := if value.holdsBorrow then some h else none

section Statements

variable {w : Walk} {s : Stmt} {value : Expr} {h : Holder}

/-- A statement stores a value in one of two ways. -/
theorem Stmt.stores?_cases {f : Flow} (stores : s.stores? f = some (value, h)) :
    (∃ sp pattern ty mutable, s = .letBind sp pattern ty (some value) mutable ∧
      pattern.names.head? = some h.name ∧ h.depth = f.innermost) ∨
    (∃ sp target, s = .assign sp target value ∧ target.asIdent = some h.name ∧
      f.depthOf h.name = some h.depth) := by
  cases s with
  | letBind sp pattern ty e mutable =>
    cases e with
    | none => cases stores
    | some e =>
      obtain ⟨name, hname, heq⟩ := Option.map_eq_some_iff.mp stores
      cases heq
      exact .inl ⟨sp, pattern, ty, mutable, rfl, hname, rfl⟩
  | assign sp target e =>
    obtain ⟨name, hname, hrest⟩ := Option.bind_eq_some_iff.mp stores
    obtain ⟨depth, hdepth, heq⟩ := Option.map_eq_some_iff.mp hrest
    cases heq
    exact .inr ⟨sp, target, rfl, hname, hdepth⟩
  | _ => cases stores

theorem Stmt.lt_depth_of_stores? (stores : s.stores? w.flow = some (value, h))
    (hw : 0 < w.flow.depth) : h.depth < w.flow.depth := by
  rcases Stmt.stores?_cases stores with ⟨_, _, _, _, -, -, hdepth⟩ | ⟨_, _, -, -, hdepth⟩
  · rw [hdepth]
    exact Nat.sub_lt hw Nat.one_pos
  · exact Flow.depthOf_lt hdepth

theorem Stmt.straight_of_stores? (stores : s.stores? w.flow = some (value, h))
    (straight : Straight s.nodes) : Straight value.nodes := by
  rcases Stmt.stores?_cases stores with ⟨_, _, _, _, rfl, -⟩ | ⟨_, _, rfl, -⟩
  · exact straight
  · exact straight.right

/-- A statement that stores a value checks it for its holder, and then declares its names. -/
theorem borrowed_ownStmt (stores : s.stores? w.flow = some (value, h)) {d : Nat} {x : String}
    {r : Borrow} (hr : (ownExpr (heldBy value h) .move value w).flow.Borrowed d x r)
    (unreplaced : d + 1 = (ownExpr (heldBy value h) .move value w).flow.depth → x ∉ s.declared) :
    (ownStmt s w).flow.Borrowed d x r := by
  rcases Stmt.stores?_cases stores with
    ⟨sp, pattern, ty, mutable, rfl, hname, hdepth⟩ | ⟨sp, target, rfl, hname, hdepth⟩
  · have hholder : letHolder w.flow pattern value = heldBy value h := by
      simp [letHolder, heldBy, hname, ← hdepth]
    change ((ownExpr (letHolder w.flow pattern value) .move value w).flow.declareAll
      pattern.names).Borrowed d x r
    rw [hholder]
    exact Flow.borrowed_declareAll.mpr ⟨hr, fun hboth => unreplaced hboth.1 hboth.2⟩
  · have hholder : assignHolder w.flow h.name value = heldBy value h := by
      simp [assignHolder, heldBy, hdepth]
    rw [ownStmt_assign, hname]
    simp only [hholder]
    exact (Flow.borrowed_modify (g := Binding.renew) fun _ => rfl).mpr hr

end Statements

theorem depth_ownStmt_release {s : Stmt} (straight : Straight s.nodes) {w : Walk}
    (hw : 0 < w.flow.depth) : (ownStmt s w).flow.releaseTemporaries.depth = w.flow.depth := by
  obtain ⟨q, u, hu, hend⟩ := ownStmt_carries 0 s straight w hw
  rw [Flow.releaseTemporaries, Flow.depth_keepBorrows, hend, Flow.depth_declareAll, hu.depth]

/-- What is held in the frame of a block, or outside of it, stays so through the straight
statements of the block, until the binding that is borrowed makes place for another. -/
theorem ownStmts_held {k d : Nat} {x : String} {r : Borrow} (hd : d ≤ k) (hr : r.HeldWithin k)
    {l : List Stmt} (straight : Straight (nodesStmts l)) {w : Walk} (hw : w.flow.depth = k + 1)
    (unreplaced : d = k → ∀ s ∈ l, x ∉ s.declared) (hborrow : w.flow.Borrowed d x r) :
    (ownStmts l w).flow.Borrowed d x r := by
  induction l generalizing w with
  | nil => exact hborrow
  | cons s l ih =>
    obtain ⟨q, u, hu, hend⟩ := ownStmt_carries k s straight.left w (by omega)
    have hdepth : u.depth = k + 1 := hu.depth.trans hw
    have hdeclared : (ownStmt s w).flow.Borrowed d x r := by
      rw [hend]
      refine Flow.borrowed_declareAll.mpr ⟨hu.held hd hr hborrow, fun ⟨hlast, hname⟩ => ?_⟩
      exact unreplaced (by omega) s List.mem_cons_self hname
    refine ih straight.right (w := (ownStmt s w).onFlow (·.releaseTemporaries)) ?_ ?_ ?_
    · exact (depth_ownStmt_release straight.left (by omega)).trans hw
    · exact fun hk t ht => unreplaced hk t (List.mem_cons_of_mem s ht)
    · exact Flow.borrowed_releaseTemporaries.mpr ⟨hdeclared, hr.ne_none⟩

/-- A statement stores a straight value under a name, in a `let` or by an assignment. A borrow of
a binding from outside the value that is accepted at a part that goes into the value is held by
that name afterwards, and stays so through straight statements that follow in the block, until
one of them declares another binding in the place of the one that is borrowed. The way to the
part does not lead through a receiver, or the value has another borrow that it can carry. -/
theorem stored_borrow_is_held {w : Walk} {s : Stmt} {value : Expr} {h : Holder}
    (stores : s.stores? w.flow = some (value, h)) {rest : List Stmt}
    (straight : Straight (nodesStmts (s :: rest))) {way : List Slot} {site : Expr} {u : Walk}
    (stored : Stored (heldBy value h) way value w site u)
    (carried : .receiver ∉ way ∨ value.holdsBorrow = true) {x : String} {kind : BorrowKind}
    (borrows : site.borrows? = some (x, kind)) (accepted : u.flow.Accepts x kind) {d : Nat}
    (declared : u.flow.depthOf x = some d) (outside : d < w.flow.depth)
    (unreplaced : d + 1 = w.flow.depth → ∀ t ∈ s :: rest, x ∉ t.declared) :
    (ownStmts (s :: rest) w).flow.Borrowed d x ⟨kind, site.span, some h⟩ := by
  obtain ⟨k, hk⟩ : ∃ k, w.flow.depth = k + 1 :=
    Nat.exists_eq_succ_of_ne_zero (Nat.ne_zero_of_lt outside)
  have hd : d ≤ k := by omega
  have hr : Borrow.HeldWithin k ⟨kind, site.span, some h⟩ := by
    have hlt := Stmt.lt_depth_of_stores? stores (by omega)
    exact ⟨h, rfl, by omega⟩
  have hholds : value.holdsBorrow = true := by
    rcases carried with hway | hholds
    · exact stored.holdsBorrow hway (Expr.holdsBorrow_of_borrows? borrows)
    · exact hholds
  have hheld : heldBy value h = some h := if_pos hholds
  have hstraight := Stmt.straight_of_stores? stores straight.left
  have hvalue : (ownExpr (heldBy value h) .move value w).flow.Borrowed d x
      ⟨kind, site.span, some h⟩ := by
    refine stored.kept hstraight (by omega) hd hr (fun hsite hu mode => ?_) .move
    rw [hheld]
    exact ownExpr_borrow_taken (some h) mode borrows accepted declared hd hr hsite hu
  have hdepth : (ownExpr (heldBy value h) .move value w).flow.depth = w.flow.depth :=
    (ownExpr_carries k _ .move value hstraight w (by omega)).depth
  have hstmt : (ownStmt s w).flow.Borrowed d x ⟨kind, site.span, some h⟩ :=
    borrowed_ownStmt stores hvalue fun hlast =>
      unreplaced (hlast.trans hdepth) s List.mem_cons_self
  refine ownStmts_held hd hr straight.right (w := (ownStmt s w).onFlow (·.releaseTemporaries))
    ?_ (fun hlast t ht => unreplaced (by omega) t (List.mem_cons_of_mem s ht)) ?_
  · exact (depth_ownStmt_release straight.left (by omega)).trans hk
  · exact Flow.borrowed_releaseTemporaries.mpr ⟨hstmt, hr.ne_none⟩

namespace Receiver

open Build

def mutably : Expr := unary .refMut (ident "x")

/-- `(&mut x).get(args)`. -/
def got (args : List Expr) : Expr := method mutably "get" args

/-- `let r = (&mut x).get(args)`. -/
def keep (args : List Expr) : Stmt := letIdent "r" (got args)

/-- `let s = &x`. -/
def again : Stmt := letIdent "s" (unary .ref (ident "x"))

/-- The two statements, in a function of `x` and `y`. -/
def program (args : List Expr) : Program where
  items := [.function (functionOf "f"
    [.param "x" none, .param "y" none, .body (block [keep args, again] none)])]

def start (args : List Expr) : Checking :=
  ⟨(program args).items.map .item, Checker.clear { trackLifetimes := false }⟩

/-- Where the check comes to the first statement. -/
def arrived (args : List Expr) : Checking := (start args).after 9

def borrowed : Expr := unary .ref (ident "y")

def held : Borrow := ⟨.mutable, .dummy, some ⟨"r", 1⟩⟩

end Receiver

/-- In `let r = (&mut x).get(&y)` the argument makes `r` the holder of both borrows. -/
theorem argument_keeps_receiver_borrow :
    let w := (Receiver.arrived [Receiver.borrowed]).checker.toWalk
    let value := Receiver.got [Receiver.borrowed]
    (Receiver.keep [Receiver.borrowed]).stores? w.flow = some (value, ⟨"r", 1⟩) ∧
      Stored (heldBy value ⟨"r", 1⟩) [.receiver] value w Receiver.mutably w ∧
      (ownStmts [Receiver.keep [Receiver.borrowed], Receiver.again] w).flow.Borrowed 0 "x"
        Receiver.held := by
  intro w value
  have hstores : (Receiver.keep [Receiver.borrowed]).stores? w.flow = some (value, ⟨"r", 1⟩) := rfl
  have hstored : Stored (heldBy value ⟨"r", 1⟩) [.receiver] value w Receiver.mutably w :=
    .part .receiver .here
  refine ⟨hstores, hstored, ?_⟩
  exact stored_borrow_is_held hstores (by decide) hstored (.inr rfl) rfl ⟨_, rfl, rfl⟩
    (d := 0) rfl (by decide) (by decide)

/-- In `let r = (&mut x).get()` the borrow ends with the statement, and `x` is borrowed again. -/
theorem lone_receiver_borrow_ends :
    let x := Receiver.arrived []
    let value := Receiver.got []
    Reaches (Receiver.start []) x ∧ (∃ r, x.agenda = .stmt (Receiver.keep []) :: r) ∧
      (Receiver.keep []).stores? x.checker.flow = some (value, ⟨"r", 1⟩) ∧
      Straight (Receiver.keep []).nodes ∧
      Stored (heldBy value ⟨"r", 1⟩) [.receiver] value x.checker.toWalk Receiver.mutably
        x.checker.toWalk ∧
      Receiver.mutably.borrows? = some ("x", .mutable) ∧
      x.checker.flow.Accepts "x" .mutable ∧ x.checker.flow.depthOf "x" = some 0 ∧
      (∃ c, Runs [.stmt (Receiver.keep [])] x.checker c ∧
        ¬ c.flow.Borrowed 0 "x" Receiver.held) ∧
      (Receiver.program []).ownershipFaults = [] := by
  intro x value
  have hrun := stmt_runs (Receiver.keep []) x.checker rfl
  exact ⟨Checking.reaches_after 9 _, ⟨_, rfl⟩, rfl, by decide, .part .receiver .here, rfl,
    ⟨_, rfl, rfl⟩, rfl, ⟨_, hrun, by decide⟩, rfl⟩

end Sema
