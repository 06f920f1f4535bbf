import Sema.Proofs.Ownership.Merging

/-!
# How long a temporary borrow lasts

A borrow that no binding holds ends with a statement. The check ends such borrows wherever a
statement ends, also in a block inside of a greater statement, and whichever statement took them.

`Flow.Carries` says what straight code does to the borrows that are active: which it keeps, and
where the temporaries after it come from. It composes along the code, and one induction over the
forms of an expression shows that the check carries borrows as `Expr.quiet` has it.

Main statement: where no paths meet, a temporary borrow lasts through an expression in which no
statement ends, and a borrow that conflicts with it is refused; if a statement ends in the
expression, the temporaries that are left were taken in the expression.
-/

namespace Sema

open Checking (Reaches)

/-- Nothing in the code ends where paths meet. -/
def Straight (l : List Expr) : Prop := ∀ n ∈ l, n.kind.merges = false

instance (l : List Expr) : Decidable (Straight l) :=
  inferInstanceAs (Decidable (∀ n ∈ l, n.kind.merges = false))

namespace Straight

variable {n : Expr} {l m : List Expr}

theorem head (h : Straight (n :: l)) : n.kind.merges = false := h n List.mem_cons_self

theorem tail (h : Straight (n :: l)) : Straight l := fun q hq => h q (List.mem_cons_of_mem n hq)

theorem left (h : Straight (l ++ m)) : Straight l := fun q hq => h q (List.mem_append_left m hq)

theorem right (h : Straight (l ++ m)) : Straight m := fun q hq => h q (List.mem_append_right l hq)

end Straight

mutual

/-- Does no statement end while straight code is checked? It has no block with a statement,
but for lambdas: what their bodies do, they do to a copy of the state. -/
def Expr.quiet : Expr → Bool
  | ⟨_, _, kind⟩ => kind.quiet

def ExprKind.quiet : ExprKind → Bool
  | .literal _ | .ident _ | .path _ | .lambda .. => true
  | .unary _ operand => operand.quiet
  | .binary _ left right => left.quiet && right.quiet
  | .call callee args => callee.quiet && quietAll args
  | .methodCall receiver _ args => receiver.quiet && quietAll args
  | .field base _ => base.quiet
  | .index base index => base.quiet && index.quiet
  | .block body => body.quiet
  | .tuple elems => quietAll elems
  | .array elems => quietAll elems
  | .structLit _ fields base => quietInits fields && quietOption base
  | .cast e _ => e.quiet
  | .tryOp e => e.quiet
  | .await e => e.quiet
  | .range start stop _ => quietOption start && quietOption stop
  | .ifThen .. | .matchOn .. | .whileLoop .. | .loop _ | .forLoop .. => false

def quietOption : Option Expr → Bool
  | some e => e.quiet
  | none => true

def quietAll : List Expr → Bool
  | [] => true
  | e :: r => e.quiet && quietAll r

def quietInits : List FieldInit → Bool
  | [] => true
  | ⟨_, _, value⟩ :: r => value.quiet && quietInits r

def Block.quiet : Block → Bool
  | ⟨_, stmts, tail⟩ => stmts.isEmpty && quietOption tail

end

/-- The kind of borrow that the expression takes. -/
def ExprKind.borrowKind? : ExprKind → Option BorrowKind
  | .unary op _ => op.borrowKind?
  | _ => none

/-- One of the expressions takes the borrow. -/
def TakenIn (l : List Expr) (r : Borrow) : Prop :=
  ∃ n ∈ l, n.span = r.span ∧ n.kind.borrowKind? = some r.kind

theorem Flow.outlives_mono {m n : Nat} (h : m ≤ n) {r : Borrow}
    (hr : Borrow.outlives m r = true) : Borrow.outlives n r = true := by
  unfold Borrow.outlives at hr ⊢
  cases hh : r.holder with
  | none => rfl
  | some k =>
    simp only [hh, Option.all_some, decide_eq_true_eq] at hr ⊢
    exact Nat.lt_of_lt_of_le hr h

/-- What becomes of the borrows from `s` to `t`, by code with the nodes `l`. The frames up to
depth `k` were there before the code, and so were the holders of the borrows to be kept. -/
structure Flow.Carries (quiet : Bool) (l : List Expr) (k : Nat) (s t : Flow) : Prop where
  depth : t.depth = s.depth
  kept : ∀ {d name r}, d ≤ k → Borrow.outlives (k + 1) r = true →
    (quiet = true ∨ r.holder ≠ none) → s.Borrowed d name r → t.Borrowed d name r
  origin : ∀ {d name r}, r.holder = none → t.Borrowed d name r →
    TakenIn l r ∨ quiet = true ∧ s.Borrowed d name r

namespace Flow.Carries

variable {p q : Bool} {l m : List Expr} {k : Nat} {s t u : Flow}

/-- A change that borrows do not show. -/
theorem same (hdepth : t.depth = s.depth)
    (h : ∀ {d name r}, t.Borrowed d name r ↔ s.Borrowed d name r) : Carries true [] k s t :=
  ⟨hdepth, fun _ _ _ hs => h.mpr hs, fun _ ht => .inr ⟨rfl, h.mp ht⟩⟩

theorem refl (k : Nat) (s : Flow) : Carries true [] k s s := same rfl Iff.rfl

theorem trans (h : Carries p l k s u) (h' : Carries q m k u t) :
    Carries (p && q) (l ++ m) k s t where
  depth := h'.depth.trans h.depth
  kept hd hr hq hs := by
    rw [Bool.and_eq_true] at hq
    exact h'.kept hd hr (hq.imp_left And.right) (h.kept hd hr (hq.imp_left And.left) hs)
  origin hr ht := by
    rcases h'.origin hr ht with ⟨n, hn, htaken⟩ | ⟨rfl, hu⟩
    · exact .inl ⟨n, List.mem_append_right l hn, htaken⟩
    · rcases h.origin hr hu with ⟨n, hn, htaken⟩ | ⟨rfl, hs⟩
      · exact .inl ⟨n, List.mem_append_left m hn, htaken⟩
      · exact .inr ⟨rfl, hs⟩

theorem mono (h : Carries q l k s t) (hlm : l ⊆ m) : Carries q m k s t where
  depth := h.depth
  kept := h.kept
  origin hr ht := (h.origin hr ht).imp_left fun ⟨n, hn, htaken⟩ => ⟨n, hlm hn, htaken⟩

theorem move (k : Nat) (s : Flow) (name : String) (span : Span) :
    Carries true [] k s (s.move name span) :=
  same (depth_modify _ _ _) (borrowed_modify fun b => b.borrows_move span)

theorem moveAll (k : Nat) (s : Flow) (names : List String) (span : Span) :
    Carries true [] k s (s.moveAll names span) := by
  unfold Flow.moveAll
  induction names generalizing s with
  | nil => exact refl k s
  | cons name names ih => exact (move k s name span).trans (ih _)

theorem renew (k : Nat) (s : Flow) (name : String) : Carries true [] k s (s.renew name) :=
  same (depth_modify _ _ _) (borrowed_modify fun _ => rfl)

/-- New bindings in a frame that was not there before. -/
theorem declareAll (hk : k + 1 < s.depth) (names : List String) :
    Carries true [] k s (s.declareAll names) where
  depth := depth_declareAll s names
  kept hd _ _ hs := by
    refine borrowed_declareAll.mpr ⟨hs, fun hlast => ?_⟩
    omega
  origin _ ht := .inr ⟨rfl, (borrowed_declareAll.mp ht).1⟩

/-- The end of a statement. -/
theorem release (h : Carries q l k s t) : Carries false l k s t.releaseTemporaries where
  depth := (depth_keepBorrows _ _).trans h.depth
  kept hd hr hq hs := by
    have hheld := hq.resolve_left Bool.false_ne_true
    exact borrowed_releaseTemporaries.mpr ⟨h.kept hd hr (.inr hheld) hs, hheld⟩
  origin hr ht := absurd hr (borrowed_releaseTemporaries.mp ht).2

/-- Code in a frame of its own. -/
theorem scope (hk : k < s.depth) (h : Carries q l k s.push t) : Carries q l k s t.pop := by
  have hdepth : t.depth = s.depth + 1 := h.depth
  have hpop : 1 < t.depth := by omega
  refine ⟨?_, fun hd hr hq hs => ?_, fun hr ht => ?_⟩
  · rw [depth_pop hpop, hdepth, Nat.add_sub_cancel]
  · refine (borrowed_pop hpop).mpr ⟨by omega, h.kept hd hr hq (borrowed_push.mpr hs), ?_⟩
    exact outlives_mono (by omega) hr
  · obtain ⟨-, ht, -⟩ := (borrowed_pop hpop).mp ht
    exact (h.origin hr ht).imp_right fun ⟨hq, hs⟩ => ⟨hq, borrowed_push.mp hs⟩

end Flow.Carries

/-- What becomes of the borrows of a state with a frame at depth `k`. -/
def Walk.Carries (quiet : Bool) (l : List Expr) (k : Nat) (w after : Walk) : Prop :=
  k < w.flow.depth → Flow.Carries quiet l k w.flow after.flow

namespace Walk.Carries

variable {p q : Bool} {l m : List Expr} {k : Nat} {w u after : Walk}

theorem refl (k : Nat) (w : Walk) : Carries true [] k w w := fun _ => .refl k w.flow

theorem seq (h : Carries p l k w u) (h' : Carries q m k u after) :
    Carries (p && q) (l ++ m) k w after := by
  intro hk
  have hu : k < u.flow.depth := by rwa [(h hk).depth]
  exact (h hk).trans (h' hu)

theorem mono (h : Carries q l k w after) (hlm : l ⊆ m) : Carries q m k w after :=
  fun hk => (h hk).mono hlm

/-- The node itself takes no borrow. -/
theorem inside (h : Carries q l k w after) (n : Expr) : Carries q (n :: l) k w after :=
  h.mono (List.subset_cons_self n l)

theorem use (k : Nat) (w : Walk) (name : String) (span : Span) :
    Carries true [] k w (w.use name span) := by
  intro _
  rw [w.flow_use name span]
  exact .refl k w.flow

/-- A borrow is taken, or something stands in its way. -/
theorem borrow (k : Nat) (w : Walk) (name : String) {n : Expr} {r : Borrow}
    (hspan : n.span = r.span) (hkind : n.kind.borrowKind? = some r.kind) :
    Carries true [n] k w (w.borrow name r) := by
  have hsame : ∀ after : Walk, after.flow = w.flow → Carries true [n] k w after := by
    intro after heq hk
    rw [heq]
    exact (Flow.Carries.refl k w.flow).mono (List.nil_subset _)
  unfold Walk.borrow
  split
  · exact hsame w rfl
  · split
    · exact hsame _ rfl
    · refine fun _ => ⟨Flow.depth_modify _ _ _, fun _ _ _ hs => ?_, fun _ ht => ?_⟩
      · exact Flow.borrowed_addBorrow.mpr (.inl hs)
      · rcases Flow.borrowed_addBorrow.mp ht with hs | ⟨-, -, rfl, -⟩
        · exact .inr ⟨rfl, hs⟩
        · exact .inl ⟨n, List.mem_singleton_self n, hspan, hkind⟩

end Walk.Carries

/-- The names that a statement binds in the frame it stands in. -/
def Stmt.declared : Stmt → List String
  | .letBind _ pattern _ _ _ => pattern.names
  | _ => []

theorem ownKind_unary (holder : Option Holder) (mode : Mode) (span : Span) (op : UnaryOp)
    (operand : Expr) (w : Walk) :
    ownKind holder mode span (.unary op operand) w =
      match op.borrowKind?, operand.root? with
      | some kind, some name => ownIndices holder operand (w.borrow name ⟨kind, span, holder⟩)
      | _, _ => ownExpr holder .use operand w := rfl

theorem ownStmt_assign (span : Span) (target value : Expr) (w : Walk) :
    ownStmt (.assign span target value) w =
      match target.asIdent with
      | some name =>
        (ownExpr (assignHolder w.flow name value) .move value w).onFlow (·.renew name)
      | none => ownExpr none .use target (ownExpr none .move value w) := rfl

open Walk (Carries)

section Straight

variable (k : Nat)

mutual

theorem ownExpr_carries (holder : Option Holder) (mode : Mode) : (e : Expr) →
    Straight e.nodes → (w : Walk) → Carries e.quiet e.nodes k w (ownExpr holder mode e w)
  | ⟨id, span, kind⟩, h, w => ownKind_carries holder mode id span kind h w

theorem ownKind_carries (holder : Option Holder) (mode : Mode) (id : ExprId) (span : Span) :
    (kind : ExprKind) → Straight (⟨id, span, kind⟩ :: kind.nodes) → (w : Walk) →
    Carries kind.quiet (⟨id, span, kind⟩ :: kind.nodes) k w (ownKind holder mode span kind w)
  | .literal _, _, w => (Carries.refl k w).inside _
  | .path _, _, w => (Carries.refl k w).inside _
  | .ident name, _, w => by
    refine Carries.inside ?_ _
    cases mode with
    | use => exact .use k w name span
    | move => exact (Carries.use k w name span).seq fun _ => .move k _ name span
  | .unary op operand, h, w => by
    rw [ownKind_unary]
    cases hop : op.borrowKind? with
    | none => exact (ownExpr_carries holder .use operand h.tail w).inside _
    | some kind =>
      cases hroot : operand.root? with
      | none => exact (ownExpr_carries holder .use operand h.tail w).inside _
      | some name =>
        have hborrow : Carries true [⟨id, span, .unary op operand⟩] k w
            (w.borrow name ⟨kind, span, holder⟩) := .borrow k w name rfl hop
        exact hborrow.seq (ownIndices_carries holder operand (by simp [hroot]) h.tail _)
  | .binary _ left right, h, w =>
    ((ownExpr_carries holder .use left h.tail.left w).seq
      (ownExpr_carries holder .use right h.tail.right _)).inside _
  | .call callee args, h, w =>
    ((ownExpr_carries holder .use callee h.tail.left w).seq
      (ownAll_carries holder args h.tail.right _)).inside _
  | .methodCall receiver _ args, h, w =>
    ((ownExpr_carries holder .use receiver h.tail.left w).seq
      (ownAll_carries holder args h.tail.right _)).inside _
  | .field base _, h, w => (ownExpr_carries holder .use base h.tail w).inside _
  | .index base index, h, w =>
    ((ownExpr_carries holder .use base h.tail.left w).seq
      (ownExpr_carries holder .use index h.tail.right _)).inside _
  | .ifThen .., h, _ => by cases h.head
  | .matchOn .., h, _ => by cases h.head
  | .block body, h, w => (ownBlock_carries holder mode body h.tail w).inside _
  | .lambda _ _ body isMove, _, w => by
    -- The body runs on a copy, so that only the captures are left to see.
    refine fun _ => Flow.Carries.mono ?_ (List.nil_subset _)
    cases isMove with
    | true => exact .moveAll k w.flow _ span
    | false => exact .refl k w.flow
  | .tuple elems, h, w => (ownAll_carries holder elems h.tail w).inside _
  | .array elems, h, w => (ownAll_carries holder elems h.tail w).inside _
  | .structLit _ fields (some base), h, w =>
    ((ownInits_carries holder fields h.tail.left w).seq
      (ownExpr_carries holder .move base h.tail.right _)).inside _
  | .structLit _ fields none, h, w =>
    ((ownInits_carries holder fields h.tail.left w).seq (.refl k _)).inside _
  | .cast e _, h, w => (ownExpr_carries holder mode e h.tail w).inside _
  | .tryOp e, h, w => (ownExpr_carries holder mode e h.tail w).inside _
  | .await e, h, w => (ownExpr_carries holder mode e h.tail w).inside _
  | .whileLoop .., h, _ => by cases h.head
  | .loop _, h, _ => by cases h.head
  | .forLoop .., h, _ => by cases h.head
  | .range (some start) (some stop) _, h, w =>
    ((ownExpr_carries holder .use start h.tail.left w).seq
      (ownExpr_carries holder .use stop h.tail.right _)).inside _
  | .range (some start) none _, h, w =>
    ((ownExpr_carries holder .use start h.tail.left w).seq (.refl k _)).inside _
  | .range none (some stop) _, h, w =>
    ((Carries.refl k w).seq (ownExpr_carries holder .use stop h.tail.right w)).inside _
  | .range none none _, _, w => ((Carries.refl k w).seq (.refl k w)).inside _

theorem ownAll_carries (holder : Option Holder) : (l : List Expr) → Straight (nodesAll l) →
    (w : Walk) → Carries (quietAll l) (nodesAll l) k w (ownAll holder l w)
  | [], _, w => .refl k w
  | e :: r, h, w =>
    (ownExpr_carries holder .move e h.left w).seq (ownAll_carries holder r h.right _)

theorem ownInits_carries (holder : Option Holder) : (l : List FieldInit) →
    Straight (nodesInits l) → (w : Walk) →
    Carries (quietInits l) (nodesInits l) k w (ownInits holder l w)
  | [], _, w => .refl k w
  | ⟨_, _, value⟩ :: r, h, w =>
    (ownExpr_carries holder .move value h.left w).seq (ownInits_carries holder r h.right _)

/-- Of a place, the indices alone are evaluated. -/
theorem ownIndices_carries (holder : Option Holder) : (e : Expr) → e.root?.isSome = true →
    Straight e.nodes → (w : Walk) → Carries e.quiet e.nodes k w (ownIndices holder e w)
  | ⟨_, _, .field base _⟩, hroot, h, w => (ownIndices_carries holder base hroot h.tail w).inside _
  | ⟨_, _, .index base index⟩, hroot, h, w =>
    ((ownIndices_carries holder base hroot h.tail.left w).seq
      (ownExpr_carries holder .use index h.tail.right _)).inside _
  | ⟨_, _, .ident _⟩, _, _, w => (Carries.refl k w).inside _

theorem ownBlock_carries (holder : Option Holder) (mode : Mode) : (b : Block) →
    Straight b.nodes → (w : Walk) → Carries b.quiet b.nodes k w (ownBlock holder mode b w)
  | ⟨_, stmts, some e⟩, h, w => by
    intro hk
    have hstmts := ownStmts_carries stmts h.left (w.onFlow Flow.push) (Nat.succ_lt_succ hk)
    have hinside : k < (ownStmts stmts (w.onFlow Flow.push)).flow.depth := by
      rw [hstmts.depth]
      exact Nat.lt_succ_of_lt hk
    exact .scope hk (hstmts.trans (ownExpr_carries holder mode e h.right _ hinside))
  | ⟨_, stmts, none⟩, h, w => by
    intro hk
    have hstmts := ownStmts_carries stmts h.left (w.onFlow Flow.push) (Nat.succ_lt_succ hk)
    exact .scope hk (hstmts.trans (.refl k _))

/-- Statements in a frame that was not there before. -/
theorem ownStmts_carries : (l : List Stmt) → Straight (nodesStmts l) → (w : Walk) →
    k + 1 < w.flow.depth →
    Flow.Carries l.isEmpty (nodesStmts l) k w.flow (ownStmts l w).flow
  | [], _, w, _ => .refl k w.flow
  | s :: r, h, w, hk => by
    obtain ⟨q, u, hu, hend⟩ := ownStmt_carries s h.left w (Nat.lt_of_succ_lt hk)
    have hstmt : Flow.Carries false s.nodes k w.flow
        ((ownStmt s w).onFlow (·.releaseTemporaries)).flow := by
      have hdeclare := Flow.Carries.declareAll (k := k) (s := u) (by rwa [hu.depth]) s.declared
      rw [← hend] at hdeclare
      exact (hu.trans hdeclare).release.mono (by simp)
    exact hstmt.trans (ownStmts_carries r h.right _ (by rwa [hstmt.depth]))

/-- A statement declares its names last. -/
theorem ownStmt_carries : (s : Stmt) → Straight s.nodes → (w : Walk) → k < w.flow.depth →
    ∃ q u, Flow.Carries q s.nodes k w.flow u ∧ (ownStmt s w).flow = u.declareAll s.declared
  | .letBind _ _ _ (some e) _, h, w, hk => ⟨_, _, ownExpr_carries _ .move e h w hk, rfl⟩
  | .letBind _ _ _ none _, _, w, _ => ⟨_, _, .refl k w.flow, rfl⟩
  | .assign span target value, h, w, hk => by
    rw [ownStmt_assign]
    cases target.asIdent with
    | some name =>
      have hvalue := ownExpr_carries (assignHolder w.flow name value) .move value h.right w hk
      exact ⟨_, _, (hvalue.trans (.renew k _ name)).mono (by simp [Stmt.nodes]), rfl⟩
    | none =>
      have hvalue := ownExpr_carries none .move value h.right w
      have htarget := ownExpr_carries none .use target h.left (ownExpr none .move value w)
      exact ⟨_, _, (hvalue.seq htarget hk).mono (by simp [Stmt.nodes]), rfl⟩
  | .expr e, h, w, hk => ⟨_, _, ownExpr_carries none .use e h w hk, rfl⟩
  | .ret _ (some e), h, w, hk => ⟨_, _, ownExpr_carries none .move e h w hk, rfl⟩
  | .ret _ none, _, w, _ => ⟨_, _, .refl k w.flow, rfl⟩
  | .brk _ (some e), h, w, hk => ⟨_, _, ownExpr_carries none .move e h w hk, rfl⟩
  | .brk _ none, _, w, _ => ⟨_, _, .refl k w.flow, rfl⟩
  | .cont _, _, w, _ => ⟨_, _, .refl k w.flow, rfl⟩

end

end Straight

/-- A borrow stands in the way of a mutable one, and a mutable one in the way of any other. -/
theorem Binding.exists_conflict {b : Binding} {r : Borrow} {kind : BorrowKind}
    (hr : r ∈ b.borrows) (hkind : r.kind = .mutable ∨ kind = .mutable) (name : String) :
    ∃ fault, b.conflict? name kind = some fault := by
  unfold conflict?
  cases b.moved with
  | true => exact ⟨_, rfl⟩
  | false =>
    cases kind with
    | shared =>
      have hmutable : r.kind = .mutable := hkind.resolve_right nofun
      have hany : b.hasMutable = true := List.any_eq_true.mpr ⟨r, hr, by simp [hmutable]⟩
      exact ⟨_, if_pos hany⟩
    | mutable =>
      have hsome : ¬ b.borrows.isEmpty = true := by
        rw [List.isEmpty_iff]
        exact List.ne_nil_of_mem hr
      exact ⟨_, if_neg hsome⟩

/-- A borrow of a binding that has a conflicting one is reported. -/
theorem ownExpr_borrow_refused {w : Walk} {d : Nat} {x : String} {r : Borrow}
    (hactive : w.flow.Borrowed d x r) (hx : w.flow.depthOf x = some d) {op : UnaryOp}
    {kind : BorrowKind} (hop : op.borrowKind? = some kind)
    (hkind : r.kind = .mutable ∨ kind = .mutable) (holder : Option Holder) (mode : Mode)
    (i j : ExprId) (span inner : Span) :
    ∃ fault, ownExpr holder mode ⟨i, span, .unary op ⟨j, inner, .ident x⟩⟩ w =
      w.report fault span := by
  obtain ⟨b, hb, hr⟩ := hactive
  obtain ⟨fault, hfault⟩ := Binding.exists_conflict hr hkind x
  have hlookup : w.flow.lookup x = some b := by simp [Flow.lookup_eq_binding?, hx, hb]
  have hborrow : w.borrow x ⟨kind, span, holder⟩ = w.report fault span := by
    simp [Walk.borrow, hlookup, hfault]
  refine ⟨fault, ?_⟩
  change ownKind holder mode span (.unary op ⟨j, inner, .ident x⟩) w = _
  rw [ownKind_unary, hop]
  exact hborrow

/-- A temporary borrow through an expression where no paths meet. If no statement ends in the
expression, the borrow is still active after it, and a borrow that conflicts with it is reported.
If one does, the borrow has ended, and what is like it after the expression was taken there. -/
theorem temporary_lasts_until_statement (holder : Option Holder) (mode : Mode) (e : Expr)
    (straight : Straight e.nodes) (w : Walk) {d : Nat} {x : String} {r : Borrow}
    (active : w.flow.Borrowed d x r) (temporary : r.holder = none) :
    let after := ownExpr holder mode e w
    (e.quiet = true → after.flow.Borrowed d x r ∧
        (after.flow.depthOf x = some d → ∀ op kind, UnaryOp.borrowKind? op = some kind →
          (r.kind = .mutable ∨ kind = .mutable) → ∀ h m i j span inner, ∃ fault,
            ownExpr h m ⟨i, span, .unary op ⟨j, inner, .ident x⟩⟩ after =
              after.report fault span)) ∧
      (e.quiet = false → after.flow.Borrowed d x r → TakenIn e.nodes r) := by
  intro after
  have hcarries := ownExpr_carries d holder mode e straight w active.lt_depth
  have hout : Flow.Borrow.outlives (d + 1) r = true := by
    simp [Flow.Borrow.outlives, temporary]
  constructor
  · intro hquiet
    have hkept : after.flow.Borrowed d x r :=
      hcarries.kept (Nat.le_refl d) hout (.inl hquiet) active
    refine ⟨hkept, fun hx op kind hop hkind h m i j span inner => ?_⟩
    exact ownExpr_borrow_refused hkept hx hop hkind h m i j span inner
  · intro hloud hstill
    rcases hcarries.origin temporary hstill with htaken | ⟨hquiet, -⟩
    · exact htaken
    · rw [hloud] at hquiet
      cases hquiet

namespace BorrowedTwice

open Build

def mutably : Expr := unary .refMut (ident "x")

def shared : Expr := unary .ref (ident "x")

/-- `{ 1; &x }`. -/
def loud : Expr := expr (.block (block [.expr (int 1)] (some shared)))

/-- `{ g(|y| { 1; y }) }`: the statement is in a lambda. -/
def hushed : Expr := expr (.block (block [] (some (call (ident "g")
  [lambda ["y"] (expr (.block (block [.expr (int 1)] (some (ident "y")))))]))))

/-- `swap(&mut x, e)`, in a function of `x`. -/
def program (e : Expr) : Program where
  items := [.function (functionOf "f"
    [.param "x" none, .body (block [.expr (call (ident "swap") [mutably, e])] none)])]

def start (e : Expr) : Checking :=
  ⟨(program e).items.map .item, Checker.clear { trackLifetimes := false }⟩

/-- Where the check comes to the second argument. -/
def arrived (e : Expr) : Checking := (start e).after 15

def taken : Borrow := ⟨.mutable, .dummy, none⟩

end BorrowedTwice

/-- The statement of a lambda does not end the borrow of the first argument, and the next borrow
is refused. -/
theorem lambda_keeps_temporary :
    let w := (BorrowedTwice.arrived BorrowedTwice.hushed).checker.toWalk
    let after := ownExpr none .move BorrowedTwice.hushed w
    Straight BorrowedTwice.hushed.nodes ∧ w.flow.Borrowed 0 "x" BorrowedTwice.taken ∧
      after.flow.Borrowed 0 "x" BorrowedTwice.taken ∧
      ∃ fault, ownExpr none .move BorrowedTwice.shared after = after.report fault .dummy := by
  intro w after
  have hstraight : Straight BorrowedTwice.hushed.nodes := by decide
  have hactive : w.flow.Borrowed 0 "x" BorrowedTwice.taken := by decide
  obtain ⟨hkept, hrefused⟩ :=
    (temporary_lasts_until_statement none .move BorrowedTwice.hushed hstraight w hactive rfl).1 rfl
  exact ⟨hstraight, hactive, hkept,
    hrefused (by decide) .ref .shared rfl (.inl rfl) none .move 0 0 .dummy .dummy⟩

/-- The statement of a block does, and `x` is borrowed twice in one call. -/
theorem block_ends_temporary :
    let x := BorrowedTwice.arrived BorrowedTwice.loud
    Reaches (BorrowedTwice.start BorrowedTwice.loud) x ∧
      (∃ r, x.agenda = .expr .move BorrowedTwice.loud :: r) ∧
      Straight BorrowedTwice.loud.nodes ∧ x.checker.flow.Borrowed 0 "x" BorrowedTwice.taken ∧
      (∃ c, Runs [.expr .move BorrowedTwice.loud] x.checker c ∧
        ¬ c.flow.Borrowed 0 "x" BorrowedTwice.taken) ∧
      (BorrowedTwice.program BorrowedTwice.loud).ownershipFaults = [] := by
  intro x
  have hrun := expr_runs .move BorrowedTwice.loud x.checker
  exact ⟨Checking.reaches_after 15 _, ⟨_, rfl⟩, by decide, by decide, ⟨_, hrun, by decide⟩, rfl⟩

end Sema
