import Sema.Proofs.Ownership.Invariant

/-!
# Which borrows are active, and where paths meet

A binding is found by the depth of its frame and its name, whether or not an inner frame hides
it. `Flow.Borrowed` says that a borrow of it is active; each operation on the state has one law
that says which borrows are active after it.

Main statement: no borrow is active after a conditional, a loop or a match, but for a match with
a single arm. Nothing meets there, and what is active at the end of the arm stays so.
-/

namespace Sema

open Checking (Reaches)

namespace Flow

variable {s t : Flow} {d : Nat} {name x : String} {r : Borrow}

def bindingIn (d : Nat) (name : String) : List Bindings → Option Binding
  | [] => none
  | f :: l => if l.length = d then f.get? name else bindingIn d name l

/-- The binding of a name in the frame at depth `d`. -/
def binding? (s : Flow) (d : Nat) (name : String) : Option Binding := bindingIn d name s.frames

theorem bindingIn_eq_none {l : List Bindings} (h : l.length ≤ d) : bindingIn d name l = none := by
  induction l with
  | nil => rfl
  | cons f l ih =>
    have hlt : l.length < d := h
    simp [bindingIn, Nat.ne_of_lt hlt, ih (Nat.le_of_lt hlt)]

theorem lt_depth_of_binding? {b : Binding} (h : s.binding? d name = some b) : d < s.depth := by
  by_contra hd
  have hnone : s.binding? d name = none := bindingIn_eq_none (Nat.le_of_not_lt hd)
  rw [hnone] at h
  cases h

theorem binding?_push (s : Flow) (d : Nat) (name : String) :
    s.push.binding? d name = s.binding? d name := by
  by_cases h : s.frames.length = d
  · have hnone : s.binding? d name = none := bindingIn_eq_none (Nat.le_of_eq h)
    rw [hnone]
    simp [push, binding?, bindingIn, h]
  · simp [push, binding?, bindingIn, h]

theorem binding?_mapBindings (g : Binding → Binding) (s : Flow) (d : Nat) (name : String) :
    (s.mapBindings g).binding? d name = (s.binding? d name).map g := by
  obtain ⟨frames⟩ := s
  simp only [mapBindings, binding?]
  induction frames with
  | nil => rfl
  | cons f l ih =>
    by_cases h : l.length = d
    · simp [bindingIn, h]
    · simp [bindingIn, h, ih]

theorem binding?_declare (s : Flow) (x : String) (d : Nat) (name : String) :
    (s.declare x).binding? d name =
      if d + 1 = s.depth ∧ name = x then some {} else s.binding? d name := by
  obtain ⟨_ | ⟨f, l⟩⟩ := s
  · simp [declare, binding?, bindingIn, depth]
  · by_cases h : l.length = d
    · simp [declare, binding?, bindingIn, depth, h]
    · have hd : d ≠ l.length := fun hd => h hd.symm
      simp [declare, binding?, bindingIn, depth, h, hd]

theorem bindingIn_modifyIn (g : Binding → Binding) (x : String) (l : List Bindings) (d : Nat)
    (name : String) :
    bindingIn d name (modifyIn g x l) =
      if depthIn x l = some d ∧ name = x then (bindingIn d name l).map g
      else bindingIn d name l := by
  have hlength : ∀ l, (modifyIn g x l).length = l.length := fun l => depth_modify ⟨l⟩ x g
  induction l with
  | nil => simp [modifyIn, bindingIn, depthIn]
  | cons f l ih =>
    by_cases hx : f.contains x = true
    · by_cases h : l.length = d
      · by_cases hname : name = x <;> simp [modifyIn, bindingIn, depthIn, hx, h, get?_modify, hname]
      · simp [modifyIn, bindingIn, depthIn, hx, h]
    · have hmodify : modifyIn g x (f :: l) = f :: modifyIn g x l := if_neg hx
      have hdepth : depthIn x (f :: l) = depthIn x l := if_neg hx
      rw [hmodify, hdepth]
      by_cases h : l.length = d
      · -- The name leads to a frame outside this one.
        have hother : depthIn x l ≠ some d := by
          intro hd
          exact Nat.ne_of_gt (depthOf_lt (s := ⟨l⟩) hd) h
        simp [bindingIn, h, hlength, hother]
      · simpa only [bindingIn, hlength, h, if_false] using ih

theorem binding?_modify (s : Flow) (x : String) (g : Binding → Binding) (d : Nat)
    (name : String) :
    (s.modify x g).binding? d name =
      if s.depthOf x = some d ∧ name = x then (s.binding? d name).map g
      else s.binding? d name :=
  bindingIn_modifyIn g x s.frames d name

theorem binding?_pop (h : 1 < s.depth) (d : Nat) (name : String) :
    s.pop.binding? d name = if d + 1 < s.depth then
      (s.binding? d name).map (·.keepBorrows (Borrow.outlives (s.depth - 1))) else none := by
  obtain ⟨frames⟩ := s
  match frames, h with
  | f :: g :: l, _ =>
    have hkeep : (pop ⟨f :: g :: l⟩).binding? d name =
        (binding? ⟨g :: l⟩ d name).map (·.keepBorrows (Borrow.outlives (l.length + 1))) :=
      binding?_mapBindings _ ⟨g :: l⟩ d name
    have hdepth : depth ⟨f :: g :: l⟩ = l.length + 1 + 1 := rfl
    rw [hkeep, hdepth]
    by_cases hd : d < l.length + 1
    · have hinner : binding? ⟨f :: g :: l⟩ d name = binding? ⟨g :: l⟩ d name :=
        if_neg (Nat.ne_of_gt hd)
      rw [if_pos (Nat.add_lt_add_right hd 1), hinner]
      rfl
    · have hnone : binding? ⟨g :: l⟩ d name = none := bindingIn_eq_none (Nat.le_of_not_lt hd)
      rw [if_neg (mt Nat.lt_of_add_lt_add_right hd), hnone]
      rfl

/-- A name means the binding in the frame that it leads to. -/
theorem lookup_eq_binding? (s : Flow) (name : String) :
    s.lookup name = (s.depthOf name).bind fun d => s.binding? d name := by
  obtain ⟨frames⟩ := s
  simp only [lookup, depthOf, binding?]
  induction frames with
  | nil => rfl
  | cons f l ih =>
    by_cases hname : f.contains name = true
    · obtain ⟨b, hb⟩ := Option.isSome_iff_exists.mp hname
      simp [depthIn, bindingIn, hname, hb]
    · have hnone : f.get? name = none := by simpa [Table.contains] using hname
      cases hd : depthIn name l with
      | none => simpa [depthIn, hname, hnone, hd] using ih
      | some e =>
        have hne : l.length ≠ e := Nat.ne_of_gt (depthOf_lt (s := ⟨l⟩) hd)
        simpa [depthIn, bindingIn, hname, hnone, hd, hne] using ih

/-- The borrow is active, of the binding of a name in the frame at depth `d`. -/
def Borrowed (s : Flow) (d : Nat) (name : String) (r : Borrow) : Prop :=
  ∃ b, s.binding? d name = some b ∧ r ∈ b.borrows

instance (s : Flow) (d : Nat) (name : String) (r : Borrow) : Decidable (s.Borrowed d name r) :=
  decidable_of_iff ((s.binding? d name).any fun b => decide (r ∈ b.borrows)) (by
    cases h : s.binding? d name <;> simp [Borrowed, h])

theorem Borrowed.lt_depth (h : s.Borrowed d name r) : d < s.depth := by
  obtain ⟨b, hb, -⟩ := h
  exact lt_depth_of_binding? hb

theorem borrowed_push : s.push.Borrowed d name r ↔ s.Borrowed d name r := by
  simp [Borrowed, binding?_push]

theorem borrowed_keepBorrows {keep : Borrow → Bool} :
    (s.keepBorrows keep).Borrowed d name r ↔ s.Borrowed d name r ∧ keep r = true := by
  unfold Borrowed keepBorrows
  rw [binding?_mapBindings]
  cases s.binding? d name with
  | none => simp
  | some b => simp [Binding.keepBorrows]

theorem borrowed_releaseTemporaries :
    s.releaseTemporaries.Borrowed d name r ↔ s.Borrowed d name r ∧ r.holder ≠ none := by
  simp [releaseTemporaries, borrowed_keepBorrows, Option.isSome_iff_ne_none]

theorem borrowed_pop (h : 1 < s.depth) : s.pop.Borrowed d name r ↔
    d + 1 < s.depth ∧ s.Borrowed d name r ∧ Borrow.outlives (s.depth - 1) r = true := by
  by_cases hd : d + 1 < s.depth
  · cases hb : s.binding? d name with
    | none => simp [Borrowed, binding?_pop h, hd, hb]
    | some b => simp [Borrowed, binding?_pop h, hd, hb, Binding.keepBorrows]
  · simp [Borrowed, binding?_pop h, hd]

/-- A new binding has no borrows, and takes the place of another of its frame. -/
theorem borrowed_declare : (s.declare x).Borrowed d name r ↔
    s.Borrowed d name r ∧ ¬ (d + 1 = s.depth ∧ name = x) := by
  by_cases h : d + 1 = s.depth ∧ name = x
  · simp [Borrowed, binding?_declare, h]
  · simp [Borrowed, binding?_declare, h]

theorem depth_declareAll (s : Flow) (names : List String) :
    (s.declareAll names).depth = s.depth := by
  unfold declareAll
  induction names generalizing s with
  | nil => rfl
  | cons name names ih => rw [List.foldl_cons, ih, depth_declare]

theorem borrowed_declareAll {names : List String} : (s.declareAll names).Borrowed d name r ↔
    s.Borrowed d name r ∧ ¬ (d + 1 = s.depth ∧ name ∈ names) := by
  unfold declareAll
  induction names generalizing s with
  | nil => simp
  | cons x names ih =>
    rw [List.foldl_cons, ih, borrowed_declare, depth_declare, List.mem_cons]
    tauto

theorem borrowed_modify {g : Binding → Binding} (hg : ∀ b, (g b).borrows = b.borrows) :
    (s.modify x g).Borrowed d name r ↔ s.Borrowed d name r := by
  unfold Borrowed
  rw [binding?_modify]
  split
  · cases s.binding? d name with
    | none => simp
    | some b => simp [hg]
  · rfl

theorem borrowed_addBorrow {q : Borrow} : (s.addBorrow x q).Borrowed d name r ↔
    s.Borrowed d name r ∨
      (s.depthOf x = some d ∧ name = x ∧ r = q ∧ ∃ b, s.binding? d name = some b) := by
  by_cases h : s.depthOf x = some d ∧ name = x
  · obtain ⟨hd, rfl⟩ := h
    cases hb : s.binding? d name with
    | none => simp [Borrowed, addBorrow, binding?_modify, hd, hb]
    | some b => simp [Borrowed, addBorrow, binding?_modify, hd, hb, Binding.addBorrow]
  · have hother : ¬ (s.depthOf x = some d ∧ name = x ∧ r = q ∧
        ∃ b, s.binding? d name = some b) := fun hall => h ⟨hall.1, hall.2.1⟩
    have hsame : (s.addBorrow x q).Borrowed d name r ↔ s.Borrowed d name r := by
      simp [Borrowed, addBorrow, binding?_modify, h]
    exact hsame.trans (or_iff_left hother).symm

/-- No borrow of any binding is active. -/
def BorrowFree (s : Flow) : Prop := ∀ d name r, ¬ s.Borrowed d name r

theorem borrowFree_clearBorrows (s : Flow) : s.clearBorrows.BorrowFree := by
  intro d name r h
  have hkeep := (borrowed_keepBorrows.mp h).2
  cases hkeep

theorem borrowFree_join (s t : Flow) : (s.join t).BorrowFree := borrowFree_clearBorrows _

/-- Where two paths or more meet. -/
theorem borrowFree_foldl_join (s : Flow) {l : List Flow} (h : l ≠ []) :
    (l.foldl join s).BorrowFree := by
  induction l generalizing s with
  | nil => exact absurd rfl h
  | cons t l ih =>
    cases l with
    | nil => exact borrowFree_join s t
    | cons u l => exact ih (s.join t) (List.cons_ne_nil u l)

end Flow

/-- Does the expression end where paths meet? -/
def ExprKind.merges : ExprKind → Bool
  | .ifThen .. | .matchOn .. | .whileLoop .. | .loop _ | .forLoop .. => true
  | _ => false

theorem ownKind_matchOn (holder : Option Holder) (mode : Mode) (span : Span) (scrutinee : Expr)
    (arms : List MatchArm) (w : Walk) :
    ownKind holder mode span (.matchOn scrutinee arms) w =
      let before := ownExpr holder .use scrutinee w
      { (ownArms holder mode before.flow arms before).2 with
        flow := (Flow.joinAll (ownArms holder mode before.flow arms before).1).getD
          before.flow.clearBorrows } := rfl

/-- A match with a single arm ends where the arm does. -/
theorem ownKind_single_arm (holder : Option Holder) (mode : Mode) (span : Span)
    (scrutinee : Expr) (arm : MatchArm) (w : Walk) :
    ownKind holder mode span (.matchOn scrutinee [arm]) w =
      ownArm holder mode arm (ownExpr holder .use scrutinee w) := by
  simp only [ownKind_matchOn, ownArms_cons]
  rfl

theorem ownKind_arms_borrowFree (holder : Option Holder) (mode : Mode) (span : Span)
    (scrutinee : Expr) {arms : List MatchArm} (h : arms.length ≠ 1) (w : Walk) :
    (ownKind holder mode span (.matchOn scrutinee arms) w).flow.BorrowFree := by
  rw [ownKind_matchOn]
  match arms, h with
  | [], _ => exact Flow.borrowFree_clearBorrows _
  | first :: second :: rest, _ =>
    simp only [ownArms_cons]
    exact Flow.borrowFree_foldl_join _ (List.cons_ne_nil _ _)

/-- After a conditional, a loop or a match no borrow of any binding is active, whatever was
borrowed before and whoever held it; but a match with a single arm ends as that arm does, with
every borrow that is active there. -/
theorem merges_end_borrows (holder : Option Holder) (mode : Mode) (e : Expr) (w : Walk)
    (merges : e.kind.merges = true) :
    ((∀ scrutinee arm, e.kind ≠ .matchOn scrutinee [arm]) →
        (ownExpr holder mode e w).flow.BorrowFree) ∧
      ∀ scrutinee arm, e.kind = .matchOn scrutinee [arm] →
        ownExpr holder mode e w = ownArm holder mode arm (ownExpr holder .use scrutinee w) := by
  obtain ⟨id, span, kind⟩ := e
  constructor
  · intro several
    cases kind with
    | ifThen cond thenBranch elseBranch => cases elseBranch <;> exact Flow.borrowFree_join _ _
    | matchOn scrutinee arms =>
      refine ownKind_arms_borrowFree holder mode span scrutinee (fun hone => ?_) w
      obtain ⟨arm, rfl⟩ := List.length_eq_one_iff.mp hone
      exact several scrutinee arm rfl
    | whileLoop cond body => exact Flow.borrowFree_join _ _
    | loop body => exact Flow.borrowFree_clearBorrows _
    | forLoop pattern iterable body => exact Flow.borrowFree_join _ _
    | _ => cases merges
  · rintro scrutinee arm rfl
    exact ownKind_single_arm holder mode span scrutinee arm w

namespace LoneArm

open Build

/-- `let r = &mut x;`. -/
def borrow : Stmt := letIdent "r" (unary .refMut (ident "x"))

/-- `match 0 { _ => 1 }`. -/
def lone : Expr := matchOn (int 0) [arm (.wildcard .dummy) none (int 1)]

/-- `match 0 { _ => 1, _ => 2 }`. -/
def pair : Expr :=
  matchOn (int 0) [arm (.wildcard .dummy) none (int 1), arm (.wildcard .dummy) none (int 2)]

/-- `let s = &x;`. -/
def again : Stmt := letIdent "s" (unary .ref (ident "x"))

/-- A function of `x` that borrows it, comes to the match, and borrows it again. -/
def program (e : Expr) : Program where
  items := [.function (functionOf "f"
    [.param "x" none, .body (block [borrow, .expr e, again] none)])]

def start (e : Expr) : Checking :=
  ⟨(program e).items.map .item, Checker.clear { trackLifetimes := false }⟩

def held : Borrow := ⟨.mutable, .dummy, some ⟨"r", 1⟩⟩

/-- Where the check comes to the match. -/
def arrived (e : Expr) : Checking := (start e).after 17

end LoneArm

/-- The borrow that `r` holds ends with a match of two arms. -/
theorem pairOfArms_ends_borrow :
    let w := (LoneArm.arrived LoneArm.pair).checker.toWalk
    w.flow.Borrowed 0 "x" LoneArm.held ∧ LoneArm.pair.kind.merges = true ∧
      (ownExpr none .use LoneArm.pair w).flow.BorrowFree ∧
      (LoneArm.program LoneArm.pair).ownershipFaults = [] := by
  intro w
  have hfree := (merges_end_borrows none .use LoneArm.pair w rfl).1 (by simp [LoneArm.pair,
    Build.matchOn, Build.expr])
  exact ⟨by decide, rfl, hfree, rfl⟩

/-- It outlives a match of one arm, and the borrow after it is refused. -/
theorem loneArm_keeps_borrow :
    let x := LoneArm.arrived LoneArm.lone
    Reaches (LoneArm.start LoneArm.lone) x ∧ (∃ r, x.agenda = .expr .use LoneArm.lone :: r) ∧
      LoneArm.lone.kind.merges = true ∧
      (∃ c, Runs [.expr .use LoneArm.lone] x.checker c ∧ c.flow.Borrowed 0 "x" LoneArm.held) ∧
      (LoneArm.program LoneArm.lone).ownershipFaults.map (·.node) =
        [.sharedWhileMutable "x"] := by
  intro x
  have hrun := expr_runs .use LoneArm.lone x.checker
  exact ⟨Checking.reaches_after 17 _, ⟨_, rfl⟩, rfl, ⟨_, hrun, by decide⟩, rfl⟩

end Sema
