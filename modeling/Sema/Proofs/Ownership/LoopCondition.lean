import Sema.Proofs.Ownership.Invariant

/-!
# Moves in the condition of a loop

The check of a `while` joins the state at the end of a round with the state before the loop, and
so takes the loop for one that may be left before its condition is looked at. What is moved after
the loop is thus what was moved before it and is moved after a round of condition and body.

Main statement: a binding that is moved after the condition and that the body does not assign is
moved after the loop just when it was moved before. A move that the condition makes is forgotten,
though the condition is evaluated at least once.

Which binding an assignment is about depends on the scopes around it. `Plan.renews` says whether
some path of a plan assigns the binding that a name means where the plan starts.
-/

namespace Sema

open Checking (Reaches)

namespace Marks

variable {m : Marks} {name : String} {d : Nat}

theorem flag_tail (m : Marks) (d : Nat) (name : String) :
    flag m.tail d name = m.flag (d + 1) name := by
  cases m <;> simp

/-- A name leads to the innermost frame that binds it. -/
theorem resolve_eq_some_iff : m.resolve name = some d ↔
    (m.flag d name).isSome = true ∧ ∀ e < d, m.flag e name = none := by
  induction m generalizing d with
  | nil => simp [resolve]
  | cons f r ih =>
    cases hf : f name with
    | some b =>
      cases d with
      | zero => simp [resolve, hf]
      | succ d =>
        have hbelow : ¬ ∀ e < d + 1, flag (f :: r) e name = none := by
          intro hnone
          simpa [hf] using hnone 0 (Nat.succ_pos d)
        have hresolve : resolve (f :: r) name ≠ some (d + 1) := by simp [resolve, hf]
        exact iff_of_false hresolve fun h => hbelow h.2
    | none =>
      cases d with
      | zero => simp [resolve, hf]
      | succ d =>
        have hbelow : (∀ e < d + 1, flag (f :: r) e name = none) ↔
            ∀ e < d, flag r e name = none := by
          constructor
          · intro hnone e he
            simpa using hnone (e + 1) (Nat.succ_lt_succ he)
          · rintro hnone (_ | e) he
            · exact hf
            · simpa using hnone e (Nat.lt_of_succ_lt_succ he)
        rw [hbelow]
        simp [resolve, hf, ih]

theorem flag_declares (names : List String) (m : Marks) (hd : 0 < d) :
    (names.foldl declare m).flag d name = m.flag d name := by
  induction names generalizing m with
  | nil => rfl
  | cons n names ih =>
    have hne : d ≠ 0 := Nat.ne_of_gt hd
    rw [List.foldl_cons, ih, flag_declare]
    simp [hne]

theorem isSome_flag_declares (names : List String) (m : Marks)
    (h : (m.flag d name).isSome = true ∨ d = 0 ∧ 0 < m.length ∧ name ∈ names) :
    ((names.foldl declare m).flag d name).isSome = true := by
  induction names generalizing m with
  | nil => simpa using h
  | cons n names ih =>
    refine ih (m.declare n) ?_
    rw [flag_declare, length_declare]
    rcases h with hbound | ⟨rfl, hlen, hname⟩
    · left
      split
      · rfl
      · exact hbound
    · rcases List.mem_cons.mp hname with rfl | hname
      · exact .inl (by simp [hlen])
      · exact .inr ⟨rfl, hlen, hname⟩

/-- Setting and clearing marks keeps a mark, unless it is cleared by its own name. -/
theorem flag_marks {names : List String} {moved : Bool} (hmark : m.flag d name = some true)
    (hother : moved = true ∨ ¬ (m.resolve name = some d ∧ name ∈ names)) :
    (names.foldl (fun m n => m.set n moved) m).flag d name = some true := by
  induction names generalizing m with
  | nil => exact hmark
  | cons n names ih =>
    refine ih ?_ ?_
    · rw [flag_set]
      split
      · rename_i hset
        rcases hother with rfl | hother
        · rfl
        · obtain ⟨hn, rfl⟩ := hset
          exact absurd ⟨hn, List.mem_cons_self⟩ hother
      · exact hmark
    · rw [(m.sameShape_set n moved).resolve_eq]
      refine hother.imp_right fun hother hin => hother ⟨hin.1, List.mem_cons_of_mem n hin.2⟩

end Marks

namespace Plan

variable {name : String}

/-- Does every path bind the name in the frame where the plan starts? -/
def binds (name : String) : Plan → Bool
  | .declare names => names.contains name
  | .seq p q => p.binds name || q.binds name
  | .skip | .use .. | .mark .. | .choice .. | .scope _ | .aside _ => false

/-- Does some path clear the mark of the binding that the name means where the plan starts? -/
def renews (name : String) : Plan → Bool
  | .mark names moved => !moved && names.contains name
  | .seq p q => p.renews name || !p.binds name && q.renews name
  | .choice p q => p.renews name || q.renews name
  | .scope p => p.renews name
  | .skip | .use .. | .declare _ | .aside _ => false

theorem binds_of_closed {p : Plan} (hp : p.closed = true) : p.binds name = false := by
  induction p with
  | declare names => cases hp
  | seq p q ihp ihq =>
    simp only [closed, Bool.and_eq_true] at hp
    simp [binds, ihp hp.1, ihq hp.2]
  | _ => rfl

namespace Path

variable {p : Plan} {d : Nat}

/-- What is bound stays bound. -/
theorem isSome_flag_run (π : Path p) (m : Marks) (h : (m.flag d name).isSome = true) :
    ((π.run m).flag d name).isSome = true := by
  induction π generalizing m d with
  | mark names moved =>
    exact ((Marks.sameShape_marks names moved m).bound d name).trans h
  | declare names => exact Marks.isSome_flag_declares names m (.inl h)
  | seq π ρ ihp ihq => exact ihq _ (ihp m h)
  | left π ih => exact ih m h
  | right π ih => exact ih m h
  | scope π ih =>
    change (Marks.flag (π.run m.push).tail d name).isSome = true
    rw [Marks.flag_tail]
    exact ih m.push (by simpa [Marks.push] using h)
  | _ => exact h

theorem isSome_flag_of_binds (π : Path p) (m : Marks) (hm : 0 < m.length)
    (hp : p.binds name = true) : ((π.run m).flag 0 name).isSome = true := by
  induction π generalizing m with
  | declare names =>
    exact Marks.isSome_flag_declares names m (.inr ⟨rfl, hm, by simpa [binds] using hp⟩)
  | seq π ρ ihp ihq =>
    simp only [binds, Bool.or_eq_true] at hp
    rcases hp with hp | hq
    · exact ρ.isSome_flag_run _ (ihp m hm hp)
    · exact ihq _ (by rwa [π.length_run]) hq
  | _ => cases hp

/-- A binding that is hidden stays hidden. -/
theorem resolve_of_run (π : Path p) (m : Marks) (h : (m.flag d name).isSome = true)
    (hrun : (π.run m).resolve name = some d) : m.resolve name = some d := by
  refine Marks.resolve_eq_some_iff.mpr ⟨h, fun e he => ?_⟩
  by_contra hbound
  have hstays : ((π.run m).flag e name).isSome = true :=
    π.isSome_flag_run m (Option.isSome_iff_ne_none.mpr hbound)
  rw [(Marks.resolve_eq_some_iff.mp hrun).2 e he] at hstays
  cases hstays

/-- A mark stays on every path that does not assign its binding. The binding may be in the
innermost frame only if the plan binds nothing there. -/
theorem flag_run_of_not_renews (π : Path p) (m : Marks) (hmark : m.flag d name = some true)
    (hd : p.closed = true ∨ 0 < d)
    (hp : m.resolve name = some d → p.renews name = false) :
    (π.run m).flag d name = some true := by
  induction π generalizing m d with
  | mark names moved =>
    refine Marks.flag_marks hmark ?_
    cases moved with
    | true => exact .inl rfl
    | false =>
      refine .inr fun ⟨hres, hname⟩ => ?_
      simpa [renews, hname] using hp hres
  | declare names =>
    have hd : 0 < d := hd.resolve_left (by simp [closed])
    exact (Marks.flag_declares names m hd).trans hmark
  | @seq p q π ρ ihp ihq =>
    have hfirst : (π.run m).flag d name = some true := by
      refine ihp m hmark (hd.imp_left fun h => ?_) fun hres => ?_
      · exact (Bool.and_eq_true_iff.mp h).1
      · exact (Bool.or_eq_false_iff.mp (hp hres)).1
    refine ihq _ hfirst (hd.imp_left fun h => (Bool.and_eq_true_iff.mp h).2) fun hres => ?_
    -- The name still means the binding, so the first part has not bound it anew.
    have hbound : (m.flag d name).isSome = true := by simp [hmark]
    have hboth := hp (π.resolve_of_run m hbound hres)
    have hunbound : p.binds name = false := by
      rcases hd with hclosed | hd
      · exact binds_of_closed (Bool.and_eq_true_iff.mp hclosed).1
      · by_contra hbinds
        have hlen : 0 < m.length := by
          cases m with
          | nil => cases hmark
          | cons f r => exact Nat.succ_pos _
        have hzero := π.isSome_flag_of_binds m hlen (by simpa using hbinds)
        rw [(Marks.resolve_eq_some_iff.mp hres).2 0 hd] at hzero
        cases hzero
    simpa [renews, hunbound] using (Bool.or_eq_false_iff.mp hboth).2
  | left π ih =>
    refine ih m hmark (hd.imp_left fun h => (Bool.and_eq_true_iff.mp h).1) fun hres => ?_
    exact (Bool.or_eq_false_iff.mp (hp hres)).1
  | right π ih =>
    refine ih m hmark (hd.imp_left fun h => (Bool.and_eq_true_iff.mp h).2) fun hres => ?_
    exact (Bool.or_eq_false_iff.mp (hp hres)).2
  | scope π ih =>
    change Marks.flag (π.run m.push).tail d name = some true
    rw [Marks.flag_tail]
    refine ih m.push (by simpa [Marks.push] using hmark) (.inr (Nat.succ_pos d)) fun hres => ?_
    refine hp ?_
    simpa [Marks.push, Marks.resolve] using hres
  | _ => exact hmark

/-- The same of the binding that a name means. -/
theorem lookup_run_of_not_renews (hclosed : p.closed = true) (hp : p.renews name = false)
    (π : Path p) {m : Marks} (hmark : m.lookup name = some true) :
    (π.run m).lookup name = some true := by
  rw [Marks.lookup_eq_flag] at hmark ⊢
  rw [(π.sameShape_run hclosed m).resolve_eq]
  obtain ⟨d, hd, hflag⟩ := Option.bind_eq_some_iff.mp hmark
  rw [hd]
  exact π.flag_run_of_not_renews m hflag (.inl hclosed) fun _ => hp

end Path

end Plan

namespace Flow

/-- Has the value of the binding that the name means been moved away? -/
def hasMoved (s : Flow) (name : String) : Bool := (s.lookup name).any (·.moved)

theorem hasMoved_iff (s : Flow) (name : String) :
    s.hasMoved name = true ↔ s.marks.lookup name = some true := by
  rw [hasMoved, lookup_marks]
  cases s.lookup name <;> simp

/-- Where two paths with the same names meet. -/
theorem hasMoved_join {s t : Flow} (h : t.marks.SameShape s.marks) (name : String) :
    (s.join t).hasMoved name = true ↔ s.hasMoved name = true ∧ t.hasMoved name = true := by
  have hdepth : s.depth = t.depth := by simpa using h.length.symm
  simp only [hasMoved_iff, Marks.lookup_eq_flag]
  rw [(sameShape_join hdepth).resolve_eq, h.resolve_eq]
  cases s.marks.resolve name with
  | none => simp
  | some d => simpa using flag_join_eq_true hdepth d name

end Flow

/-- A bare use of a moved value is reported, with the place of the move. -/
theorem Walk.use_of_hasMoved {w : Walk} {name : String} (h : w.flow.hasMoved name = true)
    (span : Span) : ∃ b, w.flow.lookup name = some b ∧
      w.use name span = w.report (.useMoved name b.movedAt) span := by
  obtain ⟨b, hb, hmoved⟩ := Option.any_eq_true _ _ |>.mp h
  exact ⟨b, hb, by simp [Walk.use, hb, hmoved]⟩

/-- A block that does not assign a binding leaves it moved. -/
theorem ownBlock_hasMoved (holder : Option Holder) (mode : Mode) (b : Block) {w : Walk}
    (hw : 0 < w.flow.depth) {name : String} (hmoved : w.flow.hasMoved name = true)
    (hkeep : (b.plan mode).renews name = false) :
    (ownBlock holder mode b w).flow.hasMoved name = true := by
  refine (((ownBlock_follows holder mode b w).meetsPaths hw).moved name).mpr fun π => ?_
  exact π.lookup_run_of_not_renews (b.closed_plan mode) hkeep ((w.flow.hasMoved_iff name).mp hmoved)

/-- After a `while`, a binding is moved just when it was moved before and is moved after a round
of condition and body. So, of a binding that is moved after the condition and that the body does
not assign: it is moved after the loop just when it was moved before the loop. If it is, a bare
use of it is reported, with the place of the move. -/
theorem moved_after_while (holder : Option Holder) (mode : Mode) (id : ExprId) (span : Span)
    (cond : Expr) (body : Block) (w : Walk) (hw : 0 < w.flow.depth) (name : String) :
    let tested := ownExpr holder .use cond w
    let round := ownBlock holder .use body tested
    let after := ownExpr holder mode ⟨id, span, .whileLoop cond body⟩ w
    (after.flow.hasMoved name = true ↔
        w.flow.hasMoved name = true ∧ round.flow.hasMoved name = true) ∧
      (tested.flow.hasMoved name = true → (body.plan .use).renews name = false →
        (after.flow.hasMoved name = true ↔ w.flow.hasMoved name = true)) ∧
      (after.flow.hasMoved name = true → ∀ h i sp, ∃ b, after.flow.lookup name = some b ∧
        ownExpr h .use ⟨i, sp, .ident name⟩ after =
          after.report (.useMoved name b.movedAt) sp) := by
  intro tested round after
  have htested := ownExpr_follows holder .use cond w
  have hround := htested.seq (ownBlock_follows holder .use body tested)
  have hshape : round.flow.marks.SameShape w.flow.marks :=
    (hround hw).sameShape (Plan.closed_seq (cond.closed_plan .use) (body.closed_plan .use))
  have hafter : after.flow.hasMoved name = true ↔
      w.flow.hasMoved name = true ∧ round.flow.hasMoved name = true :=
    Flow.hasMoved_join hshape name
  refine ⟨hafter, fun hmoved hkeep => ?_, fun hmoved h i sp => Walk.use_of_hasMoved hmoved sp⟩
  have hdepth : 0 < tested.flow.depth := by rwa [htested.depth hw]
  have hstays : round.flow.hasMoved name = true :=
    ownBlock_hasMoved holder .use body hdepth hmoved hkeep
  exact hafter.trans (and_iff_left hstays)

namespace TakingLoop

open Build

/-- `take(x)`. -/
def take : Expr := call (ident "take") [ident "x"]

/-- `while take(x) { }`. -/
def loop : Expr := expr (.whileLoop take (block [] none))

/-- A function of `x` that runs the loop and then takes `x`. -/
def program : Program where
  items := [.function (functionOf "f"
    [.param "x" none, .body (block [.expr loop, .expr take] none)])]

def start : Checking := ⟨program.items.map .item, Checker.clear { trackLifetimes := false }⟩

/-- Where the check comes to the loop. -/
def arrived : Checking := start.after 9

/-- The same with `x` taken before. -/
def taken : Walk := ownExpr none .use take arrived.checker.toWalk

end TakingLoop

/-- What was taken before the loop is still so after it, and reported. -/
theorem takingLoop_keeps_earlier_move :
    let after := ownExpr none .use TakingLoop.loop TakingLoop.taken
    0 < TakingLoop.taken.flow.depth ∧ TakingLoop.taken.flow.hasMoved "x" = true ∧
      after.flow.hasMoved "x" = true ∧
      ∃ b, after.flow.lookup "x" = some b ∧ ownExpr none .use (Build.ident "x") after =
        after.report (.useMoved "x" b.movedAt) .dummy := by
  intro after
  have hdepth : 0 < TakingLoop.taken.flow.depth := by decide
  obtain ⟨-, hmoved, hreport⟩ := moved_after_while none .use 0 .dummy TakingLoop.take
    (Build.block [] none) TakingLoop.taken hdepth "x"
  have hbefore : TakingLoop.taken.flow.hasMoved "x" = true := by decide
  have hafter := (hmoved (by decide) rfl).mpr hbefore
  exact ⟨hdepth, hbefore, hafter, hreport hafter none 0 .dummy⟩

/-- What the condition takes is not moved after the loop, and nothing is reported. -/
theorem takingLoop_forgets_condition :
    let x := TakingLoop.arrived
    Reaches TakingLoop.start x ∧ (∃ r, x.agenda = .expr .use TakingLoop.loop :: r) ∧
      (∃ c, Runs [.expr .use TakingLoop.take] x.checker c ∧ c.flow.hasMoved "x" = true) ∧
      ((Build.block [] none).plan .use).renews "x" = false ∧
      (∃ c, Runs [.expr .use TakingLoop.loop] x.checker c ∧ c.flow.hasMoved "x" = false) ∧
      TakingLoop.program.ownershipFaults = [] := by
  intro x
  have htake := expr_runs .use TakingLoop.take x.checker
  have hloop := expr_runs .use TakingLoop.loop x.checker
  exact ⟨Checking.reaches_after 9 _, ⟨_, rfl⟩, ⟨_, htake, by decide⟩, rfl, ⟨_, hloop, by decide⟩,
    rfl⟩

end Sema
