import Sema.Proofs.Solver.Triangular
import Sema.Proofs.Ty.Compatible

/-!
# What unification does with an equation

The first equation either splits into equations between its parts, or binds a variable, or
stops the run, in which case it has no solution at all. `Equation.verdict` is that decision, and
`unify` is a loop over it. `Unification` is the run of the solver in these terms, and `unify_run`
says that every call of `unify` is such a run. What holds of all calls is then proved by
induction on the run, with one case for each kind of step.
-/

namespace Sema

namespace Equation

/-- The assignment makes both sides compatible. -/
def Holds (θ : Nat → Ty) : Equation → Prop
  | types a b => (a.replace θ).compatible (b.replace θ) = true
  | rows e f => e.compatible f = true

/-- The assignment makes both sides identical. -/
def Identifies (θ : Nat → Ty) : Equation → Prop
  | types a b => a.replace θ = b.replace θ
  | rows e f => e = f

/-- No row of the equation is open. -/
def closedRows : Equation → Prop
  | types a b => a.closedRows = true ∧ b.closedRows = true
  | rows e f => e ≠ .openRow ∧ f ≠ .openRow

/-- An equation that gives way to the equations between the parts of its sides. -/
inductive Splits : Equation → List Equation → Prop where
  | rows {e f : EffectRow} (h : e.compatible f = true) : Splits (.rows e f) []
  | var (v : Nat) : Splits (.types (.var v) (.var v)) []
  | atom (a : Atom) : Splits (.types (.atom a) (.atom a)) []
  | fn {ps qs : List Ty} (h : ps.length = qs.length) (r s : Ty) (e f : EffectRow) :
    Splits (.types (.fn ps r e) (.fn qs s f))
      (List.zipWith .types ps qs ++ [.types r s, .rows e f])
  | app {as bs : List Ty} (h : as.length = bs.length) (n : String) :
    Splits (.types (.app n as) (.app n bs)) (List.zipWith .types as bs)
  | branded (b : String) (s t : Ty) :
    Splits (.types (.branded b s) (.branded b t)) [.types s t]

/-- An equation between a variable and a type without it, in either order. -/
inductive Binds : Equation → Nat → Ty → Prop where
  | left {v : Nat} {t : Ty} (h : v ∉ t.vars) : Binds (.types (.var v) t) v t
  | right {v : Nat} {t : Ty} (h : v ∉ t.vars) : Binds (.types t (.var v)) v t

/-- Two composite types with different constructors at the root. -/
def Clash : Ty → Ty → Prop
  | .var _, _ | _, .var _ | .atom _, .atom _ | .fn .., .fn .. | .app .., .app ..
  | .branded .., .branded .. => False
  | _, _ => True

/-- An equation that ends the run, and the fault it ends with. -/
inductive Stops : Equation → UnifyFault → Prop where
  | rows {e f : EffectRow} (h : e.compatible f ≠ true) : Stops (.rows e f) (.effects e f)
  | left {v : Nat} {t : Ty} (hne : ∀ w, t ≠ .var w) (h : v ∈ t.vars) :
    Stops (.types (.var v) t) (.occurs v t)
  | right {v : Nat} {t : Ty} (hne : ∀ w, t ≠ .var w) (h : v ∈ t.vars) :
    Stops (.types t (.var v)) (.occurs v t)
  | atom {a b : Atom} (h : a ≠ b) :
    Stops (.types (.atom a) (.atom b)) (.mismatch (.atom a) (.atom b))
  | arity {ps qs : List Ty} (h : ps.length ≠ qs.length) (r s : Ty) (e f : EffectRow) :
    Stops (.types (.fn ps r e) (.fn qs s f)) (.arity ps.length qs.length)
  | name {n m : String} (h : n ≠ m) (as bs : List Ty) :
    Stops (.types (.app n as) (.app m bs)) (.mismatch (.app n as) (.app m bs))
  | typeArity {as bs : List Ty} (h : as.length ≠ bs.length) (n m : String) :
    Stops (.types (.app n as) (.app m bs)) (.typeArity n as.length bs.length)
  | brand {b c : String} (h : b ≠ c) (s t : Ty) :
    Stops (.types (.branded b s) (.branded c t)) (.brand b c)
  | clash {s t : Ty} (h : Clash s t) : Stops (.types s t) (.mismatch s t)

/-- No assignment makes the sides even compatible. -/
def Unsolvable (e : Equation) : Prop := ∀ θ, ¬e.Holds θ

theorem Identifies.holds {θ : Nat → Ty} {e : Equation} (h : e.Identifies θ) : e.Holds θ := by
  cases e with
  | types a b =>
    have hab : a.replace θ = b.replace θ := h
    simp [Holds, hab]
  | rows r s =>
    have hrs : r = s := h
    simp [Holds, hrs]

end Equation

/-- Lists of types are compatible when the equations between their members hold. -/
theorem compatibleAll_of_zip {θ : Nat → Ty} : {l m : List Ty} → l.length = m.length →
    (∀ d ∈ List.zipWith Equation.types l m, d.Holds θ) →
    Ty.compatibleAll (Ty.replaceAll θ l) (Ty.replaceAll θ m) = true
  | [], [], _, _ => rfl
  | s :: r, t :: q, hl, h => by
    have hhead : (Equation.types s t).Holds θ := h _ (by simp)
    have htail := compatibleAll_of_zip (l := r) (m := q) (by simpa using hl)
      fun d hd => h d (by simp [hd])
    simp only [Equation.Holds] at hhead
    simp [Ty.replaceAll, Ty.compatibleAll, hhead, htail]

theorem zip_identifies_of_replaceAll_eq {θ : Nat → Ty} : {l m : List Ty} →
    Ty.replaceAll θ l = Ty.replaceAll θ m →
    ∀ d ∈ List.zipWith Equation.types l m, d.Identifies θ
  | [], _, _, d, hd => by simp at hd
  | _ :: _, [], _, d, hd => by simp at hd
  | s :: r, t :: q, h, d, hd => by
    simp only [Ty.replaceAll, List.cons.injEq] at h
    rcases List.mem_cons.mp hd with rfl | hd
    · exact h.1
    · exact zip_identifies_of_replaceAll_eq h.2 d hd

namespace Equation

/-- The parts together say at least what the equation says. -/
theorem Splits.holds {θ : Nat → Ty} {e : Equation} {l : List Equation} (h : e.Splits l)
    (hl : ∀ d ∈ l, d.Holds θ) : e.Holds θ := by
  cases h with
  | rows h => exact h
  | var v => simp [Holds]
  | atom a => simp [Holds]
  | fn hlen r s e f =>
    have hparams := compatibleAll_of_zip hlen fun d hd => hl d (by simp [hd])
    have hret : (Equation.types r s).Holds θ := hl _ (by simp)
    have hrows : (Equation.rows e f).Holds θ := hl _ (by simp)
    simp only [Holds] at hret hrows
    simp [Holds, Ty.replace, Ty.compatible, hparams, hret, hrows]
  | app hlen n =>
    have hargs := compatibleAll_of_zip hlen hl
    simp [Holds, Ty.replace, Ty.compatible, hargs]
  | branded b s t =>
    have hbase : (Equation.types s t).Holds θ := hl _ (by simp)
    simp only [Holds] at hbase
    simp [Holds, Ty.replace, Ty.compatible, hbase]

/-- And an assignment that makes the sides identical makes all parts identical. -/
theorem Splits.identifies {θ : Nat → Ty} {e : Equation} {l : List Equation} (h : e.Splits l)
    (he : e.Identifies θ) : ∀ d ∈ l, d.Identifies θ := by
  intro d hd
  cases h with
  | rows h => simp at hd
  | var v => simp at hd
  | atom a => simp at hd
  | fn hlen r s e f =>
    simp only [Identifies, Ty.replace, Ty.fn.injEq] at he
    rcases List.mem_append.mp hd with hd | hd
    · exact zip_identifies_of_replaceAll_eq he.1 d hd
    · rcases List.mem_cons.mp hd with rfl | hd
      · exact he.2.1
      · rw [List.mem_singleton.mp hd]
        exact he.2.2
  | app hlen n =>
    simp only [Identifies, Ty.replace, Ty.app.injEq] at he
    exact zip_identifies_of_replaceAll_eq he.2 d hd
  | branded b s t =>
    simp only [Identifies, Ty.replace, Ty.branded.injEq] at he
    rw [List.mem_singleton.mp hd]
    exact he.2

/-- Splitting brings in no variable. -/
theorem Splits.vars {e : Equation} {l : List Equation} (h : e.Splits l) :
    ∀ v ∈ equationVars l, v ∈ e.vars := by
  intro v hv
  cases h with
  | rows h => simp [equationVars] at hv
  | var v => simp [equationVars] at hv
  | atom a => simp [equationVars] at hv
  | @fn ps qs hlen r s e f =>
    have hzip := equationVars_zip ps qs v
    simp only [equationVars_append, equationVars_cons, Equation.vars, Ty.vars,
      List.mem_append] at hv hzip ⊢
    rcases hv with hv | (hv | hv) | hv | hv
    · rcases hzip hv with h | h <;> simp [h]
    · simp [hv]
    · simp [hv]
    · simp at hv
    · simp [equationVars] at hv
  | @app as bs hlen n =>
    simpa [Equation.vars, Ty.vars] using equationVars_zip as bs v hv
  | branded b s t =>
    simpa [equationVars, Equation.vars, Ty.vars] using hv

theorem closedRows_zip : {l m : List Ty} → Ty.closedRowsAll l = true →
    Ty.closedRowsAll m = true → ∀ d ∈ List.zipWith Equation.types l m, d.closedRows
  | [], _, _, _, d, hd => by simp at hd
  | _ :: _, [], _, _, d, hd => by simp at hd
  | s :: r, t :: q, hl, hm, d, hd => by
    simp only [Ty.closedRowsAll, Bool.and_eq_true] at hl hm
    rcases List.mem_cons.mp hd with rfl | hd
    · exact ⟨hl.1, hm.1⟩
    · exact closedRows_zip hl.2 hm.2 d hd

theorem Splits.closedRows {e : Equation} {l : List Equation} (h : e.Splits l)
    (he : e.closedRows) : ∀ d ∈ l, d.closedRows := by
  intro d hd
  cases h with
  | rows h => simp at hd
  | var v => simp at hd
  | atom a => simp at hd
  | fn hlen r s e f =>
    simp only [Equation.closedRows, Ty.closedRows, Bool.and_eq_true, bne_iff_ne] at he
    obtain ⟨⟨⟨hps, hr⟩, he⟩, ⟨hqs, hs⟩, hf⟩ := he
    rcases List.mem_append.mp hd with hd | hd
    · exact closedRows_zip hps hqs d hd
    · rcases List.mem_cons.mp hd with rfl | hd
      · exact ⟨hr, hs⟩
      · rw [List.mem_singleton.mp hd]
        exact ⟨he, hf⟩
  | app hlen n => exact closedRows_zip he.1 he.2 d hd
  | branded b s t =>
    rw [List.mem_singleton.mp hd]
    exact he

theorem Binds.not_mem {e : Equation} {v : Nat} {t : Ty} (h : e.Binds v t) : v ∉ t.vars := by
  cases h <;> assumption

theorem Binds.vars {e : Equation} {v : Nat} {t : Ty} (h : e.Binds v t) :
    v ∈ e.vars ∧ ∀ w ∈ t.vars, w ∈ e.vars := by
  cases h with
  | left h => exact ⟨by simp [Equation.vars, Ty.vars], fun w hw => by simp [Equation.vars, hw]⟩
  | right h => exact ⟨by simp [Equation.vars, Ty.vars], fun w hw => by simp [Equation.vars, hw]⟩

/-- What identifies the sides gives the variable the value of the type, and conversely. -/
theorem Binds.identifies_iff {θ : Nat → Ty} {e : Equation} {v : Nat} {t : Ty}
    (h : e.Binds v t) : e.Identifies θ ↔ θ v = t.replace θ := by
  cases h with
  | left h => exact Iff.rfl
  | right h => exact eq_comm

theorem Binds.closedRows {e : Equation} {v : Nat} {t : Ty} (h : e.Binds v t)
    (he : e.closedRows) : t.closedRows = true := by
  cases h with
  | left h => exact he.2
  | right h => exact he.1

end Equation

theorem size_le_size_replace {θ : Nat → Ty} {v : Nat} {t : Ty}
    (h : t = .var v ∨ (θ v).size < (t.replace θ).size) : (θ v).size ≤ (t.replace θ).size := by
  rcases h with rfl | h
  · exact Nat.le_refl _
  · exact Nat.le_of_lt h

mutual

/-- What a variable stands for is smaller than a type that mentions it, unless the type is the
variable itself. -/
theorem size_lt_size_replace (θ : Nat → Ty) (v : Nat) : (t : Ty) → v ∈ t.vars →
    t = .var v ∨ (θ v).size < (t.replace θ).size
  | .var w, h => by
    have hw : v = w := by simpa [Ty.vars] using h
    exact .inl (by rw [hw])
  | .atom _, h => by simp [Ty.vars] at h
  | .fn ps r _, h => by
    right
    simp only [Ty.replace, Ty.size]
    rcases List.mem_append.mp h with h | h
    · have := size_le_sizeAll_replaceAll θ v ps h
      omega
    · have := size_le_size_replace (size_lt_size_replace θ v r h)
      omega
  | .app _ args, h => by
    right
    have := size_le_sizeAll_replaceAll θ v args h
    simp only [Ty.replace, Ty.size]
    omega
  | .branded _ base, h => by
    right
    have := size_le_size_replace (size_lt_size_replace θ v base h)
    simp only [Ty.replace, Ty.size]
    omega

theorem size_le_sizeAll_replaceAll (θ : Nat → Ty) (v : Nat) : (l : List Ty) →
    v ∈ Ty.varsAll l → (θ v).size ≤ Ty.sizeAll (Ty.replaceAll θ l)
  | [], h => by simp [Ty.varsAll] at h
  | t :: r, h => by
    simp only [Ty.replaceAll, Ty.sizeAll]
    rcases List.mem_append.mp h with h | h
    · have := size_le_size_replace (size_lt_size_replace θ v t h)
      omega
    · have := size_le_sizeAll_replaceAll θ v r h
      omega

end

namespace Equation

/-- A cyclic equation has no solution. -/
theorem unsolvable_of_occurs {v : Nat} {t : Ty} (hne : ∀ w, t ≠ .var w) (h : v ∈ t.vars) :
    (types (.var v) t).Unsolvable ∧ (types t (.var v)).Unsolvable := by
  have hlt : ∀ θ, (θ v).size < (t.replace θ).size := by
    intro θ
    rcases size_lt_size_replace θ v t h with ht | ht
    · exact absurd ht (hne v)
    · exact ht
  constructor <;> intro θ hθ <;> have hsize := Ty.size_eq_of_compatible _ _ hθ
  · exact Nat.ne_of_lt (hlt θ) hsize
  · exact Nat.ne_of_gt (hlt θ) hsize

theorem Stops.unsolvable {e : Equation} {f : UnifyFault} (h : e.Stops f) : e.Unsolvable := by
  cases h with
  | rows h => exact fun _ => h
  | left hne h => exact (unsolvable_of_occurs hne h).1
  | right hne h => exact (unsolvable_of_occurs hne h).2
  | atom h =>
    intro θ hθ
    exact h (by simpa [Holds, Ty.replace, Ty.compatible] using hθ)
  | arity h r s e f =>
    intro θ hθ
    simp only [Holds, Ty.replace, Ty.compatible, Bool.and_eq_true] at hθ
    have hlen := Ty.length_eq_of_compatibleAll hθ.1.1
    simp only [Ty.length_replaceAll] at hlen
    exact h hlen
  | name h as bs =>
    intro θ hθ
    simp only [Holds, Ty.replace, Ty.compatible, Bool.and_eq_true, beq_iff_eq] at hθ
    exact h hθ.1
  | typeArity h n m =>
    intro θ hθ
    simp only [Holds, Ty.replace, Ty.compatible, Bool.and_eq_true] at hθ
    have hlen := Ty.length_eq_of_compatibleAll hθ.2
    simp only [Ty.length_replaceAll] at hlen
    exact h hlen
  | brand h s t =>
    intro θ hθ
    simp only [Holds, Ty.replace, Ty.compatible, Bool.and_eq_true, beq_iff_eq] at hθ
    exact h hθ.1
  | @clash s t h =>
    intro θ hθ
    cases s <;> cases t <;> first
      | exact False.elim h
      | simp [Holds, Ty.replace, Ty.compatible] at hθ

end Equation

/-- What the roots of the two sides decide about an equation. -/
inductive Verdict where
  | parts (l : List Equation)
  | bind (v : Nat) (t : Ty)
  | fault (f : UnifyFault)

namespace Equation

/-- One comparison of roots, as `unify` makes it. -/
def verdict : Equation → Verdict
  | rows e f => if e.compatible f then .parts [] else .fault (.effects e f)
  | types (.var x) (.var y) => if x = y then .parts [] else .bind x (.var y)
  | types (.var x) t => if t.occurs x then .fault (.occurs x t) else .bind x t
  | types t (.var x) => if t.occurs x then .fault (.occurs x t) else .bind x t
  | types (.atom a) (.atom b) =>
    if a = b then .parts [] else .fault (.mismatch (.atom a) (.atom b))
  | types (.fn ps r e) (.fn qs s f) =>
    if ps.length ≠ qs.length then .fault (.arity ps.length qs.length)
    else .parts (List.zipWith types ps qs ++ [types r s, rows e f])
  | types (.app n as) (.app m bs) =>
    if n ≠ m then .fault (.mismatch (.app n as) (.app m bs))
    else if as.length ≠ bs.length then .fault (.typeArity n as.length bs.length)
    else .parts (List.zipWith types as bs)
  | types (.branded b s) (.branded c t) =>
    if b ≠ c then .fault (.brand b c) else .parts [types s t]
  | types s t => .fault (.mismatch s t)

/-- The verdict says what becomes of the equation. -/
def Judged (e : Equation) : Verdict → Prop
  | .parts l => e.Splits l
  | .bind v t => e.Binds v t
  | .fault f => e.Stops f

theorem judged_verdict (e : Equation) : e.Judged e.verdict := by
  fun_cases verdict e with
  | case1 e f h => exact .rows h
  | case2 e f h => exact .rows h
  | case3 y => exact .var y
  | case4 x y h => exact .left (by simpa [Ty.vars] using h)
  | case5 x t hne h => exact .left hne (by simpa using h)
  | case6 x t hne h => exact .left (by simpa using h)
  | case7 t x hne h => exact .right hne (by simpa using h)
  | case8 t x hne h => exact .right (by simpa using h)
  | case9 a => exact .atom a
  | case10 a b h => exact .atom h
  | case11 ps r e qs s f h => exact .arity h r s e f
  | case12 ps r e qs s f h => exact .fn (Decidable.not_not.mp h) r s e f
  | case13 n as m bs h => exact .name h as bs
  | case14 n as m bs h hlen => exact .typeArity hlen n m
  | case15 n as m bs h hlen =>
    obtain rfl := Decidable.not_not.mp h
    exact .app (Decidable.not_not.mp hlen) n
  | case16 b s c t h => exact .brand h s t
  | case17 b s c t h =>
    obtain rfl := Decidable.not_not.mp h
    exact .branded b s t
  | case18 s t hvv hv hw ha hf hn hb =>
    refine .clash ?_
    cases s <;> cases t <;> first
      | exact hv _ rfl
      | exact hw _ rfl
      | exact ha _ _ rfl rfl
      | exact hf _ _ _ _ _ _ rfl rfl
      | exact hn _ _ _ _ rfl rfl
      | exact hb _ _ _ _ rfl rfl
      | exact trivial

theorem splits_of_verdict {e : Equation} {l : List Equation} (h : e.verdict = .parts l) :
    e.Splits l := by
  have hjudged := e.judged_verdict
  rwa [h] at hjudged

theorem binds_of_verdict {e : Equation} {v : Nat} {t : Ty} (h : e.verdict = .bind v t) :
    e.Binds v t := by
  have hjudged := e.judged_verdict
  rwa [h] at hjudged

theorem stops_of_verdict {e : Equation} {f : UnifyFault} (h : e.verdict = .fault f) :
    e.Stops f := by
  have hjudged := e.judged_verdict
  rwa [h] at hjudged

/-- The parts together are smaller than the equation. -/
theorem Splits.size_lt {e : Equation} {l : List Equation} (h : e.Splits l) :
    equationSize l < e.size := by
  cases h with
  | rows h => simp [equationSize, size]
  | var v => simp [equationSize, size, Ty.size]
  | atom a => simp [equationSize, size, Ty.size]
  | @fn ps qs hlen r s e f =>
    have hzip := equationSize_zip_le ps qs
    simp only [equationSize_append, equationSize, size, Ty.size]
    omega
  | @app as bs hlen n =>
    have hzip := equationSize_zip_le as bs
    simp only [size, Ty.size]
    omega
  | branded b s t =>
    simp only [equationSize, size, Ty.size]
    omega

end Equation

/-- `unify` as a loop: the verdict on the first equation says how it goes on. -/
theorem unify_cons (σ : Subst) (e : Equation) (rest : List Equation) :
    unify σ (e :: rest) =
      match e.verdict with
      | .parts l => unify σ (l ++ rest)
      | .bind v t => unify (σ.insert v t) (assignAll v t rest)
      | .fault f => (σ, some f) := by
  fun_cases Equation.verdict e <;> simp_all [unify]

theorem unify_nil (σ : Subst) : unify σ [] = (σ, none) := by
  rw [unify]

/-- Induction along a run of `unify`. Splitting keeps the variables and makes the equations
smaller, binding leaves fewer variables. -/
theorem unify_induction {P : Subst → List Equation → Prop} (done : ∀ σ, P σ [])
    (parts : ∀ σ e rest l, e.verdict = .parts l → P σ (l ++ rest) → P σ (e :: rest))
    (bind : ∀ σ e rest v t, e.verdict = .bind v t →
      P (σ.insert v t) (assignAll v t rest) → P σ (e :: rest))
    (fault : ∀ σ e rest f, e.verdict = .fault f → P σ (e :: rest)) :
    ∀ σ eqs, P σ eqs
  | σ, [] => done σ
  | σ, e :: rest =>
    match h : e.verdict with
    | .parts l => parts σ e rest l h (unify_induction done parts bind fault σ (l ++ rest))
    | .bind v t =>
      bind σ e rest v t h
        (unify_induction done parts bind fault (σ.insert v t) (assignAll v t rest))
    | .fault f => fault σ e rest f h
termination_by _ eqs => (distinct (equationVars eqs), equationSize eqs)
decreasing_by
  · have hsplit := Equation.splits_of_verdict h
    refine lex_step (distinct_le fun w hw => ?_) ?_
    · simp only [equationVars_append, equationVars_cons, List.mem_append] at hw ⊢
      exact hw.imp_left (hsplit.vars w)
    · have hsize := hsplit.size_lt
      simp only [equationSize_append, equationSize_cons]
      omega
  · have hbind := Equation.binds_of_verdict h
    refine .left _ _ (distinct_assign_lt hbind.not_mem ?_ (fun w hw => ?_) fun w hw => ?_)
    · simp [hbind.vars.1]
    · simp [hbind.vars.2 w hw]
    · simp [hw]

/-- A run of the solver from `σ` on some equations, with the substitution at its end and the
fault that stopped it, if one did. -/
inductive Unification : Subst → List Equation → Subst → Option UnifyFault → Prop where
  | done (σ : Subst) : Unification σ [] σ none
  | split {σ τ : Subst} {e : Equation} {parts rest : List Equation} {o : Option UnifyFault}
      (he : e.Splits parts) (hrun : Unification σ (parts ++ rest) τ o) :
      Unification σ (e :: rest) τ o
  | bind {σ τ : Subst} {e : Equation} {v : Nat} {t : Ty} {rest : List Equation}
      {o : Option UnifyFault} (he : e.Binds v t)
      (hrun : Unification (σ.insert v t) (assignAll v t rest) τ o) :
      Unification σ (e :: rest) τ o
  | fault {σ : Subst} {e : Equation} {rest : List Equation} (f : UnifyFault)
      (he : e.Stops f) : Unification σ (e :: rest) σ (some f)

/-- Every call of `unify` is a run. -/
theorem unify_run (σ : Subst) (eqs : List Equation) :
    Unification σ eqs (unify σ eqs).1 (unify σ eqs).2 := by
  induction σ, eqs using unify_induction with
  | done σ =>
    rw [unify_nil]
    exact .done σ
  | parts σ e rest l h ih =>
    rw [unify_cons, h]
    exact .split (Equation.splits_of_verdict h) ih
  | bind σ e rest v t h ih =>
    rw [unify_cons, h]
    exact .bind (Equation.binds_of_verdict h) ih
  | fault σ e rest f h =>
    rw [unify_cons, h]
    exact .fault f (Equation.stops_of_verdict h)

end Sema
