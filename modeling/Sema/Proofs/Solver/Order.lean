import Sema.Proofs.Solver.Principal

/-!
# The order of constraints

Unification without effect rows does not care in which order its constraints come. Rows do: an
open row agrees with every row and learns nothing from it, so a variable that is bound to a
function with an open row accepts two rows that would not accept each other. This is the only
way in which the order can matter. If one order is solved and another is not, then the failure
compares two different closed rows of the list, and the list has an open row besides.

The argument leaves the rows out. What is solved once is solved with all rows open, in any
order; and a run with its rows left out makes the same steps, save for the comparison of rows.
-/

namespace Sema

namespace Ty

mutual

/-- The rows of the function nodes of the type. -/
def rows : Ty → List EffectRow
  | .var _ => []
  | .atom _ => []
  | .fn ps r e => rowsAll ps ++ r.rows ++ [e]
  | .app _ args => rowsAll args
  | .branded _ base => base.rows

def rowsAll : List Ty → List EffectRow
  | [] => []
  | t :: r => t.rows ++ rowsAll r

end

mutual

/-- A replacement brings in the rows of what it puts in, and no others. -/
theorem mem_rows_replace {f : Nat → Ty} {e : EffectRow} : (t : Ty) → e ∈ (t.replace f).rows →
    e ∈ t.rows ∨ ∃ v, e ∈ (f v).rows
  | .var v, h => .inr ⟨v, h⟩
  | .atom _, h => .inl h
  | .fn ps r d, h => by
    simp only [replace, rows, List.mem_append] at h ⊢
    rcases h with (h | h) | h
    · exact (mem_rowsAll_replaceAll ps h).imp_left fun h => .inl (.inl h)
    · exact (mem_rows_replace r h).imp_left fun h => .inl (.inr h)
    · exact .inl (.inr h)
  | .app _ args, h => mem_rowsAll_replaceAll args h
  | .branded _ base, h => mem_rows_replace base h

theorem mem_rowsAll_replaceAll {f : Nat → Ty} {e : EffectRow} : (l : List Ty) →
    e ∈ rowsAll (replaceAll f l) → e ∈ rowsAll l ∨ ∃ v, e ∈ (f v).rows
  | [], h => .inl h
  | t :: r, h => by
    simp only [replaceAll, rowsAll, List.mem_append] at h ⊢
    rcases h with h | h
    · exact (mem_rows_replace t h).imp_left .inl
    · exact (mem_rowsAll_replaceAll r h).imp_left .inr

end

mutual

theorem closedRows_iff : (t : Ty) → (t.closedRows = true ↔ EffectRow.openRow ∉ t.rows)
  | .var _ => by simp [closedRows, rows]
  | .atom _ => by simp [closedRows, rows]
  | .fn ps r e => by
    simp only [closedRows, rows, Bool.and_eq_true, closedRowsAll_iff ps, closedRows_iff r,
      bne_iff_ne, List.mem_append, List.mem_singleton, not_or]
    exact and_congr_right fun _ => ne_comm
  | .app _ args => closedRowsAll_iff args
  | .branded _ base => closedRows_iff base

theorem closedRowsAll_iff : (l : List Ty) →
    (closedRowsAll l = true ↔ EffectRow.openRow ∉ rowsAll l)
  | [] => by simp [closedRowsAll, rowsAll]
  | t :: r => by simp [closedRowsAll, rowsAll, closedRows_iff t, closedRowsAll_iff r]

end

mutual

theorem bare_replace (f : Nat → Ty) : (t : Ty) →
    (t.replace f).bare = t.bare.replace fun v => (f v).bare
  | .var _ => rfl
  | .atom _ => rfl
  | .fn ps r _ => by
    simp [replace, bare, bareAll_replaceAll f ps, bare_replace f r]
  | .app _ args => by simp [replace, bare, bareAll_replaceAll f args]
  | .branded _ base => by simp [replace, bare, bare_replace f base]

theorem bareAll_replaceAll (f : Nat → Ty) : (l : List Ty) →
    bareAll (replaceAll f l) = replaceAll (fun v => (f v).bare) (bareAll l)
  | [] => rfl
  | t :: r => by simp [replaceAll, bareAll, bare_replace f t, bareAll_replaceAll f r]

end

mutual

@[simp] theorem vars_bare : (t : Ty) → t.bare.vars = t.vars
  | .var _ => rfl
  | .atom _ => rfl
  | .fn ps r _ => by simp [bare, vars, varsAll_bareAll ps, vars_bare r]
  | .app _ args => by simp [bare, vars, varsAll_bareAll args]
  | .branded _ base => by simp [bare, vars, vars_bare base]

theorem varsAll_bareAll : (l : List Ty) → varsAll (bareAll l) = varsAll l
  | [] => rfl
  | t :: r => by simp [bareAll, varsAll, vars_bare t, varsAll_bareAll r]

end

end Ty

theorem bare_single (v : Nat) (t : Ty) : (fun w => (single v t w).bare) = single v t.bare := by
  funext w
  by_cases h : w = v
  · simp [single, h]
  · simp [single, h, Ty.bare]

namespace Equation

def rowsOf : Equation → List EffectRow
  | types a b => a.rows ++ b.rows
  | rows e f => [e, f]

/-- The equation with its rows left out. -/
def bare : Equation → Equation
  | types a b => types a.bare b.bare
  | rows _ _ => rows .openRow .openRow

theorem bare_assign (v : Nat) (t : Ty) (e : Equation) :
    (e.assign v t).bare = e.bare.assign v t.bare := by
  cases e with
  | types a b => simp [assign, bare, Ty.bare_replace, bare_single]
  | rows e f => rfl

theorem map_bare_zip (l m : List Ty) :
    (List.zipWith types l m).map bare = List.zipWith types (Ty.bareAll l) (Ty.bareAll m) := by
  rw [Ty.bareAll_eq_map, Ty.bareAll_eq_map, List.map_zipWith, List.zipWith_map]
  rfl

theorem Splits.bare {e : Equation} {l : List Equation} (h : e.Splits l) :
    e.bare.Splits (l.map Equation.bare) := by
  have hlen : ∀ {l m : List Ty}, l.length = m.length →
      (Ty.bareAll l).length = (Ty.bareAll m).length := by
    intro l m h
    simpa [Ty.bareAll_eq_map] using h
  cases h with
  | rows h => exact .rows rfl
  | var v => exact .var v
  | atom a => exact .atom a
  | fn h r s e f =>
    rw [List.map_append, map_bare_zip]
    exact .fn (hlen h) _ _ _ _
  | app h n =>
    rw [map_bare_zip]
    exact .app (hlen h) n
  | branded b s t => exact .branded b _ _

theorem Binds.bare {e : Equation} {v : Nat} {t : Ty} (h : e.Binds v t) :
    e.bare.Binds v t.bare := by
  cases h with
  | left h => exact .left (by simpa using h)
  | right h => exact .right (by simpa using h)

/-- Where a run stops, it is for the rows, or it would stop without them as well. -/
theorem Stops.bare {e : Equation} {f : UnifyFault} (h : e.Stops f) :
    (∃ r s, f = .effects r s) ∨ ∃ g, e.bare.Stops g := by
  have hvar : ∀ {t : Ty}, (∀ w, t ≠ .var w) → ∀ w, t.bare ≠ .var w := by
    intro t ht w hw
    cases t with
    | var v => exact ht v rfl
    | _ => simp [Ty.bare] at hw
  have hlen : ∀ {l m : List Ty}, l.length ≠ m.length →
      (Ty.bareAll l).length ≠ (Ty.bareAll m).length := by
    intro l m h
    simpa [Ty.bareAll_eq_map] using h
  cases h with
  | rows h => exact .inl ⟨_, _, rfl⟩
  | left hne h => exact .inr ⟨_, .left (hvar hne) (by simpa using h)⟩
  | right hne h => exact .inr ⟨_, .right (hvar hne) (by simpa using h)⟩
  | atom h => exact .inr ⟨_, .atom h⟩
  | arity h r s e f => exact .inr ⟨_, .arity (hlen h) _ _ _ _⟩
  | name h as bs => exact .inr ⟨_, .name h _ _⟩
  | typeArity h n m => exact .inr ⟨_, .typeArity (hlen h) n m⟩
  | brand h s t => exact .inr ⟨_, .brand h _ _⟩
  | @clash s t h =>
    refine .inr ⟨_, .clash ?_⟩
    cases s <;> cases t <;> exact h

end Equation

/-- The assignment factors through the substitution once rows are left out. -/
def BareFactors (θ : Nat → Ty) (σ : Subst) : Prop :=
  ∀ t, (σ.apply t).bare.replace θ = t.bare.replace θ

theorem BareFactors.insert {θ : Nat → Ty} {σ : Subst} (h : BareFactors θ σ) (hσ : σ.Triangular)
    {v : Nat} {t : Ty} (hv : σ.get? v = none) (ht : σ.Avoids t) (hvt : v ∉ t.vars)
    (hval : θ v = t.bare.replace θ) : BareFactors θ (σ.insert v t) := by
  intro s
  rw [hσ.apply_insert hv ht hvt, Ty.bare_replace, bare_single, replace_single_replace hval]
  exact h s

/-- An assignment that solves the equations without their rows survives every step, and only a
comparison of rows can stop the run. -/
theorem Unification.bareFactors {σ τ : Subst} {eqs : List Equation} {o : Option UnifyFault}
    (h : Unification σ eqs τ o) (hσ : Ready σ eqs) {θ : Nat → Ty} (hθ : BareFactors θ σ)
    (heqs : ∀ e ∈ eqs, e.bare.Identifies θ) :
    BareFactors θ τ ∧ ∀ f, o = some f → ∃ r s, f = .effects r s := by
  induction h with
  | done σ => exact ⟨hθ, by simp⟩
  | split he _ ih =>
    refine ih (hσ.split he) hθ fun d hd => ?_
    rcases List.mem_append.mp hd with hd | hd
    · exact he.bare.identifies (heqs _ (by simp)) _ (List.mem_map_of_mem hd)
    · exact heqs d (by simp [hd])
  | @bind σ τ e v t rest o he hrun ih =>
    obtain ⟨hv, ht⟩ := hσ.binds he
    have hval : θ v = t.bare.replace θ := he.bare.identifies_iff.mp (heqs e (by simp))
    refine ih (hσ.bind he) (hθ.insert hσ.triangular hv ht he.not_mem hval) fun d hd => ?_
    obtain ⟨d', hd', rfl⟩ := List.mem_map.mp hd
    rw [Equation.bare_assign]
    exact (Equation.identifies_assign hval _).mpr (heqs d' (by simp [hd']))
  | @fault σ e rest f he =>
    refine ⟨hθ, fun g hg => ?_⟩
    obtain rfl : f = g := Option.some.inj hg
    rcases he.bare with hrows | ⟨g, hstop⟩
    · exact hrows
    · exact absurd (heqs e (by simp)).holds (hstop.unsolvable θ)

section Rows

variable {P : EffectRow → Prop}

theorem rows_zip {e : EffectRow} : {l m : List Ty} →
    ∀ d ∈ List.zipWith Equation.types l m, e ∈ d.rowsOf → e ∈ Ty.rowsAll l ∨ e ∈ Ty.rowsAll m
  | [], _, d, hd, _ => by simp at hd
  | _ :: _, [], d, hd, _ => by simp at hd
  | s :: r, t :: q, d, hd, he => by
    simp only [Ty.rowsAll, List.mem_append]
    rcases List.mem_cons.mp hd with rfl | hd
    · exact (List.mem_append.mp he).imp .inl .inl
    · exact (rows_zip d hd he).imp .inr .inr

/-- Splitting brings in no row. -/
theorem Equation.Splits.rowsOf {e : Equation} {l : List Equation} (h : e.Splits l)
    (he : ∀ r ∈ e.rowsOf, P r) : ∀ d ∈ l, ∀ r ∈ d.rowsOf, P r := by
  intro d hd r hr
  cases h with
  | rows h => simp at hd
  | var v => simp at hd
  | atom a => simp at hd
  | fn hlen a b e f =>
    apply he
    simp only [Equation.rowsOf, Ty.rows, List.mem_append, List.mem_singleton]
    rcases List.mem_append.mp hd with hd | hd
    · exact (rows_zip d hd hr).imp (fun h => .inl (.inl h)) fun h => .inl (.inl h)
    · rcases List.mem_cons.mp hd with rfl | hd
      · exact (List.mem_append.mp hr).imp (fun h => .inl (.inr h)) fun h => .inl (.inr h)
      · rw [List.mem_singleton.mp hd] at hr
        simp only [Equation.rowsOf, List.mem_cons, List.not_mem_nil, or_false] at hr
        exact hr.imp .inr .inr
  | app hlen n => exact he r (List.mem_append.mpr (rows_zip d hd hr))
  | branded b s t =>
    rw [List.mem_singleton.mp hd] at hr
    exact he r hr

theorem rows_single {v : Nat} {t : Ty} (ht : ∀ r ∈ t.rows, P r) (w : Nat) :
    ∀ r ∈ (single v t w).rows, P r := by
  intro r hr
  by_cases h : w = v
  · exact ht r (by simpa [single, h] using hr)
  · simp [single, h, Ty.rows] at hr

theorem rows_replace {f : Nat → Ty} {t : Ty} (ht : ∀ r ∈ t.rows, P r)
    (hf : ∀ v, ∀ r ∈ (f v).rows, P r) : ∀ r ∈ (t.replace f).rows, P r := by
  intro r hr
  rcases Ty.mem_rows_replace t hr with h | ⟨v, h⟩
  · exact ht r h
  · exact hf v r h

theorem Equation.rowsOf_assign {v : Nat} {t : Ty} (ht : ∀ r ∈ t.rows, P r) {e : Equation}
    (he : ∀ r ∈ e.rowsOf, P r) : ∀ r ∈ (e.assign v t).rowsOf, P r := by
  cases e with
  | types a b =>
    intro r hr
    rcases List.mem_append.mp hr with hr | hr
    · exact rows_replace (fun r hr => he r (by simp [Equation.rowsOf, hr])) (rows_single ht) r hr
    · exact rows_replace (fun r hr => he r (by simp [Equation.rowsOf, hr])) (rows_single ht) r hr
  | rows e f => exact he

theorem Equation.Binds.rows {e : Equation} {v : Nat} {t : Ty} (h : e.Binds v t)
    (he : ∀ r ∈ e.rowsOf, P r) : ∀ r ∈ t.rows, P r := by
  intro r hr
  cases h with
  | left h => exact he r (by simp [Equation.rowsOf, hr])
  | right h => exact he r (by simp [Equation.rowsOf, hr])

/-- All rows in a run come from its equations and from what was bound before, and so do the
rows at which it stops. -/
theorem Unification.rows {σ τ : Subst} {eqs : List Equation} {o : Option UnifyFault}
    (h : Unification σ eqs τ o) (hσ : Ready σ eqs) (heqs : ∀ e ∈ eqs, ∀ r ∈ e.rowsOf, P r)
    (hstart : ∀ v, ∀ r ∈ (σ.assignment v).rows, P r) :
    (∀ v, ∀ r ∈ (τ.assignment v).rows, P r) ∧
      ∀ r s, o = some (.effects r s) → P r ∧ P s ∧ r.compatible s ≠ true := by
  induction h with
  | done σ => exact ⟨hstart, by simp⟩
  | split he _ ih =>
    refine ih (hσ.split he) (fun d hd => ?_) hstart
    rcases List.mem_append.mp hd with hd | hd
    · exact he.rowsOf (heqs _ (by simp)) d hd
    · exact heqs d (by simp [hd])
  | @bind σ τ e v t rest o he hrun ih =>
    obtain ⟨hv, ht⟩ := hσ.binds he
    have hrows : ∀ r ∈ t.rows, P r := he.rows (heqs e (by simp))
    refine ih (hσ.bind he) (fun d hd => ?_) fun w => ?_
    · obtain ⟨d', hd', rfl⟩ := List.mem_map.mp hd
      exact Equation.rowsOf_assign hrows (heqs d' (by simp [hd']))
    · have hw : (σ.insert v t).assignment w = (σ.assignment w).replace (single v t) :=
        hσ.triangular.apply_insert hv ht he.not_mem (.var w)
      rw [hw]
      exact rows_replace (hstart w) (rows_single hrows)
  | @fault σ e rest f he =>
    refine ⟨hstart, fun r s hf => ?_⟩
    obtain rfl : f = .effects r s := Option.some.inj hf
    cases he with
    | rows h =>
      have hhead := heqs (.rows r s) (by simp)
      exact ⟨hhead r (by simp [Equation.rowsOf]), hhead s (by simp [Equation.rowsOf]), h⟩

end Rows

/-- The rows of all types in the list. -/
def constraintRows (l : List Constraint) : List EffectRow := l.flatMap fun c => c.equation.rowsOf

/-- With its rows left out, the assignment identifies the two sides of every constraint. -/
def BareUnifies (θ : Nat → Ty) (l : List Constraint) : Prop :=
  ∀ c ∈ l, c.expected.bare.replace θ = c.actual.bare.replace θ

namespace Solver

variable {s : Solver} {c : Constraint} {P : EffectRow → Prop}

theorem step_bareFactors (hs : s.subst.Triangular) {θ : Nat → Ty} (hθ : BareFactors θ s.subst)
    (hc : c.expected.bare.replace θ = c.actual.bare.replace θ) :
    BareFactors θ (s.step c).subst ∧
      ∀ f, (s.step c).failure = some f → ∃ r t, f.fault = .effects r t := by
  obtain ⟨o, hrun, hfail⟩ := s.step_run c
  have hsides : (Equation.types (s.apply c.expected) (s.apply c.actual)).bare.Identifies θ := by
    have hexpected := hθ c.expected
    have hactual := hθ c.actual
    simp only [Equation.bare, Equation.Identifies, apply, hexpected, hactual, hc]
  obtain ⟨hfactors, hrows⟩ := hrun.bareFactors (ready_step hs c) hθ fun e he => by
    rw [List.mem_singleton.mp he]
    exact hsides
  refine ⟨hfactors, fun f hf => ?_⟩
  rw [hfail, Option.map_eq_some_iff] at hf
  obtain ⟨fault, ho, rfl⟩ := hf
  exact hrows fault ho

/-- Only rows stop a list that has a solution without its rows. -/
theorem run_bareFactors (hs : s.subst.Triangular) (hok : s.failure = none) {θ : Nat → Ty}
    (hθ : BareFactors θ s.subst) {l : List Constraint} (hl : BareUnifies θ l) :
    ∀ f, (s.run l).failure = some f → ∃ r t, f.fault = .effects r t := by
  induction l generalizing s with
  | nil => simp [hok]
  | cons c l ih =>
    rw [run_cons hok]
    obtain ⟨hfactors, hrows⟩ := step_bareFactors hs hθ (hl c (by simp))
    cases hstep : (s.step c).failure with
    | some g =>
      rw [run_of_failure (by simp [hstep])]
      exact hrows
    | none => exact ih (step_triangular hs c) hstep hfactors fun d hd => hl d (by simp [hd])

theorem step_rows (hs : s.subst.Triangular) (hc : ∀ r ∈ c.equation.rowsOf, P r)
    (hstart : ∀ v, ∀ r ∈ (s.subst.assignment v).rows, P r) :
    (∀ v, ∀ r ∈ ((s.step c).subst.assignment v).rows, P r) ∧
      ∀ f r t, (s.step c).failure = some f → f.fault = .effects r t →
        P r ∧ P t ∧ r.compatible t ≠ true := by
  obtain ⟨o, hrun, hfail⟩ := s.step_run c
  obtain ⟨hrows, hstop⟩ := hrun.rows (P := P) (ready_step hs c) (fun e he => by
    rw [List.mem_singleton.mp he]
    intro r hr
    rcases List.mem_append.mp hr with hr | hr
    · exact rows_replace (fun r hr => hc r (List.mem_append_left _ hr)) hstart r hr
    · exact rows_replace (fun r hr => hc r (List.mem_append_right _ hr)) hstart r hr) hstart
  refine ⟨hrows, fun f r t hf hfault => ?_⟩
  rw [hfail, Option.map_eq_some_iff] at hf
  obtain ⟨fault, ho, rfl⟩ := hf
  exact hstop r t (by rw [ho, ← hfault])

/-- The rows at which a run stops are rows of the list that do not agree. -/
theorem run_rows (hs : s.subst.Triangular) (hok : s.failure = none) {l : List Constraint}
    (hl : ∀ c ∈ l, ∀ r ∈ c.equation.rowsOf, P r)
    (hstart : ∀ v, ∀ r ∈ (s.subst.assignment v).rows, P r) :
    ∀ f r t, (s.run l).failure = some f → f.fault = .effects r t →
      P r ∧ P t ∧ r.compatible t ≠ true := by
  induction l generalizing s with
  | nil => simp [hok]
  | cons c l ih =>
    rw [run_cons hok]
    obtain ⟨hrows, hstop⟩ := step_rows hs (hl c (by simp)) hstart
    cases hstep : (s.step c).failure with
    | some g =>
      rw [run_of_failure (by simp [hstep])]
      exact hstop
    | none => exact ih (step_triangular hs c) hstep (fun d hd => hl d (by simp [hd])) hrows

end Solver

theorem bareFactors_empty (θ : Nat → Ty) : BareFactors θ {} := by
  intro t
  have hempty : Subst.apply {} t = t := Subst.apply_empty t
  rw [hempty]

/-- What is solved has a solution with its rows left out. -/
theorem bareUnifies_of_solve {l : List Constraint} {σ : Subst} (h : solve l = .ok σ) :
    BareUnifies (fun v => (σ.assignment v).bare) l := by
  obtain ⟨hok, rfl⟩ := solve_eq_ok_iff.mp h
  intro c hc
  have hcomp := Ty.bare_eq_of_compatible _ _ (Solver.run_holds .empty l hok c hc)
  rw [Ty.bare_replace, Ty.bare_replace] at hcomp
  exact hcomp

/-- Without open rows what is solved in one order is solved in every order. -/
theorem solve_perm_of_closedRows {l m : List Constraint} (h : l.Perm m)
    (hl : EffectRow.openRow ∉ constraintRows l) {σ : Subst} (hσ : solve l = .ok σ) :
    ∃ τ, solve m = .ok τ := by
  have hclosed : ∀ c ∈ l, c.closedRows := by
    intro c hc
    have hrows : EffectRow.openRow ∉ c.equation.rowsOf :=
      fun hmem => hl (List.mem_flatMap.mpr ⟨c, hc, hmem⟩)
    exact ⟨(Ty.closedRows_iff _).mpr fun hmem => hrows (List.mem_append_left _ hmem),
      (Ty.closedRows_iff _).mpr fun hmem => hrows (List.mem_append_right _ hmem)⟩
  obtain ⟨hok, rfl⟩ := solve_eq_ok_iff.mp hσ
  have hunifies : Unifies (Solver.run {} l).subst.assignment m :=
    fun c hc => Solver.run_identifies hclosed hok c (h.mem_iff.mpr hc)
  obtain ⟨τ, hτ, _⟩ := solve_of_unifies hunifies
  exact ⟨τ, hτ⟩

theorem mem_constraintRows_perm {l m : List Constraint} (h : l.Perm m) {e : EffectRow} :
    e ∈ constraintRows l ↔ e ∈ constraintRows m :=
  (h.flatMap_right _).mem_iff

/-- Rows that do not agree are closed, and different. -/
theorem EffectRow.closed_of_not_compatible {r s : EffectRow} (h : r.compatible s ≠ true) :
    ∃ a b, r = .closed a ∧ s = .closed b ∧ a ≠ b := by
  cases r with
  | openRow => simp [compatible] at h
  | closed a =>
    cases s with
    | openRow => simp [compatible] at h
    | closed b => exact ⟨a, b, rfl, rfl, by simpa [compatible] using h⟩

/-- A list that is solved in one order is solved in another, unless two rows stop it there. -/
theorem solve_perm_or_rows {l m : List Constraint} (h : l.Perm m) {σ : Subst}
    (hσ : solve l = .ok σ) : (∃ τ, solve m = .ok τ) ∨ ∃ f a b, solve m = .error f ∧
      f.fault = .effects (.closed a) (.closed b) ∧ a ≠ b ∧ .closed a ∈ constraintRows l ∧
      .closed b ∈ constraintRows l ∧ .openRow ∈ constraintRows l := by
  cases hm : solve m with
  | ok τ => exact .inl ⟨τ, rfl⟩
  | error f =>
    right
    have hfail := solve_eq_error_iff.mp hm
    have hunifies : BareUnifies (fun v => (σ.assignment v).bare) m :=
      fun c hc => bareUnifies_of_solve hσ c (h.mem_iff.mpr hc)
    obtain ⟨r, s, hrows⟩ := Solver.run_bareFactors .empty rfl (bareFactors_empty _) hunifies f hfail
    obtain ⟨hr, hs, hne⟩ := Solver.run_rows (s := {}) (P := (· ∈ constraintRows m)) .empty rfl
      (fun c hc r hr => List.mem_flatMap.mpr ⟨c, hc, hr⟩) (fun v r hr => nomatch hr) f r s hfail hrows
    obtain ⟨a, b, rfl, rfl, hab⟩ := EffectRow.closed_of_not_compatible hne
    rw [← mem_constraintRows_perm h] at hr hs
    refine ⟨f, a, b, rfl, hrows, hab, hr, hs, ?_⟩
    by_cases hopen : EffectRow.openRow ∈ constraintRows l
    · exact hopen
    · obtain ⟨τ, hτ⟩ := solve_perm_of_closedRows h hopen hσ
      rw [hm] at hτ
      cases hτ

/-- The list has no open row, or no two different closed rows. -/
def UnmixedRows (l : List Constraint) : Prop :=
  .openRow ∈ constraintRows l → ∀ a b, .closed a ∈ constraintRows l → .closed b ∈ constraintRows l →
    a = b

theorem solve_perm_of_unmixed {l m : List Constraint} (h : l.Perm m) (hl : UnmixedRows l)
    (hok : (solve l).isOk = true) : (solve m).isOk = true := by
  cases hσ : solve l with
  | error f => simp [hσ, Except.isOk, Except.toBool] at hok
  | ok σ =>
    rcases solve_perm_or_rows h hσ with ⟨τ, hτ⟩ | ⟨f, a, b, _, _, hab, ha, hb, hopen⟩
    · rw [hτ]
      rfl
    · exact absurd (hl hopen a b ha hb) hab

/-- The order of constraints does not decide whether they are solved, unless the list mixes an
open row with different closed rows. And then it decides through rows alone: what is solved in
one order either is solved in any other, or fails there at two different closed rows. -/
theorem solve_perm (l m : List Constraint) (h : l.Perm m) :
    (UnmixedRows l → (solve l).isOk = (solve m).isOk) ∧
      ((solve l).isOk = true → (solve m).isOk = true ∨ ∃ f a b, solve m = .error f ∧
        f.fault = .effects (.closed a) (.closed b) ∧ a ≠ b ∧ .closed a ∈ constraintRows l ∧
        .closed b ∈ constraintRows l ∧ .openRow ∈ constraintRows l) := by
  constructor
  · intro hl
    have hm : UnmixedRows m := fun hopen a b ha hb =>
      hl ((mem_constraintRows_perm h).mpr hopen) a b ((mem_constraintRows_perm h).mpr ha)
        ((mem_constraintRows_perm h).mpr hb)
    exact Bool.eq_iff_iff.mpr ⟨solve_perm_of_unmixed h hl, solve_perm_of_unmixed h.symm hm⟩
  · intro hok
    cases hσ : solve l with
    | error f => simp [hσ, Except.isOk, Except.toBool] at hok
    | ok σ =>
      refine (solve_perm_or_rows h hσ).imp_left ?_
      rintro ⟨τ, hτ⟩
      rw [hτ]
      rfl

/-- The constraint that `?0` is a function without parameters that has the row `e`. -/
def callsWith (e : EffectRow) : Constraint :=
  { expected := .var 0, actual := .fn [] .unit e, span := {}, origin := .argument }

/-- With the open row first all three constraints are solved, with the open row last they are
not: it no longer hides that the other two rows differ. -/
theorem openRow_first_or_last :
    let io : EffectRow := .closed { io := true }
    let first := [callsWith .openRow, callsWith io, callsWith .pure]
    let last := [callsWith io, callsWith .pure, callsWith .openRow]
    first.Perm last ∧ (solve first).isOk = true ∧ (solve last).isOk = false := by
  intro io first last
  refine ⟨?_, by cbv, by cbv⟩
  exact (List.Perm.swap _ _ _).trans (.cons _ (.swap _ _ _))

/-- The two orders of a list with rows that differ but no open row, and of the one that mixes. -/
theorem solve_perm_reversed :
    let io : EffectRow := .closed { io := true }
    let closed := [callsWith io, { callsWith .pure with expected := .var 1 }]
    let first := [callsWith .openRow, callsWith io, callsWith .pure]
    UnmixedRows closed ∧ (solve closed).isOk = (solve closed.reverse).isOk ∧
      (solve first).isOk = true ∧ ((solve first.reverse).isOk = true ∨
        ∃ f a b, solve first.reverse = .error f ∧ f.fault = .effects (.closed a) (.closed b) ∧
          a ≠ b ∧ .closed a ∈ constraintRows first ∧ .closed b ∈ constraintRows first ∧
          .openRow ∈ constraintRows first) := by
  intro io closed first
  have hclosed : UnmixedRows closed := by
    intro hopen
    simp [closed, io, callsWith, constraintRows, Constraint.equation, Equation.rowsOf, Ty.rows,
      Ty.rowsAll, Ty.unit, EffectRow.pure] at hopen
  have hfirst : (solve first).isOk = true := by cbv
  exact ⟨hclosed, (solve_perm closed _ (List.reverse_perm closed).symm).1 hclosed, hfirst,
    (solve_perm first _ (List.reverse_perm first).symm).2 hfirst⟩

end Sema
