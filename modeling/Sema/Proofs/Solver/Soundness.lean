import Sema.Proofs.Solver.Reduction
import Sema.Solver.Constraint

/-!
# Solved constraints hold

The solver keeps its substitution triangular, and what it has solved stays solved: later
bindings extend the substitution, and the same replacement on both sides keeps types
compatible. So after a successful run the two sides of every constraint are compatible, and
identical where no open row was involved.
-/

namespace Sema

/-- The substitution is triangular and binds no variable of the equations. -/
structure Ready (σ : Subst) (eqs : List Equation) : Prop where
  triangular : σ.Triangular
  unbound : ∀ v ∈ equationVars eqs, σ.get? v = none

namespace Equation

/-- An assignment that gives `v` the value of `t` does not see the replacement of `v` by `t`. -/
theorem holds_assign {θ : Nat → Ty} {v : Nat} {t : Ty} (h : θ v = t.replace θ) (e : Equation) :
    (e.assign v t).Holds θ ↔ e.Holds θ := by
  cases e with
  | types a b => simp [assign, Holds, replace_single_replace h]
  | rows r s => exact Iff.rfl

theorem identifies_assign {θ : Nat → Ty} {v : Nat} {t : Ty} (h : θ v = t.replace θ)
    (e : Equation) : (e.assign v t).Identifies θ ↔ e.Identifies θ := by
  cases e with
  | types a b => simp [assign, Identifies, replace_single_replace h]
  | rows r s => exact Iff.rfl

theorem closedRows_assign {v : Nat} {t : Ty} (ht : t.closedRows = true) {e : Equation}
    (he : e.closedRows) : (e.assign v t).closedRows := by
  have hsingle : ∀ w, (single v t w).closedRows = true := by
    intro w
    by_cases h : w = v
    · simp [single, h, ht]
    · simp [single, h, Ty.closedRows]
  cases e with
  | types a b =>
    exact ⟨Ty.closedRows_replace _ hsingle a he.1, Ty.closedRows_replace _ hsingle b he.2⟩
  | rows r s => exact he

end Equation

namespace Ready

theorem split {σ : Subst} {e : Equation} {parts rest : List Equation}
    (h : Ready σ (e :: rest)) (he : e.Splits parts) : Ready σ (parts ++ rest) := by
  refine ⟨h.triangular, fun v hv => h.unbound v ?_⟩
  simp only [equationVars_append, equationVars_cons, List.mem_append] at hv ⊢
  exact hv.imp_left (he.vars v)

/-- What a binding step binds is not bound yet, and mentions nothing bound. -/
theorem binds {σ : Subst} {e : Equation} {v : Nat} {t : Ty} {rest : List Equation}
    (h : Ready σ (e :: rest)) (he : e.Binds v t) : σ.get? v = none ∧ σ.Avoids t := by
  have hhead : ∀ w ∈ e.vars, σ.get? w = none := fun w hw => h.unbound w (by simp [hw])
  exact ⟨hhead v he.vars.1, fun w hw => hhead w (he.vars.2 w hw)⟩

theorem bind {σ : Subst} {e : Equation} {v : Nat} {t : Ty} {rest : List Equation}
    (h : Ready σ (e :: rest)) (he : e.Binds v t) :
    Ready (σ.insert v t) (assignAll v t rest) := by
  obtain ⟨hv, ht⟩ := h.binds he
  refine ⟨.insert h.triangular hv ht he.not_mem, fun w hw => ?_⟩
  simp only [equationVars, assignAll, List.mem_flatMap, List.mem_map] at hw
  obtain ⟨_, ⟨d, hd, rfl⟩, hw⟩ := hw
  have hne : w ≠ v ∧ σ.get? w = none := by
    rcases mem_vars_assign.mp hw with ⟨_, hw⟩ | ⟨hw, hne⟩
    · exact ⟨fun e => he.not_mem (e ▸ hw), ht w hw⟩
    · exact ⟨hne, h.unbound w (by simp [equationVars, List.mem_flatMap.mpr ⟨d, hd, hw⟩])⟩
  simp [Subst.get?_insert, hne.1, hne.2]

end Ready

namespace Unification

/-- The substitution stays triangular, also when the run ends in a fault. -/
theorem triangular {σ τ : Subst} {eqs : List Equation} {o : Option UnifyFault}
    (h : Unification σ eqs τ o) (hσ : Ready σ eqs) : τ.Triangular := by
  induction h with
  | done σ => exact hσ.triangular
  | split he _ ih => exact ih (hσ.split he)
  | bind he _ ih => exact ih (hσ.bind he)
  | fault f he => exact hσ.triangular

theorem extends_start {σ τ : Subst} {eqs : List Equation} {o : Option UnifyFault}
    (h : Unification σ eqs τ o) (hσ : Ready σ eqs) : τ.Extends σ := by
  induction h with
  | done σ => exact hσ.triangular.extends_refl
  | split he _ ih => exact ih (hσ.split he)
  | bind he _ ih =>
    obtain ⟨hv, ht⟩ := hσ.binds he
    exact (ih (hσ.bind he)).trans (hσ.triangular.extends_insert hv ht he.not_mem)
  | fault f he => exact hσ.triangular.extends_refl

/-- A run without a fault makes every equation hold. -/
theorem holds {σ τ : Subst} {eqs : List Equation} {o : Option UnifyFault}
    (h : Unification σ eqs τ o) (hσ : Ready σ eqs) (ho : o = none) :
    ∀ e ∈ eqs, e.Holds τ.assignment := by
  induction h with
  | done σ => simp
  | split he _ ih =>
    have hall := ih (hσ.split he) ho
    intro d hd
    rcases List.mem_cons.mp hd with rfl | hd
    · exact he.holds fun part hpart => hall part (by simp [hpart])
    · exact hall d (by simp [hd])
  | @bind σ τ e v t rest o he hrun ih =>
    obtain ⟨hv, ht⟩ := hσ.binds he
    -- The variable has the value of its type at the end, since the end extends this binding.
    have hnew : (σ.insert v t).apply (.var v) = t := by
      rw [hσ.triangular.apply_insert hv ht he.not_mem,
        Subst.apply_of_avoids (Subst.avoids_var.mpr hv)]
      simp [Ty.replace, single]
    have hval : τ.assignment v = t.replace τ.assignment := by
      have hext := hrun.extends_start (hσ.bind he) (.var v)
      rw [hnew] at hext
      exact hext.symm
    intro d hd
    rcases List.mem_cons.mp hd with rfl | hd
    · exact (he.identifies_iff.mpr hval).holds
    · have hassigned : (d.assign v t).Holds τ.assignment :=
        ih (hσ.bind he) ho _ (List.mem_map_of_mem hd)
      exact (Equation.holds_assign hval d).mp hassigned
  | fault f he => simp at ho

/-- Equations without open rows bring no open row into the substitution. -/
theorem closedRows {σ τ : Subst} {eqs : List Equation} {o : Option UnifyFault}
    (h : Unification σ eqs τ o) (hσ : Ready σ eqs) (heqs : ∀ e ∈ eqs, e.closedRows)
    (hstart : ∀ v, (σ.assignment v).closedRows = true) :
    ∀ v, (τ.assignment v).closedRows = true := by
  induction h with
  | done σ => exact hstart
  | split he _ ih =>
    refine ih (hσ.split he) (fun d hd => ?_) hstart
    rcases List.mem_append.mp hd with hd | hd
    · exact he.closedRows (heqs _ (by simp)) d hd
    · exact heqs d (by simp [hd])
  | @bind σ τ e v t rest o he hrun ih =>
    obtain ⟨hv, ht⟩ := hσ.binds he
    have hclosed : t.closedRows = true := he.closedRows (heqs _ (by simp))
    refine ih (hσ.bind he) (fun d hd => ?_) (fun w => ?_)
    · obtain ⟨d', hd', rfl⟩ := List.mem_map.mp hd
      exact Equation.closedRows_assign hclosed (heqs d' (by simp [hd']))
    · have happly := hσ.triangular.apply_insert hv ht he.not_mem (.var w)
      have hw : (σ.insert v t).assignment w = (σ.assignment w).replace (single v t) := happly
      rw [hw]
      refine Ty.closedRows_replace _ (fun u => ?_) _ (hstart w)
      by_cases hu : u = v
      · simp [single, hu, hclosed]
      · simp [single, hu, Ty.closedRows]
  | fault f he => exact hstart

end Unification

/-- The two sides of the constraint, as the solver compares them. -/
def Constraint.equation (c : Constraint) : Equation := .types c.expected c.actual

theorem Equation.holds_assignment {σ : Subst} (c : Constraint) :
    c.equation.Holds σ.assignment ↔ (σ.apply c.expected).compatible (σ.apply c.actual) = true :=
  Iff.rfl

namespace Solver

/-- One constraint is one run on its applied sides. -/
theorem step_run (s : Solver) (c : Constraint) :
    ∃ o, Unification s.subst [.types (s.apply c.expected) (s.apply c.actual)] (s.step c).subst o ∧
      (s.step c).failure = o.map fun fault => ⟨fault, c.span, c.origin⟩ :=
  ⟨_, unify_run s.subst _, rfl⟩

theorem ready_step {s : Solver} (hs : s.subst.Triangular) (c : Constraint) :
    Ready s.subst [.types (s.apply c.expected) (s.apply c.actual)] := by
  refine ⟨hs, fun v hv => ?_⟩
  simp only [equationVars, List.flatMap_cons, List.flatMap_nil, Equation.vars, List.append_nil,
    List.mem_append] at hv
  rcases hv with hv | hv
  · exact hs.avoids_apply c.expected v hv
  · exact hs.avoids_apply c.actual v hv

theorem step_triangular {s : Solver} (hs : s.subst.Triangular) (c : Constraint) :
    (s.step c).subst.Triangular := by
  obtain ⟨o, hrun, _⟩ := s.step_run c
  exact hrun.triangular (ready_step hs c)

theorem step_extends {s : Solver} (hs : s.subst.Triangular) (c : Constraint) :
    (s.step c).subst.Extends s.subst := by
  obtain ⟨o, hrun, _⟩ := s.step_run c
  exact hrun.extends_start (ready_step hs c)

/-- A constraint that is solved holds under the new substitution. -/
theorem step_holds {s : Solver} (hs : s.subst.Triangular) (c : Constraint)
    (hok : (s.step c).failure = none) : c.equation.Holds (s.step c).subst.assignment := by
  obtain ⟨o, hrun, hfail⟩ := s.step_run c
  have ho : o = none := by simpa [hfail] using hok
  have happlied := hrun.holds (ready_step hs c) ho _ List.mem_cons_self
  have hext := step_extends hs c
  have hexpected := hext c.expected
  have hactual := hext c.actual
  simp only [Equation.Holds] at happlied
  rw [Equation.holds_assignment, ← hexpected, ← hactual]
  exact happlied

end Solver

/-- Under an extension every equation that held still holds. -/
theorem Equation.Holds.of_extends {σ τ : Subst} (h : τ.Extends σ) {e : Equation}
    (he : e.Holds σ.assignment) : e.Holds τ.assignment := by
  cases e with
  | types a b =>
    have hcomp := Ty.compatible_replace τ.assignment _ _ he
    have ha := h a
    have hb := h b
    simp only [Subst.apply_eq_replace] at ha hb
    rw [ha, hb] at hcomp
    exact hcomp
  | rows r s => exact he

namespace Solver

theorem run_cons {s : Solver} (h : s.failure = none) (c : Constraint) (l : List Constraint) :
    s.run (c :: l) = (s.step c).run l := by
  simp [run, h]

theorem failure_of_run {s : Solver} {l : List Constraint} (h : (s.run l).failure = none) :
    s.failure = none := by
  by_cases hs : s.failure.isSome = true
  · rw [run_of_failure hs] at h
    exact h
  · simpa using hs

theorem run_triangular {s : Solver} (hs : s.subst.Triangular) (l : List Constraint) :
    (s.run l).subst.Triangular := by
  induction l generalizing s with
  | nil => exact hs
  | cons c l ih =>
    by_cases h : s.failure.isSome = true
    · rw [run_of_failure h]
      exact hs
    · rw [run_cons (by simpa using h)]
      exact ih (step_triangular hs c)

theorem run_extends {s : Solver} (hs : s.subst.Triangular) (l : List Constraint) :
    (s.run l).subst.Extends s.subst := by
  induction l generalizing s with
  | nil => exact hs.extends_refl
  | cons c l ih =>
    by_cases h : s.failure.isSome = true
    · rw [run_of_failure h]
      exact hs.extends_refl
    · rw [run_cons (by simpa using h)]
      exact (ih (step_triangular hs c)).trans (step_extends hs c)

/-- After a run without failure every constraint of the list holds. -/
theorem run_holds {s : Solver} (hs : s.subst.Triangular) (l : List Constraint)
    (hok : (s.run l).failure = none) :
    ∀ c ∈ l, c.equation.Holds (s.run l).subst.assignment := by
  induction l generalizing s with
  | nil => simp
  | cons c l ih =>
    have hnext := run_cons (failure_of_run hok) c l
    rw [hnext] at hok ⊢
    have hstep := step_triangular hs c
    intro d hd
    rcases List.mem_cons.mp hd with rfl | hd
    · exact (step_holds hs d (failure_of_run hok)).of_extends (run_extends hstep l)
    · exact ih hstep hok d hd

end Solver

/-- No row of the constraint is open. -/
def Constraint.closedRows (c : Constraint) : Prop := c.equation.closedRows

namespace Solver

theorem step_closedRows {s : Solver} (hs : s.subst.Triangular) {c : Constraint}
    (hc : c.closedRows) (hstart : ∀ v, (s.subst.assignment v).closedRows = true) :
    ∀ v, ((s.step c).subst.assignment v).closedRows = true := by
  obtain ⟨o, hrun, _⟩ := s.step_run c
  refine hrun.closedRows (ready_step hs c) (fun e he => ?_) hstart
  rw [List.mem_singleton.mp he]
  exact ⟨Ty.closedRows_replace _ hstart _ hc.1, Ty.closedRows_replace _ hstart _ hc.2⟩

theorem run_closedRows {s : Solver} (hs : s.subst.Triangular) {l : List Constraint}
    (hl : ∀ c ∈ l, c.closedRows) (hstart : ∀ v, (s.subst.assignment v).closedRows = true) :
    ∀ v, ((s.run l).subst.assignment v).closedRows = true := by
  induction l generalizing s with
  | nil => exact hstart
  | cons c l ih =>
    by_cases h : s.failure.isSome = true
    · rw [run_of_failure h]
      exact hstart
    · rw [run_cons (by simpa using h)]
      exact ih (step_triangular hs c) (fun d hd => hl d (by simp [hd]))
        (step_closedRows hs (hl c (by simp)) hstart)

/-- Without open rows a run makes the two sides of every constraint identical. -/
theorem run_identifies {l : List Constraint} (hl : ∀ c ∈ l, c.closedRows)
    (hok : (run {} l).failure = none) :
    ∀ c ∈ l, c.equation.Identifies (run {} l).subst.assignment := by
  intro c hc
  have hclosed := run_closedRows (s := {}) .empty hl fun v => rfl
  have hholds := run_holds .empty l hok c hc
  exact Ty.eq_of_compatible _ _ (Ty.closedRows_replace _ hclosed _ (hl c hc).1)
    (Ty.closedRows_replace _ hclosed _ (hl c hc).2) hholds

end Solver

theorem solve_eq_ok_iff {l : List Constraint} {σ : Subst} :
    solve l = .ok σ ↔ (Solver.run {} l).failure = none ∧ (Solver.run {} l).subst = σ := by
  unfold solve
  cases h : (Solver.run {} l).failure <;> simp [h]

/-- The substitution of a solved list makes the two sides of each constraint compatible, and
identical if no row in the list is open. -/
theorem solve_sound (l : List Constraint) (σ : Subst) (h : solve l = .ok σ) :
    (∀ c ∈ l, (σ.apply c.expected).compatible (σ.apply c.actual) = true) ∧
      ((∀ c ∈ l, c.closedRows) → ∀ c ∈ l, σ.apply c.expected = σ.apply c.actual) := by
  obtain ⟨hok, rfl⟩ := solve_eq_ok_iff.mp h
  exact ⟨Solver.run_holds .empty l hok, fun hl => Solver.run_identifies hl hok⟩

/-- A variable bound to a function with an open row may meet a closed row later; and a chain
of variables without open rows ends in one type. -/
theorem solve_sound_rows_and_chain :
    let rows : List Constraint :=
      [{ expected := .var 0, actual := .fn [.var 1] .unit .openRow, span := {},
          origin := .argument },
        { kind := .subtype, expected := .fn [.bool] .unit .pure, actual := .var 0, span := {},
          origin := .member }]
    let chain : List Constraint :=
      [{ expected := .var 0, actual := .array (.var 1), span := {}, origin := .element },
        { expected := .var 0, actual := .var 2, span := {}, origin := .assignment },
        { expected := .array .bool, actual := .var 2, span := {}, origin := .operand }]
    (∃ σ, solve rows = .ok σ ∧
      ∀ c ∈ rows, (σ.apply c.expected).compatible (σ.apply c.actual) = true) ∧
    ∃ σ, solve chain = .ok σ ∧ (∀ c ∈ chain, c.closedRows) ∧
      ∀ c ∈ chain, σ.apply c.expected = σ.apply c.actual := by
  intro rows chain
  have hrows : solve rows =
      .ok ⟨[(1, .bool), (0, .fn [.var 1] .unit .openRow)]⟩ := by cbv
  have hchain : solve chain =
      .ok ⟨[(1, .bool), (2, .array (.var 1)), (0, .array (.var 1))]⟩ := by cbv
  have hclosed : ∀ c ∈ chain, c.closedRows := by
    intro c hc
    simp only [chain, List.mem_cons, List.not_mem_nil, or_false] at hc
    rcases hc with rfl | rfl | rfl <;> exact ⟨rfl, rfl⟩
  exact ⟨⟨_, hrows, (solve_sound rows _ hrows).1⟩,
    ⟨_, hchain, hclosed, (solve_sound chain _ hchain).2 hclosed⟩⟩

end Sema
