import Sema.Proofs.Solver.Soundness

/-!
# The solver finds the most general solution

An assignment that identifies the two sides of every constraint sees no difference between a
type and what the solver makes of it. No step of a run loses such an assignment, and an
equation at which the run stops has none; so a list with a solution is solved, every solution
factors through the substitution found, and a failure names the first constraint at which the
list has no solution any more.
-/

namespace Sema

/-- The assignment identifies the two sides of every constraint. -/
def Unifies (θ : Nat → Ty) (l : List Constraint) : Prop :=
  ∀ c ∈ l, c.expected.replace θ = c.actual.replace θ

/-- The assignment factors through the substitution: applying it first changes nothing. -/
def Factors (θ : Nat → Ty) (σ : Subst) : Prop := ∀ t, (σ.apply t).replace θ = t.replace θ

theorem Factors.insert {θ : Nat → Ty} {σ : Subst} (h : Factors θ σ) (hσ : σ.Triangular)
    {v : Nat} {t : Ty} (hv : σ.get? v = none) (ht : σ.Avoids t) (hvt : v ∉ t.vars)
    (hval : θ v = t.replace θ) : Factors θ (σ.insert v t) := by
  intro s
  rw [hσ.apply_insert hv ht hvt, replace_single_replace hval]
  exact h s

/-- A solution of the equations survives every step of the run, which therefore meets no
unsolvable equation. -/
theorem Unification.factors {σ τ : Subst} {eqs : List Equation} {o : Option UnifyFault}
    (h : Unification σ eqs τ o) (hσ : Ready σ eqs) {θ : Nat → Ty} (hθ : Factors θ σ)
    (heqs : ∀ e ∈ eqs, e.Identifies θ) : o = none ∧ Factors θ τ := by
  induction h with
  | done σ => exact ⟨rfl, hθ⟩
  | split he _ ih =>
    refine ih (hσ.split he) hθ fun d hd => ?_
    rcases List.mem_append.mp hd with hd | hd
    · exact he.identifies (heqs _ (by simp)) d hd
    · exact heqs d (by simp [hd])
  | @bind σ τ e v t rest o he hrun ih =>
    obtain ⟨hv, ht⟩ := hσ.binds he
    have hval : θ v = t.replace θ := he.identifies_iff.mp (heqs e (by simp))
    refine ih (hσ.bind he) (hθ.insert hσ.triangular hv ht he.not_mem hval) fun d hd => ?_
    obtain ⟨d', hd', rfl⟩ := List.mem_map.mp hd
    exact (Equation.identifies_assign hval d').mpr (heqs d' (by simp [hd']))
  | @fault σ e rest f he => exact absurd (heqs e (by simp)).holds (he.unsolvable θ)

namespace Solver

theorem step_factors {s : Solver} (hs : s.subst.Triangular) {θ : Nat → Ty}
    (hθ : Factors θ s.subst) {c : Constraint} (hc : c.expected.replace θ = c.actual.replace θ) :
    (s.step c).failure = none ∧ Factors θ (s.step c).subst := by
  obtain ⟨o, hrun, hfail⟩ := s.step_run c
  have hsides : (Equation.types (s.apply c.expected) (s.apply c.actual)).Identifies θ := by
    have hexpected := hθ c.expected
    have hactual := hθ c.actual
    simp only [Equation.Identifies, apply, hexpected, hactual, hc]
  have h := hrun.factors (ready_step hs c) hθ fun e he => by
    rw [List.mem_singleton.mp he]
    exact hsides
  exact ⟨by rw [hfail, h.1]; rfl, h.2⟩

/-- A list with a solution is solved to its end. -/
theorem run_factors {s : Solver} (hs : s.subst.Triangular) (hok : s.failure = none)
    {θ : Nat → Ty} (hθ : Factors θ s.subst) {l : List Constraint} (hl : Unifies θ l) :
    (s.run l).failure = none ∧ Factors θ (s.run l).subst := by
  induction l generalizing s with
  | nil => exact ⟨hok, hθ⟩
  | cons c l ih =>
    rw [run_cons hok]
    have hstep := step_factors hs hθ (hl c (by simp))
    exact ih (step_triangular hs c) hstep.1 hstep.2 fun d hd => hl d (by simp [hd])

/-- A failed run stopped at one constraint, after it had solved all before. -/
theorem run_failure {s : Solver} (hok : s.failure = none) {l : List Constraint} {f : SolveFault}
    (h : (s.run l).failure = some f) :
    ∃ done c rest, l = done ++ c :: rest ∧ (s.run done).failure = none ∧
      ((s.run done).step c).failure = some f := by
  induction l generalizing s with
  | nil => simp [hok] at h
  | cons c l ih =>
    rw [run_cons hok] at h
    cases hstep : (s.step c).failure with
    | some g =>
      have hstop : (s.step c).run l = s.step c := run_of_failure (by simp [hstep]) l
      rw [hstop] at h
      exact ⟨[], c, l, rfl, hok, h⟩
    | none =>
      obtain ⟨done, d, rest, hl, hdone, hd⟩ := ih hstep h
      refine ⟨c :: done, d, rest, by simp [hl], ?_, ?_⟩
      · rw [run_cons hok]
        exact hdone
      · rw [run_cons hok]
        exact hd

/-- The place and the reason of a failure are those of the constraint. -/
theorem step_failure {s : Solver} {c : Constraint} {f : SolveFault}
    (h : (s.step c).failure = some f) : f.span = c.span ∧ f.origin = c.origin := by
  obtain ⟨o, _, hfail⟩ := s.step_run c
  rw [hfail, Option.map_eq_some_iff] at h
  obtain ⟨fault, _, rfl⟩ := h
  exact ⟨rfl, rfl⟩

end Solver

theorem factors_empty (θ : Nat → Ty) : Factors θ {} := by
  intro t
  have hempty : Subst.apply {} t = t := Subst.apply_empty t
  rw [hempty]

theorem solve_eq_error_iff {l : List Constraint} {f : SolveFault} :
    solve l = .error f ↔ (Solver.run {} l).failure = some f := by
  unfold solve
  cases h : (Solver.run {} l).failure <;> simp [h]

/-- A solvable list of constraints is solved by a substitution through which every solution
factors. -/
theorem solve_of_unifies {l : List Constraint} {θ : Nat → Ty} (hθ : Unifies θ l) :
    ∃ σ, solve l = .ok σ ∧ Factors θ σ := by
  have h := Solver.run_factors (s := {}) .empty rfl (factors_empty θ) hθ
  exact ⟨_, solve_eq_ok_iff.mpr ⟨h.1, rfl⟩, h.2⟩

/-- Without open rows, what was solved before the failing constraint has a solution, and with
that constraint it has none. -/
theorem solve_failure_index {l : List Constraint} (hl : ∀ c ∈ l, c.closedRows) {f : SolveFault}
    (h : solve l = .error f) :
    ∃ k c, l[k]? = some c ∧ f.span = c.span ∧ f.origin = c.origin ∧
      (¬∃ θ, Unifies θ (l.take (k + 1))) ∧ ∀ j < k, ∃ θ, Unifies θ (l.take (j + 1)) := by
  obtain ⟨done, c, rest, rfl, hdone, hc⟩ :=
    Solver.run_failure (s := {}) rfl (solve_eq_error_iff.mp h)
  obtain ⟨hspan, horigin⟩ := Solver.step_failure hc
  refine ⟨done.length, c, by simp, hspan, horigin, ?_, ?_⟩
  · rintro ⟨θ, hθ⟩
    have htake : (done ++ c :: rest).take (done.length + 1) = done ++ [c] := by
      simp [List.take_append, List.take_of_length_le]
    rw [htake] at hθ
    have hrun := Solver.run_factors (s := {}) .empty rfl (factors_empty θ) hθ
    have hlast : Solver.run {} (done ++ [c]) = (Solver.run {} done).step c := by
      rw [Solver.run_append, Solver.run_cons hdone, Solver.run_nil]
    rw [hlast, hc] at hrun
    simp at hrun
  · intro j hj
    refine ⟨(Solver.run {} done).subst.assignment, fun d hd => ?_⟩
    have htake : (done ++ c :: rest).take (j + 1) = done.take (j + 1) := by
      rw [List.take_append_of_le_length (by omega)]
    rw [htake] at hd
    exact Solver.run_identifies (fun e he => hl e (by simp [he])) hdone d (List.mem_of_mem_take hd)

/-- Without open rows the solver decides unifiability. If some assignment identifies both
sides of every constraint, the list is solved by a most general unifier; and a failure carries
the place and reason of the first constraint at which the list stops having a unifier. -/
theorem solve_principal (l : List Constraint) (hl : ∀ c ∈ l, c.closedRows) :
    (∀ θ, Unifies θ l → ∃ σ, solve l = .ok σ ∧ Unifies σ.assignment l ∧ Factors θ σ) ∧
      ∀ f, solve l = .error f →
        ∃ k c, l[k]? = some c ∧ f.span = c.span ∧ f.origin = c.origin ∧
          (¬∃ θ, Unifies θ (l.take (k + 1))) ∧ ∀ j < k, ∃ θ, Unifies θ (l.take (j + 1)) := by
  refine ⟨fun θ hθ => ?_, fun f hf => solve_failure_index hl hf⟩
  obtain ⟨σ, hσ, hfactors⟩ := solve_of_unifies hθ
  obtain ⟨hok, rfl⟩ := solve_eq_ok_iff.mp hσ
  exact ⟨_, hσ, Solver.run_identifies hl hok, hfactors⟩

/-- A list with a unifier, and one that loses its unifiers at its second constraint, where a
variable would have to contain itself. -/
theorem solve_principal_chain_and_cycle :
    let chain : List Constraint :=
      [{ expected := .var 0, actual := .array (.var 1), span := {}, origin := .element },
        { expected := .var 0, actual := .var 2, span := {}, origin := .assignment }]
    let cycle : List Constraint :=
      [{ expected := .var 0, actual := .array (.var 1), span := {}, origin := .element },
        { expected := .var 1, actual := .var 0, span := .onLine 7 1 1, origin := .assignment },
        { expected := .unit, actual := .bool, span := {}, origin := .operand }]
    (∃ θ σ, Unifies θ chain ∧ solve chain = .ok σ ∧ Unifies σ.assignment chain ∧ Factors θ σ) ∧
      ∃ f k c, solve cycle = .error f ∧ cycle[k]? = some c ∧ f.span = c.span ∧
        f.origin = c.origin ∧ (¬∃ θ, Unifies θ (cycle.take (k + 1))) ∧
        ∀ j < k, ∃ θ, Unifies θ (cycle.take (j + 1)) := by
  intro chain cycle
  have hchain : ∀ c ∈ chain, c.closedRows := by
    intro c hc
    simp only [chain, List.mem_cons, List.not_mem_nil, or_false] at hc
    rcases hc with rfl | rfl <;> exact ⟨rfl, rfl⟩
  have hcycle : ∀ c ∈ cycle, c.closedRows := by
    intro c hc
    simp only [cycle, List.mem_cons, List.not_mem_nil, or_false] at hc
    rcases hc with rfl | rfl | rfl <;> exact ⟨rfl, rfl⟩
  have hθ : Unifies (fun v => if v = 1 then .bool else .array .bool) chain := by
    intro c hc
    simp only [chain, List.mem_cons, List.not_mem_nil, or_false] at hc
    rcases hc with rfl | rfl <;> rfl
  have herror : solve cycle =
      .error ⟨.occurs 1 (.array (.var 1)), .onLine 7 1 1, .assignment⟩ := by cbv
  obtain ⟨σ, hσ⟩ := (solve_principal chain hchain).1 _ hθ
  obtain ⟨k, c, hk⟩ := (solve_principal cycle hcycle).2 _ herror
  exact ⟨⟨_, σ, hθ, hσ⟩, _, k, c, herror, hk⟩

end Sema
