import Sema.Proofs.Solver.Soundness

/-!
# What the solver leaves alone

A set of variables is closed under a substitution if the bindings of its members stay in it.
Constraints over such a set are solved within it: the set stays closed, and the variables
outside keep the bindings they have, or stay without one.
-/

namespace Sema

namespace Ty

/-- All variables of the type are in the set. -/
def Over (t : Ty) (U : Nat → Prop) : Prop := ∀ v ∈ t.vars, U v

variable {U : Nat → Prop}

theorem Over.mono {V : Nat → Prop} {t : Ty} (h : t.Over U) (hUV : ∀ v, U v → V v) : t.Over V :=
  fun v hv => hUV v (h v hv)

theorem over_var {v : Nat} : (Ty.var v).Over U ↔ U v := by simp [Over, vars]

theorem over_atom (a : Atom) : (Ty.atom a).Over U := by simp [Over, vars]

theorem mem_varsAll {l : List Ty} {v : Nat} : v ∈ varsAll l ↔ ∃ t ∈ l, v ∈ t.vars := by
  induction l with
  | nil => simp [varsAll]
  | cons t r ih => simp [varsAll, ih]

theorem over_app {n : String} {l : List Ty} : (Ty.app n l).Over U ↔ ∀ t ∈ l, t.Over U := by
  simp only [Over, vars, mem_varsAll]
  exact ⟨fun h t ht v hv => h v ⟨t, ht, hv⟩, fun h v ⟨t, ht, hv⟩ => h t ht v hv⟩

theorem over_fn {l : List Ty} {r : Ty} {e : EffectRow} :
    (Ty.fn l r e).Over U ↔ (∀ t ∈ l, t.Over U) ∧ r.Over U := by
  simp only [Over, vars, List.mem_append, mem_varsAll]
  constructor
  · intro h
    exact ⟨fun t ht v hv => h v (.inl ⟨t, ht, hv⟩), fun v hv => h v (.inr hv)⟩
  · rintro ⟨hl, hr⟩ v (⟨t, ht, hv⟩ | hv)
    · exact hl t ht v hv
    · exact hr v hv

theorem over_branded {b : String} {t : Ty} : (Ty.branded b t).Over U ↔ t.Over U := Iff.rfl

theorem over_replace {f : Nat → Ty} {t : Ty} :
    (t.replace f).Over U ↔ ∀ v ∈ t.vars, (f v).Over U := by
  simp only [Over, vars_replace, List.mem_flatMap]
  exact ⟨fun h v hv w hw => h w ⟨v, hv, hw⟩, fun h w ⟨v, hv, hw⟩ => h v hv w hw⟩

end Ty

namespace Subst

/-- The set is closed under the bindings of its members. -/
def Closed (σ : Subst) (U : Nat → Prop) : Prop :=
  ∀ v t, U v → σ.get? v = some t → t.Over U

variable {σ : Subst} {U : Nat → Prop}

theorem Closed.chase (h : σ.Closed U) (n : Nat) {v : Nat} (hv : U v) : (σ.chase n v).Over U := by
  induction n generalizing v with
  | zero => exact Ty.over_var.mpr hv
  | succ n ih =>
    cases ht : σ.get? v with
    | none =>
      rw [chase_of_unbound ht]
      exact Ty.over_var.mpr hv
    | some t =>
      rw [chase_of_bound ht, Ty.over_replace]
      exact fun w hw => ih (h v t hv ht w hw)

theorem Closed.apply (h : σ.Closed U) {t : Ty} (ht : t.Over U) : (σ.apply t).Over U := by
  rw [apply_eq_replace, Ty.over_replace]
  exact fun v hv => h.chase _ (ht v hv)

theorem Closed.insert (h : σ.Closed U) {v : Nat} {t : Ty} (ht : t.Over U) :
    (σ.insert v t).Closed U := by
  intro w u hw hu
  rw [get?_insert] at hu
  split at hu
  · cases hu
    exact ht
  · exact h w u hw hu

end Subst

/-- All variables of the equations are in the set. -/
def EquationsOver (eqs : List Equation) (U : Nat → Prop) : Prop := ∀ v ∈ equationVars eqs, U v

/-- From `σ` to `τ` the set stays closed, and nothing outside it is bound or unbound. -/
structure Subst.Moves (U : Nat → Prop) (σ τ : Subst) : Prop where
  closed : τ.Closed U
  outside : ∀ v, ¬U v → τ.get? v = σ.get? v

theorem Subst.Moves.refl {U : Nat → Prop} {σ : Subst} (h : σ.Closed U) : Moves U σ σ :=
  ⟨h, fun _ _ => rfl⟩

theorem Subst.Moves.trans {U : Nat → Prop} {ρ σ τ : Subst} (h : Moves U ρ σ)
    (k : Moves U σ τ) : Moves U ρ τ :=
  ⟨k.closed, fun v hv => (k.outside v hv).trans (h.outside v hv)⟩

/-- A run on equations over a closed set moves only within it. -/
theorem Unification.moves {U : Nat → Prop} {σ τ : Subst} {eqs : List Equation}
    {o : Option UnifyFault} (h : Unification σ eqs τ o) (hσ : σ.Closed U)
    (heqs : EquationsOver eqs U) : σ.Moves U τ := by
  induction h with
  | done σ => exact .refl hσ
  | @split σ τ e parts rest o he _ ih =>
    refine ih hσ fun v hv => heqs v ?_
    rw [equationVars_append, List.mem_append] at hv
    rw [equationVars_cons, List.mem_append]
    exact hv.imp_left (he.vars v)
  | @bind σ τ e v t rest o he _ ih =>
    have hhead : ∀ w ∈ e.vars, U w := fun w hw => heqs w (by simp [hw])
    have ht : t.Over U := fun w hw => hhead w (he.vars.2 w hw)
    have hrest : EquationsOver (assignAll v t rest) U := by
      intro w hw
      simp only [equationVars, assignAll, List.mem_flatMap, List.mem_map] at hw
      obtain ⟨_, ⟨d, hd, rfl⟩, hw⟩ := hw
      rcases mem_vars_assign.mp hw with ⟨_, hw⟩ | ⟨hw, _⟩
      · exact ht w hw
      · exact heqs w (by simp [equationVars, List.mem_flatMap.mpr ⟨d, hd, hw⟩])
    have hbind : σ.Moves U (σ.insert v t) := by
      refine ⟨hσ.insert ht, fun w hw => ?_⟩
      have hne : w ≠ v := fun e => hw (e ▸ hhead v he.vars.1)
      simp [Subst.get?_insert, hne]
    exact hbind.trans (ih hbind.closed hrest)
  | fault f he => exact .refl hσ

/-- Both sides of the constraint are over the set. -/
def Constraint.Over (c : Constraint) (U : Nat → Prop) : Prop :=
  c.expected.Over U ∧ c.actual.Over U

namespace Solver

variable {U : Nat → Prop} {s : Solver}

theorem step_moves (hs : s.subst.Closed U) {c : Constraint} (hc : c.Over U) :
    s.subst.Moves U (s.step c).subst := by
  obtain ⟨o, hrun, _⟩ := s.step_run c
  refine hrun.moves hs fun v hv => ?_
  simp only [equationVars, List.flatMap_cons, List.flatMap_nil, Equation.vars, List.append_nil,
    List.mem_append] at hv
  rcases hv with hv | hv
  · exact hs.apply hc.1 v hv
  · exact hs.apply hc.2 v hv

theorem run_moves (hs : s.subst.Closed U) {l : List Constraint} (hl : ∀ c ∈ l, c.Over U) :
    s.subst.Moves U (s.run l).subst := by
  induction l generalizing s with
  | nil => exact .refl hs
  | cons c l ih =>
    by_cases h : s.failure.isSome = true
    · rw [run_of_failure h]
      exact .refl hs
    · rw [run_cons (by simpa using h)]
      have hstep := step_moves hs (hl c (by simp))
      exact hstep.trans (ih hstep.closed fun d hd => hl d (by simp [hd]))

end Solver

end Sema
