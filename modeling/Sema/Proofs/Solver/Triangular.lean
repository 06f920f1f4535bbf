import Sema.Solver.Unify

/-!
# Triangular substitutions

A substitution that is built from the empty one by binding, each time, a variable that is not
bound yet to a type without it and without any bound variable. Later bindings may bind the
variables of earlier ones, so chains go from older bindings to newer ones and never return.
On such a substitution `apply` leaves no bound variable behind, applying twice is applying
once, and one more binding is one more replacement after the others.
-/

namespace Sema

/-- An assignment that agrees on `v` and `t` does not see whether `t` stands for `v`. -/
theorem replace_single_replace {θ : Nat → Ty} {v : Nat} {t : Ty} (h : θ v = t.replace θ)
    (s : Ty) : (s.replace (single v t)).replace θ = s.replace θ := by
  rw [Ty.replace_replace]
  apply Ty.replace_congr
  intro w _
  by_cases hw : w = v
  · subst w
    simp [single, h]
  · simp [single, hw, Ty.replace]

namespace Subst

/-- No variable of the type is bound. -/
def Avoids (σ : Subst) (t : Ty) : Prop := ∀ v ∈ t.vars, σ.get? v = none

/-- What every variable stands for in the end. -/
def assignment (σ : Subst) : Nat → Ty := σ.chase σ.size

inductive Triangular : Subst → Prop where
  | empty : Triangular {}
  | insert {σ : Subst} {v : Nat} {t : Ty} (hσ : Triangular σ) (hv : σ.get? v = none)
      (ht : σ.Avoids t) (hvt : v ∉ t.vars) : Triangular (σ.insert v t)

theorem apply_eq_replace (σ : Subst) (t : Ty) : σ.apply t = t.replace σ.assignment := rfl

theorem find_eq_none_iff {v : Nat} {l : List (Nat × Ty)} :
    Table.find v l = none ↔ ∀ b ∈ l, b.1 ≠ v := by
  induction l with
  | nil => simp [Table.find]
  | cons b r ih =>
    obtain ⟨w, t⟩ := b
    by_cases h : v = w
    · simp [Table.find, h]
    · simp [Table.find, h, ih, Ne.symm h]

theorem size_insert {σ : Subst} {v : Nat} (t : Ty) (hv : σ.get? v = none) :
    (σ.insert v t).size = σ.size + 1 := by
  have hne := find_eq_none_iff.mp hv
  have hfilter : (σ.bindings.filter fun b => b.1 != v) = σ.bindings := by
    rw [List.filter_eq_self]
    intro b hb
    simpa using hne b hb
  simp [size, insert, hfilter]

theorem chase_of_unbound {σ : Subst} {v : Nat} (h : σ.get? v = none) (n : Nat) :
    σ.chase n v = .var v := by
  cases n with
  | zero => rfl
  | succ n => simp [chase, h]

theorem chase_of_bound {σ : Subst} {v : Nat} {t : Ty} (h : σ.get? v = some t) (n : Nat) :
    σ.chase (n + 1) v = t.replace (σ.chase n) := by
  simp [chase, h]

theorem replace_chase_of_avoids {σ : Subst} {t : Ty} (h : σ.Avoids t) (n : Nat) :
    t.replace (σ.chase n) = t := by
  have hvar : t.replace (σ.chase n) = t.replace .var :=
    Ty.replace_congr _ _ t fun v hv => chase_of_unbound (h v hv) n
  rw [hvar, Ty.replace_var]

theorem apply_of_avoids {σ : Subst} {t : Ty} (h : σ.Avoids t) : σ.apply t = t :=
  replace_chase_of_avoids h σ.size

theorem avoids_replace {σ : Subst} {f : Nat → Ty} {t : Ty} :
    σ.Avoids (t.replace f) ↔ ∀ v ∈ t.vars, σ.Avoids (f v) := by
  simp only [Avoids, Ty.vars_replace, List.mem_flatMap]
  constructor
  · intro h v hv w hw
    exact h w ⟨v, hv, hw⟩
  · rintro h w ⟨v, hv, hw⟩
    exact h v hv w hw

theorem avoids_var {σ : Subst} {v : Nat} : σ.Avoids (.var v) ↔ σ.get? v = none := by
  simp [Avoids, Ty.vars]

theorem avoids_insert {σ : Subst} {v : Nat} {s t : Ty} :
    (σ.insert v t).Avoids s ↔ σ.Avoids s ∧ v ∉ s.vars := by
  simp only [Avoids, get?_insert]
  constructor
  · intro h
    refine ⟨fun w hw => ?_, fun hv => by simpa using h v hv⟩
    have hw' := h w hw
    by_cases he : w = v
    · simp [he] at hw'
    · simpa [he] using hw'
  · rintro ⟨h, hv⟩ w hw
    have hne : w ≠ v := fun e => hv (e ▸ hw)
    simp [hne, h w hw]

/-- Replacing a variable by a type without bound variables binds nothing new. -/
theorem Avoids.replace_single {σ : Subst} {v : Nat} {s t : Ty} (hs : σ.Avoids s)
    (ht : σ.Avoids t) : σ.Avoids (s.replace (single v t)) := by
  rw [avoids_replace]
  intro w hw
  by_cases h : w = v
  · simpa [single, h] using ht
  · simpa [single, h] using avoids_var.mpr (hs w hw)

/-- Once the chains from `w` are followed to their ends, one more binding costs one more step
and is one more replacement. -/
theorem chase_insert {σ : Subst} {v : Nat} {t : Ty} (hv : σ.get? v = none) (ht : σ.Avoids t)
    (hvt : v ∉ t.vars) (n w : Nat) (hw : σ.Avoids (σ.chase n w)) :
    (σ.insert v t).chase (n + 1) w = (σ.chase n w).replace (single v t) := by
  have hunbound : ∀ m u, σ.get? u = none →
      (σ.insert v t).chase (m + 1) u = (Ty.var u).replace (single v t) := by
    intro m u hu
    by_cases h : u = v
    · subst u
      have hnew : (σ.insert v t).get? v = some t := by simp [get?_insert]
      have hself : (σ.insert v t).Avoids t := avoids_insert.mpr ⟨ht, hvt⟩
      rw [chase_of_bound hnew, replace_chase_of_avoids hself]
      simp [Ty.replace, single]
    · have hstill : (σ.insert v t).get? u = none := by simp [get?_insert, h, hu]
      rw [chase_of_unbound hstill]
      simp [Ty.replace, single, h]
  induction n generalizing w with
  | zero => exact hunbound 0 w (avoids_var.mp hw)
  | succ n ih =>
    cases hs : σ.get? w with
    | none => rw [hunbound (n + 1) w hs, chase_of_unbound hs]
    | some s =>
      have hne : w ≠ v := by
        intro e
        subst w
        simp [hv] at hs
      have hold : (σ.insert v t).get? w = some s := by simp [get?_insert, hne, hs]
      rw [chase_of_bound hs] at hw ⊢
      rw [chase_of_bound hold, Ty.replace_replace]
      apply Ty.replace_congr
      intro u hu
      exact ih u (avoids_replace.mp hw u hu)

/-- Following as many bindings as there are leaves none to follow. -/
theorem Triangular.avoids_assignment {σ : Subst} (h : σ.Triangular) (v : Nat) :
    σ.Avoids (σ.assignment v) := by
  induction h generalizing v with
  | empty => simp [Avoids, get?, Table.find]
  | @insert σ w t hσ hw ht hwt ih =>
    have hchase := chase_insert hw ht hwt σ.size v (ih v)
    rw [assignment, size_insert t hw, hchase, avoids_insert]
    refine ⟨(ih v).replace_single ht, ?_⟩
    rw [mem_vars_single]
    rintro (⟨_, hmem⟩ | ⟨_, hne⟩)
    · exact hwt hmem
    · exact hne rfl

/-- The result of `apply` contains no bound variable. -/
theorem Triangular.avoids_apply {σ : Subst} (h : σ.Triangular) (t : Ty) :
    σ.Avoids (σ.apply t) := by
  rw [apply_eq_replace, avoids_replace]
  intro v _
  exact h.avoids_assignment v

theorem Triangular.apply_apply {σ : Subst} (h : σ.Triangular) (t : Ty) :
    σ.apply (σ.apply t) = σ.apply t :=
  apply_of_avoids (h.avoids_apply t)

/-- A new binding is a replacement after all older ones. -/
theorem Triangular.apply_insert {σ : Subst} (h : σ.Triangular) {v : Nat} {t : Ty}
    (hv : σ.get? v = none) (ht : σ.Avoids t) (hvt : v ∉ t.vars) (s : Ty) :
    (σ.insert v t).apply s = (σ.apply s).replace (single v t) := by
  rw [apply_eq_replace, apply_eq_replace, Ty.replace_replace]
  apply Ty.replace_congr
  intro w _
  rw [assignment, size_insert t hv]
  exact chase_insert hv ht hvt σ.size w (h.avoids_assignment w)

/-- Whatever `σ` identifies stays identified: applying `σ` first changes nothing. -/
def Extends (τ σ : Subst) : Prop := ∀ t, τ.apply (σ.apply t) = τ.apply t

theorem Triangular.extends_refl {σ : Subst} (h : σ.Triangular) : σ.Extends σ := h.apply_apply

theorem Extends.trans {ρ τ σ : Subst} (h : ρ.Extends τ) (k : τ.Extends σ) : ρ.Extends σ := by
  intro t
  rw [← h (σ.apply t), k t, h t]

theorem Triangular.extends_insert {σ : Subst} (h : σ.Triangular) {v : Nat} {t : Ty}
    (hv : σ.get? v = none) (ht : σ.Avoids t) (hvt : v ∉ t.vars) :
    (σ.insert v t).Extends σ := by
  intro s
  rw [h.apply_insert hv ht hvt, h.apply_insert hv ht hvt, h.apply_apply]

end Subst

end Sema
