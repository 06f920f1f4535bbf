import Mathlib.Logic.Relation
import Sema.Proofs.Solver.Soundness

/-!
# Bindings are never changed and never run in a circle

Whatever lists a solver is given, call after call, also after a call that fails half way: a
variable is bound once, and the graph that leads from a bound variable to the variables of its
type has no cycle. Following bindings therefore comes to an end without counting steps, and
`apply`, which counts them, gives the type at that end.
-/

namespace Sema

namespace Subst

/-- The variable `v` is bound to a type that mentions `w`. -/
def Edge (σ : Subst) (v w : Nat) : Prop := ∃ t, σ.get? v = some t ∧ w ∈ t.vars

/-- No chain of bindings comes back to the variable it started from. -/
def Acyclic (σ : Subst) : Prop := ∀ v, ¬Relation.TransGen σ.Edge v v

/-- The bindings of `τ` are those of `σ` and further ones, each made for a variable that was
not bound at that time. -/
inductive Adds (σ : Subst) : Subst → Prop where
  | refl : Adds σ σ
  | bind {τ : Subst} {v : Nat} {t : Ty} (h : Adds σ τ) (hv : τ.get? v = none) :
      Adds σ (τ.insert v t)

mutual

/-- Bindings are followed from every variable of a type until none is left to follow. There is
no limit on the steps: a type without a result is one where following does not end. -/
inductive Follows (σ : Subst) : Ty → Ty → Prop where
  | bound {v : Nat} {t u : Ty} (hv : σ.get? v = some t) (ht : Follows σ t u) :
      Follows σ (.var v) u
  | unbound {v : Nat} (hv : σ.get? v = none) : Follows σ (.var v) (.var v)
  | atom (a : Atom) : Follows σ (.atom a) (.atom a)
  | fn {ps qs : List Ty} {r s : Ty} (hps : FollowsAll σ ps qs) (hr : Follows σ r s)
      (e : EffectRow) : Follows σ (.fn ps r e) (.fn qs s e)
  | app {as bs : List Ty} (has : FollowsAll σ as bs) (n : String) :
      Follows σ (.app n as) (.app n bs)
  | branded {s t : Ty} (hs : Follows σ s t) (b : String) :
      Follows σ (.branded b s) (.branded b t)

inductive FollowsAll (σ : Subst) : List Ty → List Ty → Prop where
  | nil : FollowsAll σ [] []
  | cons {s t : Ty} {r q : List Ty} (hs : Follows σ s t) (hr : FollowsAll σ r q) :
      FollowsAll σ (s :: r) (t :: q)

end

namespace Adds

theorem trans {σ τ ρ : Subst} (h : Adds σ τ) (k : Adds τ ρ) : Adds σ ρ := by
  induction k with
  | refl => exact h
  | bind _ hv ih => exact .bind ih hv

/-- What is bound stays bound to the same type. -/
theorem get?_eq {σ τ : Subst} (h : Adds σ τ) {v : Nat} {t : Ty} (hv : σ.get? v = some t) :
    τ.get? v = some t := by
  induction h with
  | refl => exact hv
  | @bind τ w u _ hw ih =>
    have hne : v ≠ w := by
      rintro rfl
      rw [hw] at ih
      cases ih
    rw [get?_insert, if_neg hne]
    exact ih

end Adds

section Acyclic

variable {σ : Subst} {v : Nat} {t : Ty}

/-- The edges after a binding: the old ones, and those that leave the new variable. -/
theorem edge_insert {a b : Nat} (h : (σ.insert v t).Edge a b) :
    a = v ∧ b ∈ t.vars ∨ a ≠ v ∧ σ.Edge a b := by
  obtain ⟨u, hu, hb⟩ := h
  rw [get?_insert] at hu
  by_cases ha : a = v
  · rw [if_pos ha] at hu
    cases hu
    exact .inl ⟨ha, hb⟩
  · rw [if_neg ha] at hu
    exact .inr ⟨ha, u, hu, hb⟩

/-- A path that ends at a bound variable does not pass through the new binding, since all
variables of its type are unbound. -/
theorem transGen_insert (ht : (σ.insert v t).Avoids t) {a b : Nat}
    (h : Relation.TransGen (σ.insert v t).Edge a b) (hb : (σ.insert v t).get? b ≠ none) :
    Relation.TransGen σ.Edge a b := by
  induction h with
  | single hab =>
    rcases edge_insert hab with ⟨_, hmem⟩ | ⟨_, hold⟩
    · exact absurd (ht _ hmem) hb
    · exact .single hold
  | @tail b c _ hbc ih =>
    rcases edge_insert hbc with ⟨_, hmem⟩ | ⟨_, hold⟩
    · exact absurd (ht _ hmem) hb
    · obtain ⟨u, hu, _⟩ := hbc
      exact .tail (ih (by simp [hu])) hold

theorem Triangular.acyclic (h : σ.Triangular) : σ.Acyclic := by
  induction h with
  | empty =>
    intro v hcycle
    obtain ⟨w, ⟨u, hu, _⟩, _⟩ := Relation.TransGen.head'_iff.mp hcycle
    simp [get?, Table.find] at hu
  | @insert σ v t hσ hv ht hvt ih =>
    intro a hcycle
    have hself : (σ.insert v t).Avoids t := avoids_insert.mpr ⟨ht, hvt⟩
    obtain ⟨w, ⟨u, hu, _⟩, _⟩ := Relation.TransGen.head'_iff.mp hcycle
    exact ih a (transGen_insert hself hcycle (by simp [hu]))

end Acyclic

mutual

/-- Following bindings in a type is following them from each of its variables. -/
theorem follows_replace {σ : Subst} {f : Nat → Ty} : (t : Ty) →
    (∀ v ∈ t.vars, σ.Follows (.var v) (f v)) → σ.Follows t (t.replace f)
  | .var v, h => h v (by simp [Ty.vars])
  | .atom a, _ => .atom a
  | .fn ps r e, h =>
    .fn (followsAll_replaceAll ps fun v hv => h v (by simp [Ty.vars, hv]))
      (follows_replace r fun v hv => h v (by simp [Ty.vars, hv])) e
  | .app n args, h => .app (followsAll_replaceAll args h) n
  | .branded b base, h => .branded (follows_replace base h) b

theorem followsAll_replaceAll {σ : Subst} {f : Nat → Ty} : (l : List Ty) →
    (∀ v ∈ Ty.varsAll l, σ.Follows (.var v) (f v)) → σ.FollowsAll l (Ty.replaceAll f l)
  | [], _ => .nil
  | t :: r, h =>
    .cons (follows_replace t fun v hv => h v (by simp [Ty.varsAll, hv]))
      (followsAll_replaceAll r fun v hv => h v (by simp [Ty.varsAll, hv]))

end

/-- Where a limited number of steps reaches the end, following reaches the same end. -/
theorem follows_chase {σ : Subst} (n v : Nat) (h : σ.Avoids (σ.chase n v)) :
    σ.Follows (.var v) (σ.chase n v) := by
  induction n generalizing v with
  | zero => exact .unbound (avoids_var.mp h)
  | succ n ih =>
    cases hv : σ.get? v with
    | none =>
      rw [chase_of_unbound hv]
      exact .unbound hv
    | some t =>
      rw [chase_of_bound hv] at h ⊢
      exact .bound hv (follows_replace t fun w hw => ih w (avoids_replace.mp h w hw))

theorem Triangular.follows_apply {σ : Subst} (h : σ.Triangular) (t : Ty) :
    σ.Follows t (σ.apply t) :=
  follows_replace t fun v _ => follows_chase σ.size v (h.avoids_assignment v)

mutual

/-- Following has one result at most. -/
theorem Follows.unique {σ : Subst} {t u w : Ty} : σ.Follows t u → σ.Follows t w → u = w
  | .bound hv ht, .bound hw kt => by
    rw [hv] at hw
    cases hw
    exact ht.unique kt
  | .bound hv _, .unbound hw => by
    rw [hv] at hw
    cases hw
  | .unbound hv, .bound hw _ => by
    rw [hv] at hw
    cases hw
  | .unbound _, .unbound _ => rfl
  | .atom _, .atom _ => rfl
  | .fn hps hr _, .fn kps kr _ => by rw [hps.unique kps, hr.unique kr]
  | .app has _, .app kas _ => by rw [has.unique kas]
  | .branded hs _, .branded ks _ => by rw [hs.unique ks]

theorem FollowsAll.unique {σ : Subst} {l m k : List Ty} :
    σ.FollowsAll l m → σ.FollowsAll l k → m = k
  | .nil, .nil => rfl
  | .cons hs hr, .cons ks kr => by rw [hs.unique ks, hr.unique kr]

end

theorem Triangular.follows_iff {σ : Subst} (h : σ.Triangular) (t u : Ty) :
    σ.Follows t u ↔ u = σ.apply t := by
  constructor
  · intro hu
    exact hu.unique (h.follows_apply t)
  · rintro rfl
    exact h.follows_apply t

end Subst

/-- A run binds unbound variables only, also when it ends in a fault. -/
theorem Unification.adds {σ τ : Subst} {eqs : List Equation} {o : Option UnifyFault}
    (h : Unification σ eqs τ o) (hσ : Ready σ eqs) : σ.Adds τ := by
  induction h with
  | done σ => exact .refl
  | split he _ ih => exact ih (hσ.split he)
  | bind he _ ih =>
    have hnew := (hσ.binds he).1
    exact (Subst.Adds.bind .refl hnew).trans (ih (hσ.bind he))
  | fault f he => exact .refl

namespace Solver

theorem step_adds {s : Solver} (hs : s.subst.Triangular) (c : Constraint) :
    s.subst.Adds (s.step c).subst := by
  obtain ⟨o, hrun, _⟩ := s.step_run c
  exact hrun.adds (ready_step hs c)

theorem run_adds {s : Solver} (hs : s.subst.Triangular) (l : List Constraint) :
    s.subst.Adds (s.run l).subst := by
  induction l generalizing s with
  | nil => exact .refl
  | cons c l ih =>
    by_cases h : s.failure.isSome = true
    · rw [run_of_failure h]
      exact .refl
    · rw [run_cons (by simpa using h)]
      exact (step_adds hs c).trans (ih (step_triangular hs c))

/-- The solver after it has been given each of the lists in turn. -/
def calls (s : Solver) (lists : List (Array Constraint)) : Solver := lists.foldl solve s

theorem calls_append (s : Solver) (l m : List (Array Constraint)) :
    s.calls (l ++ m) = (s.calls l).calls m := List.foldl_append

theorem calls_triangular {s : Solver} (hs : s.subst.Triangular)
    (lists : List (Array Constraint)) : (s.calls lists).subst.Triangular := by
  induction lists generalizing s with
  | nil => exact hs
  | cons cs lists ih => exact ih (run_triangular hs _)

theorem calls_adds {s : Solver} (hs : s.subst.Triangular) (lists : List (Array Constraint)) :
    s.subst.Adds (s.calls lists).subst := by
  induction lists generalizing s with
  | nil => exact .refl
  | cons cs lists ih => exact (run_adds hs _).trans (ih (run_triangular hs _))

end Solver

/-- The substitution of a solver that starts empty and is called on any lists, some of which
may fail half way. Later calls only add bindings of unbound variables, so none is overwritten;
no chain of bindings is a cycle; following bindings ends for every type, with the result of
`apply`; and that result mentions no bound variable, so applying again changes nothing. -/
theorem solver_bindings_acyclic (lists : List (Array Constraint)) :
    let σ := (Solver.calls {} lists).subst
    (∀ more, σ.Adds (Solver.calls {} (lists ++ more)).subst ∧
      ∀ v t, σ.get? v = some t → (Solver.calls {} (lists ++ more)).subst.get? v = some t) ∧
    σ.Acyclic ∧ (∀ t u, σ.Follows t u ↔ u = σ.apply t) ∧ (∀ t, σ.Avoids (σ.apply t)) ∧
      ∀ t, σ.apply (σ.apply t) = σ.apply t := by
  intro σ
  have htri : σ.Triangular := Solver.calls_triangular .empty lists
  have hadds : ∀ more, σ.Adds (Solver.calls {} (lists ++ more)).subst := by
    intro more
    rw [Solver.calls_append]
    exact Solver.calls_adds htri more
  exact ⟨fun more => ⟨hadds more, fun v t => (hadds more).get?_eq⟩, htri.acyclic,
    htri.follows_iff, htri.avoids_apply, htri.apply_apply⟩

end Sema
