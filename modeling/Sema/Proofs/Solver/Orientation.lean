import Mathlib.Data.List.Forall2
import Mathlib.Logic.Equiv.Basic
import Sema.Proofs.Solver.Principal

/-!
# The sides of a constraint

Which side of a constraint is the expected one decides how a failure is worded, and between two
variables which of them is bound. The solution does not depend on it: two runs on the same
constraints with some of them turned round stay mirror images of each other, equal up to a
renaming of variables. The renaming is the identity at the start, and wherever one run binds `v`
to `w` and the other `w` to `v`, it exchanges the two.
-/

namespace Sema

namespace Ty

/-- The type with its variables renamed. -/
def rename (r : Equiv.Perm Nat) (t : Ty) : Ty := t.replace fun v => .var (r v)

variable {r : Equiv.Perm Nat}

@[simp] theorem rename_var (v : Nat) : (Ty.var v).rename r = .var (r v) := rfl

@[simp] theorem rename_atom (a : Atom) : (Ty.atom a).rename r = .atom a := rfl

@[simp] theorem rename_fn (ps : List Ty) (s : Ty) (e : EffectRow) :
    (Ty.fn ps s e).rename r = .fn (ps.map (rename r)) (s.rename r) e := by
  simp only [rename, replace, replaceAll_eq_map]
  rfl

@[simp] theorem rename_app (n : String) (args : List Ty) :
    (Ty.app n args).rename r = .app n (args.map (rename r)) := by
  simp only [rename, replace, replaceAll_eq_map]
  rfl

@[simp] theorem rename_branded (b : String) (t : Ty) :
    (Ty.branded b t).rename r = .branded b (t.rename r) := rfl

theorem rename_refl (t : Ty) : t.rename (Equiv.refl Nat) = t := replace_var t

theorem mem_vars_rename {t : Ty} {v : Nat} : r v ∈ (t.rename r).vars ↔ v ∈ t.vars := by
  simp [rename, vars_replace, vars]

theorem rename_ne_var {t : Ty} (h : ∀ w, t ≠ .var w) (w : Nat) : t.rename r ≠ .var w := by
  cases t with
  | var v => exact absurd rfl (h v)
  | _ => simp

/-- A binding seen through the renaming. -/
theorem rename_replace_single (v : Nat) (s t : Ty) :
    (s.replace (single v t)).rename r = (s.rename r).replace (single (r v) (t.rename r)) := by
  simp only [rename, replace_replace]
  refine replace_congr _ _ s fun w _ => ?_
  by_cases hw : w = v
  · simp [single, hw, replace]
  · simp [single, hw, replace]

/-- Binding the one of two variables to the other is binding the other to the one, once they are
exchanged. -/
theorem rename_replace_swap {v w : Nat} (h : v ≠ w) (s : Ty) :
    (s.replace (single v (.var w))).rename ((Equiv.swap v w).trans r) =
      (s.rename r).replace (single (r w) (.var (r v))) := by
  simp only [rename, replace_replace]
  refine replace_congr _ _ s fun x _ => ?_
  by_cases hv : x = v
  · simp [single, hv, replace, h]
  · by_cases hw : x = w
    · simp [single, hw, h.symm, replace]
    · simp [single, hv, hw, replace, Equiv.swap_apply_of_ne_of_ne hv hw]

end Ty

namespace Equation

/-- The second equation is the first one renamed, with its sides as they were or exchanged. -/
inductive Mirrored (r : Equiv.Perm Nat) : Equation → Equation → Prop where
  | types (a b : Ty) : Mirrored r (.types a b) (.types (a.rename r) (b.rename r))
  | turned (a b : Ty) : Mirrored r (.types a b) (.types (b.rename r) (a.rename r))
  | rows (e f : EffectRow) : Mirrored r (.rows e f) (.rows e f)
  | turnedRows (e f : EffectRow) : Mirrored r (.rows e f) (.rows f e)

section Mirrored

variable {r : Equiv.Perm Nat} {e d : Equation}

theorem mirrored_zip : (l m : List Ty) →
    List.Forall₂ (Mirrored r) (List.zipWith .types l m)
      (List.zipWith .types (l.map (Ty.rename r)) (m.map (Ty.rename r)))
  | [], _ => .nil
  | _ :: _, [] => .nil
  | s :: l, t :: m => .cons (.types s t) (mirrored_zip l m)

theorem turned_zip : (l m : List Ty) →
    List.Forall₂ (Mirrored r) (List.zipWith .types l m)
      (List.zipWith .types (m.map (Ty.rename r)) (l.map (Ty.rename r)))
  | [], [] => .nil
  | [], _ :: _ => .nil
  | _ :: _, [] => .nil
  | s :: l, t :: m => .cons (.turned s t) (turned_zip l m)

theorem Splits.mirrored {l : List Equation} (h : e.Splits l) (hd : e.Mirrored r d) :
    ∃ m, d.Splits m ∧ List.Forall₂ (Mirrored r) l m := by
  cases h with
  | @rows e f h =>
    cases hd with
    | rows => exact ⟨[], .rows h, .nil⟩
    | turnedRows => exact ⟨[], .rows (by rwa [EffectRow.compatible_comm]), .nil⟩
  | var v => cases hd <;> exact ⟨[], .var (r v), .nil⟩
  | atom a => cases hd <;> exact ⟨[], .atom a, .nil⟩
  | @fn ps qs h s t e f =>
    cases hd with
    | types =>
      simp only [Ty.rename_fn]
      exact ⟨_, .fn (by simpa using h) _ _ _ _,
        List.rel_append (mirrored_zip ps qs) (.cons (.types s t) (.cons (.rows e f) .nil))⟩
    | turned =>
      simp only [Ty.rename_fn]
      exact ⟨_, .fn (by simpa using h.symm) _ _ _ _,
        List.rel_append (turned_zip ps qs) (.cons (.turned s t) (.cons (.turnedRows e f) .nil))⟩
  | @app as bs h n =>
    cases hd with
    | types =>
      simp only [Ty.rename_app]
      exact ⟨_, .app (by simpa using h) n, mirrored_zip as bs⟩
    | turned =>
      simp only [Ty.rename_app]
      exact ⟨_, .app (by simpa using h.symm) n, turned_zip as bs⟩
  | branded b s t =>
    cases hd with
    | types => exact ⟨_, .branded b _ _, .cons (.types s t) .nil⟩
    | turned => exact ⟨_, .branded b _ _, .cons (.turned s t) .nil⟩

theorem Binds.mirrored {v : Nat} {t : Ty} (h : e.Binds v t) (hd : e.Mirrored r d) :
    d.Binds (r v) (t.rename r) := by
  have hvt : r v ∉ (t.rename r).vars := mt Ty.mem_vars_rename.mp h.not_mem
  cases h with
  | left h =>
    cases hd with
    | types => exact .left hvt
    | turned => exact .right hvt
  | right h =>
    cases hd with
    | types => exact .right hvt
    | turned => exact .left hvt

theorem Clash.symm {s t : Ty} (h : Clash s t) : Clash t s := by
  cases s <;> cases t <;> exact h

theorem Clash.rename {s t : Ty} (h : Clash s t) : Clash (s.rename r) (t.rename r) := by
  cases s <;> cases t <;> exact h

theorem Stops.mirrored {f : UnifyFault} (h : e.Stops f) (hd : e.Mirrored r d) :
    ∃ g, d.Stops g := by
  cases h with
  | @rows e f h =>
    cases hd with
    | rows => exact ⟨_, .rows h⟩
    | turnedRows => exact ⟨_, .rows (by rwa [EffectRow.compatible_comm])⟩
  | @left v t hne h =>
    have hne' := Ty.rename_ne_var (r := r) hne
    have hmem : r v ∈ (t.rename r).vars := Ty.mem_vars_rename.mpr h
    cases hd with
    | types => exact ⟨_, .left hne' hmem⟩
    | turned => exact ⟨_, .right hne' hmem⟩
  | @right v t hne h =>
    have hne' := Ty.rename_ne_var (r := r) hne
    have hmem : r v ∈ (t.rename r).vars := Ty.mem_vars_rename.mpr h
    cases hd with
    | types => exact ⟨_, .right hne' hmem⟩
    | turned => exact ⟨_, .left hne' hmem⟩
  | atom h =>
    cases hd with
    | types => exact ⟨_, .atom h⟩
    | turned => exact ⟨_, .atom h.symm⟩
  | arity h s t e f =>
    cases hd <;> simp only [Ty.rename_fn]
    · exact ⟨_, .arity (by simpa using h) _ _ _ _⟩
    · exact ⟨_, .arity (by simpa using h.symm) _ _ _ _⟩
  | name h as bs =>
    cases hd <;> simp only [Ty.rename_app]
    · exact ⟨_, .name h _ _⟩
    · exact ⟨_, .name h.symm _ _⟩
  | typeArity h n m =>
    cases hd <;> simp only [Ty.rename_app]
    · exact ⟨_, .typeArity (by simpa using h) n m⟩
    · exact ⟨_, .typeArity (by simpa using h.symm) m n⟩
  | brand h s t =>
    cases hd with
    | types => exact ⟨_, .brand h _ _⟩
    | turned => exact ⟨_, .brand h.symm _ _⟩
  | clash h =>
    cases hd with
    | types => exact ⟨_, .clash h.rename⟩
    | turned => exact ⟨_, .clash h.symm.rename⟩

end Mirrored

section Verdict

variable {e : Equation}

theorem verdict_of_splits {l : List Equation} (h : e.Splits l) : e.verdict = .parts l := by
  cases h <;> simp_all [verdict]

theorem verdict_of_stops {f : UnifyFault} (h : e.Stops f) : ∃ g, e.verdict = .fault g := by
  cases h with
  | @left v t hne h =>
    cases t with
    | var w => exact absurd rfl (hne w)
    | _ => simp [verdict, h]
  | @right v t hne h =>
    cases t with
    | var w => exact absurd rfl (hne w)
    | _ => simp [verdict, h]
  | @typeArity as bs h n m =>
    by_cases hn : n = m
    · simp [verdict, hn, h]
    · simp [verdict, hn]
  | @clash s t h => cases s <;> cases t <;> first | exact False.elim h | simp [verdict]
  | _ => simp_all [verdict]

/-- Between two variables either may be bound, otherwise the binding is determined. -/
theorem verdict_of_binds {v : Nat} {t : Ty} (h : e.Binds v t) :
    e.verdict = .bind v t ∨ ∃ w, v ≠ w ∧ t = .var w ∧ e.verdict = .bind w (.var v) := by
  cases h with
  | left h =>
    left
    cases t <;> simp_all [verdict, Ty.vars]
  | right h =>
    cases t with
    | var w =>
      have hvw : v ≠ w := by simpa [Ty.vars] using h
      exact .inr ⟨w, hvw, rfl, by simp [verdict, hvw.symm]⟩
    | _ => simp_all [verdict]

end Verdict

/-- The mirror image of an equation that binds a variable binds one too, and the renaming goes
on past both bindings. Between two variables the images may bind different ones, which the new
renaming exchanges. -/
theorem Mirrored.bind {r : Equiv.Perm Nat} {e d : Equation} {v : Nat} {t : Ty}
    (h : e.Mirrored r d) (he : e.verdict = .bind v t) :
    ∃ (π : Equiv.Perm Nat) (w : Nat) (u : Ty), d.verdict = .bind w u ∧
      ∀ s : Ty, (s.replace (single v t)).rename π = (s.rename r).replace (single w u) := by
  have hd := (binds_of_verdict he).mirrored h
  rcases verdict_of_binds hd with hd | ⟨x, hx, ht, hd⟩
  · exact ⟨r, _, _, hd, fun s => Ty.rename_replace_single v s t⟩
  · cases t with
    | var w =>
      obtain rfl : r w = x := by simpa using ht
      have hvw : v ≠ w := fun h => hx (congrArg r h)
      exact ⟨_, _, _, hd, Ty.rename_replace_swap hvw⟩
    | _ => simp at ht

/-- The equations that remain after a binding are still mirror images. -/
theorem Mirrored.assign {r π : Equiv.Perm Nat} {e d : Equation} {v w : Nat} {t u : Ty}
    (hπ : ∀ s : Ty, (s.replace (single v t)).rename π = (s.rename r).replace (single w u))
    (h : e.Mirrored r d) : (e.assign v t).Mirrored π (d.assign w u) := by
  cases h with
  | types a b =>
    simp only [Equation.assign, ← hπ]
    exact .types _ _
  | turned a b =>
    simp only [Equation.assign, ← hπ]
    exact .turned _ _
  | rows e f => exact .rows e f
  | turnedRows e f => exact .turnedRows e f

end Equation

/-- The second substitution gives every type what the first one gives it, renamed. -/
def Subst.Mirrors (r : Equiv.Perm Nat) (σ τ : Subst) : Prop :=
  ∀ t, (σ.apply t).rename r = τ.apply t

theorem Subst.Mirrors.insert {r π : Equiv.Perm Nat} {σ τ : Subst} {e d : Equation}
    {l m : List Equation} {v w : Nat} {t u : Ty} (h : σ.Mirrors r τ) (hσ : Ready σ (e :: l))
    (hτ : Ready τ (d :: m)) (he : e.Binds v t) (hd : d.Binds w u)
    (hπ : ∀ s : Ty, (s.replace (single v t)).rename π = (s.rename r).replace (single w u)) :
    (σ.insert v t).Mirrors π (τ.insert w u) := by
  intro s
  obtain ⟨hv, ht⟩ := hσ.binds he
  obtain ⟨hw, hu⟩ := hτ.binds hd
  rw [hσ.triangular.apply_insert hv ht he.not_mem, hτ.triangular.apply_insert hw hu hd.not_mem,
    hπ, h s]

/-- Two runs on mirror images end alike, in mirror images. -/
theorem unify_mirrored (σ : Subst) (l : List Equation) :
    ∀ {r : Equiv.Perm Nat} {τ : Subst} {m : List Equation}, Ready σ l → Ready τ m →
      σ.Mirrors r τ → List.Forall₂ (Equation.Mirrored r) l m →
      (unify σ l).2.isSome = (unify τ m).2.isSome ∧
        ∃ π, (unify σ l).1.Mirrors π (unify τ m).1 := by
  induction σ, l using unify_induction with
  | done σ =>
    intro r τ m _ _ hmirror hl
    cases hl
    rw [unify_nil, unify_nil]
    exact ⟨rfl, r, hmirror⟩
  | parts σ e rest parts he ih =>
    intro r τ m hσ hτ hmirror hl
    obtain ⟨d, rest', hd, hrest, rfl⟩ := List.forall₂_cons_left_iff.mp hl
    have hsplits := Equation.splits_of_verdict he
    obtain ⟨parts', hsplits', hparts⟩ := hsplits.mirrored hd
    rw [unify_cons, unify_cons, he, Equation.verdict_of_splits hsplits']
    exact ih (hσ.split hsplits) (hτ.split hsplits') hmirror (List.rel_append hparts hrest)
  | bind σ e rest v t he ih =>
    intro r τ m hσ hτ hmirror hl
    obtain ⟨d, rest', hd, hrest, rfl⟩ := List.forall₂_cons_left_iff.mp hl
    obtain ⟨π, w, u, hverdict, hπ⟩ := hd.bind he
    have hbinds := Equation.binds_of_verdict he
    have hbinds' := Equation.binds_of_verdict hverdict
    rw [unify_cons, unify_cons, he, hverdict]
    refine ih (hσ.bind hbinds) (hτ.bind hbinds') (hmirror.insert hσ hτ hbinds hbinds' hπ) ?_
    simp only [assignAll, List.forall₂_map_left_iff, List.forall₂_map_right_iff]
    exact hrest.imp fun _ _ h => h.assign hπ
  | fault σ e rest f he =>
    intro r τ m hσ hτ hmirror hl
    obtain ⟨d, rest', hd, hrest, rfl⟩ := List.forall₂_cons_left_iff.mp hl
    obtain ⟨g, hstops⟩ := (Equation.stops_of_verdict he).mirrored hd
    obtain ⟨g', hverdict⟩ := Equation.verdict_of_stops hstops
    rw [unify_cons, unify_cons, he, hverdict]
    exact ⟨rfl, r, hmirror⟩

/-- The constraint with its sides exchanged. -/
def Constraint.flip (c : Constraint) : Constraint :=
  { c with expected := c.actual, actual := c.expected }

/-- The same constraints in the same order, some of them with their sides exchanged. -/
def Reoriented : List Constraint → List Constraint → Prop :=
  List.Forall₂ fun c d => d = c ∨ d = c.flip

/-- The constraint at which solving failed, as far as the fault tells. -/
def SolveFault.place (f : SolveFault) : Span × Origin := (f.span, f.origin)

namespace Solver

/-- Whether and where a step fails depends on the run only through whether it meets a fault. -/
theorem place_step (s : Solver) (c : Constraint) :
    (s.step c).failure.map SolveFault.place =
      if (unify s.subst [.types (s.apply c.expected) (s.apply c.actual)]).2.isSome
      then some (c.span, c.origin) else none := by
  cases h : (unify s.subst [.types (s.apply c.expected) (s.apply c.actual)]).2 <;>
    simp [step, h, SolveFault.place]

/-- Two solvers that agree on whether they failed, where and why, and on every type up to a
renaming. -/
structure Agree (s u : Solver) : Prop where
  left : s.subst.Triangular
  right : u.subst.Triangular
  failed : s.failure.map SolveFault.place = u.failure.map SolveFault.place
  mirrors : ∃ r, s.subst.Mirrors r u.subst

theorem Agree.step {s u : Solver} (h : s.Agree u) {c d : Constraint} (hd : d = c ∨ d = c.flip) :
    (s.step c).Agree (u.step d) := by
  obtain ⟨r, hr⟩ := h.mirrors
  have hsides : Equation.Mirrored r (.types (s.apply c.expected) (s.apply c.actual))
      (.types (u.apply d.expected) (u.apply d.actual)) := by
    rcases hd with rfl | rfl
    · simp only [apply, ← hr _]
      exact .types _ _
    · simp only [apply, Constraint.flip, ← hr _]
      exact .turned _ _
  obtain ⟨hfault, hmirrors⟩ := unify_mirrored _ _ (ready_step h.left c) (ready_step h.right d) hr
    (.cons hsides .nil)
  have hplace : (d.span, d.origin) = (c.span, c.origin) := by
    rcases hd with rfl | rfl <;> rfl
  refine ⟨step_triangular h.left c, step_triangular h.right d, ?_, hmirrors⟩
  rw [place_step, place_step, hfault, hplace]

theorem Agree.run {s u : Solver} (h : s.Agree u) {l m : List Constraint}
    (hlm : Reoriented l m) : (s.run l).Agree (u.run m) := by
  induction hlm generalizing s u with
  | nil => exact h
  | @cons c d l m hd _ ih =>
    have hiff : s.failure.isSome = u.failure.isSome := by
      simpa using congrArg Option.isSome h.failed
    by_cases hs : s.failure.isSome = true
    · rw [run_of_failure hs, run_of_failure (hiff ▸ hs)]
      exact h
    · rw [run_cons (by simpa using hs), run_cons (by simpa [hiff] using hs)]
      exact ih (h.step hd)

end Solver

/-- Which side of a constraint is the expected one does not matter to the solution. A list with
some constraints turned round is solved if and only if the list itself is; if not, both fail at
the same place for the same reason, and if so, one bijective renaming of variables takes what
the one solution makes of any type to what the other makes of it. -/
theorem solve_reoriented (l m : List Constraint) (h : Reoriented l m) :
    ((∃ σ, solve l = .ok σ) ↔ ∃ τ, solve m = .ok τ) ∧
      (∀ f g, solve l = .error f → solve m = .error g → f.span = g.span ∧ f.origin = g.origin) ∧
      ∀ σ τ, solve l = .ok σ → solve m = .ok τ →
        ∃ r : Equiv.Perm Nat, ∀ t, (σ.apply t).rename r = τ.apply t := by
  have hagree : Solver.Agree (.run {} l) (.run {} m) :=
    Solver.Agree.run ⟨.empty, .empty, rfl, Equiv.refl Nat, fun t => Ty.rename_refl _⟩ h
  have hfailed := hagree.failed
  refine ⟨?_, ?_, ?_⟩
  · have hiff : (Solver.run {} l).failure = none ↔ (Solver.run {} m).failure = none := by
      rw [← Option.map_eq_none_iff, hfailed, Option.map_eq_none_iff]
    simpa [solve_eq_ok_iff] using hiff
  · intro f g hf hg
    rw [solve_eq_error_iff.mp hf, solve_eq_error_iff.mp hg] at hfailed
    simpa [SolveFault.place] using hfailed
  · intro σ τ hσ hτ
    obtain ⟨_, rfl⟩ := solve_eq_ok_iff.mp hσ
    obtain ⟨_, rfl⟩ := solve_eq_ok_iff.mp hτ
    exact hagree.mirrors

/-- The variables of the first constraint are bound the one to the other or the other to the one,
so the solutions differ, and so do the faults of a cyclic constraint after them. -/
theorem solve_reoriented_variables_and_rows :
    let ends : Constraint := { expected := .var 0, actual := .var 1, span := {}, origin := .branch }
    let opened : Constraint :=
      { expected := .var 2, actual := .fn [.var 0] .unit .openRow, span := {}, origin := .member }
    let called : Constraint :=
      { expected := .fn [.var 1] .unit .pure, actual := .var 2, span := {}, origin := .argument }
    let cyclic : Constraint :=
      { expected := .var 0, actual := .array (.var 1), span := {}, origin := .element }
    (∃ σ τ, solve [ends, opened, called] = .ok σ ∧ solve [ends.flip, opened, called.flip] = .ok τ ∧
      σ.apply (.var 0) = .var 1 ∧ τ.apply (.var 0) = .var 0 ∧
      ∃ r : Equiv.Perm Nat, ∀ t, (σ.apply t).rename r = τ.apply t) ∧
    ∃ f g, solve [ends, cyclic] = .error f ∧ solve [ends.flip, cyclic] = .error g ∧
      f.fault = .occurs 1 (.array (.var 1)) ∧ g.fault = .occurs 0 (.array (.var 0)) ∧
      f.span = g.span ∧ f.origin = g.origin := by
  intro ends opened called cyclic
  have hl : solve [ends, opened, called] =
      .ok ⟨[(2, .fn [.var 1] .unit .openRow), (0, .var 1)]⟩ := by cbv
  have hm : solve [ends.flip, opened, called.flip] =
      .ok ⟨[(2, .fn [.var 0] .unit .openRow), (1, .var 0)]⟩ := by cbv
  have hf : solve [ends, cyclic] = .error ⟨.occurs 1 (.array (.var 1)), {}, .element⟩ := by cbv
  have hg : solve [ends.flip, cyclic] = .error ⟨.occurs 0 (.array (.var 0)), {}, .element⟩ := by
    cbv
  have hsolved := solve_reoriented _ _
    (.cons (.inr rfl) (.cons (.inl rfl) (.cons (.inr rfl) .nil)) :
      Reoriented [ends, opened, called] [ends.flip, opened, called.flip])
  have hfailed := solve_reoriented _ _
    (.cons (.inr rfl) (.cons (.inl rfl) .nil) : Reoriented [ends, cyclic] [ends.flip, cyclic])
  exact ⟨⟨_, _, hl, hm, by cbv, by cbv, hsolved.2.2 _ _ hl hm⟩,
    ⟨_, _, hf, hg, rfl, rfl, hfailed.2.1 _ _ hf hg⟩⟩

end Sema
