import Sema.Proofs.Solver.Acyclic
import Sema.Proofs.Solver.Locality

/-!
# Unification ends

As a procedure, unification puts its two types under the substitution found so far, compares
them at the root and calls itself on their parts from left to right, each call under the
substitution that the calls before it have left. A part may thus have grown by the time its turn
comes, and the size of a type says nothing about how long the procedure will run. What decides is
the number of unbound variables in the two applied types: a call that comes later than a binding
has lost a variable, and one that does not is on smaller types.

`Recurs` is this procedure as a relation between a start and an outcome. Nothing in it limits the
recursion, so a pair of types without an outcome would be one on which the procedure runs for
ever. There is none: every pair has one outcome, and it is what `unify` computes with its list of
equations.
-/

namespace Sema

/-- The equation with its sides under the substitution. -/
def Equation.under (σ : Subst) : Equation → Equation
  | types a b => types (σ.apply a) (σ.apply b)
  | rows e f => rows e f

/-- The recursive procedure on equations, one after the other. Each is put under the substitution
of its turn; the parts it splits into are done before the next, and a fault ends everything. -/
inductive Recurs : Subst → List Equation → Subst → Option UnifyFault → Prop where
  | done (σ : Subst) : Recurs σ [] σ none
  | bind {σ τ : Subst} {e : Equation} {rest : List Equation} {v : Nat} {t : Ty}
      {o : Option UnifyFault} (he : (e.under σ).verdict = .bind v t)
      (hrest : Recurs (σ.insert v t) rest τ o) : Recurs σ (e :: rest) τ o
  | parts {σ ρ τ : Subst} {e : Equation} {rest l : List Equation} {o : Option UnifyFault}
      (he : (e.under σ).verdict = .parts l) (hl : Recurs σ l ρ none)
      (hrest : Recurs ρ rest τ o) : Recurs σ (e :: rest) τ o
  | inside {σ τ : Subst} {e : Equation} {rest l : List Equation} {f : UnifyFault}
      (he : (e.under σ).verdict = .parts l) (hl : Recurs σ l τ (some f)) :
      Recurs σ (e :: rest) τ (some f)
  | fault {σ : Subst} {e : Equation} {rest : List Equation} {f : UnifyFault}
      (he : (e.under σ).verdict = .fault f) : Recurs σ (e :: rest) σ (some f)

namespace Equation

variable {σ : Subst} {e : Equation}

theorem under_of_unbound (h : ∀ v ∈ e.vars, σ.get? v = none) : e.under σ = e := by
  cases e with
  | rows r s => rfl
  | types a b =>
    have ha : σ.apply a = a := Subst.apply_of_avoids fun v hv => h v (by simp [vars, hv])
    have hb : σ.apply b = b := Subst.apply_of_avoids fun v hv => h v (by simp [vars, hv])
    rw [under, ha, hb]

theorem unbound_under (hσ : σ.Triangular) : ∀ v ∈ (e.under σ).vars, σ.get? v = none := by
  intro v hv
  cases e with
  | rows r s => simp [under, vars] at hv
  | types a b =>
    rcases List.mem_append.mp hv with hv | hv
    · exact hσ.avoids_apply a v hv
    · exact hσ.avoids_apply b v hv

theorem under_insert (hσ : σ.Triangular) {v : Nat} {t : Ty} (hv : σ.get? v = none)
    (ht : σ.Avoids t) (hvt : v ∉ t.vars) :
    e.under (σ.insert v t) = (e.under σ).assign v t := by
  cases e with
  | rows r s => rfl
  | types a b => simp only [under, assign, hσ.apply_insert hv ht hvt]

/-- An applied equation binds an unbound variable to a type without bound ones. -/
theorem Binds.under (hσ : σ.Triangular) {v : Nat} {t : Ty} (h : (e.under σ).Binds v t) :
    σ.get? v = none ∧ σ.Avoids t :=
  ⟨unbound_under hσ v h.vars.1, fun w hw => unbound_under hσ w (h.vars.2 w hw)⟩

theorem map_under_of_unbound {l : List Equation} (h : ∀ v ∈ equationVars l, σ.get? v = none) :
    l.map (under σ) = l := by
  have hsame : ∀ d ∈ l, d.under σ = d := fun d hd =>
    under_of_unbound fun v hv => h v (List.mem_flatMap.mpr ⟨d, hd, hv⟩)
  rw [List.map_congr_left hsame, List.map_id']

/-- The parts of an applied equation are applied already. -/
theorem Splits.under (hσ : σ.Triangular) {l : List Equation} (h : (e.under σ).Splits l) :
    l.map (Equation.under σ) = l :=
  map_under_of_unbound fun v hv => unbound_under hσ v (h.vars v hv)

end Equation

namespace Recurs

/-- A run on one list after another stops in the first or goes on with the second. -/
theorem append_cases {σ τ : Subst} {l m : List Equation} {o : Option UnifyFault}
    (h : Recurs σ (l ++ m) τ o) :
    (∃ ρ, Recurs σ l ρ none ∧ Recurs ρ m τ o) ∨ ∃ f, o = some f ∧ Recurs σ l τ (some f) := by
  induction l generalizing σ with
  | nil => exact .inl ⟨σ, .done σ, h⟩
  | cons e l ih =>
    cases h with
    | bind he hrest =>
      rcases ih hrest with ⟨ρ, hl, hm⟩ | ⟨f, ho, hl⟩
      · exact .inl ⟨ρ, .bind he hl, hm⟩
      · exact .inr ⟨f, ho, .bind he hl⟩
    | parts he hk hrest =>
      rcases ih hrest with ⟨ρ, hl, hm⟩ | ⟨f, ho, hl⟩
      · exact .inl ⟨ρ, .parts he hk hl, hm⟩
      · exact .inr ⟨f, ho, .parts he hk hl⟩
    | inside he hk => exact .inr ⟨_, rfl, .inside he hk⟩
    | fault he => exact .inr ⟨_, rfl, .fault he⟩

/-- The procedure has one outcome at most. -/
theorem unique {σ τ ρ : Subst} {eqs : List Equation} {o p : Option UnifyFault}
    (h : Recurs σ eqs τ o) (k : Recurs σ eqs ρ p) : τ = ρ ∧ o = p := by
  induction h generalizing ρ p with
  | done σ =>
    cases k
    exact ⟨rfl, rfl⟩
  | bind he _ ih =>
    cases k with
    | bind ke krest =>
      obtain ⟨rfl, rfl⟩ := Verdict.bind.inj (he.symm.trans ke)
      exact ih krest
    | _ ke => cases he.symm.trans ke
  | parts he _ _ ihl ihrest =>
    cases k with
    | parts ke kl krest =>
      obtain rfl := Verdict.parts.inj (he.symm.trans ke)
      obtain ⟨rfl, -⟩ := ihl kl
      exact ihrest krest
    | inside ke kl =>
      obtain rfl := Verdict.parts.inj (he.symm.trans ke)
      exact absurd (ihl kl).2 (by simp)
    | _ ke => cases he.symm.trans ke
  | inside he _ ih =>
    cases k with
    | parts ke kl krest =>
      obtain rfl := Verdict.parts.inj (he.symm.trans ke)
      exact absurd (ih kl).2 (by simp)
    | inside ke kl =>
      obtain rfl := Verdict.parts.inj (he.symm.trans ke)
      exact ih kl
    | _ ke => cases he.symm.trans ke
  | fault he =>
    cases k with
    | fault ke =>
      obtain rfl := Verdict.fault.inj (he.symm.trans ke)
      exact ⟨rfl, rfl⟩
    | _ ke => cases he.symm.trans ke

end Recurs

/-- The procedure ends with what `unify` finds. The induction is on the run of `unify`, whose
list holds the equations under the substitution of the moment. -/
theorem recurs_unify {σ : Subst} (hσ : σ.Triangular) (eqs : List Equation) :
    Recurs σ eqs (unify σ (eqs.map (Equation.under σ))).1
      (unify σ (eqs.map (Equation.under σ))).2 := by
  generalize happlied : eqs.map (Equation.under σ) = l
  induction σ, l using unify_induction generalizing eqs with
  | done σ =>
    obtain rfl := List.map_eq_nil_iff.mp happlied
    rw [unify_nil]
    exact .done σ
  | parts σ _ _ l h ih =>
    obtain ⟨e, rest, rfl, rfl, rfl⟩ := List.map_eq_cons_iff.mp happlied
    have hparts := (Equation.splits_of_verdict h).under hσ
    have hrun := ih hσ (l ++ rest) (by rw [List.map_append, hparts])
    rw [unify_cons, h]
    rcases hrun.append_cases with ⟨ρ, hl, hrest⟩ | ⟨f, ho, hl⟩
    · exact .parts h hl hrest
    · rw [ho]
      exact .inside h hl
  | bind σ _ _ v t h ih =>
    obtain ⟨e, rest, rfl, rfl, rfl⟩ := List.map_eq_cons_iff.mp happlied
    have hbinds := Equation.binds_of_verdict h
    obtain ⟨hv, ht⟩ := hbinds.under hσ
    have hrest : rest.map (Equation.under (σ.insert v t)) =
        assignAll v t (rest.map (Equation.under σ)) := by
      rw [assignAll, List.map_map]
      exact List.map_congr_left fun d _ => Equation.under_insert hσ hv ht hbinds.not_mem
    rw [unify_cons, h]
    exact .bind h (ih (.insert hσ hv ht hbinds.not_mem) rest hrest)
  | fault σ _ _ f h =>
    obtain ⟨e, rest, rfl, rfl, rfl⟩ := List.map_eq_cons_iff.mp happlied
    rw [unify_cons, h]
    exact .fault h

theorem recurs_iff_unify {σ τ : Subst} (hσ : σ.Triangular) {eqs : List Equation}
    {o : Option UnifyFault} :
    Recurs σ eqs τ o ↔ unify σ (eqs.map (Equation.under σ)) = (τ, o) := by
  constructor
  · intro h
    obtain ⟨hτ, ho⟩ := (recurs_unify hσ eqs).unique h
    exact Prod.ext hτ ho
  · intro h
    have hrun := recurs_unify hσ eqs
    rwa [h] at hrun

/-- A call of the procedure: an equation, and the substitution at the time of the call. -/
structure Call where
  subst : Subst
  equation : Equation

namespace Call

/-- The first call makes the second: its equation splits, and the parts before the one of the
second call have been done. -/
inductive Makes : Call → Call → Prop where
  | part {σ ρ : Subst} {e d : Equation} {before behind : List Equation}
      (he : (e.under σ).verdict = .parts (before ++ d :: behind))
      (hbefore : Recurs σ before ρ none) : Makes ⟨σ, e⟩ ⟨ρ, d⟩

/-- The number of unbound variables in the applied sides, and the size of these. -/
def weight (c : Call) : Nat × Nat :=
  (distinct (c.equation.under c.subst).vars, (c.equation.under c.subst).size)

end Call

theorem Subst.Adds.eq_or_new {σ τ : Subst} (h : σ.Adds τ) :
    τ = σ ∨ ∃ v, σ.get? v = none ∧ τ.get? v ≠ none := by
  cases h with
  | refl => exact .inl rfl
  | @bind τ v t h hv =>
    refine .inr ⟨v, ?_, by simp [get?_insert]⟩
    cases hold : σ.get? v with
    | none => rfl
    | some u => simp [h.get?_eq hold] at hv

/-- A run on equations over unbound variables stays within these. -/
theorem Recurs.confined {σ ρ : Subst} {eqs : List Equation} {o : Option UnifyFault}
    (h : Recurs σ eqs ρ o) (hσ : σ.Triangular) {U : Nat → Prop}
    (hU : ∀ v, U v → σ.get? v = none) (heqs : EquationsOver eqs U) :
    ρ.Triangular ∧ σ.Moves U ρ ∧ σ.Adds ρ := by
  have hready : Ready σ eqs := ⟨hσ, fun v hv => hU v (heqs v hv)⟩
  have hclosed : σ.Closed U := by
    intro v t hv ht
    rw [hU v hv] at ht
    cases ht
  rw [recurs_iff_unify hσ, Equation.map_under_of_unbound hready.unbound] at h
  have hrun := unify_run σ eqs
  rw [h] at hrun
  exact ⟨hrun.triangular hready, hrun.moves hclosed heqs, hrun.adds hready⟩

/-- Under a substitution that keeps within a set, an equation over the set stays over it. -/
theorem Equation.over_under {ρ : Subst} {U : Nat → Prop} (hρ : ρ.Closed U) {e : Equation}
    (h : ∀ v ∈ e.vars, U v) : ∀ v ∈ (e.under ρ).vars, U v := by
  cases e with
  | rows r s => exact h
  | types a b =>
    intro v hv
    rcases List.mem_append.mp hv with hv | hv
    · exact hρ.apply (fun w hw => h w (List.mem_append_left _ hw)) v hv
    · exact hρ.apply (fun w hw => h w (List.mem_append_right _ hw)) v hv

/-- A call is lighter than the one that makes it: either a variable has been bound in between, or
the substitution is the same and the part smaller than the whole. -/
theorem Call.Makes.weight_lt {c d : Call} (h : c.Makes d) (hc : c.subst.Triangular) :
    d.subst.Triangular ∧ Prod.Lex (· < ·) (· < ·) d.weight c.weight := by
  obtain @⟨σ, ρ, e, d, before, behind, he, hbefore⟩ := h
  have hσ : σ.Triangular := hc
  have hsplit := Equation.splits_of_verdict he
  have hvars : ∀ x ∈ before ++ d :: behind, ∀ v ∈ x.vars, v ∈ (e.under σ).vars :=
    fun x hx v hv => hsplit.vars v (List.mem_flatMap.mpr ⟨x, hx, hv⟩)
  have hunbound := Equation.unbound_under (e := e) hσ
  obtain ⟨hρ, hmoves, hadds⟩ := hbefore.confined hσ hunbound fun v hv => by
    obtain ⟨x, hx, hv⟩ := List.mem_flatMap.mp hv
    exact hvars x (List.mem_append_left _ hx) v hv
  have hd : ∀ v ∈ d.vars, v ∈ (e.under σ).vars := hvars d (by simp)
  have hafter := Equation.over_under hmoves.closed hd
  refine ⟨hρ, ?_⟩
  rcases hadds.eq_or_new with rfl | ⟨v, hnew, hbound⟩
  · have hsize : d.size < (e.under ρ).size := by
      have hall := hsplit.size_lt
      simp only [equationSize_append, equationSize_cons] at hall
      omega
    have hsame : d.under ρ = d := Equation.under_of_unbound fun v hv => hunbound v (hd v hv)
    refine lex_step (distinct_le hafter) ?_
    rwa [hsame]
  · have hmem : v ∈ (e.under σ).vars := by
      by_cases hv : v ∈ (e.under σ).vars
      · exact hv
      · exact absurd ((hmoves.outside v hv).trans hnew) hbound
    exact .left _ _ (distinct_lt hafter hmem fun hv => hbound (Equation.unbound_under hρ v hv))

/-- Calls within calls come to an end. -/
theorem Call.acc_makes (c : Call) (h : c.subst.Triangular) : Acc (fun d c => Makes c d) c := by
  induction c using (InvImage.wf weight (Prod.lex Nat.lt_wfRel Nat.lt_wfRel).wf).induction with
  | _ c ih =>
    refine .intro c fun d hd => ?_
    obtain ⟨htriangular, hlt⟩ := hd.weight_lt h
    exact ih d hlt htriangular

theorem Call.triangular_of_reaches {c d : Call} (h : Relation.ReflTransGen Makes c d)
    (hc : c.subst.Triangular) : d.subst.Triangular := by
  induction h with
  | refl => exact hc
  | tail _ hstep ih => exact (hstep.weight_lt ih).1

namespace Solver

/-- The loop of the solver over the recursive procedure: each constraint in turn, up to the first
fault. -/
inductive Consumes : Solver → List Constraint → Solver → Prop where
  | done {s : Solver} : Consumes s [] s
  | stopped {s : Solver} {c : Constraint} {l : List Constraint} (h : s.failure.isSome = true) :
      Consumes s (c :: l) s
  | next {s u : Solver} {c : Constraint} {l : List Constraint} {τ : Subst}
      {o : Option UnifyFault} (h : s.failure = none)
      (hc : Recurs s.subst [.types c.expected c.actual] τ o)
      (hl : Consumes ⟨τ, s.consumed + 1, o.map fun f => ⟨f, c.span, c.origin⟩⟩ l u) :
      Consumes s (c :: l) u

theorem recurs_iff_step {s : Solver} (hs : s.subst.Triangular) (c : Constraint) {τ : Subst}
    {o : Option UnifyFault} : Recurs s.subst [.types c.expected c.actual] τ o ↔
      unify s.subst [.types (s.apply c.expected) (s.apply c.actual)] = (τ, o) :=
  recurs_iff_unify hs

/-- The loop ends on every list, with the solver that `run` gives. -/
theorem consumes_iff_run {s u : Solver} (hs : s.subst.Triangular) {l : List Constraint} :
    s.Consumes l u ↔ u = s.run l := by
  induction l generalizing s u with
  | nil =>
    constructor
    · rintro ⟨⟩
      rfl
    · rintro rfl
      exact .done
  | cons c l ih =>
    constructor
    · intro h
      cases h with
      | stopped h => rw [run_of_failure h]
      | @next _ _ _ _ τ o h hc hl =>
        have hstep : s.step c =
            ⟨τ, s.consumed + 1, o.map fun f => ⟨f, c.span, c.origin⟩⟩ := by
          rw [step, (recurs_iff_step hs c).mp hc]
        rw [run_cons h, hstep]
        exact (ih (hstep ▸ step_triangular hs c)).mp hl
    · rintro rfl
      by_cases h : s.failure.isSome = true
      · rw [run_of_failure h]
        exact .stopped h
      · have hok : s.failure = none := by simpa using h
        rw [run_cons hok]
        exact .next hok ((recurs_iff_step hs c).mpr rfl) ((ih (step_triangular hs c)).mpr rfl)

end Solver

/-- Unification ends for every pair of types and every substitution that a solver comes to, also
after failures. In every call of the recursion, however deep, the calls it makes in turn are
lighter, by the number of unbound variables first and by size second; so there is no infinite
descent, the procedure has exactly one outcome, that of `unify`, and the loop over any list of
constraints has exactly one as well. -/
theorem unification_terminates (lists : List (Array Constraint)) (a b : Ty) :
    let s := Solver.calls {} lists
    let start : Call := ⟨s.subst, .types a b⟩
    (∀ c d, Relation.ReflTransGen Call.Makes start c → c.Makes d →
      Prod.Lex (· < ·) (· < ·) d.weight c.weight) ∧
    Acc (fun d c => Call.Makes c d) start ∧
    (∀ τ o, Recurs s.subst [.types a b] τ o ↔
      unify s.subst [.types (s.apply a) (s.apply b)] = (τ, o)) ∧
    ∀ (cs : Array Constraint) (u : Solver),
      s.Consumes (cs.extract s.consumed cs.size).toList u ↔ u = s.solve cs := by
  intro s start
  have htriangular : s.subst.Triangular := Solver.calls_triangular .empty lists
  refine ⟨fun c d hreach hmakes => ?_, start.acc_makes htriangular, fun τ o => ?_, fun cs u => ?_⟩
  · exact (hmakes.weight_lt (Call.triangular_of_reaches hreach htriangular)).2
  · exact recurs_iff_unify htriangular
  · exact Solver.consumes_iff_run htriangular

/-- By the turn of the second parameter its left side has grown from a variable to an array, but
the variable is gone. -/
theorem unification_terminates_grown_part :
    let first : Call := ⟨{}, .types (.fn [.var 0, .var 0] .unit .pure)
      (.fn [.array (.var 1), .var 2] .unit .pure)⟩
    let second : Call := ⟨⟨[(0, .array (.var 1))]⟩, .types (.var 0) (.var 2)⟩
    first.Makes second ∧ second.equation.under second.subst = .types (.array (.var 1)) (.var 2) ∧
      second.weight.1 = 2 ∧ first.weight.1 = 3 ∧
      Prod.Lex (· < ·) (· < ·) second.weight first.weight := by
  intro first second
  have hbefore : Recurs {} [.types (.var 0) (.array (.var 1))] second.subst none :=
    .bind rfl (.done _)
  have hmakes : first.Makes second := @Call.Makes.part _ _ _ _ [_] _ rfl hbefore
  have hstart := unification_terminates [] (.fn [.var 0, .var 0] .unit .pure)
    (.fn [.array (.var 1), .var 2] .unit .pure)
  exact ⟨hmakes, by cbv, by cbv, by cbv, hstart.1 first second .refl hmakes⟩

end Sema
