import Sema.Proofs.Solver.Acyclic
import Sema.Proofs.Typing.Coverage

/-!
# What a `let` may quantify

A `let` quantifies the variables of its value's type that nothing around it mentions: neither
the environment nor an access that waits nor the function and the loops around. The generic
parameters in scope, `Self` and the constructors of patterns are not asked. Where none of these
leads to a quantified variable, no later constraint does either, and the variable is unbound
in the end.
-/

namespace Sema

namespace Subst

/-- The variable leads to none of `vars`. -/
def Spares (σ : Subst) (vars : List Nat) (w : Nat) : Prop :=
  ∀ u ∈ (σ.apply (.var w)).vars, u ∉ vars

variable {σ : Subst} {vars : List Nat}

theorem mem_vars_apply {t : Ty} {u : Nat} :
    u ∈ (σ.apply t).vars ↔ ∃ w ∈ t.vars, u ∈ (σ.apply (.var w)).vars := by
  rw [apply_eq_replace, Ty.vars_replace, List.mem_flatMap]
  rfl

theorem over_spares {t : Ty} :
    t.Over (σ.Spares vars) ↔ ∀ u ∈ (σ.apply t).vars, u ∉ vars := by
  constructor
  · intro h u hu
    obtain ⟨w, hw, hu⟩ := mem_vars_apply.mp hu
    exact h w hw u hu
  · intro h w hw u hu
    exact h u (mem_vars_apply.mpr ⟨w, hw, hu⟩)

theorem apply_var_of_unbound {w : Nat} (h : σ.get? w = none) : σ.apply (.var w) = .var w :=
  apply_of_avoids (avoids_var.mpr h)

theorem Triangular.apply_var_of_bound (h : σ.Triangular) {w : Nat} {t : Ty}
    (hw : σ.get? w = some t) : σ.apply (.var w) = σ.apply t :=
  ((h.follows_iff _ _).mp (.bound hw (h.follows_apply t))).symm

/-- What leads to none of the variables is bound to nothing that does. -/
theorem Triangular.closed_spares (h : σ.Triangular) : σ.Closed (σ.Spares vars) := by
  intro w t hw ht
  rw [over_spares, ← h.apply_var_of_bound ht]
  exact hw

/-- An unbound variable spares all but itself. -/
theorem spares_of_unbound {w : Nat} (h : σ.get? w = none) : σ.Spares vars w ↔ w ∉ vars := by
  simp [Spares, apply_var_of_unbound h, Ty.vars]

end Subst

theorem Session.solution_triangular (s : Session) : s.solution.Triangular :=
  Solver.run_triangular .empty _

/-- What is solved stays solved, and what is bound stays bound. -/
theorem Grows.solution {s t : Session} (h : Grows s t) :
    s.solution.Adds t.solution ∧ t.solution.Extends s.solution := by
  obtain ⟨l, hl⟩ := h.constraints
  have hrun : t.solution = ((Solver.run {} s.constraints.toList).run l).subst := by
    rw [Session.solution, hl, Solver.run_append]
  rw [hrun]
  exact ⟨Solver.run_adds s.solution_triangular l, Solver.run_extends s.solution_triangular l⟩

/-- No scheme or type of the catalog has free variables, which would be those of a program. -/
structure Catalog.Closed (c : Catalog) : Prop where
  values : ∀ name s, c.values.get? name = some s → s.freeVars = []
  constructors : ∀ name s, c.constructors.get? name = some s → s.freeVars = []
  aliases : ∀ name t, c.aliases.get? name = some t → t.vars = []
  methods : ∀ type method s, c.methods.find? type method = some s → s.freeVars = []

section Program

variable {catalog : Catalog} {U : Nat → Prop}

theorem Scheme.over_of_closed {s : Scheme} (h : s.freeVars = []) : s.Over U := by
  simp [Over, h]

theorem Session.confined_empty : ({} : Session).Confined U {} :=
  ⟨.refl fun v t _ ht => by simp [Subst.get?, Table.find] at ht, by simp, ⟨[], [], rfl, rfl⟩⟩

theorem Program.scope_over (hcatalog : catalog.Closed) (p : Program) :
    (p.scope catalog).Over U := by
  refine ⟨fun name t ht => ?_, fun t ht => ?_, fun name t ht => ?_⟩
  · simp [TypeScope.param?, scope] at ht
  · simp [scope] at ht
  · simp [Ty.Over, hcatalog.aliases name t ht]

/-- The interface is over the variables that are taken for it. -/
theorem Program.present_over (hcatalog : catalog.Closed) (p : Program)
    (htakes : Takes U {} (p.present catalog).2) :
    (p.present catalog).2.Confined U {} ∧ (p.present catalog).1.Over U := by
  have henv : catalog.env.Over U := by
    intro name s hs
    have hvalue : catalog.values.get? name = some s := by
      simpa [Env.lookup, Env.scopes, Catalog.env] using hs
    exact Scheme.over_of_closed (hcatalog.values name s hvalue)
  have hdeclare := Keeps.foldlM (U := U) (P := True) (Q := fun y : Declarations × Env => y.2.Over U)
    (fun b a => (declareItem_keeps b a).given And.right) p.items ({}, catalog.env)
  have hinterface := fun i => Keeps.foldlM (U := U) (P := (p.scope catalog).Over U)
    (Q := fun i : Interface => i.Over U) (interfaceItem_keeps (p.scope catalog)) p.items i
  let start : Interface :=
    { env := (p.declare catalog).1.2, constructors := catalog.constructors,
      methods := catalog.methods }
  obtain ⟨hmid, hover⟩ := hdeclare.keeps ⟨trivial, henv⟩ {} {} Session.confined_empty
    (htakes.left ((hinterface start).growing (p.declare catalog).2))
  have hstart : start.Over U :=
    ⟨hover, fun name s hs => Scheme.over_of_closed (hcatalog.constructors name s hs),
      fun t n s hs => Scheme.over_of_closed (hcatalog.methods t n s hs),
      by simp [start], by simp [start], by simp [start]⟩
  exact (hinterface start).keeps ⟨p.scope_over hcatalog, hstart⟩ {} _ hmid
    (htakes.right (hdeclare.growing {}))

/-- The walk over the bodies starts over the variables taken so far. -/
theorem Program.walk_over (hcatalog : catalog.Closed) (checkEffects : Bool) (p : Program)
    (htakes : Takes U {} (p.walk catalog checkEffects).2) :
    (p.walk catalog checkEffects).2.Confined U {} ∧ (p.walk catalog checkEffects).1.Over U := by
  obtain ⟨hconfined, hover⟩ := p.present_over hcatalog htakes
  refine ⟨hconfined, ⟨⟨?_, hover⟩, hover.impls⟩⟩
  exact ⟨p.scope_over hcatalog, hover.env, hover.constructors, by simp [context], by simp [context]⟩

end Program

/-- What a scheme leaves free of a solved type leads to nothing that it quantifies. -/
theorem Subst.Triangular.generalize_over {σ : Subst} (h : σ.Triangular) (env : List Nat) (t : Ty) :
    (Scheme.generalize env (σ.apply t)).Over
      (σ.Spares (Scheme.generalize env (σ.apply t)).vars) := by
  intro v hv
  obtain ⟨hmem, hfree⟩ := (Scheme.mem_freeVars _ v).mp hv
  exact (Subst.spares_of_unbound (h.avoids_apply t v hmem)).mpr hfree

section Let

/-- The type that a `let` binds: the declared one, which the value has to have, or that of the
value. -/
def letType (cx : Context) (ty : Option TypeExpr) (e : Expr) : Check Ty := do
  let actual ← inferExpr cx e
  match ty with
  | some ty =>
    let declared ← lower cx.scope ty
    constrain declared actual e.span .annotated
    return declared
  | none => return actual

variable {U : Nat → Prop} (cx : Context)

theorem checkStmt_letBind (span : Span) (pattern : Pattern) (ty : Option TypeExpr) (e : Expr)
    (mutable : Bool) : checkStmt cx (.letBind span pattern ty (some e) mutable) =
      letType cx ty e >>= fun t => bindLet cx pattern t true mutable := by
  rw [checkStmt, letType]
  cases ty <;> simp

theorem letType_keeps (ty : Option TypeExpr) (e : Expr) :
    Keeps U (cx.Over U) (letType cx ty e) (·.Over U) := by
  refine (inferExpr_keeps cx e).bind fun t => ?_
  cases ty with
  | none => exact .pure And.right
  | some ty =>
    exact ((lower_keeps cx.scope ty).given fun h => h.1.scope).bind fun _ =>
      constrain_pure_keeps fun h => ⟨⟨h.2, h.1.2⟩, h.2⟩

/-- A `let` that generalises binds the name to the generalised type. -/
theorem checkStmt_generalizes {pattern : Pattern} {mutable : Bool} {x : String}
    (hx : cx.generalizes? pattern true mutable = some x) (span : Span) (ty : Option TypeExpr)
    (e : Expr) (s : Session) :
    (checkStmt cx (.letBind span pattern ty (some e) mutable)).run s =
      let t := (letType cx ty e).run s
      let scheme := (generalizeBinding cx t.1).run t.2
      (cx.env.bind x scheme.1, scheme.2) := by
  rw [checkStmt_letBind, StateT.run_bind]
  simp only [bindLet, hx]
  rfl

/-- What a `let` binds that generalises, and what it leaves. If solving succeeds, the variables of
the solved type are quantified but for the rigid ones, and otherwise none. -/
theorem checkStmt_quantifies {pattern : Pattern} {mutable : Bool} {x : String}
    (hx : cx.generalizes? pattern true mutable = some x) {span : Span} {ty : Option TypeExpr}
    {e : Expr} {s r : Session} {t : Ty} (hlet : (letType cx ty e).run s = (t, r)) {scheme : Scheme}
    (hscheme : ((checkStmt cx (.letBind span pattern ty (some e) mutable)).run s).1.lookup x =
      some scheme) :
    (checkStmt cx (.letBind span pattern ty (some e) mutable)).run s =
        (cx.env.bind x scheme, Event.solve.apply r) ∧
      (scheme.vars = [] ∨ (r.solver.solve r.constraints).failure = none ∧
        scheme = .generalize (cx.rigidVars (Event.solve.apply r))
          ((Event.solve.apply r).solver.apply t)) := by
  have hrun := checkStmt_generalizes cx hx span ty e s
  simp only [hlet, generalizeBinding_run] at hrun
  rw [hrun, Env.lookup_bind, if_pos rfl] at hscheme
  have hbound := Option.some.inj hscheme
  refine ⟨by rw [hrun, hbound], ?_⟩
  rw [← hbound]
  cases (r.solver.solve r.constraints).failure with
  | some fault => exact .inl rfl
  | none => exact .inr ⟨rfl, rfl⟩

/-- The variables that a context gives to types and patterns and that a `let` does not ask for:
those of the generic parameters in scope, of `Self` and of constructors, as far as they are
solved. -/
inductive Context.Shows (cx : Context) (σ : Subst) (v : Nat) : Prop where
  | param {name : String} {t : Ty} (h : cx.scope.param? name = some t)
      (hv : v ∈ (σ.apply t).vars)
  | self {t : Ty} (h : cx.scope.selfTy = some t) (hv : v ∈ (σ.apply t).vars)
  | constructor {name : String} {s : Scheme} {w : Nat} (h : cx.constructors.get? name = some s)
      (hw : w ∈ s.freeVars) (hv : v ∈ (σ.apply (.var w)).vars)

theorem Env.mem_freeVars {e : Env} {σ : Subst} {name : String} {s : Scheme}
    (h : e.lookup name = some s) {w u : Nat} (hw : w ∈ s.freeVars)
    (hu : u ∈ (σ.apply (.var w)).vars) : u ∈ e.freeVars σ := by
  obtain ⟨scope, hscope, hget⟩ := List.exists_of_findSome?_eq_some h
  simp only [freeVars, mem_ascending, List.mem_flatMap]
  exact ⟨scope, hscope, (name, s), Table.mem_of_get? hget, w, hw, hu⟩

variable {cx}

/-- If no quantified variable is rigid, then nothing that is open leads to one. -/
theorem Context.pending_spares {s : Session} {vars : List Nat}
    (hrigid : ∀ v ∈ vars, v ∉ cx.rigidVars s) :
    ∀ t ∈ s.deferred.toList.flatMap Deferred.types ++ cx.frames.map (·.ret) ++
      cx.loops.filterMap id, t.Over (s.solver.subst.Spares vars) := by
  intro t ht
  refine Subst.over_spares.mpr fun u hu hmem => hrigid u hmem ?_
  exact List.mem_append_right _ (List.mem_flatMap.mpr ⟨t, ht, hu⟩)

/-- If no quantified variable is rigid or shown, then nothing in the context leads to one. -/
theorem Context.over_spares {s : Session} {vars : List Nat}
    (haliases : ∀ name t, cx.scope.catalog.aliases.get? name = some t → t.vars = [])
    (hrigid : ∀ v ∈ vars, v ∉ cx.rigidVars s)
    (hshown : ∀ v ∈ vars, ¬cx.Shows s.solver.subst v) :
    cx.Over (s.solver.subst.Spares vars) := by
  have hpending := cx.pending_spares hrigid
  have hscope : cx.scope.Over (s.solver.subst.Spares vars) := by
    refine ⟨fun name t ht => ?_, fun t ht => ?_, fun name t ht => ?_⟩
    · exact Subst.over_spares.mpr fun u hu hmem => hshown u hmem (.param ht hu)
    · exact Subst.over_spares.mpr fun u hu hmem => hshown u hmem (.self ht hu)
    · simp [Ty.Over, haliases name t ht]
  refine ⟨hscope, fun name t ht w hw u hu hmem => ?_, fun name t ht w hw u hu hmem => ?_,
    fun f hf => ?_, fun t ht => ?_⟩
  · exact hrigid u hmem (List.mem_append_left _ (Env.mem_freeVars ht hw hu))
  · exact hshown u hmem (.constructor ht hw hu)
  · exact hpending _ (List.mem_append_left _ (List.mem_append_right _ (List.mem_map_of_mem hf)))
  · exact hpending _ (List.mem_append_right _ (List.mem_filterMap.mpr ⟨some t, ht, rfl⟩))

/-- If nothing in the context and no access that waits leads to one of some variables of the
bound type, then no variable from before the `let` does. For one that did would be outside what
the `let` can touch, so it would lead to itself only and be outside the bound type too. -/
theorem letType_spares_old {s : Session} (hs : s.Confined (· < s.nextVar) {})
    {ty : Option TypeExpr} {e : Expr} {vars : List Nat} {t : Ty} {r : Session}
    (hrun : (letType cx ty e).run s = (t, r)) (hvars : ∀ v ∈ vars, v ∈ (r.solution.apply t).vars)
    (hcx : cx.Over (r.solution.Spares vars))
    (hdeferred : ∀ d ∈ s.deferred.toList, ∀ u ∈ d.types, u.Over (r.solution.Spares vars))
    {w : Nat} (hw : w < s.nextVar) : r.solution.Spares vars w := by
  have hkeeps : ∀ {U : Nat → Prop}, _ := fun {U} => letType_keeps (U := U) cx ty e
  have hgrows : Grows s r := by
    have := (hkeeps (U := fun _ => True)).growing s
    rwa [after, hrun] at this
  let U : Nat → Prop := fun w => s.nextVar ≤ w ∨ r.solution.Spares vars w
  have hclosed : s.solution.Closed U := by
    rintro v u (hv | hv) hu
    · have hnone := hs.moves.outside v (Nat.not_lt.mpr hv)
      rw [hu] at hnone
      cases hnone
    · have hlater := hgrows.solution.1.get?_eq hu
      exact (r.solution_triangular.closed_spares v u hv hlater).mono fun _ => .inr
  have hstart : s.Confined U s.solution :=
    ⟨.refl hclosed, fun d hd u hu => (hdeferred d hd u hu).mono fun _ => .inr, hs.solving⟩
  obtain ⟨hr, ht⟩ := hkeeps.keeps (hcx.mono fun _ => .inr) s.solution s hstart
    fun w hle _ => .inl hle
  rw [after, hrun] at hr
  rw [hrun] at ht
  intro u hu hmem
  rw [← hgrows.solution.2, Subst.mem_vars_apply] at hu
  obtain ⟨y, hy, hu⟩ := hu
  have hyold : y < s.nextVar := hs.moves.closed.apply (Ty.over_var.mpr hw) y hy
  have hyout : ¬U y := by
    rintro (hle | hspares)
    · exact Nat.not_lt.mpr hle hyold
    · exact hspares u hu hmem
  have hunbound : r.solution.get? y = none := by
    rw [hr.moves.outside y hyout]
    exact s.solution_triangular.avoids_apply _ y hy
  have huy : u = y := by simpa [Subst.apply_var_of_unbound hunbound, Ty.vars] using hu
  exact hyout (huy ▸ hr.moves.closed.apply ht u (hvars u hmem))

/-- Variables that are not taken yet lead to themselves only. -/
theorem spares_new {r : Session} (hr : r.Confined (· < r.nextVar) {}) {vars : List Nat} {t : Ty}
    (ht : t.Over (· < r.nextVar)) (hvars : ∀ v ∈ vars, v ∈ (r.solution.apply t).vars) {w : Nat}
    (hw : r.nextVar ≤ w) : r.solution.Spares vars w := by
  have hunbound : r.solution.get? w = none := hr.moves.outside w (Nat.not_lt.mpr hw)
  rw [Subst.spares_of_unbound hunbound]
  intro hmem
  exact Nat.not_lt.mpr hw (hr.moves.closed.apply ht w (hvars w hmem))

end Let

section Program

variable {catalog : Catalog} {checkEffects : Bool} {p : Program}

/-- A set that a task inside is left in, and that has all variables from before it and all that
are taken after it, is the set that the whole check is left in. -/
theorem Program.confined_session (hcatalog : catalog.Closed) {U : Nat → Prop} {τ : Subst}
    {x : Task × Session} (hreach : Reaches (p.walk catalog checkEffects) x)
    (hbefore : ∀ w < x.2.nextVar, U w) (hlater : ∀ w, (x.1.after x.2).nextVar ≤ w → U w)
    (hx : (x.1.after x.2).Confined U τ) (hgives : x.1.Gives U x.2) :
    (checkProgram catalog checkEffects p).session.Confined U τ := by
  obtain ⟨hstart, hrest⟩ := hreach.grows
  obtain ⟨hwalk, hover⟩ := p.walk_over hcatalog checkEffects (U := U)
    fun w _ hlt => hbefore w (Nat.lt_of_lt_of_le hlt hstart.nextVar)
  obtain ⟨hvisited, _⟩ := hreach.resume hover hwalk (fun w _ hlt => hbefore w hlt) hx hgives
    fun w hle _ => hlater w hle
  have hfinish := finish_keeps (U := U) (p.scope catalog) (p.present catalog).1.methods
    checkEffects
  have hmethods : (p.present catalog).1.methods.Over U := hover.1.2.methods
  obtain ⟨hend, _⟩ := hfinish.keeps ⟨p.scope_over hcatalog, hmethods⟩ τ _ hvisited
    fun w hle _ => hlater w (Nat.le_trans hrest.nextVar hle)
  rw [p.after_walk, after, finish_visited] at hend
  exact hend

/-- A task of the walk starts over the variables taken so far. -/
theorem Program.start_below (hcatalog : catalog.Closed) {x : Task × Session}
    (hreach : Reaches (p.walk catalog checkEffects) x) {n : Nat} (hn : x.2.nextVar ≤ n) :
    x.2.Confined (· < n) {} ∧ x.1.Over (· < n) := by
  have hbefore : (p.walk catalog checkEffects).2.nextVar ≤ x.2.nextVar := hreach.grows.1.nextVar
  obtain ⟨hwalk, hover⟩ := p.walk_over hcatalog checkEffects (U := (· < n))
    fun w _ hlt => by omega
  exact hreach.start hover hwalk fun w _ hlt => Nat.lt_of_lt_of_le hlt hn

theorem subst_eq_solution (hsolved : (checkProgram catalog checkEffects p).solved = true) :
    (checkProgram catalog checkEffects p).subst =
      (checkProgram catalog checkEffects p).session.solution := by
  obtain ⟨h, -⟩ := checkProgram_solved catalog checkEffects p
    (checkProgram catalog checkEffects p).valuation hsolved
  rw [TypeCheck.subst, if_pos hsolved, h.subst_eq]

/-- If the whole check stays with what leads to none of some unbound variables, these are unbound in
the end. -/
theorem unbound_of_confined {σ : Subst} {vars : List Nat} (hvars : ∀ v ∈ vars, σ.get? v = none)
    (h : (checkProgram catalog checkEffects p).session.Confined (σ.Spares vars) σ) :
    ∀ v ∈ vars, (checkProgram catalog checkEffects p).subst.get? v = none := by
  intro v hv
  by_cases hflag : (checkProgram catalog checkEffects p).solved = true
  · rw [subst_eq_solution hflag, h.moves.outside v]
    · exact hvars v hv
    · rw [Subst.spares_of_unbound (hvars v hv)]
      exact fun hspared => hspared hv
  · rw [TypeCheck.subst, if_neg hflag]
    rfl

section Quantified

variable {cx : Context} {s r : Session} {ty : Option TypeExpr} {e : Expr} {t : Ty}
  {vars : List Nat} (hlet : (letType cx ty e).run s = (t, r))
  (hfailure : (r.solver.solve r.constraints).failure = none)
  (hvars : ∀ v ∈ vars, v ∈ (r.solution.apply t).vars)
  (hrigid : ∀ v ∈ vars, v ∉ cx.rigidVars (Event.solve.apply r))

include hlet in
theorem letType_grows : Grows s r := by
  have hgrows := (letType_keeps (U := fun _ => True) cx ty e).growing s
  rwa [after, hlet] at hgrows

include hlet hfailure hvars hrigid in
/-- Nothing but what the `let` has taken leads to the variables that it quantifies. -/
theorem Program.let_spares (hcatalog : catalog.Closed) {st : Stmt}
    (hreach : Reaches (p.walk catalog checkEffects) (.stmt cx st, s))
    (hshown : ∀ v ∈ vars, ¬cx.Shows r.solution v) :
    cx.Over (r.solution.Spares vars) ∧
      (Event.solve.apply r).Confined (r.solution.Spares vars) r.solution ∧
      (∀ w < s.nextVar, r.solution.Spares vars w) ∧
      ∀ w, r.nextVar ≤ w → r.solution.Spares vars w := by
  have hgrows := letType_grows hlet
  obtain ⟨hs, -⟩ := p.start_below hcatalog hreach (Nat.le_refl _)
  obtain ⟨hsr, hbelow⟩ := p.start_below hcatalog hreach hgrows.nextVar
  have hsolved := (hgrows.solving hs.solving).solved hfailure
  have hsubst : (Event.solve.apply r).solver.subst = r.solution := hsolved.subst_eq
  have hsame : cx.scope.catalog = catalog := hreach.sameTypes.2
  have hcx : cx.Over (r.solution.Spares vars) := by
    rw [← hsubst] at hshown ⊢
    exact cx.over_spares (hsame ▸ hcatalog.aliases) hrigid hshown
  have hpending : ∀ d ∈ r.deferred.toList, ∀ u ∈ d.types, u.Over (r.solution.Spares vars) := by
    intro d hd u hu
    rw [← hsubst]
    refine cx.pending_spares hrigid u (List.mem_append_left _ (List.mem_append_left _ ?_))
    exact List.mem_flatMap.mpr ⟨d, hd, hu⟩
  refine ⟨hcx, ⟨.refl r.solution_triangular.closed_spares, hpending, hsolved.solving⟩,
    fun w hw => ?_, fun w hw => ?_⟩
  · refine letType_spares_old hs hlet hvars hcx (fun d hd => hpending d ?_) hw
    obtain ⟨l, hl⟩ := hgrows.deferred
    rw [hl]
    exact List.mem_append_left l hd
  · have hkeeps := (letType_keeps cx ty e).keeps hbelow {} s hsr
    rw [after, hlet] at hkeeps
    obtain ⟨hr, ht⟩ := hkeeps fun w _ hlt => hlt
    exact spares_new hr ht hvars hw

end Quantified

/-- No variable that a `let` quantifies is bound in the end, provided that no generic parameter
in scope, nor `Self`, nor a constructor, leads to it when it is quantified. -/
theorem quantified_stays_unbound (catalog : Catalog) (hcatalog : catalog.Closed)
    (checkEffects : Bool) (p : Program) {cx : Context} {s : Session} {span : Span}
    {pattern : Pattern} {ty : Option TypeExpr} {e : Expr} {mutable : Bool}
    (hreach : Reaches (p.walk catalog checkEffects)
      (.stmt cx (.letBind span pattern ty (some e) mutable), s))
    {x : String} (hx : cx.generalizes? pattern true mutable = some x) {scheme : Scheme}
    (hscheme : ((checkStmt cx (.letBind span pattern ty (some e) mutable)).run s).1.lookup x =
      some scheme)
    (hshown : ∀ v ∈ scheme.vars, ¬cx.Shows
      (after (checkStmt cx (.letBind span pattern ty (some e) mutable)) s).solver.subst v) :
    ∀ v ∈ scheme.vars, (checkProgram catalog checkEffects p).subst.get? v = none := by
  rcases hlet : (letType cx ty e).run s with ⟨t, r⟩
  obtain ⟨hrun, hnone | ⟨hfailure, hbody⟩⟩ := checkStmt_quantifies cx hx hlet hscheme
  · simp [hnone]
  · obtain ⟨hs, -⟩ := p.start_below hcatalog hreach (Nat.le_refl _)
    have hsubst : (Event.solve.apply r).solver.subst = r.solution :=
      (((letType_grows hlet).solving hs.solving).solved hfailure).subst_eq
    rw [after, hrun, hsubst] at hshown
    rw [Solver.apply, hsubst] at hbody
    have hquantified : ∀ v ∈ scheme.vars, v ∈ (r.solution.apply t).vars ∧
        v ∉ cx.rigidVars (Event.solve.apply r) := by
      intro v hv
      simpa [hbody, Scheme.generalize] using hv
    obtain ⟨hcx, hafter, hold, hnew⟩ := p.let_spares hlet hfailure
      (fun v hv => (hquantified v hv).1) (fun v hv => (hquantified v hv).2) hcatalog hreach hshown
    have hover : scheme.Over (r.solution.Spares scheme.vars) := by
      rw [hbody]
      exact r.solution_triangular.generalize_over _ t
    have hgives : (Task.stmt cx (.letBind span pattern ty (some e) mutable)).Gives
        (r.solution.Spares scheme.vars) s := by
      rw [Task.Gives, hrun]
      exact hcx.env.bind x hover
    have hleft : (Task.stmt cx (.letBind span pattern ty (some e) mutable)).after s =
        Event.solve.apply r := congrArg Prod.snd hrun
    refine unbound_of_confined (fun v hv => ?_) (p.confined_session hcatalog hreach hold
      (fun w hw => hnew w (by rwa [hleft] at hw)) (hleft ▸ hafter) hgives)
    exact r.solution_triangular.avoids_apply t v (hquantified v hv).1

end Program

/-- The first statement of the only function is checked first. -/
theorem Program.reaches_first {catalog : Catalog} {checkEffects : Bool} {p : Program}
    {f : FunctionDef} {span : Span} {st : Stmt} {rest : List Stmt} {tail : Option Expr}
    {sig : Signature} (hp : p.items = [.function f]) (hcontracts : f.contracts = [])
    (hbody : f.body = some ⟨span, st :: rest, tail⟩)
    (hsig : (p.present catalog).1.signatures.get? f.name.node = some sig) :
    Reaches (p.walk catalog checkEffects)
      (.stmt (bodyContext (p.context catalog checkEffects) f f.name.node sig).pushScope st,
        (p.present catalog).2) := by
  have hfunction : Reaches (p.walk catalog checkEffects) (.function
      (p.context catalog checkEffects) (p.present catalog).1 f f.name.node,
      (p.present catalog).2) := by
    rw [walk, hp]
    exact .single List.mem_cons_self
  have hblock : Reaches (p.walk catalog checkEffects) (.block
      (bodyContext (p.context catalog checkEffects) f f.name.node sig) ⟨span, st :: rest, tail⟩,
      (p.present catalog).2) := by
    refine hfunction.tail ?_
    simp only [Task.calls, hbody, hsig, hcontracts]
    exact List.mem_cons_of_mem _ (List.mem_singleton_self _)
  exact (hblock.tail List.mem_cons_self).tail List.mem_cons_self

theorem Catalog.closed_empty : Catalog.empty.Closed := by
  refine ⟨?_, ?_, ?_, ?_⟩ <;> simp [empty, Methods.find?]

namespace UseTwice

open Build

/-- `let f = |x| x;`. -/
def identity : Stmt := letIdent "f" (lambda ["x"] (ident "x"))

/-- `fn twice<T>(q: T) { let f = |x| x; let a = f(1); let b = f(true); }`. -/
def function : FunctionDef :=
  functionOf "twice" [.generic "T", .param "q" (some (type "T")),
    .body (block [identity, letIdent "a" (call (ident "f") [int 1]),
      letIdent "b" (call (ident "f") [literal (.bool true)])] none)]

def program : Program where
  items := [.function function]

def signature : Signature := ⟨[.var 0], .unit, .empty, [("T", .var 0)]⟩

def context : Context :=
  (bodyContext (program.context .empty true) function "twice" signature).pushScope

theorem reaches_identity : Reaches (program.walk .empty true)
    (.stmt context identity, (program.present .empty).2) := by
  have hsignature : (program.present .empty).1.signatures.get? "twice" = some signature := by cbv
  exact Program.reaches_first rfl rfl rfl hsignature

/-- The parameter is in scope, and stands for another variable than the one quantified. -/
theorem not_shown : ¬context.Shows
    (after (checkStmt context identity) (program.present .empty).2).solver.subst 1 := by
  have hparams : context.scope.params = [⟨[("T", .var 0)]⟩] := by cbv
  have hself : context.scope.selfTy = none := by cbv
  have hconstructors : context.constructors = .empty := by cbv
  have hvars : ((after (checkStmt context identity)
      (program.present .empty).2).solver.subst.apply (.var 0)).vars = [0] := by cbv
  intro h
  cases h with
  | @param name t h hv =>
    have ht : t = .var 0 := by
      simp only [TypeScope.param?, hparams, List.findSome?_cons, List.findSome?_nil, Table.get?,
        Table.find] at h
      split at h
      · rename_i hname
        split at hname <;> simp_all
      · cases h
    rw [ht, hvars] at hv
    simp at hv
  | self h hv => simp [hself] at h
  | constructor h hw hv => simp [hconstructors] at h

end UseTwice

open UseTwice in
theorem twice_quantified_unbound :
    (checkProgram .empty true program).ok = true ∧
      Reaches (program.walk .empty true) (.stmt context identity, (program.present .empty).2) ∧
      ((checkStmt context identity).run (program.present .empty).2).1.lookup "f" =
        some ⟨[1], .fn [.var 1] (.var 1) .openRow⟩ ∧
      (checkProgram .empty true program).subst.get? 1 = none := by
  have hok : (checkProgram .empty true program).ok = true := by cbv
  have hname : context.generalizes? (Build.patIdent "f") true false = some "f" := by cbv
  have hscheme : ((checkStmt context identity).run (program.present .empty).2).1.lookup "f" =
      some ⟨[1], .fn [.var 1] (.var 1) .openRow⟩ := by cbv
  refine ⟨hok, reaches_identity, hscheme, ?_⟩
  exact quantified_stays_unbound .empty Catalog.closed_empty true program reaches_identity hname
    hscheme (List.forall_mem_singleton.mpr not_shown) 1 (by simp)

namespace LooseParameter

open Build

/-- `let y: T = loop {};`. -/
def bindLoop : Stmt := letPattern (patIdent "y") (some (type "T")) (expr (.loop (block [] none)))

/-- `fn f<T>() { let y: T = loop {}; let n: i32 = y; let z: T = y; }`. -/
def function : FunctionDef :=
  functionOf "f" [.generic "T", .body (block [bindLoop,
    letPattern (patIdent "n") (some (type "i32")) (ident "y"),
    letPattern (patIdent "z") (some (type "T")) (ident "y")] none)]

def program : Program where
  items := [.function function]

def signature : Signature := ⟨[], .unit, .empty, [("T", .var 0)]⟩

theorem reaches_bindLoop : Reaches (program.walk .empty true) (.stmt
    (bodyContext (program.context .empty true) function "f" signature).pushScope bindLoop,
    (program.present .empty).2) := by
  have hsignature : (program.present .empty).1.signatures.get? "f" = some signature := by cbv
  exact Program.reaches_first rfl rfl rfl hsignature

end LooseParameter

open LooseParameter in
/-- The variable of the parameter is quantified by the first `let`, so the second may use it as
an integer, and the third binds it. -/
theorem looseParameter_binds_quantified :
    (checkProgram .empty true program).ok = true ∧
      (∃ cx s, Reaches (program.walk .empty true) (.stmt cx bindLoop, s) ∧
        cx.generalizes? (Build.patIdent "y") true false = some "y" ∧
        ((checkStmt cx bindLoop).run s).1.lookup "y" = some ⟨[1], .var 1⟩) ∧
      (checkProgram .empty true program).subst.get? 1 = some (.var 3) := by
  have hrun : (fun c : TypeCheck => (c.ok, c.subst.get? 1)) (checkProgram .empty true program) =
      (true, some (.var 3)) := by cbv
  obtain ⟨hok, hbound⟩ := Prod.mk.inj hrun
  exact ⟨hok, ⟨_, _, reaches_bindLoop, by cbv, by cbv⟩, hbound⟩

end Sema
