import Sema.Proofs.Solver.Locality
import Sema.Proofs.Typing.Settling

/-!
# The variables that a check can touch

A check sees type variables only through its context, and takes new ones. If the variables of
the context and those it takes are in a set that is closed under what has been solved so far,
then everything it gives and collects is over the set, and the solver moves only within it.
`Keeps` says this for one function of the checker, and composes along the steps of a check.
-/

namespace Sema

theorem Table.mem_of_mem_place {κ α : Type} [DecidableEq κ] [LT κ] [DecidableLT κ] {k : κ}
    {a : α} {l : List (κ × α)} {x : κ × α} (h : x ∈ place k a l) : x = (k, a) ∨ x ∈ l := by
  induction l with
  | nil => simpa [place] using h
  | cons e r ih =>
    obtain ⟨j, b⟩ := e
    unfold place at h
    split at h
    · rcases List.mem_cons.mp h with h | h
      · exact .inl h
      · exact .inr (List.mem_cons_of_mem _ h)
    · split at h
      · exact List.mem_cons.mp h
      · rcases List.mem_cons.mp h with h | h
        · exact .inr (h ▸ List.mem_cons_self)
        · exact (ih h).imp_right (List.mem_cons_of_mem _)

theorem Table.mem_of_mem_insertAll {κ α : Type} [DecidableEq κ] [LT κ] [DecidableLT κ]
    {t : Table κ α} {l : List (κ × α)} {x : κ × α} (h : x ∈ (t.insertAll l).entries) :
    x ∈ t.entries ∨ x ∈ l := by
  induction l generalizing t with
  | nil => exact .inl h
  | cons e r ih =>
    rcases ih h with h | h
    · rcases mem_of_mem_place h with rfl | h
      · exact .inr List.mem_cons_self
      · exact .inl h
    · exact .inr (List.mem_cons_of_mem _ h)

theorem Table.mem_of_mem_ofList {κ α : Type} [DecidableEq κ] [LT κ] [DecidableLT κ]
    {l : List (κ × α)} {x : κ × α} (h : x ∈ (ofList l).entries) : x ∈ l := by
  rcases mem_of_mem_insertAll h with h | h
  · simp [empty] at h
  · exact h

theorem Table.mem_of_get? {κ α : Type} [DecidableEq κ] {t : Table κ α} {k : κ} {a : α}
    (h : t.get? k = some a) : (k, a) ∈ t.entries := by
  obtain ⟨l⟩ := t
  unfold get? at h
  induction l with
  | nil => simp [find] at h
  | cons e r ih =>
    obtain ⟨j, b⟩ := e
    by_cases hk : k = j
    · simp only [find, hk, if_true, Option.some.injEq] at h
      simp [hk, h]
    · simp only [find, hk, if_false] at h
      exact List.mem_cons_of_mem _ (ih h)

section Over

variable {U : Nat → Prop}

namespace Ty

theorem over_prim (p : Primitive) : (Ty.prim p).Over U := over_atom _

theorem over_unit : Ty.unit.Over U := over_atom _

theorem over_bool : Ty.bool.Over U := over_atom _

theorem over_named (n : String) : (Ty.named n).Over U := over_atom _

theorem over_array {t : Ty} : (Ty.array t).Over U ↔ t.Over U := by simp [array, over_app]

theorem over_tuple {l : List Ty} : (Ty.tuple l).Over U ↔ ∀ t ∈ l, t.Over U := by
  cases l <;> simp [tuple, over_app, over_unit]

theorem over_nominal {n : String} {l : List Ty} :
    (Ty.nominal n l).Over U ↔ ∀ t ∈ l, t.Over U := by
  cases l <;> simp [nominal, over_app, over_named]

end Ty

/-- The variables of the scheme that are not quantified are in the set. -/
def Scheme.Over (s : Scheme) (U : Nat → Prop) : Prop := ∀ v ∈ s.freeVars, U v

theorem Scheme.over_of_body {s : Scheme} (h : s.body.Over U) : s.Over U :=
  fun v hv => h v ((s.mem_freeVars v).mp hv).1

theorem Scheme.over_mono {t : Ty} (h : t.Over U) : (Scheme.mono t).Over U := over_of_body h

theorem Scheme.Over.mono {V : Nat → Prop} {s : Scheme} (h : s.Over U) (hUV : ∀ v, U v → V v) :
    s.Over V := fun v hv => hUV v (h v hv)

/-- An instance is over the set if the variables it takes are. -/
theorem Scheme.Over.instantiate {s : Scheme} (h : s.Over U) {next : Nat}
    (hnext : ∀ w, next ≤ w → w < next + s.vars.length → U w) :
    (s.instantiate next).1.Over U := by
  refine Ty.over_replace.mpr fun v hv => ?_
  by_cases hmem : v ∈ s.vars
  · obtain ⟨n, hle, hlt, hn⟩ := fresh_of_mem next hmem
    rw [hn]
    exact Ty.over_var.mpr (hnext n hle hlt)
  · rw [fresh_of_not_mem next hmem]
    exact Ty.over_var.mpr (h v ((s.mem_freeVars v).mpr ⟨hv, hmem⟩))

/-- Every name that can be looked up has a scheme over the set. -/
def Env.Over (e : Env) (U : Nat → Prop) : Prop := ∀ name s, e.lookup name = some s → s.Over U

namespace Env

variable {e : Env}

theorem Over.push (h : e.Over U) : e.push.Over U := fun name s hs => h name s hs

theorem Over.bind (h : e.Over U) (name : String) {s : Scheme} (hs : s.Over U) :
    (e.bind name s).Over U := by
  intro other t ht
  rw [lookup_bind] at ht
  split at ht
  · cases ht
    exact hs
  · exact h other t ht

theorem Over.bindAll (h : e.Over U) {l : List (String × Ty)} (hl : ∀ x ∈ l, x.2.Over U) :
    (e.bindAll l).Over U := by
  unfold Env.bindAll
  induction l generalizing e with
  | nil => exact h
  | cons x l ih =>
    exact ih (h.bind _ (Scheme.over_mono (hl x (by simp)))) fun y hy => hl y (by simp [hy])

theorem Over.bindGlobal (h : e.Over U) (name : String) {s : Scheme} (hs : s.Over U) :
    (e.bindGlobal name s).Over U := by
  intro other t ht
  have hsplit : ∀ e : Env, e.lookup other =
      (e.inner.findSome? (·.get? other)).or (e.root.get? other) := by
    intro e
    simp [lookup, scopes, List.findSome?_append]
  have hold := h other t
  rw [hsplit] at ht hold
  simp only [Env.bindGlobal, Table.get?_insert] at ht
  cases hin : e.inner.findSome? (·.get? other) with
  | some u =>
    rw [hin] at ht hold
    exact hold ht
  | none =>
    rw [hin, Option.none_or] at ht hold
    split at ht
    · cases ht
      exact hs
    · exact hold ht

end Env

/-- All types that a scope can give to a name are over the set. -/
structure TypeScope.Over (sc : TypeScope) (U : Nat → Prop) : Prop where
  params : ∀ name t, sc.param? name = some t → t.Over U
  selfTy : ∀ t, sc.selfTy = some t → t.Over U
  aliases : ∀ name t, sc.catalog.aliases.get? name = some t → t.Over U

theorem TypeScope.Over.enter {sc : TypeScope} (h : sc.Over U) {l : List (String × Ty)}
    (hl : ∀ x ∈ l, x.2.Over U) : (sc.enter (.ofList l)).Over U := by
  refine ⟨fun name t ht => ?_, h.selfTy, h.aliases⟩
  simp only [param?, TypeScope.enter, List.findSome?_cons] at ht
  split at ht
  · rename_i u hu
    cases ht
    exact hl _ (Table.mem_of_mem_ofList (Table.mem_of_get? hu))
  · exact h.params name t ht

/-- All types that a context holds are over the set. -/
structure Context.Over (cx : Context) (U : Nat → Prop) : Prop where
  scope : cx.scope.Over U
  env : cx.env.Over U
  constructors : ∀ name s, cx.constructors.get? name = some s → s.Over U
  frames : ∀ f ∈ cx.frames, f.ret.Over U
  loops : ∀ t, some t ∈ cx.loops → t.Over U

namespace Context.Over

variable {cx : Context}

theorem mono {V : Nat → Prop} (h : cx.Over U) (hUV : ∀ v, U v → V v) : cx.Over V where
  scope := ⟨fun name t ht => (h.scope.params name t ht).mono hUV,
    fun t ht => (h.scope.selfTy t ht).mono hUV, fun name t ht => (h.scope.aliases name t ht).mono hUV⟩
  env name s hs := (h.env name s hs).mono hUV
  constructors name s hs := (h.constructors name s hs).mono hUV
  frames f hf := (h.frames f hf).mono hUV
  loops t ht := (h.loops t ht).mono hUV

theorem withEnv (h : cx.Over U) {env : Env} (henv : env.Over U) :
    ({ cx with env } : Context).Over U := { h with env := henv }

theorem pushScope (h : cx.Over U) : cx.pushScope.Over U := h.withEnv h.env.push

theorem bindAll (h : cx.Over U) {l : List (String × Ty)} (hl : ∀ x ∈ l, x.2.Over U) :
    (cx.bindAll l).Over U := h.withEnv (h.env.bindAll hl)

theorem enterParams (h : cx.Over U) {l : List (String × Ty)} (hl : ∀ x ∈ l, x.2.Over U) :
    (cx.enterParams (.ofList l)).Over U := { h with scope := h.scope.enter hl }

theorem enterLoop (h : cx.Over U) {value : Option Ty} (hvalue : ∀ t, value = some t → t.Over U) :
    (cx.enterLoop value).Over U := by
  refine { h with loops := fun t ht => ?_ }
  rcases List.mem_cons.mp ht with ht | ht
  · exact hvalue t ht.symm
  · exact h.loops t ht

theorem enterLoop_none (h : cx.Over U) : (cx.enterLoop none).Over U := h.enterLoop nofun

theorem enterLoop_some (h : cx.Over U) {t : Ty} (ht : t.Over U) :
    (cx.enterLoop (some t)).Over U :=
  h.enterLoop fun _ heq => Option.some.inj heq ▸ ht

end Context.Over

end Over

/-- The solution of all constraints collected so far, up to the first failure. -/
def Session.solution (s : Session) : Subst := (Solver.run {} s.constraints.toList).subst

theorem Session.solution_constrain (s : Session) (c : Constraint) :
    ((Event.constrain c).apply s).solution =
      ((Solver.run {} s.constraints.toList).run [c]).subst := by
  simp [solution, Event.apply, Solver.run_append]

/-- The set is closed under the solution, outside it the solution is that of `τ`, and the member
accesses that wait are over the set. -/
structure Session.Confined (U : Nat → Prop) (τ : Subst) (s : Session) : Prop where
  moves : τ.Moves U s.solution
  deferred : ∀ d ∈ s.deferred.toList, ∀ t ∈ d.types, t.Over U
  solving : s.Solving

/-- The variables taken between the two sessions are in the set. -/
def Takes (U : Nat → Prop) (s t : Session) : Prop := ∀ w, s.nextVar ≤ w → w < t.nextVar → U w

theorem Takes.left {U : Nat → Prop} {r s t : Session} (h : Takes U r t) (hst : Grows s t) :
    Takes U r s :=
  fun w hle hlt => h w hle (Nat.lt_of_lt_of_le hlt hst.nextVar)

theorem Takes.right {U : Nat → Prop} {r s t : Session} (h : Takes U r t) (hrs : Grows r s) :
    Takes U s t :=
  fun w hle hlt => h w (Nat.le_trans hrs.nextVar hle) hlt

/-- The check only adds; and where `P` holds it stays within the set, and its result has
`Q`. -/
structure Keeps (U : Nat → Prop) {α : Type} (P : Prop) (m : Check α) (Q : α → Prop) : Prop where
  growing : Growing m
  keeps : P → ∀ τ s, s.Confined U τ → Takes U s (after m s) →
    (after m s).Confined U τ ∧ Q (m.run s).1

namespace Keeps

variable {U : Nat → Prop} {α β : Type} {A P : Prop} {Q Q' : α → Prop} {R : β → Prop}

theorem pure {a : α} (h : P → Q a) : Keeps U P (pure a : Check α) Q :=
  ⟨.pure a, fun hP _ _ hs _ => ⟨hs, h hP⟩⟩

theorem bind {m : Check α} {f : α → Check β} (hm : Keeps U P m Q)
    (hf : ∀ a, Keeps U (P ∧ Q a) (f a) R) : Keeps U P (m >>= f) R where
  growing := hm.growing.bind fun a => (hf a).growing
  keeps hP τ s hs ht := by
    have hrest := (hf (m.run s).1).growing (after m s)
    obtain ⟨hmid, hQ⟩ := hm.keeps hP τ s hs (ht.left hrest)
    exact (hf _).keeps ⟨hP, hQ⟩ τ _ hmid (ht.right (hm.growing s))

theorem weaken {m : Check α} (hm : Keeps U P m Q) (hP : A → P) (hQ : A → ∀ a, Q a → Q' a) :
    Keeps U A m Q' :=
  ⟨hm.growing, fun h τ s hs ht =>
    (hm.keeps (hP h) τ s hs ht).imp_right (hQ h _)⟩

theorem given {m : Check α} (hm : Keeps U P m Q) (hP : A → P) : Keeps U A m Q :=
  hm.weaken hP fun _ _ => id

/-- A step whose result does not matter. -/
theorem andThen {m : Check α} {f : α → Check β} (hm : Keeps U P m Q)
    (hf : ∀ a, Keeps U P (f a) R) : Keeps U P (m >>= f) R :=
  hm.bind fun a => (hf a).given And.left

theorem forM {f : α → Check Unit} (hf : ∀ a, Keeps U P (f a) fun _ => True) (l : List α) :
    Keeps U P (l.forM f) fun _ => True := by
  induction l with
  | nil => exact .pure fun _ => trivial
  | cons a l ih => exact (hf a).andThen fun _ => ih

theorem forIn {f : α → Check Unit} (hf : ∀ a, Keeps U P (f a) fun _ => True) (l : List α) :
    Keeps U P (forIn l PUnit.unit fun a _ => do
      f a
      Pure.pure (ForInStep.yield PUnit.unit) : Check PUnit) fun _ => True := by
  induction l with
  | nil => exact .pure fun _ => trivial
  | cons a l ih =>
    rw [List.forIn_cons]
    refine ((hf a).andThen fun _ => .pure (Q := fun _ => True) fun _ => trivial).andThen fun r => ?_
    cases r with
    | done _ => exact .pure fun _ => trivial
    | yield _ => exact ih

/-- Events that touch neither variables nor constraints nor accesses. -/
theorem idle {m : Check α} (hm : Growing m) (hsame : ∀ s, (after m s).constraints = s.constraints ∧
    (after m s).deferred = s.deferred) : Keeps U P m fun _ => True where
  growing := hm
  keeps _ τ s hs _ := by
    obtain ⟨hc, hd⟩ := hsame s
    refine ⟨⟨?_, ?_, (hm s).solving hs.solving⟩, trivial⟩
    · rw [Session.solution, hc]
      exact hs.moves
    · rw [hd]
      exact hs.deferred

end Keeps

section Session

variable {U : Nat → Prop} {P : Prop}

theorem freshVar_keeps : Keeps U P freshVar U where
  growing := freshVar_notes.growing
  keeps _ _ s hs ht :=
    ⟨⟨hs.moves, hs.deferred, (freshVar_notes.growing s).solving hs.solving⟩,
      ht s.nextVar (Nat.le_refl _) (Nat.lt_succ_self _)⟩

theorem fresh_keeps : Keeps U P fresh (·.Over U) :=
  freshVar_keeps.bind fun _ => .pure fun h => Ty.over_var.mpr h.2

theorem freshMany_keeps (n : Nat) : Keeps U P (freshMany n) fun l => ∀ t ∈ l, t.Over U := by
  induction n generalizing P with
  | zero => exact .pure fun _ => by simp
  | succ n ih =>
    exact fresh_keeps.bind fun t => ih.bind fun l => .pure fun h =>
      List.forall_mem_cons.mpr ⟨h.1.2, h.2⟩

theorem instantiate_keeps (s : Scheme) : Keeps U (s.Over U) (instantiate s) (·.Over U) where
  growing := (instantiate_notes s).growing
  keeps h _ r hr ht :=
    ⟨⟨hr.moves, hr.deferred, ((instantiate_notes s).growing r).solving hr.solving⟩,
      h.instantiate ht⟩

theorem constrain_keeps (expected actual : Ty) (span : Span) (origin : Origin) :
    Keeps U (expected.Over U ∧ actual.Over U) (constrain expected actual span origin)
      fun _ => True where
  growing := constrain_growing _ _ _ _
  keeps h τ s hs _ := by
    let c : Constraint := { expected, actual, span, origin }
    have hc : ∀ d ∈ [c], d.Over U := List.forall_mem_singleton.mpr h
    have hlast : s.solution.Moves U ((Event.constrain c).apply s).solution := by
      rw [s.solution_constrain c]
      exact Solver.run_moves hs.moves.closed hc
    exact ⟨⟨hs.moves.trans hlast, hs.deferred,
      (constrain_growing _ _ _ _ s).solving hs.solving⟩, trivial⟩

theorem report_keeps (fault : TypeFault) (span : Span) :
    Keeps U P (report fault span) fun _ => True :=
  .idle (report_growing _ _) fun _ => ⟨rfl, rfl⟩

theorem reportFresh_keeps (fault : TypeFault) (span : Span) :
    Keeps U P (reportFresh fault span) (·.Over U) :=
  (report_keeps _ _).andThen fun _ => fresh_keeps

theorem record_keeps (id : ExprId) (t : Ty) : Keeps U P (record id t) fun _ => True :=
  .idle (fun s => (Event.record id t).grows s) fun _ => ⟨rfl, rfl⟩

theorem defer_keeps (d : Deferred) : Keeps U (∀ t ∈ d.types, t.Over U) (defer d) fun _ => True where
  growing := (defer_quiet d).growing
  keeps h τ s hs _ := by
    refine ⟨⟨hs.moves, fun e he => ?_, ((defer_quiet d).growing s).solving hs.solving⟩, trivial⟩
    have hpush : e ∈ s.deferred.toList ++ [d] := by
      rw [← Array.toList_push]
      exact he
    rcases List.mem_append.mp hpush with he | he
    · exact hs.deferred e he
    · rw [List.mem_singleton.mp he]
      exact h

theorem supply_keeps (generics : List GenericParam) (types : List Ty) :
    Keeps U (∀ t ∈ types, t.Over U) (supply generics types) fun l => ∀ x ∈ l, x.2.Over U := by
  induction generics generalizing types with
  | nil => exact .pure fun _ => by simp
  | cons g r ih =>
    cases types with
    | nil =>
      refine fresh_keeps.bind fun t => ((ih []).given fun _ => by simp).bind fun l => ?_
      exact .pure fun h => List.forall_mem_cons.mpr ⟨h.1.2, h.2⟩
    | cons t ts =>
      refine ((ih ts).given fun h => (List.forall_mem_cons.mp h).2).bind fun l => ?_
      exact .pure fun h => List.forall_mem_cons.mpr ⟨h.1 t (by simp), h.2⟩

theorem instantiateNominal_keeps (name : String) (generics : List GenericParam) :
    Keeps U P (instantiateNominal name generics) fun x => x.1.Over U ∧
      ∃ l, x.2 = .ofList l ∧ ∀ y ∈ l, y.2.Over U := by
  refine ((supply_keeps generics []).given fun _ => by simp).bind fun params => .pure fun h => ?_
  exact ⟨Ty.over_nominal.mpr (List.forall_mem_map.mpr h.2), params, rfl, h.2⟩

end Session

section Lowering

variable {U : Nat → Prop}

theorem applyNominal_keeps (name : String) (arity : Nat) (args : List Ty) (span : Span) :
    Keeps U (∀ t ∈ args, t.Over U) (applyNominal name arity args span) (·.Over U) := by
  have hnamed : Keeps U (∀ t ∈ args, t.Over U) (pure (Ty.named name)) (·.Over U) :=
    .pure fun _ => Ty.over_named _
  have happ : Keeps U (∀ t ∈ args, t.Over U) (do
      return Ty.app name (args.take arity ++
        (← freshMany (arity - (args.take arity).length)))) (·.Over U) := by
    refine (freshMany_keeps _).bind fun l => .pure fun h => Ty.over_app.mpr fun t ht => ?_
    rcases List.mem_append.mp ht with ht | ht
    · exact h.1 t (List.mem_of_mem_take ht)
    · exact h.2 t ht
  unfold applyNominal
  split
  · split
    · exact (report_keeps _ _).andThen fun _ => hnamed
    · exact hnamed
  · split
    · exact (report_keeps _ _).andThen fun _ => happ
    · exact happ

theorem lowerName_keeps (sc : TypeScope) (name : String) (args : List Ty) (span : Span) :
    Keeps U (sc.Over U ∧ ∀ t ∈ args, t.Over U) (lowerName sc name args span) (·.Over U) := by
  unfold lowerName
  split
  · exact (applyNominal_keeps _ _ _ _).given And.right
  · split
    · rename_i t ht
      exact .pure fun h => h.1.aliases name t ht
    · split
      · exact .pure fun h => Ty.over_nominal.mpr h.2
      · split
        · exact .pure fun _ => Ty.over_prim _
        · exact reportFresh_keeps _ _

/-- The expansion of an alias is over the set if its scope and arguments are. -/
def Expander.Keeps (U : Nat → Prop) (expand : Expander) : Prop :=
  ∀ sc a args span, Sema.Keeps U (TypeScope.Over sc U ∧ ∀ t ∈ args, Ty.Over t U)
    (expand sc a args span) (·.Over U)

variable {expand : Expander}

theorem lowerPath_keeps (he : expand.Keeps U) (sc : TypeScope) (segments : List String)
    (args : List Ty) (span : Span) :
    Keeps U (sc.Over U ∧ ∀ t ∈ args, t.Over U) (lowerPath expand sc segments args span)
      (·.Over U) := by
  unfold lowerPath
  dsimp only
  split
  · rename_i t ht
    refine .pure fun h => ?_
    split at ht
    · exact h.1.params _ t ht
    · cases ht
  · split
    · split
      · rename_i t ht
        exact .pure fun h => h.1.selfTy t ht
      · exact reportFresh_keeps _ _
    · split
      · exact he _ _ _ _
      · exact lowerName_keeps _ _ _ _

mutual

theorem lowerWith_keeps (he : expand.Keeps U) (sc : TypeScope) : (t : TypeExpr) →
    Keeps U (sc.Over U) (lowerWith expand sc t) (·.Over U)
  | ⟨span, kind⟩ => by
    rw [lowerWith]
    exact lowerKind_keeps he sc span kind

theorem lowerKind_keeps (he : expand.Keeps U) (sc : TypeScope) (span : Span) :
    (k : TypeExprKind) → Keeps U (sc.Over U) (lowerKind expand sc span k) (·.Over U)
  | .primitive p => by
    rw [lowerKind]
    exact .pure fun _ => Ty.over_prim p
  | .path segments args => by
    rw [lowerKind]
    exact (lowerAll_keeps he sc args).bind fun _ => lowerPath_keeps he _ _ _ _
  | .branded base brand => by
    rw [lowerKind]
    exact (lowerWith_keeps he sc base).bind fun _ => .pure fun h => Ty.over_branded.mpr h.2
  | .function params ret effects => by
    rw [lowerKind]
    refine (lowerAll_keeps he sc params).bind fun _ => ?_
    cases ret with
    | none =>
      exact .bind (Q := (Ty.Over · U)) (.pure fun _ => Ty.over_unit) fun _ =>
        .pure fun h => Ty.over_fn.mpr ⟨h.1.2, h.2⟩
    | some ret =>
      exact ((lowerWith_keeps he sc ret).given And.left).bind fun _ =>
        .pure fun h => Ty.over_fn.mpr ⟨h.1.2, h.2⟩
  | .reference inner _ _ => by
    rw [lowerKind]
    exact lowerWith_keeps he sc inner
  | .tuple elems => by
    rw [lowerKind]
    exact (lowerAll_keeps he sc elems).bind fun _ => .pure fun h => Ty.over_tuple.mpr h.2
  | .array elem _ => by
    rw [lowerKind]
    exact (lowerWith_keeps he sc elem).bind fun _ => .pure fun h => Ty.over_array.mpr h.2

theorem lowerAll_keeps (he : expand.Keeps U) (sc : TypeScope) : (l : List TypeExpr) →
    Keeps U (sc.Over U) (lowerAll expand sc l) fun types => ∀ t ∈ types, t.Over U
  | [] => by
    rw [lowerAll]
    exact .pure fun _ => by simp
  | t :: r => by
    rw [lowerAll]
    exact (lowerWith_keeps he sc t).bind fun _ => ((lowerAll_keeps he sc r).given And.left).bind
      fun _ => .pure fun h => List.forall_mem_cons.mpr ⟨h.1.2, h.2⟩

end

theorem expandAlias_keeps (n : Nat) : (expandAlias n).Keeps U := by
  induction n with
  | zero => exact fun sc a args span => reportFresh_keeps _ _
  | succ n ih =>
    intro sc a args span
    have hbody : Keeps U (sc.Over U ∧ ∀ t ∈ args, t.Over U) (do
        let params ← supply a.generics args
        lowerWith (expandAlias n) { sc.enter (.ofList params) with
          resolving := a.name.node :: sc.resolving } a.target) (·.Over U) := by
      refine ((supply_keeps a.generics args).given And.right).bind fun params => ?_
      refine (lowerWith_keeps ih _ a.target).given fun h => ?_
      exact { h.1.1.enter h.2 with }
    simp only [expandAlias]
    split
    · exact reportFresh_keeps _ _
    · split
      · exact (report_keeps _ _).andThen fun _ => hbody
      · exact hbody

theorem lower_keeps (sc : TypeScope) (t : TypeExpr) :
    Keeps U (sc.Over U) (lower sc t) (·.Over U) :=
  lowerWith_keeps (expandAlias_keeps _) sc t

theorem lowerOr_keeps (sc : TypeScope) {otherwise : Check Ty}
    (ho : Keeps U (sc.Over U) otherwise (·.Over U)) (t : Option TypeExpr) :
    Keeps U (sc.Over U) (lowerOr sc otherwise t) (·.Over U) := by
  cases t with
  | none => exact ho
  | some t => exact lower_keeps sc t

end Lowering

section Patterns

variable {U : Nat → Prop} {P : Prop}

theorem literalType_keeps (lit : Literal) (span : Span) :
    Keeps U P (literalType lit span) (·.Over U) := by
  unfold literalType
  split
  · exact .pure fun _ => Ty.over_unit
  · split
    · exact .pure fun _ => Ty.over_prim _
    · split
      · exact .pure fun _ => Ty.over_prim _
      · exact (report_keeps _ _).andThen fun _ => .pure fun _ => Ty.over_prim _

theorem checkLiteral_keeps (lit : Literal) (expected : Ty) (span : Span) :
    Keeps U (expected.Over U) (checkLiteral lit expected span) fun _ => True :=
  (literalType_keeps _ _).bind fun _ => constrain_keeps _ _ _ _

/-- The names of a pattern have types over the set. -/
abbrev Bound.Over (l : Bound) (U : Nat → Prop) : Prop := ∀ x ∈ l, x.2.Over U

theorem agree_keeps (first : Table String Ty) (span : Span)
    (alternative : Span × Table String Ty) :
    Keeps U ((∀ x ∈ first.entries, x.2.Over U) ∧ ∀ x ∈ alternative.2.entries, x.2.Over U)
      (agree first span alternative) fun _ => True := by
  unfold agree
  split
  · generalize first.entries = l, alternative.2.entries = k
    induction l generalizing k with
    | nil => exact .pure fun _ => trivial
    | cons a l ih =>
      cases k with
      | nil => exact .pure fun _ => trivial
      | cons b k =>
        refine ((constrain_keeps a.2 b.2 span .pattern).given fun h => ?_).andThen fun _ =>
          (ih k).given fun h => ?_
        · exact ⟨h.1 a (by simp), h.2 b (by simp)⟩
        · exact ⟨fun x hx => h.1 x (by simp [hx]), fun x hx => h.2 x (by simp [hx])⟩
  · exact report_keeps _ _

theorem fieldType_keeps (sc : TypeScope) (d : StructDef) (struct : String) (name : Ident) :
    Keeps U (sc.Over U) (fieldType sc d struct name) (·.Over U) := by
  unfold fieldType
  split
  · exact lower_keeps _ _
  · exact reportFresh_keeps _ _

theorem checkMentioned_keeps (d : StructDef) (struct : String) (mentioned : List String)
    (span : Span) : Keeps U P (checkMentioned d struct mentioned span) fun _ => True := by
  unfold checkMentioned
  dsimp only
  split
  · exact report_keeps _ _
  · exact .pure fun _ => trivial

theorem Context.Over.valueConstructor {cx : Context} (h : cx.Over U) {name : String} {s : Scheme}
    (hs : cx.valueConstructor? name = some s) : s.Over U := by
  unfold valueConstructor? at hs
  split at hs
  · exact h.constructors name s (Option.eq_some_of_filter_eq_some hs)
  · cases hs

theorem Bound.over_append {l k : Bound} (hl : l.Over U) (hk : k.Over U) :
    Bound.Over (l ++ k) U := fun x hx => (List.mem_append.mp hx).elim (hl x) (hk x)

mutual

theorem checkPattern_keeps (cx : Context) : (p : Pattern) → (expected : Ty) →
    Keeps U (cx.Over U ∧ expected.Over U) (checkPattern cx p expected) (Bound.Over · U)
  | .wildcard _, expected => by
    rw [checkPattern]
    exact .pure fun _ => by simp [Bound.Over]
  | .ident span name _ _, expected => by
    rw [checkPattern]
    split
    · rename_i s hs
      refine ((instantiate_keeps s).given fun h => h.1.valueConstructor hs).bind fun t => ?_
      exact ((constrain_keeps expected t span .pattern).given fun h => ⟨h.1.2, h.2⟩).andThen
        fun _ => .pure fun _ => by simp [Bound.Over]
    · exact .pure fun h => List.forall_mem_singleton.mpr h.2
  | .literal span value, expected => by
    rw [checkPattern]
    exact ((checkLiteral_keeps value expected span).given And.right).andThen
      fun _ => .pure fun _ => by simp [Bound.Over]
  | .range span start stop _, expected => by
    rw [checkPattern]
    exact (Keeps.forIn (fun lit => (checkLiteral_keeps lit expected span).given And.right)
      _).andThen fun _ => .pure fun _ => by simp [Bound.Over]
  | .tuple span elems, expected => by
    rw [checkPattern]
    refine (freshMany_keeps elems.length).bind fun types => ?_
    refine ((constrain_keeps expected (.tuple types) span .pattern).given fun h =>
      ⟨h.1.2, Ty.over_tuple.mpr h.2⟩).andThen fun _ => ?_
    exact (checkPatterns_keeps cx elems types).given fun h => ⟨h.1.1, h.2⟩
  | .struct span name fields rest, expected => by
    rw [checkPattern]
    dsimp only
    split
    · refine (report_keeps _ _).andThen fun _ => ?_
      exact (checkFields_keeps cx _ fields fun _ => fresh_keeps).given fun h => ⟨h.1, trivial⟩
    · rename_i d _
      refine (instantiateNominal_keeps _ d.generics).bind fun x => ?_
      obtain ⟨type, params⟩ := x
      refine ((constrain_keeps expected type span .pattern).given fun h =>
        ⟨h.1.2, h.2.1⟩).andThen fun _ => ?_
      have hinside : (cx.Over U ∧ expected.Over U) ∧ type.Over U ∧
          (∃ l, params = .ofList l ∧ ∀ y ∈ l, y.2.Over U) → (cx.enterParams params).Over U := by
        rintro ⟨⟨hcx, _⟩, _, l, rfl, hl⟩
        exact hcx.enterParams hl
      refine ((checkFields_keeps (cx.enterParams params) _ fields fun n =>
        (fieldType_keeps _ d _ n)).given fun h => ?_).bind fun bound => ?_
      · exact ⟨hinside h, (hinside h).scope⟩
      · dsimp only
        split
        · exact (checkMentioned_keeps _ _ _ _).andThen fun _ => .pure fun h => h.2
        · exact .pure fun h => h.2
  | .enum span path fields, expected => by
    rw [checkPattern]
    dsimp only
    split
    · exact (report_keeps _ _).andThen fun _ => (checkUnknown_keeps cx fields).given And.left
    · rename_i s hs
      refine ((instantiate_keeps s).given fun h => h.1.constructors _ s hs).bind fun t => ?_
      split
      · rename_i params ret e
        refine ((constrain_keeps expected ret span .pattern).given fun h =>
          ⟨h.1.2, (Ty.over_fn.mp h.2).2⟩).andThen fun _ => ?_
        have hfields : Keeps U ((cx.Over U ∧ expected.Over U) ∧ (Ty.fn params ret e).Over U)
            (checkPatterns cx fields params) (Bound.Over · U) :=
          (checkPatterns_keeps cx fields params).given fun h => ⟨h.1.1, (Ty.over_fn.mp h.2).1⟩
        split
        · exact (report_keeps _ _).andThen fun _ => hfields
        · exact hfields
      · refine ((constrain_keeps expected t span .pattern).given fun h =>
          ⟨h.1.2, h.2⟩).andThen fun _ => ?_
        split
        · exact (report_keeps _ _).andThen fun _ => .pure fun _ => by simp [Bound.Over]
        · exact .pure fun _ => by simp [Bound.Over]
  | .or span [], expected => by
    rw [checkPattern]
    exact .pure fun _ => by simp [Bound.Over]
  | .or span (p :: rest), expected => by
    rw [checkPattern]
    refine (checkPattern_keeps cx p expected).bind fun l => ?_
    have hfirst : Bound.Over l U → ∀ x ∈ (Table.ofList l).entries, x.2.Over U :=
      fun h x hx => h x (Table.mem_of_mem_ofList hx)
    refine ((checkAlternatives_keeps cx rest expected span (.ofList l)).given fun h =>
      ⟨h.1, hfirst h.2⟩).andThen fun _ => ?_
    exact .pure fun h => hfirst h.2

theorem checkPatterns_keeps (cx : Context) : (l : List Pattern) → (types : List Ty) →
    Keeps U (cx.Over U ∧ ∀ t ∈ types, t.Over U) (checkPatterns cx l types) (Bound.Over · U)
  | [], _ => by
    rw [checkPatterns]
    · exact .pure fun _ => by simp [Bound.Over]
    · simp
  | _ :: _, [] => by
    rw [checkPatterns]
    · exact .pure fun _ => by simp [Bound.Over]
    · simp
  | p :: ps, t :: ts => by
    rw [checkPatterns]
    refine ((checkPattern_keeps cx p t).given fun h => ⟨h.1, h.2 t (by simp)⟩).bind fun _ => ?_
    refine ((checkPatterns_keeps cx ps ts).given fun h =>
      ⟨h.1.1, fun u hu => h.1.2 u (by simp [hu])⟩).bind fun _ => ?_
    exact .pure fun h => Bound.over_append h.1.2 h.2

theorem checkUnknown_keeps (cx : Context) : (l : List Pattern) →
    Keeps U (cx.Over U) (checkUnknown cx l) (Bound.Over · U)
  | [] => by
    rw [checkUnknown]
    exact .pure fun _ => by simp [Bound.Over]
  | p :: ps => by
    rw [checkUnknown]
    refine fresh_keeps.bind fun t => (checkPattern_keeps cx p t).bind fun _ => ?_
    refine ((checkUnknown_keeps cx ps).given fun h => h.1.1).bind fun _ => ?_
    exact .pure fun h => Bound.over_append h.1.2 h.2

theorem checkFields_keeps {P : Prop} (cx : Context) (type : Ident → Check Ty) :
    (l : List FieldPattern) → (∀ name, Keeps U P (type name) (·.Over U)) →
    Keeps U (cx.Over U ∧ P) (checkFields cx type l) (Bound.Over · U)
  | [], _ => by
    rw [checkFields]
    exact .pure fun _ => by simp [Bound.Over]
  | ⟨_, name, none⟩ :: r, ht => by
    rw [checkFields]
    refine ((ht name).given And.right).bind fun t => ?_
    refine .bind (Q := (Bound.Over · U)) (.pure fun h => List.forall_mem_singleton.mpr h.2)
      fun _ => ?_
    refine ((checkFields_keeps cx type r ht).given fun h => h.1.1).bind fun _ => ?_
    exact .pure fun h => Bound.over_append h.1.2 h.2
  | ⟨_, name, some p⟩ :: r, ht => by
    rw [checkFields]
    refine ((ht name).given And.right).bind fun t => ?_
    refine ((checkPattern_keeps cx p t).given fun h => ⟨h.1.1, h.2⟩).bind fun _ => ?_
    refine ((checkFields_keeps cx type r ht).given fun h => h.1.1).bind fun _ => ?_
    exact .pure fun h => Bound.over_append h.1.2 h.2

theorem checkAlternatives_keeps (cx : Context) : (l : List Pattern) → (expected : Ty) →
    (span : Span) → (first : Table String Ty) →
    Keeps U ((cx.Over U ∧ expected.Over U) ∧ ∀ x ∈ first.entries, x.2.Over U)
      (checkAlternatives cx l expected span first) fun _ => True
  | [], _, _, _ => by
    rw [checkAlternatives]
    exact .pure fun _ => trivial
  | p :: r, expected, span, first => by
    rw [checkAlternatives]
    refine ((checkPattern_keeps cx p expected).given And.left).bind fun l => ?_
    refine ((agree_keeps first span _).given fun h =>
      ⟨h.1.2, fun x hx => h.2 x (Table.mem_of_mem_ofList hx)⟩).andThen fun _ => ?_
    exact (checkAlternatives_keeps cx r expected span first).given And.left

end

end Patterns

end Sema
