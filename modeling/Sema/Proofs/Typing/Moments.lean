import Sema.Proofs.Typing.Passes
import Sema.Proofs.Typing.Steps

/-!
# The variables of a moment

At any moment of a check type variables occur in what the checker can see, in what it has found out,
and in what the step to come brings. A moment is over a set of variables if all of them are in it.
Work stays over a set if each of its steps does so, from whatever is over it, as long as the
variables that are taken are in it. Every moment of its run is then over the set, if the set has all
variables that were taken by then.
-/

namespace Sema

variable {U : Nat → Prop}

section Places

/-- Every binding, shadowed or not, is over the set. What the items quantify does not count, as it
may come from a catalog; what is quantified in a body does. -/
structure Env.Throughout (e : Env) (U : Nat → Prop) : Prop where
  root : ∀ name s, e.root.get? name = some s → s.Over U
  inner : ∀ scope ∈ e.inner, ∀ x ∈ scope.entries, x.2.body.Over U

namespace Env.Throughout

variable {e : Env}

theorem visible (h : e.Throughout U) : e.Over U := by
  intro name s hs
  obtain ⟨scope, hscope, hget⟩ := List.exists_of_findSome?_eq_some hs
  rcases List.mem_append.mp hscope with hinner | hroot
  · exact Scheme.over_of_body (h.inner scope hinner _ (Table.mem_of_get? hget))
  · exact h.root name s (List.mem_singleton.mp hroot ▸ hget)

theorem push (h : e.Throughout U) : e.push.Throughout U :=
  { h with inner := List.forall_mem_cons.mpr ⟨List.forall_mem_nil _, h.inner⟩ }

theorem pop (h : e.Throughout U) {scope : Scope} {outer : Env}
    (hpop : e.pop? = some (scope, outer)) :
    (∀ x ∈ scope.entries, x.2.body.Over U) ∧ outer.Throughout U := by
  obtain ⟨root, _ | ⟨top, inner⟩⟩ := e
  · cases hpop
  · cases hpop
    obtain ⟨htop, hinner⟩ := List.forall_mem_cons.mp h.inner
    exact ⟨htop, h.root, hinner⟩

theorem bindGlobal (h : e.Throughout U) (name : String) {s : Scheme} (hs : s.Over U) :
    (e.bindGlobal name s).Throughout U :=
  { h with root := Table.forall_get?_insert h.root name hs }

theorem bind (h : e.Throughout U) (name : String) {s : Scheme} (hs : s.body.Over U) :
    (e.bind name s).Throughout U := by
  obtain ⟨root, _ | ⟨scope, inner⟩⟩ := e
  · exact h.bindGlobal name (Scheme.over_of_body hs)
  · obtain ⟨htop, hinner⟩ := List.forall_mem_cons.mp h.inner
    refine ⟨h.root, List.forall_mem_cons.mpr ⟨fun x hx => ?_, hinner⟩⟩
    rcases Table.mem_of_mem_place hx with rfl | hx
    · exact hs
    · exact htop x hx

end Env.Throughout

/-- Every type parameter, shadowed or not, stands for a type over the set. -/
def TypeScope.Throughout (sc : TypeScope) (U : Nat → Prop) : Prop :=
  ∀ params ∈ sc.params, ∀ name t, params.get? name = some t → t.Over U

theorem TypeScope.Throughout.visible {sc : TypeScope} (h : sc.Throughout U) {name : String} {t : Ty}
    (ht : sc.param? name = some t) : t.Over U := by
  obtain ⟨params, hparams, hget⟩ := List.exists_of_findSome?_eq_some ht
  exact h params hparams name t hget

/-- All variables that can be seen at the place are in the set. -/
structure Place.Over (w : Place) (U : Nat → Prop) : Prop where
  context : w.context.Over U
  env : w.context.env.Throughout U
  params : w.context.scope.Throughout U
  interface : w.interface.Over U
  root : w.interface.env.Throughout U

namespace Place.Over

variable {w : Place}

theorem withEnv (h : w.Over U) {env : Env} (henv : env.Throughout U) :
    (w.onContext (·.withEnv env)).Over U :=
  { h with context := h.context.withEnv henv.visible, env := henv }

theorem pushScope (h : w.Over U) : (w.onContext (·.pushScope)).Over U := h.withEnv h.env.push

theorem bind (h : w.Over U) (name : String) {s : Scheme} (hs : s.body.Over U) :
    (w.onContext (·.bind name s)).Over U := h.withEnv (h.env.bind name hs)

theorem popScope (h : w.Over U) : (w.onContext (·.popScope)).Over U := by
  cases hpop : w.context.env.pop? with
  | none =>
    simp only [Place.onContext, Context.popScope, hpop]
    exact h
  | some x =>
    simp only [Place.onContext, Context.popScope, hpop]
    exact h.withEnv (h.env.pop hpop).2

/-- What the innermost scope binds. -/
theorem innermost (h : w.Over U) :
    ∀ x ∈ (w.context.innermost.map (·.body)).entries, x.2.Over U := by
  refine List.forall_mem_map.mpr fun x hx => ?_
  simp only [Context.innermost] at hx
  cases hpop : w.context.env.pop? with
  | none =>
    rw [hpop] at hx
    cases hx
  | some y =>
    rw [hpop] at hx
    exact (h.env.pop hpop).1 x hx

/-- Nothing of the scope counts but the types that names and `Self` stand for. -/
theorem onScope (h : w.Over U) {f : TypeScope → TypeScope}
    (hparams : (f w.context.scope).Throughout U)
    (hself : ∀ t, (f w.context.scope).selfTy = some t → t.Over U)
    (hcatalog : (f w.context.scope).catalog = w.context.scope.catalog) :
    (w.onContext (·.onScope f)).Over U where
  context := { h.context with
    scope := ⟨fun _ _ => hparams.visible, hself, hcatalog ▸ h.context.scope.aliases⟩ }
  env := h.env
  params := hparams
  interface := h.interface
  root := h.root

theorem enterParams (h : w.Over U) {params : Table String Ty}
    (hparams : ∀ name t, params.get? name = some t → t.Over U) :
    (w.onContext (·.enterParams params)).Over U :=
  h.onScope (f := (·.enter params)) (List.forall_mem_cons.mpr ⟨hparams, h.params⟩)
    h.context.scope.selfTy rfl

theorem leaveParams (h : w.Over U) : (w.onContext (·.leaveParams)).Over U :=
  h.onScope (fun params hp => h.params params (List.mem_of_mem_tail hp)) h.context.scope.selfTy rfl

theorem enterAlias (h : w.Over U) (name : String) : (w.onContext (·.enterAlias name)).Over U :=
  h.onScope h.params h.context.scope.selfTy rfl

theorem leaveAlias (h : w.Over U) : (w.onContext (·.leaveAlias)).Over U :=
  h.onScope h.params h.context.scope.selfTy rfl

theorem onDecls (h : w.Over U) (f : Declarations → Declarations) :
    (w.onContext (·.onDecls f)).Over U :=
  h.onScope h.params h.context.scope.selfTy rfl

theorem putSelf (h : w.Over U) {self : Option Ty} (hself : ∀ t, self = some t → t.Over U) :
    (w.onContext (·.putSelf self)).Over U := h.onScope h.params hself rfl

theorem enterFrame (h : w.Over U) {f : Frame} (hf : f.ret.Over U) :
    (w.onContext (·.enterFrame f)).Over U :=
  { h with
    context := { h.context with frames := List.forall_mem_cons.mpr ⟨hf, h.context.frames⟩ } }

theorem leaveFrame (h : w.Over U) : (w.onContext (·.leaveFrame)).Over U :=
  { h with
    context := { h.context with
      frames := fun f hf => h.context.frames f (List.mem_of_mem_tail hf) } }

theorem withLoops (h : w.Over U) {loops : List (Option Ty)}
    (hloops : ∀ t, some t ∈ loops → t.Over U) : (w.onContext (·.withLoops loops)).Over U :=
  { h with context := { h.context with loops := hloops } }

theorem enterLoop (h : w.Over U) {value : Option Ty} (hvalue : ∀ t, value = some t → t.Over U) :
    (w.onContext (·.enterLoop value)).Over U :=
  { h with context := h.context.enterLoop hvalue }

theorem leaveLoop (h : w.Over U) : (w.onContext (·.leaveLoop)).Over U :=
  h.withLoops fun t ht => h.context.loops t (List.mem_of_mem_tail ht)

theorem declare (h : w.Over U) {f : Interface → Interface} (hf : (f w.interface).Over U)
    (henv : (f w.interface).env.Throughout U) : (w.declare f).Over U :=
  ⟨{ h.context with env := henv.visible, constructors := hf.constructors }, henv, h.params, hf,
    henv⟩

theorem addFunction (h : w.Over U) (name : String) {s : Signature} (hs : s.Over U) :
    (w.declare (·.addFunction name s)).Over U :=
  h.declare (h.interface.addFunction name hs) (h.root.bindGlobal name hs.scheme)

theorem addConst (h : w.Over U) (name : String) {t : Ty} (ht : t.Over U) :
    (w.declare (·.addConst name t)).Over U :=
  h.declare (h.interface.addConst name ht) (h.root.bindGlobal name (Scheme.over_mono ht))

theorem addConstructor (h : w.Over U) (name : String) {s : Scheme} (hs : s.Over U) :
    (w.declare (·.addConstructor name s)).Over U :=
  h.declare (h.interface.addConstructor name hs) (h.root.bindGlobal name hs)

theorem addMethod (h : w.Over U) (typeName method : String) {s : Signature} (hs : s.Over U) :
    (w.declare (·.addMethod typeName method s)).Over U :=
  h.declare (h.interface.addMethod typeName method hs)
    (h.root.bindGlobal (typeName ++ "::" ++ method) hs.scheme)

end Place.Over

end Places

section Sessions

/-- Both the variables that are bound and the types they are bound to are over the set. -/
def Subst.Over (σ : Subst) (U : Nat → Prop) : Prop := ∀ v t, σ.get? v = some t → U v ∧ t.Over U

theorem Subst.Over.closed {σ : Subst} (h : σ.Over U) : σ.Closed U := fun v t _ ht => (h v t ht).2

theorem Subst.Over.moves {σ τ : Subst} (h : σ.Over U) (hmoves : σ.Moves U τ) : τ.Over U := by
  intro v t ht
  have hv : U v := Classical.byContradiction fun hv =>
    hv (h v t (hmoves.outside v hv ▸ ht)).1
  exact ⟨hv, hmoves.closed v t hv ht⟩

/-- The function around a method call that waits. -/
def Deferred.caller? : Deferred → Option Frame
  | method call => call.caller
  | _ => none

structure Deferred.Over (d : Deferred) (U : Nat → Prop) : Prop where
  types : ∀ t ∈ d.types, t.Over U
  caller : ∀ f, d.caller? = some f → f.ret.Over U

theorem Deferred.Over.receiver {d : Deferred} (h : d.Over U) : d.receiver.Over U := by
  cases d <;> exact h.types _ (by simp [Deferred.types, Deferred.receiver])

/-- The constraints that have not been solved yet. -/
def Session.pending (s : Session) : List Constraint :=
  (s.constraints.extract s.solver.consumed s.constraints.size).toList

theorem Session.mem_of_mem_pending {s : Session} {c : Constraint} (h : c ∈ s.pending) :
    c ∈ s.constraints := by
  rw [pending, Array.toList_extract] at h
  exact Array.mem_toList_iff.mp (List.mem_of_mem_drop (List.mem_of_mem_take h))

/-- All variables that the session holds are in the set. -/
structure Session.Over (s : Session) (U : Nat → Prop) : Prop where
  constraints : ∀ c ∈ s.constraints, c.Over U
  subst : s.solver.subst.Over U
  deferred : ∀ d ∈ s.deferred, d.Over U
  sites : ∀ x ∈ s.sites, x.callee.Over U
  typed : ∀ x ∈ s.typed, x.2.Over U
  generics : ∀ v, s.generics.contains v = true → U v

/-- All variables that the event brings are in the set. Variables are not taken by an event, but by
steps of their own. -/
def Event.Over (U : Nat → Prop) : Event → Prop
  | fresh _ => False
  | constrain c => c.Over U
  | report _ => True
  | record _ t => t.Over U
  | defer d => d.Over U
  | site x => x.callee.Over U
  | generic v _ => U v
  | solve => True

theorem forall_mem_push {α : Type} {p : α → Prop} {l : Array α} {b : α} (hl : ∀ a ∈ l, p a)
    (hb : p b) : ∀ a ∈ l.push b, p a := by
  intro a ha
  rcases Array.mem_push.mp ha with ha | rfl
  · exact hl a ha
  · exact hb

namespace Session.Over

variable {s : Session}

/-- Solving constraints of the session stays over the set. -/
theorem run (h : s.Over U) {l : List Constraint} (hl : ∀ c ∈ l, c ∈ s.constraints) :
    (s.solver.run l).subst.Over U :=
  h.subst.moves (Solver.run_moves h.subst.closed fun c hc => h.constraints c (hl c hc))

theorem apply (h : s.Over U) {e : Event} (he : e.Over U) : (e.apply s).Over U := by
  cases e with
  | fresh n => exact he.elim
  | constrain c => exact { h with constraints := forall_mem_push h.constraints he }
  | report f => exact { h with }
  | record id t => exact { h with typed := List.forall_mem_cons.mpr ⟨he, h.typed⟩ }
  | defer d => exact { h with deferred := forall_mem_push h.deferred he }
  | site x => exact { h with sites := forall_mem_push h.sites he }
  | generic v c =>
    refine { h with generics := fun w hw => ?_ }
    rw [Event.apply, Table.contains_insertNew, Bool.or_eq_true, beq_iff_eq] at hw
    exact hw.elim (· ▸ he) (h.generics w)
  | solve => exact { h with subst := h.run fun _ => s.mem_of_mem_pending }

theorem empty : ({} : Session).Over U where
  constraints := by simp
  subst v t ht := by cases ht
  deferred := by simp
  sites := by simp
  typed := by simp
  generics v hv := by cases hv

end Session.Over

end Sessions

section Steps

/-- A session over the set, and the solver over it as well while it solves the constraints that wait
one after the other. -/
structure Session.OverThroughout (s : Session) (U : Nat → Prop) : Prop where
  session : s.Over U
  solving : ∀ n, (s.solver.run (s.pending.take n)).subst.Over U

theorem Session.Over.throughout {s : Session} (h : s.Over U) : s.OverThroughout U :=
  ⟨h, fun _ => h.run fun _ hc => s.mem_of_mem_pending (List.mem_of_mem_take hc)⟩

theorem Session.Over.replay {s : Session} (h : s.Over U) {l : List Event} (hl : ∀ e ∈ l, e.Over U) :
    (replay l s).Over U := by
  induction l generalizing s with
  | nil => exact h
  | cons e l ih =>
    obtain ⟨he, hl⟩ := List.forall_mem_cons.mp hl
    exact ih (h.apply he) hl

/-- All variables that the step brings are in the set: those of a scheme, those of each event in a
check and of the sessions in between, or those that can be seen after a change. -/
def Action.Over {α : Type} (U : Nat → Prop) (c : TypeChecker) : Action α → Prop
  | fresh => True
  | instantiate scheme => scheme.Over U
  | check m => ∃ l, (m c.toPlace c.session).2 = replay l c.session ∧ (∀ e ∈ l, e.Over U) ∧
      ∀ n, (replay (l.take n) c.session).OverThroughout U
  | change f => (f c.toPlace).Over U

/-- All variables that occur anywhere at the moment are in the set. -/
structure Moment.Over (x : Moment) (U : Nat → Prop) : Prop where
  place : x.checker.toPlace.Over U
  session : x.checker.session.OverThroughout U
  action : x.action.Over U x.checker

variable {α β : Type}

/-- From a session over the set, all events of the check are over it, and the result has `Q`. -/
def EmitsOver (U : Nat → Prop) (m : Check α) (Q : α → Prop) : Prop :=
  ∀ s, s.Over U → Leads (Event.Over U) s (m s).2 ∧ Q (m s).1

namespace EmitsOver

variable {Q : α → Prop} {R : β → Prop}

theorem pure {a : α} (h : Q a) : EmitsOver U (pure a) Q := fun s _ => ⟨.refl s, h⟩

theorem event {e : Event} (he : e.Over U) : EmitsOver U (modify e.apply) fun _ => True :=
  fun s _ => ⟨.event he s, trivial⟩

theorem get : EmitsOver U get (·.Over U) := fun s hs => ⟨.refl s, hs⟩

theorem bind {m : Check α} {f : α → Check β} (hm : EmitsOver U m Q)
    (hf : ∀ a, Q a → EmitsOver U (f a) R) : EmitsOver U (m >>= f) R := by
  intro s hs
  obtain ⟨⟨l, hl, hafter⟩, hQ⟩ := hm s hs
  have hover : (m s).2.Over U := hafter ▸ hs.replay hl
  obtain ⟨hrest, hR⟩ := hf _ hQ _ hover
  exact ⟨.trans ⟨l, hl, hafter⟩ hrest, hR⟩

theorem forM {f : α → Check Unit} {l : List α} (hf : ∀ a ∈ l, EmitsOver U (f a) fun _ => True) :
    EmitsOver U (l.forM f) fun _ => True := by
  induction l with
  | nil => exact .pure trivial
  | cons a l ih =>
    obtain ⟨ha, hl⟩ := List.forall_mem_cons.mp hf
    exact ha.bind fun _ _ => ih hl

theorem forIn {f : α → Check Unit} (hf : ∀ a, EmitsOver U (f a) fun _ => True) (l : List α) :
    EmitsOver U (forIn l PUnit.unit fun a _ => do
      f a
      Pure.pure (ForInStep.yield PUnit.unit) : Check PUnit) fun _ => True := by
  induction l with
  | nil => exact .pure trivial
  | cons a l ih =>
    rw [List.forIn_cons, bind_assoc]
    exact (hf a).bind fun _ _ => ih

end EmitsOver

/-- As long as variables that are taken are in the set, the step brings none that are not, and its
answer has `R`. -/
def Action.Stays {α : Type} (U : Nat → Prop) : Action α → (α → Prop) → Prop
  | fresh, R => ∀ v, U v → R v
  | instantiate scheme, R => scheme.Over U ∧ ∀ t, t.Over U → R t
  | check m, R => ∀ w, w.Over U → EmitsOver U (m w) R
  | change f, R => (∀ w, w.Over U → (f w).Over U) ∧ R ()

namespace Action.Stays

variable {x : Action α} {R : α → Prop} {c : TypeChecker}

theorem mono (h : x.Stays U R) {R' : α → Prop} (hR : ∀ a, R a → R' a) : x.Stays U R' := by
  cases x with
  | fresh => exact fun v hv => hR v (h v hv)
  | instantiate scheme => exact ⟨h.1, fun t ht => hR t (h.2 t ht)⟩
  | check m => exact fun w hw s hs => (h w hw s hs).imp_right (hR _)
  | change f => exact ⟨h.1, hR _ h.2⟩

theorem now_over (h : x.Stays U R) (hw : c.toPlace.Over U) (hs : c.session.Over U) :
    x.Over U c := by
  cases x with
  | fresh => trivial
  | instantiate scheme => exact h.1
  | check m =>
    obtain ⟨⟨l, hl, hafter⟩, _⟩ := h _ hw _ hs
    exact ⟨l, hafter, hl, fun n =>
      (hs.replay fun e he => hl e (List.mem_of_mem_take he)).throughout⟩
  | change f => exact h.1 _ hw

/-- What is over the set before the step is so after it, if the set has the variables that were
taken. -/
theorem run (h : x.Stays U R) (hw : c.toPlace.Over U) (hs : c.session.Over U)
    (htaken : ∀ v < (x.run c).2.session.nextVar, U v) :
    (x.run c).2.toPlace.Over U ∧ (x.run c).2.session.Over U ∧ R (x.run c).1 := by
  cases x with
  | fresh => exact ⟨hw, { hs with }, h _ (htaken _ (Nat.lt_succ_self _))⟩
  | instantiate scheme =>
    exact ⟨hw, { hs with }, h.2 _ (Scheme.Over.instantiate h.1 fun v _ hv => htaken v hv)⟩
  | check m =>
    obtain ⟨⟨l, hl, hafter⟩, hR⟩ := h _ hw _ hs
    refine ⟨hw, ?_, hR⟩
    change (m c.toPlace c.session).2.Over U
    rw [hafter]
    exact hs.replay hl
  | change f => exact ⟨h.1 _ hw, hs, h.2⟩

end Action.Stays

end Steps

section Runs

/-- A set of all variables leaves nothing out. -/
theorem Place.over_all (w : Place) : w.Over fun _ => True where
  context := ⟨⟨fun _ _ _ _ _ => trivial, fun _ _ _ _ => trivial, fun _ _ _ _ _ => trivial⟩,
    fun _ _ _ _ _ => trivial, fun _ _ _ _ _ => trivial, fun _ _ _ _ => trivial,
    fun _ _ _ _ => trivial⟩
  env := ⟨fun _ _ _ _ _ => trivial, fun _ _ _ _ _ _ => trivial⟩
  params _ _ _ _ _ _ _ := trivial
  interface := ⟨fun _ _ _ _ _ => trivial, fun _ _ _ _ _ => trivial, fun _ _ _ _ _ _ => trivial,
    fun _ _ _ => ⟨fun _ _ _ _ => trivial, fun _ _ => trivial, fun _ _ _ _ => trivial⟩,
    fun _ _ _ _ _ => trivial, fun _ _ _ _ => trivial⟩
  root := ⟨fun _ _ _ _ _ => trivial, fun _ _ _ _ _ _ => trivial⟩

theorem Session.over_all (s : Session) : s.Over fun _ => True where
  constraints _ _ := ⟨fun _ _ => trivial, fun _ _ => trivial⟩
  subst _ _ _ := ⟨trivial, fun _ _ => trivial⟩
  deferred _ _ := ⟨fun _ _ _ _ => trivial, fun _ _ _ _ => trivial⟩
  sites _ _ _ _ := trivial
  typed _ _ _ _ := trivial
  generics _ _ := trivial

theorem Leads.nextVar_le {s t : Session} (h : Leads (Event.Over U) s t) : s.nextVar ≤ t.nextVar :=
  h.induct (R := fun s t => s.nextVar ≤ t.nextVar) (fun _ => Nat.le_refl _)
    (fun _ _ _ => Nat.le_trans) fun e s _ => (e.grows s).nextVar

variable {α β : Type} {Q Q' : α → Prop} {R : β → Prop}

theorem Action.Stays.nextVar_le {x : Action α} (h : x.Stays (fun _ => True) Q) (c : TypeChecker) :
    c.session.nextVar ≤ (x.run c).2.session.nextVar := by
  cases x with
  | fresh => exact Nat.le_succ _
  | instantiate scheme => exact Nat.le_add_right ..
  | check m => exact (h _ (Place.over_all _) _ (Session.over_all _)).1.nextVar_le
  | change f => exact Nat.le_refl _

namespace Work

/-- As long as variables that are taken are in the set, no step brings any that are not, and the
result has `Q`. -/
def Stays (U : Nat → Prop) : Work α → (α → Prop) → Prop
  | done a, Q => Q a
  | act x next, Q => x.Stays U fun r => (next r).Stays U Q

namespace Stays

variable {m : Work α} {c : TypeChecker}

theorem next {x : Action β} {k : β → Work α} (h : (act x k).Stays (fun _ => True) Q) :
    (k (x.run c).1).Stays (fun _ => True) Q :=
  (Action.Stays.run h (Place.over_all _) (Session.over_all _) fun _ _ => trivial).2.2

theorem nextVar_le_of_mem (h : m.Stays (fun _ => True) Q) {x : Moment} (hx : x ∈ m.moments c) :
    c.session.nextVar ≤ x.checker.session.nextVar := by
  induction m generalizing c with
  | done a => cases hx
  | act y k ih =>
    rcases List.mem_cons.mp hx with rfl | hx
    · exact Nat.le_refl _
    · exact Nat.le_trans (Action.Stays.nextVar_le h c) (ih _ h.next hx)

theorem nextVar_le (h : m.Stays (fun _ => True) Q) :
    c.session.nextVar ≤ (m.run c).2.session.nextVar := by
  induction m generalizing c with
  | done a => exact Nat.le_refl _
  | act x k ih => exact Nat.le_trans (Action.Stays.nextVar_le h c) (ih _ h.next)

/-- Between two moments of a run the variables that the earlier step takes have been taken. -/
theorem moments_pairwise (h : m.Stays (fun _ => True) Q) :
    (m.moments c).Pairwise fun x y =>
      (x.action.run x.checker).2.session.nextVar ≤ y.checker.session.nextVar := by
  induction m generalizing c with
  | done a => exact .nil
  | act x k ih => exact .cons (fun y hy => h.next.nextVar_le_of_mem hy) (ih _ h.next)

/-- Every moment of a run is over the set, if the set has the variables that were taken before. -/
theorem moments_over (hall : m.Stays (fun _ => True) Q') (h : m.Stays U Q)
    (hw : c.toPlace.Over U) (hs : c.session.Over U) {x : Moment} (hx : x ∈ m.moments c)
    (htaken : ∀ v < x.checker.session.nextVar, U v) : x.Over U := by
  induction m generalizing c with
  | done a => cases hx
  | act y k ih =>
    rcases List.mem_cons.mp hx with rfl | hx
    · exact ⟨hw, hs.throughout, Action.Stays.now_over h hw hs⟩
    -- what the step takes has been taken by the moment `x`, which is later
    · obtain ⟨hw, hs, hnext⟩ := Action.Stays.run h hw hs fun v hv =>
        htaken v (Nat.lt_of_lt_of_le hv (hall.next.nextVar_le_of_mem hx))
      exact ih _ hall.next hnext hw hs hx

/-- So is the checker at the end. -/
theorem run_over (hall : m.Stays (fun _ => True) Q') (h : m.Stays U Q) (hw : c.toPlace.Over U)
    (hs : c.session.Over U) (htaken : ∀ v < (m.run c).2.session.nextVar, U v) :
    (m.run c).2.toPlace.Over U ∧ (m.run c).2.session.Over U := by
  induction m generalizing c with
  | done a => exact ⟨hw, hs⟩
  | act x k ih =>
    obtain ⟨hw, hs, hnext⟩ := Action.Stays.run h hw hs fun v hv =>
      htaken v (Nat.lt_of_lt_of_le hv hall.next.nextVar_le)
    exact ih _ hall.next hnext hw hs htaken

theorem pure {a : α} (h : Q a) : (pure a : Work α).Stays U Q := h

theorem bind {f : α → Work β} (hm : m.Stays U Q) (hf : ∀ a, Q a → (f a).Stays U R) :
    (m >>= f).Stays U R := by
  induction m with
  | done a => exact hf a hm
  | act x k ih => exact Action.Stays.mono hm fun r hr => ih r hr

/-- Work whose result does not matter. -/
theorem andThen {f : α → Work β} (hm : m.Stays U Q) (hf : ∀ a, (f a).Stays U R) :
    (m >>= f).Stays U R := hm.bind fun a _ => hf a

theorem discard (hm : m.Stays U Q) : (discard m : Work PUnit).Stays U fun _ => True :=
  hm.bind fun _ _ => trivial

theorem forM {f : α → Work Unit} (hf : ∀ a, (f a).Stays U fun _ => True) (l : List α) :
    (l.forM f).Stays U fun _ => True := by
  induction l with
  | nil => exact .pure trivial
  | cons a l ih => exact (hf a).andThen fun _ => ih

theorem mapM {f : α → Work β} (hf : ∀ a, (f a).Stays U R) (l : List α) :
    (l.mapM f).Stays U fun k => ∀ b ∈ k, R b := by
  induction l with
  | nil => exact .pure (List.forall_mem_nil _)
  | cons a l ih =>
    rw [List.mapM_cons]
    exact (hf a).bind fun b hb => ih.bind fun k hk => .pure (List.forall_mem_cons.mpr ⟨hb, hk⟩)

theorem freshVar : freshVar.Stays U U := fun _ hv => hv

theorem instantiate {scheme : Scheme} (h : scheme.Over U) :
    (instantiate scheme).Stays U (·.Over U) := ⟨h, fun _ ht => ht⟩

theorem check {f : Place → Check α} (h : ∀ w, w.Over U → EmitsOver U (f w) Q) :
    (check f).Stays U Q := h

theorem lift {f : Check α} (h : EmitsOver U f Q) : (liftM f : Work α).Stays U Q := fun _ _ => h

theorem place : place.Stays U (·.Over U) := fun _ hw => .pure hw

theorem context : context.Stays U (·.Over U) := place.bind fun _ hw => .pure hw.context

theorem change {f : Context → Context} (h : ∀ w : Place, w.Over U → (w.onContext f).Over U) :
    (change f).Stays U fun _ => True := ⟨h, trivial⟩

theorem declare {f : Interface → Interface} (h : ∀ w : Place, w.Over U → (w.declare f).Over U) :
    (declare f).Stays U fun _ => True := ⟨h, trivial⟩

end Stays

end Work

end Runs

end Sema
