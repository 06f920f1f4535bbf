import Sema.Proofs.Typing.Containment
import Sema.Proofs.Typing.Enactment
import Sema.Proofs.Typing.RootBindings

/-!
# Fresh variables are fresh

At every moment of the check of a program all variables that occur anywhere are smaller than the
number of the next one. A catalog may quantify the same small numbers that the check takes for its
own variables: they are no variables of the moment, as nothing is free in its schemes.

Main statement: a variable that is taken, on its own or for an instance, occurs nowhere at that
moment, and two instances of a scheme share nothing but what is free in it.
-/

namespace Sema

variable {U : Nat → Prop}

/-- Before any item there are only the schemes of the catalog. -/
theorem TypeChecker.over_start {catalog : Catalog} (hcatalog : catalog.Closed)
    (checkEffects : Bool) : (TypeChecker.start catalog checkEffects).Over U := by
  have henv : catalog.env.Throughout U :=
    ⟨fun name s hs => Scheme.over_of_closed (hcatalog.values name s hs), List.forall_mem_nil _⟩
  have hinterface : (catalog.interface catalog.env).Over U := hcatalog.interface_over henv.visible
  have hscope : TypeScope.Over { catalog, decls := {} } U := by
    refine ⟨by simp [TypeScope.param?], by simp, fun name t ht => ?_⟩
    simp [Ty.Over, hcatalog.aliases name t ht]
  exact ⟨⟨hscope, henv.visible, hinterface.constructors, List.forall_mem_nil _, by
    simp [start, Place.first, Place.outside]⟩, henv, List.forall_mem_nil _, hinterface, henv⟩

/-- The variables of an instance are free in the scheme or among those taken for it. -/
theorem Scheme.mem_vars_instantiate {s : Scheme} {next v : Nat}
    (h : v ∈ (s.instantiate next).1.vars) :
    v ∈ s.freeVars ∨ next ≤ v ∧ v < next + s.vars.length :=
  Scheme.Over.instantiate (U := fun v => v ∈ s.freeVars ∨ next ≤ v ∧ v < next + s.vars.length)
    (fun _ hv => .inl hv) (fun _ hle hlt => .inr ⟨hle, hlt⟩) v h

/-- The types reported for the expressions are over the variables of the session. -/
theorem Session.Over.types {c : TypeCheck} (h : c.session.Over U) {id : ExprId} {t : Ty}
    (ht : c.types.get? id = some t) : t.Over U := by
  rw [TypeCheck.types, Table.get?_map, Option.map_eq_some_iff] at ht
  obtain ⟨u, hu, rfl⟩ := ht
  have hmem := Table.mem_of_mem_ofList (Table.mem_of_get? hu)
  have hclosed : c.subst.Closed U := by
    unfold TypeCheck.subst
    split
    · exact h.subst.closed
    · intro v u _ hu
      cases hu
  exact hclosed.apply (h.typed _ (List.mem_reverse.mp hmem))

/-- The step for an instance takes as many variables as the scheme quantifies. -/
theorem Action.nextVar_of_scheme {α : Type} {x : Action α} {s : Scheme} (h : x.scheme? = some s)
    (c : TypeChecker) :
    (x.run c).2.session.nextVar = c.session.nextVar + s.vars.length := by
  cases x with
  | instantiate scheme =>
    cases h
    rfl
  | _ => cases h

/-- Done in steps, the check of a program ends as the check does. At every moment on the way the
variables that occur are smaller than the next number, and so they are at the end, in the types
reported as well. Neither the variable that can be taken at a moment nor those of an instance, but
for the free ones of the scheme, occur anywhere then: to be over the variables other than `v` is to
hold `v` nowhere. Two instances of a scheme share only its free variables. -/
theorem fresh_throughout (catalog : Catalog) (hcatalog : catalog.Closed) (checkEffects : Bool)
    (p : Program) :
    let start := TypeChecker.start catalog checkEffects
    let moments := (Work.checkItems p.items).moments start
    let result := checkProgram catalog checkEffects p
    let outside := Place.outside checkEffects { catalog, decls := result.decls } result.interface
    (Work.checkItems p.items).run start = (result.solved, ⟨outside, result.session⟩) ∧
    (∀ x ∈ moments, x.Over (· < x.checker.session.nextVar)) ∧
    (∀ x ∈ moments, x.Over (· ≠ (freshVar.run x.checker.session).1)) ∧
    (∀ x ∈ moments, ∀ s : Scheme, ∀ v ∈ ((instantiate s).run x.checker.session).1.vars,
      v ∈ s.freeVars ∨ x.Over (· ≠ v)) ∧
    (moments.Pairwise fun x y => ∀ s, x.action.scheme? = some s → y.action.scheme? = some s →
      ∀ v ∈ ((instantiate s).run x.checker.session).1.vars,
        v ∈ ((instantiate s).run y.checker.session).1.vars → v ∈ s.freeVars) ∧
    outside.Over (· < result.session.nextVar) ∧
    result.session.OverThroughout (· < result.session.nextVar) ∧
    ∀ id t, result.types.get? id = some t → t.Over (· < result.session.nextVar) := by
  intro start moments result outside
  have hrun : (Work.checkItems p.items).run start = (result.solved, ⟨outside, result.session⟩) :=
    Work.run_checkItems catalog checkEffects p.items
  have hstays : ∀ U, (Work.checkItems p.items).Stays U fun _ => True := fun _ =>
    Work.checkItems_stays p.items
  have hstart : ∀ {U}, start.Over U := TypeChecker.over_start hcatalog checkEffects
  have hover : ∀ {U x}, x ∈ moments → (∀ v < x.checker.session.nextVar, U v) → x.Over U :=
    fun hx => (hstays _).moments_over (hstays _) hstart .empty hx
  have hunused : ∀ x ∈ moments, ∀ v, x.checker.session.nextVar ≤ v → x.Over (· ≠ v) :=
    fun x hx v hv => hover hx fun u hu => Nat.ne_of_lt (Nat.lt_of_lt_of_le hu hv)
  have hend := (hstays _).run_over (U := (· < result.session.nextVar)) (hstays _) (c := start)
    hstart .empty
  rw [hrun] at hend
  obtain ⟨hplace, hsession⟩ := hend fun _ => id
  refine ⟨hrun, fun x hx => hover hx fun _ => id, fun x hx => hunused x hx _ (Nat.le_refl _),
    fun x hx s v hv => ?_, ?_, hplace, hsession.throughout, fun id t ht => hsession.types ht⟩
  · exact (Scheme.mem_vars_instantiate hv).imp_right fun h => hunused x hx v h.1
  · refine ((hstays _).moments_pairwise (c := start)).imp fun {x y} hle s hx hy v hvx hvy => ?_
    rw [Action.nextVar_of_scheme hx] at hle
    -- taken for the earlier instance, the variable is too small to be taken for the later one
    rcases Scheme.mem_vars_instantiate hvx with hfree | ⟨_, hlt⟩
    · exact hfree
    · refine (Scheme.mem_vars_instantiate hvy).resolve_right fun h => ?_
      exact Nat.not_lt.mpr (Nat.le_trans hle h.1) hlt

namespace Twice

open Build

/-- A catalog with `nothing`, which quantifies the first number that a check takes. -/
def catalog : Catalog := Catalog.empty.value "nothing" ⟨[0], .app Ty.optionName [.var 0]⟩

/-- `|leg| match leg { Leg { step } => match step { Step::Walk(length) => nothing } }`. -/
def walk : Expr :=
  lambda ["leg"] (matchOn (ident "leg") [arm (patStruct "Leg" ["step"]) none
    (matchOn (ident "step") [arm (patEnum ["Step", "Walk"] [patIdent "length"]) none
      (ident "nothing")])])

/-- A brand, a variant and a field of it, and `fn main() { nothing; walk; }`. -/
def program : Program where
  items := [brandedAlias "Metres" (type "i32"), enum "Step" [] [("Walk", [type "Metres"])],
    struct "Leg" [] [("step", type "Step")],
    .function (functionOf "main" [.body (block [.expr (ident "nothing"), .expr walk] none)])]

theorem catalog_closed : catalog.Closed := by
  have hempty := Catalog.closed_empty
  refine { hempty with values := Table.forall_get?_insert hempty.values _ ?_ }
  decide

/-- The instance taken at a moment. -/
def instance? (x : Moment) : Option Ty :=
  x.action.scheme?.map fun s => ((instantiate s).run x.checker.session).1

end Twice

set_option maxRecDepth 4000 in
open Twice in
/-- The two instances of `nothing` have a variable each, and the first is numbered as the one that
the scheme quantifies. Between them are those of the names that the lambda and the patterns bind and
of the variant, and the check has taken variables of its own. -/
theorem nothing_twice_fresh :
    let moments := (Work.checkItems program.items).moments (.start catalog true)
    catalog.Closed ∧
    moments.filterMap instance? = [.app Ty.optionName [.var 0], .var 1, .named "Step",
      .fn [.branded "Metres" (.prim .i32)] (.named "Step") .pure, .app Ty.optionName [.var 5]] ∧
    (∀ x ∈ moments, x.Over (· < x.checker.session.nextVar)) ∧
    (∀ x ∈ moments, ∀ s : Scheme, ∀ v ∈ ((instantiate s).run x.checker.session).1.vars,
      v ∈ s.freeVars ∨ x.Over (· ≠ v)) := by
  have hrun := fresh_throughout catalog catalog_closed true program
  refine ⟨catalog_closed, ?_, hrun.2.1, hrun.2.2.2.1⟩
  have hmetres := Build.type_of_plain (s := "Metres") (by rfl) (by decide)
  have hstep := Build.type_of_plain (s := "Step") (by rfl) (by decide)
  simp only [program, hmetres, hstep]
  cbv

end Sema
