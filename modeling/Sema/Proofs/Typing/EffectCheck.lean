import Sema.Proofs.Typing.Filter

/-!
# Checking without regard to effects

The flag that turns the check of effects off changes nothing but the list of errors, and from
that list it takes exactly the missing annotations and the `await`s outside of `async`
functions. Clashes of effect rows are found by the solver and stay.
-/

namespace Sema

/-- The complaints that only the check of effects makes: `await` outside of an `async` function
and a missing effect annotation. -/
def TypeFault.isEffectCheck : TypeFault → Bool
  | awaitOutside | undeclaredEffect .. => true
  | _ => false

/-- All complaints but these. -/
def FaultFilter.ignoringEffects : FaultFilter where
  keeps f := !f.isEffectCheck
  routine f h := by cases f <;> simp_all [TypeFault.isRoutine, TypeFault.isEffectCheck]

/-- The last look at the calls reports missing annotations and nothing else. -/
theorem checkSites_filters (reported : List (String × EffectKind))
    (l : List (Spanned (String × EffectKind))) :
    Filters .ignoringEffects (checkSites reported l) (pure ()) := by
  induction l generalizing reported with
  | nil => exact .pure _
  | cons e l ih =>
    simp only [checkSites]
    split
    · exact ih _
    · exact (Filters.dropped rfl _).bind fun _ => ih _

theorem finish_filters (sc : TypeScope) (methods : Methods) :
    Filters .ignoringEffects (finish sc methods true) (finish sc methods false) := by
  refine (solveProgram_filters sc methods).bind fun r => ?_
  cases r with
  | error fault => exact (Filters.report rfl _).bind fun _ => .pure _
  | ok _ =>
    intro s
    exact ((Filters.quiet (checkGenerics_emits (fun _ h _ => h) _ _ _)).bind fun _ =>
      (checkSites_filters _ _).bind fun _ => .pure true) s

theorem checkItems_filters (catalog : Catalog) (items : List Item) :
    Filters .ignoringEffects (checkItems catalog true items) (checkItems catalog false items) := by
  refine (Filters.notes (.foldlM declareItem_notes _ _)).bind fun d => ?_
  refine (Filters.notes (.foldlM (interfaceItem_notes _) _ _)).bind fun i => ?_
  refine (checkBodies_filters _ i items i.impls).bind fun _ => ?_
  exact (finish_filters _ _).bind fun _ => .pure _

/-- The whole check without effects is the one with effects, less the complaints about them. -/
theorem checkProgram_false (catalog : Catalog) (p : Program) :
    checkProgram catalog false p =
      { checkProgram catalog true p with
        session := (checkProgram catalog true p).session.keep .ignoringEffects } := by
  have hrun : (checkItems catalog false p.items).run {} =
      (((checkItems catalog true p.items).run {}).1,
        ((checkItems catalog true p.items).run {}).2.keep .ignoringEffects) :=
    checkItems_filters catalog p.items {}
  unfold checkProgram
  rw [hrun]
  generalize (checkItems catalog true p.items).run {} = full
  rfl

/-- Turning the check of effects off leaves the recorded types, the brands and the bindings as
they are, and deletes from the errors those about `await` and missing annotations. -/
theorem checkProgram_ignoring_effects (catalog : Catalog) (p : Program) :
    (checkProgram catalog false p).types = (checkProgram catalog true p).types ∧
      (checkProgram catalog false p).decls.brands = (checkProgram catalog true p).decls.brands ∧
      (∀ name, (checkProgram catalog false p).binding name =
        (checkProgram catalog true p).binding name) ∧
      (checkProgram catalog false p).errors =
        ((checkProgram catalog true p).session.faults.toList.filter
          fun f => !f.node.isEffectCheck).map TypeError.ofFault := by
  rw [checkProgram_false]
  generalize checkProgram catalog true p = full
  refine ⟨rfl, rfl, fun _ => rfl, ?_⟩
  simp [TypeCheck.errors, Session.keep, Session.withFaults, FaultFilter.ignoringEffects]

end Sema
