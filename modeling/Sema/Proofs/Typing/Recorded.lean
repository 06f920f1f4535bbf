import Sema.Proofs.Syntax.Numbering
import Sema.Proofs.Typing.Accepted

/-!
# The table of types

Whatever a check finds, and whether or not its constraints can be solved, it infers every
expression that it has to check, and no other, once. The expressions of a numbered program
have identities of their own; so its table has an entry for each of them, and none has been
written over.
-/

namespace Sema

/-- What follows the bodies records no type, whether it succeeds or not. -/
theorem finish_untyped (sc : TypeScope) (methods : Methods) (checkEffects : Bool) {s : Session}
    (hs : s.Solving) : Leads Event.IsUntyped s ((finish sc methods checkEffects).run s).2 := by
  cases hok : ((finish sc methods checkEffects).run s).1 with
  | true => exact (finish_solved sc methods checkEffects hs hok).2
  | false =>
    obtain ⟨fault, t, hrun, hlast⟩ := finish_fails hok
    obtain ⟨hleads, -, -⟩ := solveProgram_brings sc methods s hs
    rw [hrun] at hleads
    rw [hlast]
    exact (hleads.mono fun _ => Event.IsQuiet.isUntyped).trans (.event trivial t)

/-- Every expression that is to be checked is inferred once, and no other is. -/
theorem checkProgram_records (catalog : Catalog) (checkEffects : Bool) (p : Program) :
    (checkProgram catalog checkEffects p).session.recorded.Perm (p.checked.map (·.id)) := by
  obtain ⟨sc, i, cx, s, hquiet, hdeclares, hrun⟩ := checkProgram_stages catalog checkEffects p
  have hbodies := checkBodies_infers ⟨fun _ => none, .var⟩ cx i hdeclares
  have hstart : Session.Solving {} := ⟨[], [], rfl, rfl⟩
  have hsolving := (hbodies.grows s).solving (hquiet.grows.solving hstart)
  have hfinish := finish_untyped sc i.methods checkEffects hsolving
  rw [hrun] at hfinish
  exact hbodies.recorded_between (hquiet.mono fun _ => Event.IsQuiet.isUntyped) hfinish

theorem TypeCheck.mem_keys_types (c : TypeCheck) (id : ExprId) :
    id ∈ c.types.keys ↔ id ∈ c.session.recorded := by
  have hkey : id ∈ c.types.keys ↔ (c.types.get? id).isSome = true :=
    (Table.isSome_find_iff c.types.entries id).symm
  rw [hkey, c.get?_types, Option.isSome_map]
  exact Table.isSome_find_iff c.session.typed id

/-- The table of a numbered program has an entry for every expression that is checked and for no
other; each has been inferred once; and as long as the identities do not run out, each entry
has been written once. -/
theorem types_of_renumbered (catalog : Catalog) (checkEffects : Bool) (p : Program) :
    (∀ id, id ∈ (checkProgram catalog checkEffects p.renumber).types.keys ↔
      ∃ e ∈ p.renumber.checked, e.id = id) ∧
    (checkProgram catalog checkEffects p.renumber).session.recorded.Perm
      (p.renumber.checked.map (·.id)) ∧
    (p.nodes.length ≤ 2 ^ 32 →
      (checkProgram catalog checkEffects p.renumber).session.recorded.Nodup) := by
  have hrecords := checkProgram_records catalog checkEffects p.renumber
  refine ⟨fun id => ?_, hrecords, fun hcount => ?_⟩
  · rw [TypeCheck.mem_keys_types, hrecords.mem_iff, List.mem_map]
  · have hids := Program.nodup_ids_renumber hcount
    exact hrecords.nodup_iff.mpr (hids.sublist (p.renumber.checked_sublist.map _))

open Build in
/-- `fn f() { S { x: 2 } }`, where no one declares `S`. -/
def strayLiteral : FunctionDef :=
  functionOf "f" [.body (block [] (some (structLit "S" [("x", int 2)])))]

open Build in
/-- A constant of the wrong type, and two functions of one name. -/
def mismatched : Program where
  items := [const "A" (type "bool") (int 1), .function strayLiteral, .function strayLiteral]

/-- The table is complete although the constraints have no solution. -/
theorem types_of_mismatched :
    (checkProgram .empty true mismatched.renumber).solved = false ∧
      mismatched.nodes.length = 5 ∧
      (checkProgram .empty true mismatched.renumber).session.recorded.Nodup := by
  have hfails : (checkProgram .empty true mismatched.renumber).solved = false := by cbv
  have hcount : mismatched.nodes.length = 5 := by cbv
  have htable := (types_of_renumbered .empty true mismatched).2.2
  exact ⟨hfails, hcount, htable (by rw [hcount]; decide)⟩

end Sema
