import Sema.Proofs.Solver.Principal
import Sema.Proofs.Typing.Filter

/-!
# The verdict of the solver

Constraints are solved while a program is being checked, each time those collected since the
last time. In the end this comes to solving the whole list at once: the check succeeds with the
substitution of that run, or fails with its error, which is then the last of the list and the
only one that the solver has given.
-/

namespace Sema

/-- The error of a failed solve. -/
def TypeFault.isUnsolved : TypeFault → Bool
  | unsolved _ => true
  | _ => false

/-- All complaints but that one. -/
def FaultFilter.beforeVerdict : FaultFilter where
  keeps f := !f.isUnsolved
  routine f h := by cases f <;> simp_all [TypeFault.isRoutine, TypeFault.isUnsolved]

/-- The solver has not been blamed yet. -/
def Session.Undecided (s : Session) : Prop := s.keep .beforeVerdict = s

namespace Session.Undecided

theorem not_unsolved {s : Session} (h : s.Undecided) {f : Spanned TypeFault}
    (hf : f ∈ s.faults.toList) : f.node.isUnsolved = false := by
  have hfaults : s.faults.filter (fun f => !f.node.isUnsolved) = s.faults :=
    congrArg Session.faults h
  rw [← hfaults, Array.toList_filter] at hf
  simpa using (List.mem_filter.mp hf).2

/-- What would make the same complaints without a verdict gives none. -/
theorem run {α : Type} {m : Check α} (hm : Filters .beforeVerdict m m) {s : Session}
    (hs : s.Undecided) : (m.run s).2.Undecided := by
  have hrun := hm s
  rw [hs] at hrun
  exact (congrArg Prod.snd hrun).symm

end Session.Undecided

theorem Session.Solved.solve_eq {s : Session} (h : s.Solved) :
    solve s.constraints.toList = .ok s.solver.subst := by
  obtain ⟨hfailure, hrun⟩ := h
  rw [hrun] at hfailure
  rw [solve_eq_ok_iff, ← hrun]
  exact ⟨hrun ▸ hfailure, rfl⟩

theorem Session.Failed.solve_eq {s : Session} {fault : SolveFault} (h : s.Failed fault) :
    solve s.constraints.toList = .error fault := by
  obtain ⟨hfailure, hrun⟩ := h
  rw [hrun] at hfailure
  exact solve_eq_error_iff.mpr hfailure

theorem checkSites_undecided (reported : List (String × EffectKind))
    (l : List (Spanned (String × EffectKind))) :
    Filters .beforeVerdict (checkSites reported l) (checkSites reported l) := by
  induction l generalizing reported with
  | nil => exact .pure _
  | cons e l ih =>
    simp only [checkSites]
    split
    · exact ih _
    · exact (Filters.report rfl _).bind fun _ => ih _

section Program

variable (catalog : Catalog) (checkEffects : Bool) (p : Program)

theorem Program.visited_undecided : (p.visited catalog checkEffects).Undecided := by
  have hpresent : (p.present catalog).2.Undecided := by
    obtain ⟨l, hl, hreplay⟩ := p.present_quiet catalog
    have hkeep : replay l (Session.keep .beforeVerdict {}) = (replay l {}).keep .beforeVerdict :=
      replay_keep (fun f hf => FaultFilter.beforeVerdict.routine f.node (hl _ hf)) {}
    rw [← hreplay] at hkeep
    exact hkeep.symm.trans hreplay.symm
  have hcontext : (p.context catalog checkEffects).keep .beforeVerdict =
      p.context catalog checkEffects := by
    simp [Context.keep, FaultFilter.beforeVerdict, TypeFault.isUnsolved]
  have hvisit : Filters .beforeVerdict (p.visit catalog checkEffects)
      (p.visit catalog checkEffects) := by
    have hbodies := checkBodies_filters (p := .beforeVerdict) (p.context catalog checkEffects)
      (p.present catalog).1 p.items (p.present catalog).1.impls
    rw [hcontext] at hbodies
    exact hbodies
  exact hpresent.run hvisit

/-- After a solve that succeeds there is nothing left to blame the solver for. -/
theorem finish_undecided {sc : TypeScope} {methods : Methods} {s : Session} (hs : s.Undecided)
    (hok : ((finish sc methods checkEffects).run s).1 = true) :
    ((finish sc methods checkEffects).run s).2.Undecided := by
  unfold finish at hok ⊢
  rw [StateT.run_bind] at hok ⊢
  have hsettled := hs.run (solveProgram_filters sc methods)
  rcases hrun : (solveProgram sc methods).run.run s with ⟨fault | _, t⟩
  · rw [hrun] at hok
    cases hok
  · rw [hrun] at hsettled
    have hlast : Filters .beforeVerdict
        (do
          checkGenerics t.solver.subst .empty t.generics.entries
          if checkEffects then
            checkSites [] (undeclaredEffects t.solver.subst t.sites.toList)
          return true)
        (do
          checkGenerics t.solver.subst .empty t.generics.entries
          if checkEffects then
            checkSites [] (undeclaredEffects t.solver.subst t.sites.toList)
          return true) := by
      refine (Filters.quiet (checkGenerics_emits (fun _ h _ => h) _ _ _)).bind fun _ => ?_
      split
      · exact (checkSites_undecided _ _).bind fun _ => .pure true
      · exact .pure true
    exact hsettled.run hlast

/-- The session of a check that fails: the solver has failed on all constraints collected, and
its error comes after all others. -/
theorem checkProgram_failed (hfail : (checkProgram catalog checkEffects p).solved = false) :
    ∃ fault t, t.Failed fault ∧ t.Undecided ∧
      (checkProgram catalog checkEffects p).session =
        (Event.report ⟨fault.span, .unsolved fault⟩).apply t := by
  have hfinish := finish_visited catalog checkEffects p
  have hflag : ((finish (p.scope catalog) (p.present catalog).1.methods checkEffects).run
      (p.visited catalog checkEffects)).1 = false := by rw [hfinish, hfail]
  obtain ⟨fault, t, hrun, hlast⟩ := finish_fails hflag
  obtain ⟨-, -, herror⟩ := solveProgram_brings (p.scope catalog) (p.present catalog).1.methods _
    (p.solving_visited catalog checkEffects)
  have hundecided := (p.visited_undecided catalog checkEffects).run
    (solveProgram_filters (p.scope catalog) (p.present catalog).1.methods)
  rw [hrun] at herror hundecided
  rw [hfinish] at hlast
  exact ⟨fault, t, herror fault rfl, hundecided, hlast⟩

theorem checkProgram_undecided (hok : (checkProgram catalog checkEffects p).solved = true) :
    (checkProgram catalog checkEffects p).session.Undecided := by
  have hfinish := finish_visited catalog checkEffects p
  have hundecided := finish_undecided checkEffects (p.visited_undecided catalog checkEffects)
    (by rw [hfinish, hok])
  rw [hfinish] at hundecided
  exact hundecided

end Program

/-- What has been found agrees with solving all constraints at once. If that succeeds, its
substitution is the final one, and the solver is blamed for nothing; if it fails, its error is
the last one, and the only one of its kind. -/
def TypeCheck.FollowsSolve (c : TypeCheck) : Prop :=
  match solve c.session.constraints.toList with
  | .ok σ => c.solved = true ∧ c.subst = σ ∧
    ∀ f ∈ c.session.faults.toList, f.node.isUnsolved = false
  | .error fault => c.solved = false ∧
    ∃ others, c.session.faults.toList = others ++ [⟨fault.span, .unsolved fault⟩] ∧
      (∀ f ∈ others, f.node.isUnsolved = false) ∧
      c.errors = others.map TypeError.ofFault ++ [⟨fault.message, fault.category, fault.span⟩]

namespace TypeCheck

variable {c : TypeCheck}

theorem followsSolve_of_solved (hflag : c.solved = true) (hsolved : c.session.Solved)
    (hundecided : c.session.Undecided) : c.FollowsSolve := by
  unfold FollowsSolve
  rw [hsolved.solve_eq]
  refine ⟨hflag, ?_, fun f hf => hundecided.not_unsolved hf⟩
  simp only [subst, hflag, if_true]

theorem followsSolve_of_failed {t : Session} {fault : SolveFault} (hflag : c.solved = false)
    (hfailed : t.Failed fault) (hundecided : t.Undecided)
    (hsession : c.session = (Event.report ⟨fault.span, .unsolved fault⟩).apply t) :
    c.FollowsSolve := by
  have hsolve : solve c.session.constraints.toList = .error fault := by
    rw [hsession]
    exact hfailed.solve_eq
  have hfaults : c.session.faults.toList = t.faults.toList ++ [⟨fault.span, .unsolved fault⟩] := by
    rw [hsession]
    simp [Event.apply]
  unfold FollowsSolve
  rw [hsolve]
  refine ⟨hflag, t.faults.toList, hfaults, fun f hf => hundecided.not_unsolved hf, ?_⟩
  rw [errors, hfaults, List.map_append]
  rfl

end TypeCheck

theorem checkProgram_followsSolve (catalog : Catalog) (checkEffects : Bool) (p : Program) :
    (checkProgram catalog checkEffects p).FollowsSolve := by
  cases hflag : (checkProgram catalog checkEffects p).solved with
  | true =>
    have hsolved := (checkProgram_solved catalog checkEffects p
      (checkProgram catalog checkEffects p).valuation hflag).1
    exact TypeCheck.followsSolve_of_solved hflag hsolved
      (checkProgram_undecided catalog checkEffects p hflag)
  | false =>
    obtain ⟨fault, t, hfailed, hundecided, hsession⟩ :=
      checkProgram_failed catalog checkEffects p hflag
    exact TypeCheck.followsSolve_of_failed hflag hfailed hundecided hsession

/-- Solving a list by prefixes that grow to the whole of it is solving it at once; once a call
has failed, all later ones return that failure and change nothing; and so every check of a
program ends as one solve of all its constraints ends. -/
theorem solve_in_steps :
    (∀ (cs : Array Constraint) (ks : List Nat), ks.Pairwise (· ≤ ·) →
        ks.getLast? = some cs.size →
        Solver.calls {} (ks.map fun k => cs.extract 0 k) = Solver.solve {} cs) ∧
      (∀ early later : List (Array Constraint), (Solver.calls {} early).failure.isSome = true →
        Solver.calls {} (early ++ later) = Solver.calls {} early) ∧
      ∀ (catalog : Catalog) (checkEffects : Bool) (p : Program),
        (checkProgram catalog checkEffects p).FollowsSolve := by
  refine ⟨fun cs ks hks hlast => Solver.calls_prefixes cs hks hlast, ?_,
    checkProgram_followsSolve⟩
  intro early later hfail
  rw [Solver.calls_append]
  exact Solver.calls_of_failure hfail later

/-- The second of three constraints fails, whether they come at once or in steps. -/
theorem solve_in_steps_with_failure :
    let same (a b : Ty) : Constraint :=
      { expected := a, actual := b, span := {}, origin := .operand }
    let cs := #[same (.var 0) .bool, same .unit (.var 0), same (.var 1) .unit]
    let steps := [0, 1, 1, 2, 3].map fun k => cs.extract 0 k
    Solver.calls {} steps = Solver.solve {} cs ∧
      (Solver.calls {} (steps.take 4)).failure.isSome = true ∧
      Solver.calls {} (steps.take 4 ++ steps.drop 4) = Solver.calls {} (steps.take 4) := by
  intro same cs steps
  have hfail : (Solver.calls {} (steps.take 4)).failure.isSome = true := by cbv
  exact ⟨solve_in_steps.1 cs [0, 1, 1, 2, 3] (by decide) rfl, hfail,
    solve_in_steps.2.1 (steps.take 4) (steps.drop 4) hfail⟩

end Sema
