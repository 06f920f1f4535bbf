import Mathlib.Logic.Relation
import Sema.Proofs.Typing.Members

/-!
# The rounds of settling

Settling is a loop over the accesses that are open. A round goes through them in order: it solves
what has been collected, hands an access on if its receiver is known by then, and lets it wait
otherwise. When a round hands nothing on, the loop goes through what waits once more and takes it
for ambiguous.

`Settlement` is a point of that loop, with the number of rounds begun and a log of the accesses that
have been handed on, each with the session at that moment. `Settlement.Step` goes from one point to
the next. No step changes the outcome that is ahead (`Step.outcome`) and each has less to do after
it (`Step.cost`), so the steps come to an end with the result and the session of `settle`.

Main statement: there are no more rounds than accesses at the start, each access is handed on
exactly once, to be resolved only if its receiver is known, and the solver has seen all constraints
in the end. This holds from every session, whatever its solver has done.
-/

namespace Sema

open Relation (ReflTransGen)

/-- The constraints of `s` from where the solver of `start` stood have been solved in order, up to
some point. -/
def Session.SolvingFrom (start s : Session) : Prop :=
  ∃ done rest, s.constraints.toList.drop start.solver.consumed = done ++ rest ∧
    s.solver = start.solver.run done

/-- They have been solved in order, all of them. -/
def Session.SolvedFrom (start s : Session) : Prop :=
  s.solver = start.solver.run (s.constraints.toList.drop start.solver.consumed)

namespace Session.SolvedFrom

variable {start s : Session}

theorem solvingFrom (h : SolvedFrom start s) : SolvingFrom start s :=
  ⟨_, [], (List.append_nil _).symm, h⟩

/-- Without a failure nothing is left to solve. -/
theorem size_le_consumed (h : SolvedFrom start s) (hok : s.solver.failure = none) :
    s.constraints.size ≤ s.solver.consumed := by
  rw [h] at hok
  have hconsumed := Solver.consumed_run hok
  rw [← h, List.length_drop, Array.length_toList] at hconsumed
  omega

end Session.SolvedFrom

/-- A solver that has gone through the first of the constraints ahead of it goes on with the rest,
from wherever it started. -/
theorem Solver.solve_of_drop {start : Solver} {cs : Array Constraint} {done rest : List Constraint}
    (h : cs.toList.drop start.consumed = done ++ rest) :
    (start.run done).solve cs = start.run (cs.toList.drop start.consumed) := by
  rw [h, run_append]
  by_cases hfail : (start.run done).failure.isSome = true
  · rw [solve_of_failure hfail, run_of_failure hfail]
  · have hok : (start.run done).failure = none := by simpa using hfail
    have hconsumed := consumed_run hok
    have hpending : (cs.extract (start.run done).consumed cs.size).toList = rest := by
      have hdrop : cs.toList.drop (start.consumed + done.length) = rest := by
        rw [← List.drop_drop, h, List.drop_left]
      rw [Array.toList_extract, hconsumed, List.extract, hdrop]
      exact List.take_of_length_le (by simp [← hdrop])
    rw [solve, hpending]

namespace Session.SolvingFrom

variable {start s t : Session}

theorem refl (s : Session) : SolvingFrom s s := ⟨[], _, rfl, rfl⟩

theorem solve (h : SolvingFrom start s) : SolvedFrom start (Event.solve.apply s) := by
  obtain ⟨done, rest, hdrop, hsolver⟩ := h
  have hsolve := Solver.solve_of_drop hdrop
  rw [← hsolver] at hsolve
  exact hsolve

theorem event (h : SolvingFrom start s) (e : Event) : SolvingFrom start (e.apply s) := by
  cases e with
  | solve => exact h.solve.solvingFrom
  | constrain c =>
    obtain ⟨done, rest, hdrop, hsolver⟩ := h
    refine ⟨done, rest ++ [c].drop (start.solver.consumed - s.constraints.toList.length), ?_,
      hsolver⟩
    simp only [Event.apply, Array.toList_push, List.drop_append]
    rw [hdrop, List.append_assoc]
  | _ => exact h

theorem leads {K : Event → Prop} (h : SolvingFrom start s) (hst : Leads K s t) :
    SolvingFrom start t :=
  hst.induct (R := fun s t => SolvingFrom start s → SolvingFrom start t) (fun _ => id)
    (fun _ _ _ h k hs => k (h hs)) (fun e _ _ hs => hs.event e) h

end Session.SolvingFrom

/-- All constraints have been solved, without a failure. -/
def Session.Idle (s : Session) : Prop :=
  Event.solve.apply s = s ∧ s.solver.failure = none

theorem Session.idle_solve {s : Session} (h : (Event.solve.apply s).solver.failure = none) :
    (Event.solve.apply s).Idle := by
  have hsize := (SolvingFrom.refl s).solve.size_le_consumed h
  have hrest : ((Event.solve.apply s).constraints.extract (Event.solve.apply s).solver.consumed
      (Event.solve.apply s).constraints.size).toList = [] := by simp [hsize]
  have hsolver : (Event.solve.apply s).solver.solve (Event.solve.apply s).constraints =
      (Event.solve.apply s).solver := by rw [Solver.solve, hrest, Solver.run_nil]
  refine ⟨?_, h⟩
  change { Event.solve.apply s with
    solver := (Event.solve.apply s).solver.solve (Event.solve.apply s).constraints } = _
  rw [hsolver]

/-- Is the receiver of the access a variable still? -/
def Session.unknown (s : Session) (d : Deferred) : Bool :=
  (s.solver.apply d.receiver).asVar.isSome

/-- An access that has been handed on, to be resolved if its receiver was known, or as ambiguous. -/
structure Handling where
  access : Deferred
  /-- The session at that moment. -/
  session : Session
  known : Bool

/-- Where the loop stands. -/
inductive Phase where
  /-- In a round that began with `size` accesses. -/
  | visit (todo waiting : List Deferred) (size : Nat)
  /-- After the last round. -/
  | report (todo : List Deferred)
  | ended
  | failed (fault : SolveFault) (left : List Deferred)

namespace Phase

/-- The accesses that have not been handed on. -/
def remaining : Phase → List Deferred
  | visit todo waiting _ => waiting ++ todo
  | report todo => todo
  | ended => []
  | failed _ left => left

def result? : Phase → Option (Except SolveFault Unit)
  | visit .. | report _ => none
  | ended => some (.ok ())
  | failed fault _ => some (.error fault)

theorem eq_ended {p : Phase} (h : p.result? = some (.ok ())) : p = ended := by
  cases p with
  | ended => rfl
  | _ => cases h

/-- The size of the round, as long as there may be another one. -/
def size : Phase → Nat
  | visit _ _ n => n
  | _ => 1

/-- More than the number of steps ahead. -/
def cost : Phase → Nat
  | visit todo waiting n => n * (n + 3) + 2 * todo.length + waiting.length + 2
  | report todo => todo.length + 1
  | _ => 0

end Phase

/-- A point of the loop. -/
structure Settlement where
  phase : Phase
  session : Session
  /-- The rounds begun. -/
  rounds : Nat := 0
  log : List Handling := []

namespace Settlement

/-- A round begins, if there is anything to settle. -/
def enter (pending : List Deferred) (s : Session) (rounds : Nat) (log : List Handling) :
    Settlement :=
  if pending.isEmpty then ⟨.ended, s, rounds, log⟩
  else ⟨.visit pending [] pending.length, s, rounds + 1, log⟩

def start (pending : List Deferred) (s : Session) : Settlement := enter pending s 0 []

variable (sc : TypeScope) (methods : Methods)

inductive Step : Settlement → Settlement → Prop
  | fail {todo waiting : List Deferred} {size n : Nat} {s : Session} {log : List Handling}
      {fault : SolveFault} (failed : (Event.solve.apply s).solver.failure = some fault) :
      Step ⟨.visit todo waiting size, s, n, log⟩
        ⟨.failed fault (waiting ++ todo), Event.solve.apply s, n, log⟩
  | wait {d : Deferred} {todo waiting : List Deferred} {size n : Nat} {s : Session}
      {log : List Handling} (solved : (Event.solve.apply s).solver.failure = none)
      (unknown : ((Event.solve.apply s).solver.apply d.receiver).asVar.isSome = true) :
      Step ⟨.visit (d :: todo) waiting size, s, n, log⟩
        ⟨.visit todo (waiting ++ [d]) size, Event.solve.apply s, n, log⟩
  | resolve {d : Deferred} {todo waiting : List Deferred} {size n : Nat} {s : Session}
      {log : List Handling} (solved : (Event.solve.apply s).solver.failure = none)
      (known : ((Event.solve.apply s).solver.apply d.receiver).asVar = none) :
      Step ⟨.visit (d :: todo) waiting size, s, n, log⟩
        ⟨.visit todo waiting size,
          after (resolveMember sc methods ((Event.solve.apply s).solver.apply d.receiver) d)
            (Event.solve.apply s),
          n, log ++ [⟨d, Event.solve.apply s, true⟩]⟩
  | again {waiting : List Deferred} {size n : Nat} {s : Session} {log : List Handling}
      (solved : (Event.solve.apply s).solver.failure = none) (progress : waiting.length < size) :
      Step ⟨.visit [] waiting size, s, n, log⟩ (enter waiting (Event.solve.apply s) n log)
  | stop {waiting : List Deferred} {size n : Nat} {s : Session} {log : List Handling}
      (solved : (Event.solve.apply s).solver.failure = none) (stuck : ¬ waiting.length < size) :
      Step ⟨.visit [] waiting size, s, n, log⟩ ⟨.report waiting, Event.solve.apply s, n, log⟩
  | report {d : Deferred} {todo : List Deferred} {n : Nat} {s t : Session} {log : List Handling}
      (settled : (settleAmbiguous d).run.run s = (.ok (), t)) :
      Step ⟨.report (d :: todo), s, n, log⟩ ⟨.report todo, t, n, log ++ [⟨d, s, false⟩]⟩
  | refuse {d : Deferred} {todo : List Deferred} {n : Nat} {s t : Session} {log : List Handling}
      {fault : SolveFault} (failed : (settleAmbiguous d).run.run s = (.error fault, t)) :
      Step ⟨.report (d :: todo), s, n, log⟩
        ⟨.failed fault todo, t, n, log ++ [⟨d, s, false⟩]⟩
  | finish {n : Nat} {s : Session} {log : List Handling} :
      Step ⟨.report [], s, n, log⟩ ⟨.ended, s, n, log⟩

/-- What the loop has yet to do. -/
def ahead : Phase → Settle Unit
  | .visit todo waiting size => do
    let more ← settleRound sc methods todo
    if (waiting ++ more).length < size then settle sc methods (waiting ++ more)
    else (waiting ++ more).forM settleAmbiguous
  | .report todo => todo.forM settleAmbiguous
  | .ended => return
  | .failed fault _ => throw fault

/-- The result of the loop, and the session it ends in. -/
def outcome (x : Settlement) : Except SolveFault Unit × Session :=
  (ahead sc methods x.phase).run.run x.session

theorem outcome_enter (pending : List Deferred) (s : Session) (n : Nat) (log : List Handling) :
    outcome sc methods (enter pending s n log) = (settle sc methods pending).run.run s := by
  rw [settle, enter]
  split <;> rfl

theorem solveAll_bind_of_none {α : Type} {s : Session}
    (h : (Event.solve.apply s).solver.failure = none) (f : Unit → Settle α) :
    (solveAll >>= f).run.run s = (f ()).run.run (Event.solve.apply s) := by
  have hnone : (s.solver.solve s.constraints).failure = none := h
  rw [ExceptT.run_bind, StateT.run_bind, solveAll_run, hnone]
  rfl

theorem solveAll_bind_of_some {α : Type} {s : Session} {fault : SolveFault}
    (h : (Event.solve.apply s).solver.failure = some fault) (f : Unit → Settle α) :
    (solveAll >>= f).run.run s = (.error fault, Event.solve.apply s) := by
  have hsome : (s.solver.solve s.constraints).failure = some fault := h
  rw [ExceptT.run_bind, StateT.run_bind, solveAll_run, hsome]
  rfl

section Round

variable {α : Type} {s : Session} (k : List Deferred → Settle α)

theorem settleRound_bind_of_failure {fault : SolveFault}
    (h : (Event.solve.apply s).solver.failure = some fault) (pending : List Deferred) :
    (settleRound sc methods pending >>= k).run.run s = (.error fault, Event.solve.apply s) := by
  cases pending with
  | nil =>
    rw [settleRound, bind_assoc]
    exact solveAll_bind_of_some h _
  | cons d r =>
    rw [settleRound, bind_assoc]
    exact solveAll_bind_of_some h _

theorem settleRound_bind_nil (h : (Event.solve.apply s).solver.failure = none) :
    (settleRound sc methods [] >>= k).run.run s = (k []).run.run (Event.solve.apply s) := by
  rw [settleRound, bind_assoc, solveAll_bind_of_none h]
  rfl

theorem settleRound_bind_unknown (h : (Event.solve.apply s).solver.failure = none) {d : Deferred}
    (hd : ((Event.solve.apply s).solver.apply d.receiver).asVar.isSome = true)
    (r : List Deferred) :
    (settleRound sc methods (d :: r) >>= k).run.run s =
      (settleRound sc methods r >>= fun waiting => k (d :: waiting)).run.run
        (Event.solve.apply s) := by
  rw [settleRound, bind_assoc, solveAll_bind_of_none h, bind_assoc]
  -- What is read back is the session that has just been solved.
  change (ite _ (_ >>= _) _ >>= k).run.run (Event.solve.apply s) = _
  rw [if_pos hd, bind_assoc]
  rfl

theorem settleRound_bind_known (h : (Event.solve.apply s).solver.failure = none) {d : Deferred}
    (hd : ((Event.solve.apply s).solver.apply d.receiver).asVar = none) (r : List Deferred) :
    (settleRound sc methods (d :: r) >>= k).run.run s =
      (settleRound sc methods r >>= k).run.run
        (after (resolveMember sc methods ((Event.solve.apply s).solver.apply d.receiver) d)
          (Event.solve.apply s)) := by
  rw [settleRound, bind_assoc, solveAll_bind_of_none h, bind_assoc]
  change (ite _ (_ >>= _) _ >>= k).run.run (Event.solve.apply s) = _
  rw [if_neg (by simp [hd]), bind_assoc]
  rfl

end Round

variable {sc methods}

/-- No step changes the outcome. -/
theorem Step.outcome {x y : Settlement} (h : Step sc methods x y) :
    y.outcome sc methods = x.outcome sc methods := by
  cases h with
  | fail failed => exact (settleRound_bind_of_failure sc methods _ failed _).symm
  | @wait d todo waiting size n s log solved unknown =>
    refine Eq.trans ?_ (settleRound_bind_unknown sc methods _ solved unknown todo).symm
    simp only [Settlement.outcome, ahead, List.append_assoc, List.singleton_append]
  | resolve solved known => exact (settleRound_bind_known sc methods _ solved known _).symm
  | again solved progress =>
    rw [outcome_enter]
    refine Eq.trans ?_ (settleRound_bind_nil sc methods _ solved).symm
    rw [List.append_nil, if_pos progress]
  | stop solved stuck =>
    refine Eq.trans ?_ (settleRound_bind_nil sc methods _ solved).symm
    rw [List.append_nil, if_neg stuck]
    rfl
  | @report d todo n s t log settled =>
    change _ = (settleAmbiguous d >>= fun _ => todo.forM settleAmbiguous).run.run s
    rw [ExceptT.run_bind, StateT.run_bind, settled]
    rfl
  | @refuse d todo n s t log fault failed =>
    change _ = (settleAmbiguous d >>= fun _ => todo.forM settleAmbiguous).run.run s
    rw [ExceptT.run_bind, StateT.run_bind, failed]
    rfl
  | finish => rfl

/-- Each step leaves less to do. -/
theorem Step.cost {x y : Settlement} (h : Step sc methods x y) : y.phase.cost < x.phase.cost := by
  cases h with
  | @again waiting size n s log solved progress =>
    have hsize : (waiting.length + 1) * (waiting.length + 3) ≤ size * (size + 3) :=
      Nat.mul_le_mul progress (by omega)
    rw [Nat.succ_mul] at hsize
    unfold enter
    split
    · simp [Phase.cost]
    · simp only [Phase.cost, List.length_nil]
      omega
  | _ => simp [Phase.cost] <;> omega

/-- There is a next step, or what has come out is what was ahead. -/
theorem exists_step (sc : TypeScope) (methods : Methods) (x : Settlement) :
    x.phase.result? = some (x.outcome sc methods).1 ∧ x.session = (x.outcome sc methods).2 ∨
      ∃ y, Step sc methods x y := by
  obtain ⟨phase, s, n, log⟩ := x
  match phase with
  | .ended => exact .inl ⟨rfl, rfl⟩
  | .failed fault left => exact .inl ⟨rfl, rfl⟩
  | .report [] => exact .inr ⟨_, .finish⟩
  | .report (d :: todo) =>
    rcases hrun : (settleAmbiguous d).run.run s with ⟨fault | _, t⟩
    · exact .inr ⟨_, .refuse hrun⟩
    · exact .inr ⟨_, .report hrun⟩
  | .visit todo waiting size =>
    cases hsolve : (Event.solve.apply s).solver.failure with
    | some fault => exact .inr ⟨_, .fail hsolve⟩
    | none =>
      match todo with
      | [] =>
        by_cases hlt : waiting.length < size
        · exact .inr ⟨_, .again hsolve hlt⟩
        · exact .inr ⟨_, .stop hsolve hlt⟩
      | d :: todo =>
        cases hd : ((Event.solve.apply s).solver.apply d.receiver).asVar with
        | none => exact .inr ⟨_, .resolve hsolve hd⟩
        | some v => exact .inr ⟨_, .wait hsolve (by rw [hd]; rfl)⟩

/-- The loop comes to an end. -/
theorem reaches_end (sc : TypeScope) (methods : Methods) (x : Settlement) :
    ∃ y, ReflTransGen (Step sc methods) x y ∧
      y.phase.result? = some (x.outcome sc methods).1 ∧ y.session = (x.outcome sc methods).2 := by
  induction hn : x.phase.cost using Nat.strongRecOn generalizing x with
  | ind n ih =>
    rcases exists_step sc methods x with hend | ⟨y, hstep⟩
    · exact ⟨x, .refl, hend⟩
    · obtain ⟨z, hreach, hend⟩ := ih _ (hn ▸ hstep.cost) y rfl
      rw [hstep.outcome] at hend
      exact ⟨z, hreach.head hstep, hend⟩

section Enter

variable (pending : List Deferred) (s : Session) (n : Nat) (log : List Handling)

@[simp] theorem session_enter : (enter pending s n log).session = s := by
  unfold enter
  split <;> rfl

@[simp] theorem log_enter : (enter pending s n log).log = log := by
  unfold enter
  split <;> rfl

@[simp] theorem remaining_enter : (enter pending s n log).phase.remaining = pending := by
  unfold enter
  split
  · rename_i hempty
    exact (List.isEmpty_iff.mp hempty).symm
  · rfl

theorem size_enter : 1 ≤ (enter pending s n log).phase.size ∧
    (enter pending s n log).rounds + (enter pending s n log).phase.size ≤
      n + 1 + pending.length := by
  unfold enter
  split
  · exact ⟨Nat.le_refl 1, Nat.le_add_right _ _⟩
  · rename_i hsome
    exact ⟨List.length_pos_iff.mpr (by simpa using hsome), Nat.le_refl _⟩

end Enter

/-- A step hands at most one access on, and keeps the others. -/
theorem Step.handled {x y : Settlement} (h : Step sc methods x y) :
    (y.log.map (·.access) ++ y.phase.remaining).Perm
      (x.log.map (·.access) ++ x.phase.remaining) := by
  cases h with
  | resolve solved known =>
    simp only [Phase.remaining, List.map_append, List.map_cons, List.map_nil, List.append_assoc,
      List.singleton_append]
    exact List.perm_middle.symm.append_left _
  | again solved progress =>
    rw [log_enter, remaining_enter]
    simp [Phase.remaining]
  | _ => simp [Phase.remaining]

/-- A round begins with fewer accesses than the one before. -/
theorem Step.rounds {x y : Settlement} (h : Step sc methods x y) {n : Nat}
    (hx : 1 ≤ x.phase.size ∧ x.rounds + x.phase.size ≤ n) :
    1 ≤ y.phase.size ∧ y.rounds + y.phase.size ≤ n := by
  obtain ⟨hpos, hle⟩ := hx
  cases h with
  | @again waiting size k s log solved progress =>
    obtain ⟨hsize, hrounds⟩ := size_enter waiting (Event.solve.apply s) k log
    have hle : k + size ≤ n := hle
    exact ⟨hsize, by omega⟩
  | _ =>
    simp only [Phase.size] at hpos hle ⊢
    omega

variable (sc methods) in
/-- The session `t` has come from `s` by the calls of the log in order, with nothing but solving
between them. What has been resolved had a receiver that was known when all was solved. -/
inductive Handles (s : Session) : List Handling → Session → Prop
  | nil : Handles s [] s
  | solve {log : List Handling} {t : Session} (h : Handles s log t) :
      Handles s log (Event.solve.apply t)
  | resolve {log : List Handling} {t : Session} (h : Handles s log t) (idle : t.Idle)
      (d : Deferred) (known : (t.solver.apply d.receiver).asVar = none) :
      Handles s (log ++ [⟨d, t, true⟩])
        (after (resolveMember sc methods (t.solver.apply d.receiver) d) t)
  | ambiguous {log : List Handling} {t : Session} (h : Handles s log t) (d : Deferred) :
      Handles s (log ++ [⟨d, t, false⟩]) ((settleAmbiguous d).run.run t).2

theorem Handles.known {s t : Session} {log : List Handling} (h : Handles sc methods s log t) :
    ∀ x ∈ log, x.known = true → (x.session.solver.apply x.access.receiver).asVar = none := by
  induction h with
  | nil => simp
  | solve _ ih => exact ih
  | resolve _ _ d known ih =>
    intro x hx
    rcases List.mem_append.mp hx with hx | hx
    · exact ih x hx
    · rw [List.mem_singleton.mp hx]
      exact fun _ => known
  | ambiguous _ d ih =>
    intro x hx
    rcases List.mem_append.mp hx with hx | hx
    · exact ih x hx
    · rw [List.mem_singleton.mp hx]
      simp

theorem Step.handles {x y : Settlement} (h : Step sc methods x y) {s : Session}
    (hx : Handles sc methods s x.log x.session) : Handles sc methods s y.log y.session := by
  cases h with
  | fail failed => exact hx.solve
  | wait solved unknown => exact hx.solve
  | resolve solved known => exact hx.solve.resolve (Session.idle_solve solved) _ known
  | again solved progress =>
    rw [log_enter, session_enter]
    exact hx.solve
  | stop solved stuck => exact hx.solve
  | @report d _ _ _ _ _ settled =>
    have hnext := hx.ambiguous d
    rw [settled] at hnext
    exact hnext
  | @refuse d _ _ _ _ _ _ failed =>
    have hnext := hx.ambiguous d
    rw [failed] at hnext
    exact hnext
  | finish => exact hx

/-- The constraints ahead of `start` have been solved: some of them within a round, and all of them
without a failure after the last one. -/
def Caught (start : Session) (x : Settlement) : Prop :=
  match x.phase with
  | .visit .. => start.SolvingFrom x.session
  | .report _ | .ended => start.SolvedFrom x.session ∧ x.session.solver.failure = none
  | .failed .. => True

theorem settleAmbiguous_solvedFrom {start s t : Session} {d : Deferred}
    (hrun : (settleAmbiguous d).run.run s = (.ok (), t))
    (hs : start.SolvedFrom s ∧ s.solver.failure = none) :
    start.SolvedFrom t ∧ t.solver.failure = none := by
  cases d with
  | field base name result span =>
    cases hrun
    exact hs
  | method call =>
    cases hrun
    exact hs
  | iter iterable elem span =>
    have hconstrain : (settleAmbiguous (.iter iterable elem span)).run.run s =
        solveAll.run.run (after (constrain (.array elem) iterable span .iteration) s) := rfl
    rw [hconstrain, solveAll_run] at hrun
    obtain ⟨hok, rfl⟩ := Prod.mk.inj hrun
    have hmore := (hs.1.solvingFrom.leads
      ((constrain_notes (.array elem) iterable span .iteration).leads s)).solve
    refine ⟨hmore, ?_⟩
    cases hfailure : (Solver.solve _ _).failure with
    | none => exact hfailure
    | some fault =>
      rw [hfailure] at hok
      cases hok

theorem Step.caught {x y : Settlement} (h : Step sc methods x y) {start : Session}
    (hx : Caught start x) : Caught start y := by
  cases h with
  | fail failed => trivial
  | wait solved unknown => exact (Session.SolvingFrom.solve hx).solvingFrom
  | @resolve d _ _ _ _ s _ solved known =>
    have hmember := resolveMember_quiet sc methods ((Event.solve.apply s).solver.apply d.receiver) d
    exact (Session.SolvingFrom.solve hx).solvingFrom.leads (hmember.leads _)
  | again solved progress =>
    have hsolve := Session.SolvingFrom.solve hx
    unfold enter
    split
    · exact ⟨hsolve, solved⟩
    · exact hsolve.solvingFrom
  | stop solved stuck => exact ⟨Session.SolvingFrom.solve hx, solved⟩
  | report settled => exact settleAmbiguous_solvedFrom settled hx
  | refuse failed => trivial
  | finish => exact hx

variable (sc methods) in
/-- The log in two parts. Up to `r`, where all is solved, accesses have been resolved; those handed
on after that, and those in `todo`, have receivers that are not known in `r`. -/
structure Parted (start : Session) (pending : List Deferred) (resolved : List Handling)
    (r : Session) (reported : List Handling) (t : Session) (todo : List Deferred) : Prop where
  first : Handles sc methods start resolved r
  last : Handles sc methods r reported t
  idle : r.Idle
  known : ∀ h ∈ resolved, h.known = true
  ambiguous : ∀ h ∈ reported, h.known = false
  order : (reported.map (·.access) ++ todo).Sublist pending
  unknown : ∀ d ∈ reported.map (·.access) ++ todo, r.unknown d = true

variable (sc methods) in
/-- As long as a round has handed nothing on, the solver has not moved since its first access, and
what waits is unknown. -/
def Sorted (start : Session) (pending : List Deferred) (x : Settlement) : Prop :=
  match x.phase with
  | .visit todo waiting size =>
    Handles sc methods start x.log x.session ∧ (∀ h ∈ x.log, h.known = true) ∧
      (waiting ++ todo).Sublist pending ∧ (waiting ++ todo).length ≤ size ∧
      ((waiting ++ todo).length = size → waiting = [] ∨
        x.session.Idle ∧ ∀ d ∈ waiting, x.session.unknown d = true)
  | .report todo => ∃ resolved r reported, x.log = resolved ++ reported ∧
      Parted sc methods start pending resolved r reported x.session todo
  | .ended => ∃ resolved r reported, x.log = resolved ++ reported ∧
      Parted sc methods start pending resolved r reported x.session []
  | .failed .. => True

theorem sorted_enter {start s : Session} {pending waiting : List Deferred} {log : List Handling}
    (hlog : Handles sc methods start log s) (hidle : s.Idle) (hknown : ∀ h ∈ log, h.known = true)
    (horder : waiting.Sublist pending) (n : Nat) :
    Sorted sc methods start pending (enter waiting s n log) := by
  unfold enter
  split
  · exact ⟨log, s, [], (List.append_nil log).symm, hlog, .nil, hidle, hknown, by simp, by simp,
      by simp⟩
  · exact ⟨hlog, hknown, horder, Nat.le_refl _, fun _ => .inl rfl⟩

theorem Step.sorted {x y : Settlement} (h : Step sc methods x y) {start : Session}
    {pending : List Deferred} (hx : Sorted sc methods start pending x) :
    Sorted sc methods start pending y := by
  cases h with
  | fail failed => trivial
  | @wait d todo waiting size n s log solved unknown =>
    obtain ⟨hlog, hknown, horder, hsize, hstuck⟩ := hx
    rw [List.append_cons] at horder hsize hstuck
    refine ⟨hlog.solve, hknown, horder, hsize, fun hfull =>
      .inr ⟨Session.idle_solve solved, ?_⟩⟩
    intro e he
    rcases List.mem_append.mp he with he | he
    · rcases hstuck hfull with rfl | ⟨hidle, hall⟩
      · cases he
      · rw [hidle.1]
        exact hall e he
    · rw [List.mem_singleton.mp he]
      exact unknown
  | @resolve d todo waiting size n s log solved known =>
    obtain ⟨hlog, hknown, horder, hsize, -⟩ := hx
    have hfewer : (waiting ++ todo).length < size := by
      simp only [List.length_append, List.length_cons] at hsize ⊢
      omega
    refine ⟨hlog.solve.resolve (Session.idle_solve solved) d known,
      List.forall_mem_append.mpr ⟨hknown, by simp⟩, ?_, Nat.le_of_lt hfewer,
      fun hfull => absurd hfull (Nat.ne_of_lt hfewer)⟩
    exact .trans (List.Sublist.append_left (List.sublist_cons_self d todo) waiting) horder
  | again solved progress =>
    obtain ⟨hlog, hknown, horder, -⟩ := hx
    exact sorted_enter hlog.solve (Session.idle_solve solved) hknown (by simpa using horder) _
  | @stop waiting size n s log solved stuck =>
    obtain ⟨hlog, hknown, horder, hsize, hstuck⟩ := hx
    rw [List.append_nil] at horder hsize hstuck
    refine ⟨log, Event.solve.apply s, [], (List.append_nil log).symm, hlog.solve, .nil,
      Session.idle_solve solved, hknown, by simp, horder, fun d hd => ?_⟩
    rcases hstuck (Nat.le_antisymm hsize (Nat.le_of_not_lt stuck)) with rfl | ⟨hidle, hall⟩
    · cases hd
    · rw [hidle.1]
      exact hall d hd
  | @report d todo n s t log settled =>
    obtain ⟨resolved, r, reported, rfl, hparted⟩ := hx
    have hlast := hparted.last.ambiguous d
    rw [settled] at hlast
    refine ⟨resolved, r, reported ++ [⟨d, s, false⟩], List.append_assoc .., hparted.first, hlast,
      hparted.idle, hparted.known, List.forall_mem_append.mpr ⟨hparted.ambiguous, by simp⟩, ?_, ?_⟩
    · simpa using hparted.order
    · simpa using hparted.unknown
  | refuse failed => trivial
  | finish => exact hx

/-- What each step keeps is kept by every run. -/
theorem run_keeps {P : Settlement → Prop} (hP : ∀ x y, Step sc methods x y → P x → P y)
    {x y : Settlement} (h : ReflTransGen (Step sc methods) x y) (hx : P x) : P y := by
  induction h with
  | refl => exact hx
  | tail _ hstep ih => exact hP _ _ hstep ih

end Settlement

open Settlement

variable (sc : TypeScope) (methods : Methods)

/-- A run that succeeds resolves accesses up to some session, and finds ambiguous what is unknown
there. -/
theorem settle_parted {pending : List Deferred} {s t : Session} (hs : s.Idle)
    (hrun : (settle sc methods pending).run.run s = (.ok (), t)) :
    ∃ resolved r reported, ((resolved ++ reported).map (·.access)).Perm pending ∧
      Parted sc methods s pending resolved r reported t [] := by
  obtain ⟨x, hreach, hresult, hsession⟩ := reaches_end sc methods (start pending s)
  rw [start, outcome_enter, hrun] at hresult hsession
  have hhandled := run_keeps
    (P := fun x => (x.log.map (·.access) ++ x.phase.remaining).Perm pending)
    (fun _ _ hstep h => hstep.handled.trans h) hreach (by simp [start])
  have hsorted := run_keeps (fun _ _ hstep h => hstep.sorted h) hreach
    (sorted_enter .nil hs (by simp) (List.Sublist.refl pending) 0)
  rw [Sorted, Phase.eq_ended hresult, hsession] at hsorted
  obtain ⟨resolved, r, reported, hlog, hparted⟩ := hsorted
  rw [Phase.eq_ended hresult, hlog] at hhandled
  exact ⟨resolved, r, reported, by simpa [Phase.remaining] using hhandled, hparted⟩

/-- Where solving a program succeeds, settling starts with all constraints solved. -/
theorem solveProgram_run {s t : Session}
    (hrun : (solveProgram sc methods).run.run s = (.ok (), t)) :
    (Event.solve.apply s).Idle ∧
      (settle sc methods s.deferred.toList).run.run (Event.solve.apply s) = (.ok (), t) := by
  unfold solveProgram at hrun
  cases hsolve : (Event.solve.apply s).solver.failure with
  | none =>
    rw [solveAll_bind_of_none hsolve] at hrun
    exact ⟨Session.idle_solve hsolve, hrun⟩
  | some fault =>
    rw [solveAll_bind_of_some hsolve] at hrun
    cases hrun

/-- Settling, from any session, runs through at most as many rounds as there are accesses. Whatever
the result, each access is either still open or has been handed on, and that once. When settling
succeeds, none is open, those that were resolved had a receiver that was not a variable at that
moment, and the solver has gone through all constraints, those collected on the way too, in order
and without a failure. -/
theorem settle_handles_each_once (pending : List Deferred) (s : Session) :
    let settled := (settle sc methods pending).run.run s
    ∃ x, ReflTransGen (Step sc methods) (start pending s) x ∧
      x.phase.result? = some settled.1 ∧ x.session = settled.2 ∧
      x.rounds ≤ pending.length ∧
      (x.log.map (·.access) ++ x.phase.remaining).Perm pending ∧
      Handles sc methods s x.log settled.2 ∧
      (settled.1 = .ok () →
        (x.log.map (·.access)).Perm pending ∧
        (∀ h ∈ x.log, h.known = true →
          (h.session.solver.apply h.access.receiver).asVar = none) ∧
        (pending = [] ∧ settled.2 = s ∨
          s.SolvedFrom settled.2 ∧ settled.2.solver.failure = none ∧
            settled.2.constraints.size ≤ settled.2.solver.consumed)) := by
  intro settled
  obtain ⟨x, hreach, hresult, hsession⟩ := reaches_end sc methods (start pending s)
  rw [start, outcome_enter] at hresult hsession
  have hhandled := run_keeps
    (P := fun x => (x.log.map (·.access) ++ x.phase.remaining).Perm pending)
    (fun _ _ hstep h => hstep.handled.trans h) hreach (by simp [start])
  have hrounds := run_keeps (fun _ _ hstep h => hstep.rounds h) hreach (size_enter pending s 0 [])
  have htrace := run_keeps (P := fun x => Handles sc methods s x.log x.session)
    (fun _ _ hstep h => hstep.handles h) hreach (by
      rw [start, log_enter, session_enter]
      exact .nil)
  have hbound : x.rounds ≤ pending.length := by omega
  refine ⟨x, hreach, hresult, hsession, hbound, hhandled, hsession ▸ htrace, fun hok => ?_⟩
  have hended : x.phase = .ended := Phase.eq_ended (hresult.trans (congrArg some hok))
  have hall : (x.log.map (·.access)).Perm pending := by
    simpa [hended, Phase.remaining] using hhandled
  refine ⟨hall, htrace.known, ?_⟩
  by_cases hnil : pending = []
  · refine .inl ⟨hnil, ?_⟩
    subst hnil
    change ((settle sc methods []).run.run s).2 = s
    rw [settle]
    rfl
  · have hstart : Caught s (start pending s) := by
      have hsome : pending.isEmpty ≠ true := by simpa using hnil
      rw [start, enter, if_neg hsome]
      exact .refl s
    have hcaught := run_keeps (fun _ _ hstep h => hstep.caught h) hreach hstart
    rw [Caught, hended, hsession] at hcaught
    exact .inr ⟨hcaught.1, hcaught.2, hcaught.1.size_le_consumed hcaught.2⟩

end Sema
