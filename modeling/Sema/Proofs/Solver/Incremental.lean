import Sema.Proofs.Solver.Acyclic

/-!
# Solving a list as it grows

A solver that is given longer and longer prefixes of a list goes on each time where it stopped,
so in the end it has done what one run on the whole list does. A failure stays: from then on
every call leaves the solver alone.
-/

namespace Sema.Solver

theorem consumed_run {s : Solver} {l : List Constraint} (h : (s.run l).failure = none) :
    (s.run l).consumed = s.consumed + l.length := by
  induction l generalizing s with
  | nil => rfl
  | cons c l ih =>
    have hnext := run_cons (failure_of_run h) c l
    rw [hnext] at h ⊢
    rw [ih h]
    simp only [step, List.length_cons]
    omega

theorem solve_of_failure {s : Solver} (h : s.failure.isSome = true) (cs : Array Constraint) :
    s.solve cs = s :=
  run_of_failure h _

/-- A solver that has run on the beginning of a list goes on with the rest of it. -/
theorem solve_run {cs : Array Constraint} {done rest : List Constraint}
    (h : cs.toList = done ++ rest) : (run {} done).solve cs = run {} cs.toList := by
  rw [h, run_append]
  by_cases hfail : (run {} done).failure.isSome = true
  · rw [solve_of_failure hfail, run_of_failure hfail]
  · have hok : (run {} done).failure = none := by simpa using hfail
    have hconsumed : (run {} done).consumed = done.length := by
      rw [consumed_run hok]
      simp
    have hsize : cs.size = done.length + rest.length := by
      rw [← Array.length_toList, h, List.length_append]
    have hpending : (cs.extract (run {} done).consumed cs.size).toList = rest := by
      rw [Array.toList_extract, hconsumed, h]
      simp [List.extract, hsize]
    rw [solve, hpending]

/-- One call on a longer prefix. -/
theorem solve_extract (cs : Array Constraint) {j k : Nat} (h : j ≤ k) :
    (run {} (cs.toList.take j)).solve (cs.extract 0 k) = run {} (cs.toList.take k) := by
  have hlist : (cs.extract 0 k).toList = cs.toList.take k := by
    rw [Array.toList_extract]
    simp [List.extract]
  have htake : (cs.toList.take k).take j = cs.toList.take j := by
    rw [List.take_take, Nat.min_eq_left h]
  have hsplit : (cs.extract 0 k).toList = cs.toList.take j ++ (cs.toList.take k).drop j := by
    rw [hlist, ← htake, List.take_append_drop]
  rw [solve_run hsplit, hlist]

/-- By induction on the calls: after each of them the solver has run on the prefix it was
given. -/
theorem calls_extract (cs : Array Constraint) (ks : List Nat) {k n : Nat}
    (hks : (k :: ks).Pairwise (· ≤ ·)) (hlast : (k :: ks).getLast? = some n) :
    (run {} (cs.toList.take k)).calls (ks.map fun j => cs.extract 0 j) =
      run {} (cs.toList.take n) := by
  induction ks generalizing k with
  | nil =>
    have hn : k = n := by simpa using hlast
    rw [← hn]
    rfl
  | cons j ks ih =>
    obtain ⟨hhead, htail⟩ := List.pairwise_cons.mp hks
    have hstep := solve_extract cs (hhead j (by simp))
    have hrest := ih htail (by simpa using hlast)
    rw [← hstep] at hrest
    exact hrest

/-- Prefixes that end with the whole list are as good as the whole list at once. -/
theorem calls_prefixes (cs : Array Constraint) {ks : List Nat} (hks : ks.Pairwise (· ≤ ·))
    (hlast : ks.getLast? = some cs.size) :
    calls {} (ks.map fun k => cs.extract 0 k) = solve {} cs := by
  have hzero : (0 :: ks).Pairwise (· ≤ ·) := List.pairwise_cons.mpr ⟨fun _ _ => Nat.zero_le _, hks⟩
  have hend : (0 :: ks).getLast? = some cs.size := by
    rw [List.getLast?_cons, hlast]
    rfl
  have hcalls := calls_extract cs ks hzero hend
  have hwhole : (run {} []).solve cs = run {} cs.toList := solve_run rfl
  rw [← Array.length_toList, List.take_length, ← hwhole] at hcalls
  exact hcalls

theorem calls_of_failure {s : Solver} (h : s.failure.isSome = true)
    (lists : List (Array Constraint)) : s.calls lists = s := by
  induction lists with
  | nil => rfl
  | cons cs lists ih =>
    have hfirst := solve_of_failure h cs
    change (s.solve cs).calls lists = s
    rw [hfirst]
    exact ih

end Sema.Solver
