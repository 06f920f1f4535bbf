import Mathlib.Data.List.Induction
import Sema.Proofs.Ownership.Machine

/-!
# No item depends on another

A checker goes from item to item and from program to program with whatever state and holder
the one before has left. A function starts from a state and a holder of its own, a constant
from a state alone; so what is found in a constant would depend on the item before it, if that
could leave a holder behind. It cannot, as every job puts back the holder it finds, and the
findings so far are only added to. So a checker finds in each item what a new one would.
-/

namespace Sema

open Checking (Reaches)

namespace Table

variable {α : Type}

theorem get?_ofList_append (l m : List (String × α)) (name : String) :
    (ofList (l ++ m)).get? name = ((ofList m).get? name).or ((ofList l).get? name) := by
  rw [ofList, insertAll, List.foldl_append]
  exact get?_insertAll (ofList l) m name

end Table

namespace Checking

theorem eq_of_reaches_done {c : Checker} {x : Checking} (h : Reaches ⟨[], c⟩ x) :
    x = ⟨[], c⟩ := by
  cases h.cases_head with
  | inl heq => exact heq.symm
  | inr hstep =>
    obtain ⟨y, hy, -⟩ := hstep
    cases hy

/-- There is one way to go, so whatever is reached is on the way to the end. -/
theorem reaches_done {x y : Checking} {c : Checker} (hy : Reaches x y) (hc : Reaches x ⟨[], c⟩) :
    Reaches y ⟨[], c⟩ := by
  have hright : Relator.RightUnique fun a b : Checking => a.step = some b :=
    fun a b e hb he => Option.some.inj (hb.symm.trans he)
  rcases Relation.ReflTransGen.total_of_right_unique hright hy hc with h | h
  · exact h
  · rw [eq_of_reaches_done h]

theorem done_unique {x : Checking} {c d : Checker} (hc : Reaches x ⟨[], c⟩)
    (hd : Reaches x ⟨[], d⟩) : c = d := by
  have hend := eq_of_reaches_done (reaches_done hc hd)
  cases hend
  rfl

end Checking

namespace Checker

/-- The checker, if these faults had been found before. -/
def prepend (fs : Array (Spanned OwnershipFault)) (c : Checker) : Checker :=
  { c with faults := fs ++ c.faults }

variable (fs : Array (Spanned OwnershipFault)) (c : Checker)

theorem report_prepend (fault : OwnershipFault) (span : Span) :
    (c.prepend fs).on ((c.prepend fs).toWalk.report fault span) =
      (c.on (c.toWalk.report fault span)).prepend fs := by
  simp [prepend, on, Walk.report]

theorem apply_prepend (x : Change) :
    (c.prepend fs).on (x.apply c.holder (c.prepend fs).toWalk) =
      (c.on (x.apply c.holder c.toWalk)).prepend fs := by
  cases x with
  | use name span =>
    simp only [Change.apply, Walk.use]
    rw [show (c.prepend fs).flow = c.flow from rfl]
    split
    · split
      · exact report_prepend fs c _ span
      · rfl
    · rfl
  | borrow name kind span =>
    simp only [Change.apply, Walk.borrow]
    rw [show (c.prepend fs).flow = c.flow from rfl]
    split
    · rfl
    · split
      · exact report_prepend fs c _ span
      · rfl
  | _ => rfl

end Checker

/-- A step does the same whatever has been found before. -/
theorem Job.step_prepend (j : Job) (fs : Array (Spanned OwnershipFault)) (c : Checker) :
    j.step (c.prepend fs) = ((j.step c).1, (j.step c).2.prepend fs) := by
  cases j with
  | change x => exact congrArg (Prod.mk []) (c.apply_prepend fs x)
  | expr mode e => cases e; rfl
  | indices e => cases e; rfl
  | arms mode before exits l => cases l <;> rfl
  | ranges name d => cases h : c.trackLifetimes <;> simp [Job.step, Checker.prepend, h]
  | _ => rfl

theorem Checking.reaches_prepend (fs : Array (Spanned OwnershipFault)) {x y : Checking}
    (h : Reaches x y) :
    Reaches ⟨x.agenda, x.checker.prepend fs⟩ ⟨y.agenda, y.checker.prepend fs⟩ := by
  induction h with
  | refl => exact .refl
  | @tail y z _ hstep ih =>
    refine ih.tail ?_
    obtain ⟨_ | ⟨j, r⟩, c⟩ := y
    · cases hstep
    · cases hstep
      simp [Checking.step, Job.step_prepend]

theorem Runs.unique {l : List Job} {c d e : Checker} (hd : Runs l c d) (he : Runs l c e) : d = e :=
  Checking.done_unique (hd []) (he [])

theorem Runs.prepend {l : List Job} {c d : Checker} (h : Runs l c d)
    (fs : Array (Spanned OwnershipFault)) : Runs l (c.prepend fs) (d.prepend fs) :=
  fun r => Checking.reaches_prepend fs (h r)

/-- The checker after findings: more faults, and live ranges if they are asked for. -/
def Checker.found (c : Checker) (s : Flow) (faults : List (Spanned OwnershipFault))
    (ranges : List (String × List LiveRange)) : Checker :=
  { c with
    flow := s
    faults := c.faults ++ faults.toArray
    liveRanges := if c.trackLifetimes then c.liveRanges.insertAll ranges else c.liveRanges }

/-- What the jobs find, wherever nothing is held: the same after any state and any findings. -/
def Finds (l : List Job) (faults : List (Spanned OwnershipFault))
    (ranges : List (String × List LiveRange)) : Prop :=
  ∀ c : Checker, c.holder = none → ∃ s, Runs l c (c.found s faults ranges)

namespace Finds

variable {l m : List Job} {fs gs : List (Spanned OwnershipFault)}
  {rs qs : List (String × List LiveRange)}

theorem nil : Finds [] [] [] := by
  intro c _
  refine ⟨c.flow, ?_⟩
  have hsame : c.found c.flow [] [] = c := by
    simp [Checker.found, Table.insertAll]
  rw [hsame]
  exact .nil c

theorem append (h : Finds l fs rs) (k : Finds m gs qs) :
    Finds (l ++ m) (fs ++ gs) (rs ++ qs) := by
  intro c hc
  obtain ⟨s, hs⟩ := h c hc
  obtain ⟨t, ht⟩ := k (c.found s fs rs) hc
  have hboth : (c.found s fs rs).found t gs qs = c.found t (fs ++ gs) (rs ++ qs) := by
    cases htrack : c.trackLifetimes <;> simp [Checker.found, Table.insertAll, htrack]
  rw [hboth] at ht
  exact ⟨t, hs.append ht⟩

/-- Jobs that start from a new state: what a checker finds that has found nothing yet is what
any other adds to its findings. -/
theorem restart {w : Walk} (h : ∀ c : Checker, c.holder = none → Runs l (c.on {}) (c.on w)) :
    Finds (.restart :: l) w.faults.toList [] := by
  intro c hc
  have hrun := (h c hc).prepend c.faults
  have hstart : (c.on {}).prepend c.faults = c.withFlow .initial := by
    simp [Checker.prepend, Checker.on, Checker.withFlow]
  have hend : (c.on w).prepend c.faults = c.found w.flow w.faults.toList [] := by
    simp [Checker.prepend, Checker.on, Checker.found, Table.insertAll]
  rw [hstart, hend] at hrun
  exact ⟨w.flow, (Runs.single rfl).cons hrun⟩

theorem ranges (name : String) (d : FunctionDef) :
    Finds [.ranges name d] [] [(name, d.liveRanges)] := by
  rintro ⟨w, track, h, known⟩ _
  refine ⟨w.flow, .single ?_⟩
  cases track <;> simp [Job.step, Checker.found, Table.insertAll]

theorem step {j : Job} {l : List Job} (hj : ∀ c, j.step c = (l, c)) (h : Finds l fs rs) :
    Finds [j] fs rs := by
  intro c hc
  obtain ⟨s, hs⟩ := h c hc
  refine ⟨s, .step ?_⟩
  rw [hj c]
  exact hs

end Finds

theorem contracts_run (l : List Contract) (c : Checker) (h : c.holder = none) :
    Runs (contractJobs l) c (c.on (l.foldl (fun w x =>
      (ownExpr none .use x.condition w).onFlow (·.releaseTemporaries)) c.toWalk)) := by
  induction l generalizing c with
  | nil => exact .nil c
  | cons x l ih =>
    have hfirst := expr_runs .use x.condition c
    rw [h] at hfirst
    exact hfirst.cons ((Runs.change .release _).cons (ih _ h))

theorem function_finds (name : String) (d : FunctionDef) :
    Finds [.function name d] (ownFunction d).toList
      (if d.body.isSome then [(name, d.liveRanges)] else []) := by
  refine .step (fun _ => rfl) ?_
  cases hbody : d.body with
  | none => simpa [FunctionDef.jobs, ownFunction, hbody] using Finds.nil
  | some body =>
    let names := d.params.map (·.name.node)
    have hbefore : Finds (.restart :: .hold none :: (declareJobs names ++
        (contractJobs d.contracts ++ [.block .move body]))) (ownFunction d).toList [] := by
      rw [ownFunction, hbody]
      refine .restart fun c hc => ?_
      obtain ⟨w, track, _, ranges⟩ := c
      cases hc
      exact (Runs.hold none _).cons ((Runs.declares names _).append
        ((contracts_run d.contracts _ rfl).append (block_runs .move body _)))
    simpa [FunctionDef.jobs, hbody] using hbefore.append (.ranges name d)

theorem const_finds (d : ConstDef) :
    Finds [.item (.const d)] (ownExpr none .use d.value {}).faults.toList [] := by
  refine .step (fun _ => rfl) (.restart fun c hc => ?_)
  have hrun := expr_runs .use d.value (c.on {})
  rw [show (c.on {}).holder = none from hc] at hrun
  exact hrun

theorem functions_find (l : List (String × FunctionDef)) :
    Finds (l.map fun f => .function f.1 f.2) (l.flatMap fun f => (ownFunction f.2).toList)
      ((l.filter (·.2.body.isSome)).map fun f => (f.1, f.2.liveRanges)) := by
  induction l with
  | nil => exact .nil
  | cons f l ih =>
    have h := (function_finds f.1 f.2).append ih
    cases hbody : f.2.body <;> simpa [hbody] using h

/-- A checker finds in an item what is to be found in it, whatever it has checked before. -/
theorem item_finds (i : Item) : Finds [.item i] i.ownershipFaults i.liveRanges := by
  cases i with
  | const d => exact const_finds d
  | _ => exact .step (fun _ => rfl) (functions_find _)

theorem items_find (l : List Item) :
    Finds (l.map .item) (l.flatMap Item.ownershipFaults) (l.flatMap Item.liveRanges) := by
  induction l with
  | nil => exact .nil
  | cons i l ih => exact (item_finds i).append ih

namespace Checker

/-- What a checker has found in the last program. -/
def result (c : Checker) : OwnershipCheck :=
  ⟨c.faults.toList.map OwnershipError.ofFault, c.liveRanges⟩

/-- Checking a program ends, with what is to be found in it and with nothing held. -/
theorem checks_program (p : Program) {c : Checker} (hc : c.holder = none) :
    ∃ d, Reaches ⟨p.items.map .item, c.clear⟩ ⟨[], d⟩ ∧ d.holder = none ∧
      d.trackLifetimes = c.trackLifetimes ∧ d.result = checkOwnership c.trackLifetimes p := by
  obtain ⟨s, hrun⟩ := items_find p.items c.clear hc
  refine ⟨c.clear.found s _ _, by simpa using hrun [], hc, rfl, ?_⟩
  simp only [result, found, clear, Array.empty_append, checkOwnership, Program.ownershipFaults]
  rfl

namespace Used

variable {track : Bool} {history : List Program} {p : Program} {c : Checker}

theorem holds_nothing (h : Used track history c) : c.holder = none ∧ c.trackLifetimes = track := by
  induction h with
  | new => exact ⟨rfl, rfl⟩
  | check p _ checks ih =>
    obtain ⟨d, hd, hholder, htrack, -⟩ := checks_program p ih.1
    cases Checking.done_unique checks hd
    exact ⟨hholder, htrack.trans ih.2⟩

theorem result_eq (h : Used track (history ++ [p]) c) : c.result = checkOwnership track p := by
  generalize hall : history ++ [p] = all at h
  cases h with
  | new => simp at hall
  | check q used checks =>
    obtain ⟨-, rfl⟩ := List.append_singleton_inj.1 hall
    obtain ⟨d, hd, -, -, hresult⟩ := checks_program p used.holds_nothing.1
    cases Checking.done_unique checks hd
    rw [hresult, used.holds_nothing.2]

theorem exists_checker (track : Bool) (history : List Program) : ∃ c, Used track history c := by
  induction history using List.reverseRecOn with
  | nil => exact ⟨_, .new⟩
  | append_singleton history p ih =>
    obtain ⟨c, used⟩ := ih
    obtain ⟨d, hd, -⟩ := checks_program p used.holds_nothing.1
    exact ⟨d, .check p used hd⟩

end Used

/-- The findings in a program are those in its parts, each by a new checker, and of two entries
for one name the later stays: this whatever the checker has checked before. -/
theorem program_checked_in_parts (track : Bool) (history : List Program) (p q : Program)
    (span : Span) :
    (∃ c, Used track (history ++ [⟨span, p.items ++ q.items⟩]) c) ∧
      ∀ c cp cq, Used track (history ++ [⟨span, p.items ++ q.items⟩]) c →
        Used track [p] cp → Used track [q] cq →
        c.result = checkOwnership track ⟨span, p.items ++ q.items⟩ ∧
        c.result.errors = cp.result.errors ++ cq.result.errors ∧
        ∀ name, c.result.liveRanges.get? name =
          (cq.result.liveRanges.get? name).or (cp.result.liveRanges.get? name) := by
  refine ⟨Used.exists_checker track _, fun c cp cq hc hp hq => ?_⟩
  have hcp : Used track ([] ++ [p]) cp := hp
  have hcq : Used track ([] ++ [q]) cq := hq
  rw [hc.result_eq, hcp.result_eq, hcq.result_eq]
  refine ⟨rfl, by simp [checkOwnership, Program.ownershipFaults], fun name => ?_⟩
  cases track with
  | false => rfl
  | true =>
    simp only [checkOwnership, List.flatMap_append]
    exact Table.get?_ofList_append _ _ name

end Checker

end Sema
