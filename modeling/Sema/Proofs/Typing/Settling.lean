import Sema.Proofs.Solver.Incremental
import Sema.Proofs.Typing.Emission

/-!
# Solving to the end

The solver of a session has always run on a prefix of the constraints collected. Settling the
member accesses adds constraints of its own, but it ends only when all of them are solved: a
check that succeeds leaves a solver that has run on the whole list without a failure, and one
that fails does so with the failure of such a run.
-/

namespace Sema

namespace Session

/-- The solver has run on the first constraints of the session, up to where it is now. -/
def Solving (s : Session) : Prop :=
  ∃ done rest, s.constraints.toList = done ++ rest ∧ s.solver = Solver.run {} done

/-- The solver has run on all constraints of the session, without a failure. -/
def Solved (s : Session) : Prop :=
  s.solver.failure = none ∧ s.solver = Solver.run {} s.constraints.toList

/-- The solver has run on all constraints of the session, and the first that failed gave
`fault`. -/
def Failed (s : Session) (fault : SolveFault) : Prop :=
  s.solver.failure = some fault ∧ s.solver = Solver.run {} s.constraints.toList

theorem Solved.solving {s : Session} (h : s.Solved) : s.Solving :=
  ⟨s.constraints.toList, [], by simp, h.2⟩

theorem Solved.compatible {s : Session} (h : s.Solved) {c : Constraint}
    (hc : c ∈ s.constraints.toList) :
    (s.solver.apply c.expected).compatible (s.solver.apply c.actual) = true := by
  obtain ⟨hfailure, hrun⟩ := h
  have hholds := Solver.run_holds (s := {}) .empty s.constraints.toList
    (by rw [← hrun, hfailure]) c hc
  rw [← hrun] at hholds
  exact hholds

/-- Solving what is pending comes to solving everything from the start. -/
theorem Solving.solve {s : Session} (h : s.Solving) :
    s.solver.solve s.constraints = Solver.run {} s.constraints.toList := by
  obtain ⟨done, rest, hl, hsolver⟩ := h
  rw [hsolver, Solver.solve_run hl]

end Session

/-- What an event leaves standing: nothing collected is dropped or changed, and the solver
keeps to a prefix of the constraints. -/
structure Grows (s t : Session) : Prop where
  constraints : ∃ l, t.constraints.toList = s.constraints.toList ++ l
  typed : ∃ l, t.typed = l ++ s.typed
  faults : ∃ l, t.faults.toList = s.faults.toList ++ l
  deferred : ∃ l, t.deferred.toList = s.deferred.toList ++ l
  sites : ∃ l, t.sites.toList = s.sites.toList ++ l
  generics : ∀ v, s.generics.contains v = true → t.generics.contains v = true
  nextVar : s.nextVar ≤ t.nextVar
  solving : s.Solving → t.Solving

namespace Grows

theorem refl (s : Session) : Grows s s :=
  ⟨⟨[], by simp⟩, ⟨[], rfl⟩, ⟨[], by simp⟩, ⟨[], by simp⟩, ⟨[], by simp⟩, fun _ => id,
    Nat.le_refl _, id⟩

theorem trans {s t u : Session} (h : Grows s t) (k : Grows t u) : Grows s u := by
  obtain ⟨⟨cs, hcs⟩, ⟨ts, hts⟩, ⟨fs, hfs⟩, ⟨ms, hms⟩, ⟨xs, hxs⟩, hgenerics, hnext, hsolving⟩ := h
  obtain ⟨⟨ds, hds⟩, ⟨us, hus⟩, ⟨gs, hgs⟩, ⟨ns, hns⟩, ⟨ys, hys⟩, kgenerics, knext, ksolving⟩ := k
  refine ⟨⟨cs ++ ds, ?_⟩, ⟨us ++ ts, ?_⟩, ⟨fs ++ gs, ?_⟩, ⟨ms ++ ns, ?_⟩, ⟨xs ++ ys, ?_⟩,
    fun v hv => kgenerics v (hgenerics v hv), Nat.le_trans hnext knext,
    fun hs => ksolving (hsolving hs)⟩
  · rw [hds, hcs, List.append_assoc]
  · rw [hus, hts, List.append_assoc]
  · rw [hgs, hfs, List.append_assoc]
  · rw [hns, hms, List.append_assoc]
  · rw [hys, hxs, List.append_assoc]

theorem mem_constraints {s t : Session} (h : Grows s t) {c : Constraint}
    (hc : c ∈ s.constraints.toList) : c ∈ t.constraints.toList := by
  obtain ⟨l, hl⟩ := h.constraints
  rw [hl]
  exact List.mem_append_left l hc

theorem mem_typed {s t : Session} (h : Grows s t) {x : ExprId × Ty} (hx : x ∈ s.typed) :
    x ∈ t.typed := by
  obtain ⟨l, hl⟩ := h.typed
  rw [hl]
  exact List.mem_append_right l hx

/-- A session without faults had none before. -/
theorem no_faults {s t : Session} (h : Grows s t) (ht : t.faults = #[]) : s.faults = #[] := by
  obtain ⟨l, hl⟩ := h.faults
  rw [ht] at hl
  have hempty : s.faults.toList = [] := (List.append_eq_nil_iff.mp hl.symm).1
  exact Array.toList_eq_nil_iff.mp hempty

end Grows

theorem Table.contains_insertNew {κ α : Type} [DecidableEq κ] [LT κ] [DecidableLT κ]
    (t : Table κ α) (k j : κ) (a : α) :
    (t.insertNew k a).contains j = (j == k || t.contains j) := by
  unfold insertNew
  split
  · rename_i hk
    by_cases h : j = k <;> simp [h, hk]
  · by_cases h : j = k <;> simp [contains, h]

theorem Event.grows (e : Event) (s : Session) : Grows s (e.apply s) := by
  have hsame := Grows.refl s
  cases e with
  | constrain c =>
    refine { hsame with constraints := ⟨[c], by simp [apply]⟩, solving := ?_ }
    rintro ⟨done, rest, hl, hsolver⟩
    exact ⟨done, rest ++ [c], by simp [apply, hl], hsolver⟩
  | record i t => exact { hsame with typed := ⟨[(i, t)], rfl⟩ }
  | report f => exact { hsame with faults := ⟨[f], by simp [apply]⟩ }
  | defer d => exact { hsame with deferred := ⟨[d], by simp [apply]⟩ }
  | generic v c =>
    refine { hsame with generics := fun w hw => ?_ }
    simp [apply, Table.contains_insertNew, hw]
  | solve =>
    exact { hsame with solving := fun hs => ⟨s.constraints.toList, [], by simp [apply], hs.solve⟩ }
  | fresh n => exact { hsame with nextVar := Nat.le_add_right _ n }
  | site x => exact { hsame with sites := ⟨[x], by simp [apply]⟩ }

theorem Leads.grows {K : Event → Prop} {s t : Session} (h : Leads K s t) : Grows s t :=
  h.induct .refl (fun _ _ _ => .trans) fun e s _ => e.grows s

/-- The session after a check. -/
abbrev after {α : Type} (m : Check α) (s : Session) : Session := (m.run s).2

theorem after_bind {α β : Type} (m : Check α) (f : α → Check β) (s : Session) :
    after (m >>= f) s = after (f (m.run s).1) (after m s) :=
  rfl

/-- From every session the check only adds. -/
abbrev Growing {α : Type} (m : Check α) : Prop := ∀ s, Grows s (after m s)

section Growing

variable {α β : Type}

theorem Emits.growing {K : Event → Prop} {m : Check α} (h : Emits K m) : Growing m :=
  fun s => (h.leads s).grows

theorem Growing.pure (a : α) : Growing (pure a : Check α) := fun s => .refl s

theorem Growing.bind {m : Check α} {f : α → Check β} (hm : Growing m)
    (hf : ∀ a, Growing (f a)) : Growing (m >>= f) :=
  fun s => (hm s).trans (hf _ _)

theorem constrain_growing (expected actual : Ty) (span : Span) (origin : Origin) :
    Growing (constrain expected actual span origin) :=
  (constrain_notes _ _ _ _).growing

theorem report_growing (fault : TypeFault) (span : Span) : Growing (report fault span) :=
  (report_emits (K := fun _ => True) _ _ trivial).growing

end Growing

/-- A session that has seen a report has a fault. -/
theorem faults_of_report {fault : TypeFault} {span : Span} {s t : Session}
    (h : Grows (after (report fault span) s) t) : t.faults ≠ #[] := by
  intro ht
  have hafter : (s.faults.push ⟨span, fault⟩) = #[] := h.no_faults ht
  simp at hafter

/-- Only the inference of an expression records a type. -/
theorem Leads.typed_eq {s t : Session} (h : Leads Event.IsUntyped s t) : t.typed = s.typed := by
  refine h.induct (R := fun s t => t.typed = s.typed) (fun _ => rfl)
    (fun s t u h k => k.trans h) fun e s he => ?_
  cases e with
  | record id t => exact False.elim he
  | _ => rfl

section Members

theorem resolveTupleField_notes (tuple : Ty) (elems : List Ty) (field : String) (result : Ty)
    (span : Span) : Notes (resolveTupleField tuple elems field result span) := by
  unfold resolveTupleField
  split
  · exact constrain_notes _ _ _ _
  · exact report_notes _ _ rfl rfl

theorem resolveStructField_notes (sc : TypeScope) (base : Ty) (field : String) (result : Ty)
    (span : Span) : Notes (resolveStructField sc base field result span) := by
  unfold resolveStructField
  split
  · exact report_notes _ _ rfl rfl
  · split
    · exact report_notes _ _ rfl rfl
    · exact (supply_notes _ _).bind fun _ => (lower_notes _ _).bind fun _ =>
        constrain_notes _ _ _ _

theorem resolveField_notes (sc : TypeScope) (base : Ty) (field : String) (result : Ty)
    (span : Span) : Notes (resolveField sc base field result span) := by
  unfold resolveField
  split
  · split
    · exact resolveTupleField_notes _ _ _ _ _
    · exact resolveStructField_notes _ _ _ _ _
  · exact resolveStructField_notes _ _ _ _ _

theorem callMethod_quiet (receiver signature : Ty) (call : MemberCall) :
    Quiet (callMethod receiver signature call) := by
  refine (constrain_notes _ _ _ _).quiet.bind fun _ => ?_
  split
  · rename_i f _
    exact .event (e := .site ⟨signature, f.name, f.effects, call.span⟩) trivial fun _ _ => rfl
  · exact .pure _

theorem resolveMethod_quiet (methods : Methods) (receiver : Ty) (call : MemberCall) :
    Quiet (resolveMethod methods receiver call) := by
  unfold resolveMethod
  split
  · exact (report_notes _ _ rfl rfl).quiet
  · split
    · exact (report_notes _ _ rfl rfl).quiet
    · refine (instantiate_notes _).quiet.bind fun t => ?_
      split
      · split
        · exact (report_notes _ _ rfl rfl).quiet.bind fun _ => (constrain_notes _ _ _ _).quiet
        · exact callMethod_quiet _ _ _
      · exact callMethod_quiet _ _ _

theorem resolveIter_notes (iterable elem : Ty) (span : Span) :
    Notes (resolveIter iterable elem span) := by
  unfold resolveIter
  split
  · exact constrain_notes _ _ _ _
  · exact report_notes _ _ rfl rfl

theorem resolveMember_quiet (sc : TypeScope) (methods : Methods) (receiver : Ty) :
    (d : Deferred) → Quiet (resolveMember sc methods receiver d)
  | .field _ _ _ _ => (resolveField_notes _ _ _ _ _).quiet
  | .method _ => resolveMethod_quiet _ _ _
  | .iter _ _ _ => (resolveIter_notes _ _ _).quiet

end Members

/-- From a session with `P` the computation leads to one with `Q`, unless it fails with the
verdict of the solver on all constraints; and it records no type. -/
def Brings {α : Type} (P Q : Session → Prop) (m : Settle α) : Prop :=
  ∀ s, P s → Leads Event.IsQuiet s (m.run.run s).2 ∧
    (∀ a, (m.run.run s).1 = .ok a → Q (m.run.run s).2) ∧
    ∀ fault, (m.run.run s).1 = .error fault → (m.run.run s).2.Failed fault

namespace Brings

variable {α β : Type} {P Q R : Session → Prop}

theorem pure (a : α) : Brings P P (pure a : Settle α) :=
  fun s hs => ⟨.refl s, fun _ _ => hs, fun _ h => nomatch h⟩

theorem bind {m : Settle α} {f : α → Settle β} (hm : Brings P Q m)
    (hf : ∀ a, Brings Q R (f a)) : Brings P R (m >>= f) := by
  intro s hs
  obtain ⟨hleads, hok, herror⟩ := hm s hs
  rw [ExceptT.run_bind, StateT.run_bind]
  rcases hrun : m.run.run s with ⟨e | a, t⟩
  · rw [hrun] at hleads herror
    refine ⟨hleads, (fun _ h => nomatch h), fun fault h => ?_⟩
    cases h
    exact herror e rfl
  · rw [hrun] at hleads hok
    obtain ⟨kleads, kresult⟩ := hf a t (hok a rfl)
    exact ⟨hleads.trans kleads, kresult⟩

theorem of_stronger {m : Settle α} (hm : Brings P Q m) (h : ∀ s, R s → P s) :
    Brings R Q m :=
  fun s hs => hm s (h s hs)

/-- A check inside that always succeeds. -/
theorem lift {m : Check α} (hm : Quiet m) (hPQ : ∀ s, P s → Q (m.run s).2) :
    Brings P Q (liftM m : Settle α) :=
  fun s hs => ⟨hm.leads s, fun _ _ => hPQ s hs, fun _ h => nomatch h⟩

theorem get : Brings P P (liftM (get : Check Session) : Settle Session) :=
  fun s hs => ⟨.refl s, fun _ _ => hs, fun _ h => nomatch h⟩

theorem forM {f : α → Settle Unit} (hf : ∀ a, Brings P P (f a)) (l : List α) :
    Brings P P (l.forM f) := by
  induction l with
  | nil => exact .pure _
  | cons a l ih => exact (hf a).bind fun _ => ih

end Brings

theorem Session.Solving.of_quiet {α : Type} {m : Check α} (hm : Quiet m) (s : Session)
    (hs : s.Solving) : ((m.run s).2).Solving :=
  (hm.leads s).grows.solving hs

/-- Solving without a failure solves everything. -/
theorem Session.Solving.solved {s : Session} (hs : s.Solving)
    (hok : (s.solver.solve s.constraints).failure = none) : (Event.solve.apply s).Solved :=
  ⟨hok, hs.solve⟩

section Settle

theorem solveAll_run (s : Session) :
    solveAll.run.run s =
      ((s.solver.solve s.constraints).failure.elim (.ok ()) .error, Event.solve.apply s) := by
  unfold solveAll
  rw [ExceptT.run_bind, StateT.run_bind]
  have hpending : (ExceptT.run (liftM solvePending : Settle _)).run s =
      (.ok (s.solver.solve s.constraints).failure, Event.solve.apply s) := rfl
  simp only [hpending]
  cases (s.solver.solve s.constraints).failure <;> rfl

theorem solveAll_brings : Brings Session.Solving Session.Solved solveAll := by
  intro s hs
  rw [solveAll_run]
  refine ⟨.event (e := .solve) trivial s, ?_⟩
  cases h : (s.solver.solve s.constraints).failure with
  | none => exact ⟨fun _ _ => hs.solved h, fun _ h => nomatch h⟩
  | some fault =>
    refine ⟨(fun _ h => nomatch h), fun other hother => ?_⟩
    cases hother
    exact ⟨h, hs.solve⟩

theorem settleAmbiguous_brings :
    (d : Deferred) → Brings Session.Solved Session.Solved (settleAmbiguous d)
  | .iter _ _ _ =>
    (Brings.lift (constrain_notes _ _ _ _).quiet fun s hs =>
      .of_quiet (constrain_notes _ _ _ _).quiet s hs.solving).bind fun _ => solveAll_brings
  | .field _ _ _ _ => .lift (report_emits _ _ rfl) fun _ hs => hs
  | .method _ => .lift (report_emits _ _ rfl) fun _ hs => hs

theorem settleRound_brings (sc : TypeScope) (methods : Methods) (pending : List Deferred) :
    Brings Session.Solving Session.Solved (settleRound sc methods pending) := by
  induction pending with
  | nil => exact solveAll_brings.bind fun _ => .pure _
  | cons d r ih =>
    have hrest : Brings Session.Solved Session.Solved (settleRound sc methods r) :=
      ih.of_stronger fun _ => Session.Solved.solving
    refine solveAll_brings.bind fun _ => ?_
    refine Brings.get.bind fun s => ?_
    dsimp only
    split
    · exact hrest.bind fun _ => .pure _
    · have hmember := resolveMember_quiet sc methods (s.solver.apply d.receiver) d
      exact (Brings.lift hmember fun t ht => .of_quiet hmember t ht.solving).bind fun _ => ih

theorem settle_brings (sc : TypeScope) (methods : Methods) (pending : List Deferred) :
    Brings Session.Solved Session.Solved (settle sc methods pending) := by
  induction hn : pending.length using Nat.strongRecOn generalizing pending with
  | ind n ih =>
    rw [settle]
    split
    · exact .pure _
    · have hround : Brings Session.Solved Session.Solved (settleRound sc methods pending) :=
        (settleRound_brings sc methods pending).of_stronger fun _ => Session.Solved.solving
      refine hround.bind fun waiting => ?_
      split
      · rename_i hlt
        exact ih waiting.length (hn ▸ hlt) waiting rfl
      · exact .forM settleAmbiguous_brings waiting

theorem solveProgram_brings (sc : TypeScope) (methods : Methods) :
    Brings Session.Solving Session.Solved (solveProgram sc methods) :=
  solveAll_brings.bind fun _ =>
    Brings.get.bind fun _ => settle_brings _ _ _

end Settle

section Finish

/-- Nothing but a complaint. -/
def Event.IsReport : Event → Prop
  | report _ => True
  | _ => False

theorem Event.IsReport.isUntyped {e : Event} (h : e.IsReport) : e.IsUntyped := by
  cases e <;> simp_all [IsReport, IsUntyped]

/-- Complaints change nothing else. -/
theorem Leads.eq_withFaults {s t : Session} (h : Leads Event.IsReport s t) :
    t = s.withFaults t.faults := by
  refine h.induct (R := fun s t => t = s.withFaults t.faults) (fun _ => rfl)
    (fun s t u hst htu => ?_) fun e s he => ?_
  · rw [htu, hst]
    rfl
  · cases e with
    | report f => rfl
    | _ => exact False.elim he

theorem Leads.solved {s t : Session} (h : Leads Event.IsReport s t) (hs : s.Solved) :
    t.Solved := by
  rw [h.eq_withFaults]
  exact hs

/-- The complaints about generic parameters are routine, and not about receivers. -/
theorem checkGenerics_emits {K : Event → Prop}
    (hK : ∀ f, f.node.isRoutine = true → f.node.isAmbiguous = false → K (.report f)) (σ : Subst)
    (seen : Table Nat GenericCheck) (l : List (Nat × GenericCheck)) :
    Emits K (checkGenerics σ seen l) := by
  induction l generalizing seen with
  | nil => exact .pure _
  | cons c l ih =>
    simp only [checkGenerics]
    split
    · exact (report_emits _ _ (hK _ rfl rfl)).bind fun _ => ih _
    · split
      · exact (report_emits _ _ (hK _ rfl rfl)).bind fun _ => ih _
      · exact ih _

theorem checkGenerics_reports (σ : Subst) (seen : Table Nat GenericCheck)
    (l : List (Nat × GenericCheck)) : Emits Event.IsReport (checkGenerics σ seen l) :=
  checkGenerics_emits (fun _ _ _ => trivial) σ seen l

/-- The complaints about calls are about undeclared effects. -/
theorem checkSites_emits {K : Event → Prop}
    (hK : ∀ span caller k, K (.report ⟨span, .undeclaredEffect caller k⟩))
    (reported : List (String × EffectKind)) (l : List (Spanned (String × EffectKind))) :
    Emits K (checkSites reported l) := by
  induction l generalizing reported with
  | nil => exact .pure _
  | cons e l ih =>
    simp only [checkSites]
    split
    · exact ih _
    · exact (report_emits _ _ (hK _ _ _)).bind fun _ => ih _

theorem checkSites_reports (reported : List (String × EffectKind))
    (l : List (Spanned (String × EffectKind))) :
    Emits Event.IsReport (checkSites reported l) :=
  checkSites_emits (fun _ _ _ => trivial) reported l

/-- What the check of effects does, where there is one. -/
def checkSitesIf (checkEffects : Bool) (t : Session) : Check Unit :=
  if checkEffects then checkSites [] (undeclaredEffects t.solver.subst t.sites.toList) else pure ()

theorem checkSitesIf_emits {K : Event → Prop}
    (hK : ∀ span caller k, K (.report ⟨span, .undeclaredEffect caller k⟩)) (checkEffects : Bool)
    (t : Session) : Emits K (checkSitesIf checkEffects t) := by
  unfold checkSitesIf
  split
  · exact checkSites_emits hK _ _
  · exact .pure _

/-- When the program is settled, the generic parameters are compared and then the effects. -/
theorem finish_run {sc : TypeScope} {methods : Methods} {checkEffects : Bool} {s t : Session}
    (hrun : (solveProgram sc methods).run.run s = (.ok (), t)) :
    (finish sc methods checkEffects).run s = (true, after (checkSitesIf checkEffects t)
      (after (checkGenerics t.solver.subst .empty t.generics.entries) t)) := by
  unfold finish
  rw [StateT.run_bind, hrun]
  cases checkEffects <;> rfl

/-- A check that succeeds has settled the program; then it compares the generic parameters,
and at most complains. -/
theorem finish_settles {sc : TypeScope} {methods : Methods} {checkEffects : Bool} {s : Session}
    (hok : ((finish sc methods checkEffects).run s).1 = true) :
    ∃ t, (solveProgram sc methods).run.run s = (.ok (), t) ∧
      Leads Event.IsReport (after (checkGenerics t.solver.subst .empty t.generics.entries) t)
        ((finish sc methods checkEffects).run s).2 := by
  rcases hrun : (solveProgram sc methods).run.run s with ⟨e | _, t⟩
  · unfold finish at hok
    rw [StateT.run_bind, hrun] at hok
    cases hok
  · rw [finish_run hrun]
    exact ⟨t, rfl, (checkSitesIf_emits (fun _ _ _ => trivial) checkEffects t).leads _⟩

/-- A check that fails reports the error of the solver, as the last thing it does. -/
theorem finish_fails {sc : TypeScope} {methods : Methods} {checkEffects : Bool} {s : Session}
    (hfail : ((finish sc methods checkEffects).run s).1 = false) :
    ∃ fault t, (solveProgram sc methods).run.run s = (.error fault, t) ∧
      ((finish sc methods checkEffects).run s).2 =
        (Event.report ⟨fault.span, .unsolved fault⟩).apply t := by
  unfold finish at hfail ⊢
  rw [StateT.run_bind] at hfail ⊢
  rcases hrun : (solveProgram sc methods).run.run s with ⟨fault | _, t⟩
  · exact ⟨fault, t, rfl, rfl⟩
  · rw [hrun] at hfail
    cases checkEffects with
    | true => cases hfail
    | false => cases hfail

theorem finish_reports {sc : TypeScope} {methods : Methods} {checkEffects : Bool} {s : Session}
    (hok : ((finish sc methods checkEffects).run s).1 = true) :
    ∃ t, (solveProgram sc methods).run.run s = (.ok (), t) ∧
      Leads Event.IsReport t ((finish sc methods checkEffects).run s).2 := by
  obtain ⟨t, hrun, hlast⟩ := finish_settles hok
  exact ⟨t, hrun, ((checkGenerics_reports _ _ _).leads t).trans hlast⟩

/-- A check that succeeds ends with all its constraints solved, and has recorded no further
type since the bodies. -/
theorem finish_solved (sc : TypeScope) (methods : Methods) (checkEffects : Bool) {s : Session}
    (hs : s.Solving) (hok : ((finish sc methods checkEffects).run s).1 = true) :
    ((finish sc methods checkEffects).run s).2.Solved ∧
      Leads Event.IsUntyped s ((finish sc methods checkEffects).run s).2 := by
  obtain ⟨t, hrun, htail⟩ := finish_reports hok
  obtain ⟨hleads, hsolved, -⟩ := solveProgram_brings sc methods s hs
  rw [hrun] at hleads hsolved
  have hsettled := hleads.mono fun _ => Event.IsQuiet.isUntyped
  have hreported := htail.mono fun _ => Event.IsReport.isUntyped
  exact ⟨htail.solved (hsolved () rfl), hsettled.trans hreported⟩

end Finish

end Sema
