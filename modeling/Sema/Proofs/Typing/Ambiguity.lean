import Sema.Proofs.Typing.Fields
import Sema.Proofs.Typing.Origins
import Sema.Proofs.Typing.Rounds

/-!
# Receivers that stay unknown

When a check succeeds, the accesses have been settled in two stretches. Up to some session, where
all is solved, accesses were resolved against the types of their receivers. What was unknown there
has been taken for ambiguous, in order and without another look: for a field or a method that is a
complaint, for an iteration the assumption that it runs over an array.

Main statement: the complaints about receivers are those about the receivers that are variables in
that session, in the order of the accesses, and every other access has been resolved against a type
of which the final one is an instance. A receiver that is a variable in the end was one there. The
converse holds unless an unknown iterable was taken for an array: that may determine a receiver
about which there is a complaint all the same.
-/

namespace Sema

open Settlement

theorem Ty.asVar_replace {t : Ty} (h : t.asVar = none) (f : Nat → Ty) :
    (t.replace f).asVar = none := by
  cases t with
  | var v => cases h
  | _ => rfl

/-- With nothing left to solve, everything has been solved. -/
theorem Session.Idle.solved {s : Session} (h : s.Idle) (hs : s.Solving) : s.Solved := by
  have hsolver : s.solver.solve s.constraints = s.solver := congrArg Session.solver h.1
  exact ⟨h.2, by rw [← hs.solve, hsolver]⟩

/-- A receiver that is unknown in the end was unknown before. -/
theorem Grows.unknown {s t : Session} (h : Grows s t) (hs : s.Solving) (ht : t.Solved)
    {d : Deferred} (hd : t.unknown d = true) : s.unknown d = true := by
  by_contra hknown
  have hnone : (s.solver.apply d.receiver).asVar = none := by
    simpa [Session.unknown] using hknown
  have hsame := h.replace_apply hs ht d.receiver
  have hfinal : (t.solver.apply d.receiver).asVar = none := by
    rw [Solver.apply, Subst.apply_eq_replace, ← hsame]
    exact Ty.asVar_replace hnone _
  rw [Session.unknown, hfinal] at hd
  cases hd

namespace Deferred

def span : Deferred → Span
  | field _ _ _ span | iter _ _ span => span
  | method call => call.span

/-- The complaint about an access whose receiver stays unknown. -/
def ambiguity? : Deferred → Option (Spanned TypeFault)
  | field _ name _ span => some ⟨span, .ambiguousField name⟩
  | method call => some ⟨call.span, .ambiguousMethod call.method⟩
  | iter .. => none

/-- What is assumed of an iterable that stays unknown. -/
def default? : Deferred → Option Constraint
  | iter iterable elem span =>
    some { expected := .array elem, actual := iterable, span, origin := .iteration }
  | _ => none

/-- What a member of the receiver's type is compared with. -/
def answers (receiver : Ty) : Deferred → List Ty
  | field _ _ result _ => [result]
  | method call => [.fn (receiver :: call.args) call.ret .openRow, call.ret]
  | iter _ elem _ => [elem]

end Deferred

/-- The fault of an access to a member that the type of the receiver does not have. -/
def TypeFault.isUnknownMember : TypeFault → Bool
  | noField .. | noTypeField .. | noTupleField .. | noMethod .. | notIterable _ => true
  | _ => false

/-- From `s` to `t` the access has been answered: a complaint that there is no such member, or in
the end the comparison of the member with what the access is used for. -/
def Deferred.Answered (receiver : Ty) (s t : Session) (d : Deferred) : Prop :=
  (∃ fault : TypeFault, fault.isUnknownMember = true ∧
    t = s.withFaults (s.faults.push ⟨d.span, fault⟩)) ∨
  ∃ l k, t.constraints.toList = s.constraints.toList ++ l ++ [k] ∧ k.span = d.span ∧
    k.actual ∈ d.answers receiver

section Resolve

variable (sc : TypeScope) (methods : Methods)

theorem resolveField_answers (receiver base result : Ty) (name : String) (span : Span)
    (s : Session) : (Deferred.field base name result span).Answered receiver s
      (after (resolveField sc receiver name result span) s) := by
  have hconstrain : ∀ (t : Ty) (r : Session), Grows s r →
      (Deferred.field base name result span).Answered receiver s
        (after (constrain t result span .field) r) := by
    rintro t r ⟨⟨l, hl⟩, -⟩
    refine .inr ⟨l, ⟨.equality, t, result, span, .field⟩, ?_, rfl, List.mem_singleton_self _⟩
    rw [← hl]
    exact Array.toList_push
  have hstruct : ∀ t, (Deferred.field base name result span).Answered receiver s
      (after (resolveStructField sc t name result span) s) := by
    intro t
    unfold resolveStructField
    split
    · exact .inl ⟨_, rfl, rfl⟩
    · split
      · exact .inl ⟨_, rfl, rfl⟩
      · rename_i d _ decl _
        exact hconstrain _ _ (((supply_notes _ _).growing s).trans ((lower_notes _ _).growing _))
  have htuple : ∀ t elems, (Deferred.field base name result span).Answered receiver s
      (after (resolveTupleField t elems name result span) s) := by
    intro t elems
    unfold resolveTupleField
    split
    · exact hconstrain _ _ (.refl s)
    · exact .inl ⟨_, rfl, rfl⟩
  unfold resolveField
  split
  · split
    · exact htuple _ _
    · exact hstruct _
  · exact hstruct _

theorem resolveMethod_answers (receiver : Ty) (call : MemberCall) (s : Session) :
    (Deferred.method call).Answered receiver s (after (resolveMethod methods receiver call) s) := by
  have hcall : ∀ (signature : Ty) (r : Session), Grows s r →
      (Deferred.method call).Answered receiver s
        (after (callMethod receiver signature call) r) := by
    rintro signature r ⟨⟨l, hl⟩, -⟩
    refine .inr ⟨l, ⟨.equality, signature, .fn (receiver :: call.args) call.ret .openRow, call.span,
      .member⟩, ?_, rfl, List.mem_cons_self⟩
    rw [← hl]
    unfold callMethod
    cases call.caller <;> exact Array.toList_push
  unfold resolveMethod
  split
  · exact .inl ⟨_, rfl, rfl⟩
  · split
    · exact .inl ⟨_, rfl, rfl⟩
    · rename_i scheme _
      have hinstance := (instantiate_notes scheme).growing s
      rw [after_bind]
      split
      · rename_i params ret row _
        split
        · obtain ⟨l, hl⟩ := hinstance.constraints
          refine .inr ⟨l, ⟨.equality, ret, call.ret, call.span, .member⟩, ?_, rfl, by
            simp [Deferred.answers]⟩
          rw [← hl]
          exact Array.toList_push
        · exact hcall _ _ hinstance
      · exact hcall _ _ hinstance

theorem resolveIter_answers (receiver iterable elem : Ty) (span : Span) (s : Session) :
    (Deferred.iter iterable elem span).Answered receiver s
      (after (resolveIter receiver elem span) s) := by
  unfold resolveIter
  split
  · rename_i t _
    refine .inr ⟨[], ⟨.equality, t, elem, span, .iteration⟩, ?_, rfl, List.mem_singleton_self _⟩
    rw [List.append_nil]
    exact Array.toList_push
  · exact .inl ⟨_, rfl, rfl⟩

/-- An access with a known receiver is answered. -/
theorem resolveMember_answers (receiver : Ty) (d : Deferred) (s : Session) :
    d.Answered receiver s (after (resolveMember sc methods receiver d) s) := by
  cases d with
  | field base name result span => exact resolveField_answers sc receiver base result name span s
  | method call => exact resolveMethod_answers methods receiver call s
  | iter iterable elem span => exact resolveIter_answers receiver iterable elem span s

/-- Resolving an access is plain, but that it may put a call on record. -/
theorem resolveMember_emits (receiver : Ty) (d : Deferred) :
    Emits (fun e => e.IsPlain ∨ ∃ x, e = .site x) (resolveMember sc methods receiver d) := by
  have hnotes : ∀ {α : Type} {m : Check α}, Notes m →
      Emits (fun e => e.IsPlain ∨ ∃ x, e = .site x) m :=
    fun h => h.mono fun _ he => .inl he.isPlain
  have hcall : ∀ signature call, Emits (fun e => e.IsPlain ∨ ∃ x, e = .site x)
      (callMethod receiver signature call) := by
    intro signature call
    refine (hnotes (constrain_notes _ _ _ _)).bind fun _ => ?_
    split
    · exact .event (e := .site _) (.inr ⟨_, rfl⟩) fun _ _ => rfl
    · exact .pure _
  cases d with
  | field base name result span => exact hnotes (resolveField_notes _ _ _ _ _)
  | iter iterable elem span => exact hnotes (resolveIter_notes _ _ _)
  | method call =>
    change Emits _ (resolveMethod methods receiver call)
    unfold resolveMethod
    split
    · exact hnotes (report_notes _ _ rfl rfl)
    · split
      · exact hnotes (report_notes _ _ rfl rfl)
      · refine (hnotes (instantiate_notes _)).bind fun t => ?_
        split
        · split
          · exact hnotes ((report_notes _ _ rfl rfl).bind fun _ => constrain_notes _ _ _ _)
          · exact hcall _ _
        · exact hcall _ _

end Resolve

/-- Faults of a kind that no event reports stay as they are. -/
theorem Leads.filter_faults {K : Event → Prop} {s t : Session} (h : Leads K s t)
    {q : Spanned TypeFault → Bool} (hK : ∀ f, K (.report f) → q f = false) :
    t.faults.toList.filter q = s.faults.toList.filter q := by
  refine h.induct (R := fun s t => t.faults.toList.filter q = s.faults.toList.filter q)
    (fun _ => rfl) (fun s t u hst htu => htu.trans hst) fun e s he => ?_
  cases e with
  | report f => simp [Event.apply, hK f he]
  | _ => rfl

theorem Event.IsPlain.not_ambiguous {f : Spanned TypeFault} (h : (Event.report f).IsPlain) :
    f.node.isAmbiguous = false := by
  rcases h with h | h
  · exact h.2
  · rw [h]
    rfl

/-- An access taken for ambiguous is a complaint or an assumption. -/
theorem settleAmbiguous_after (d : Deferred) (s : Session) :
    let t := ((settleAmbiguous d).run.run s).2
    Leads Event.IsQuiet s t ∧ t.faults.toList = s.faults.toList ++ d.ambiguity?.toList ∧
      t.constraints.toList = s.constraints.toList ++ d.default?.toList ∧ t.sites = s.sites := by
  cases d with
  | field base name result span =>
    have hreport : Quiet (report (.ambiguousField name) span) := report_emits _ _ rfl
    exact ⟨hreport.leads s, Array.toList_push, (List.append_nil _).symm, rfl⟩
  | method call =>
    have hreport : Quiet (report (.ambiguousMethod call.method) call.span) := report_emits _ _ rfl
    exact ⟨hreport.leads s, Array.toList_push, (List.append_nil _).symm, rfl⟩
  | iter iterable elem span =>
    have hrun : (settleAmbiguous (.iter iterable elem span)).run.run s =
        solveAll.run.run (after (constrain (.array elem) iterable span .iteration) s) := rfl
    rw [hrun, solveAll_run]
    have hconstrain := (constrain_notes (.array elem) iterable span .iteration).quiet.leads s
    exact ⟨hconstrain.trans (.event (e := .solve) trivial _), (List.append_nil _).symm,
      Array.toList_push, rfl⟩

namespace Settlement

variable {sc : TypeScope} {methods : Methods} {s t : Session} {log : List Handling}

theorem Handles.quiet (h : Handles sc methods s log t) : Leads Event.IsQuiet s t := by
  induction h with
  | nil => exact .refl s
  | solve _ ih => exact ih.trans (.event (e := .solve) trivial _)
  | resolve _ _ d _ ih => exact ih.trans ((resolveMember_quiet _ _ _ d).leads _)
  | ambiguous _ d ih => exact ih.trans (settleAmbiguous_after d _).1

theorem Handles.grows (h : Handles sc methods s log t) : Grows s t := h.quiet.grows

/-- As long as accesses are resolved, there is no complaint about receivers. -/
theorem Handles.leads (h : Handles sc methods s log t) (hknown : ∀ x ∈ log, x.known = true) :
    Leads (fun e => e.IsPlain ∨ ∃ x, e = .site x) s t := by
  induction h with
  | nil => exact .refl s
  | solve _ ih => exact (ih hknown).trans (.event (e := .solve) (.inl trivial) _)
  | resolve _ _ d _ ih =>
    have hfirst := ih fun x hx => hknown x (List.mem_append_left _ hx)
    exact hfirst.trans ((resolveMember_emits sc methods _ d).leads _)
  | ambiguous _ d _ => cases hknown _ List.mem_concat_self

/-- What is handed on to be resolved has been resolved, with all solved at that moment. -/
theorem Handles.resolved (h : Handles sc methods s log t) (hs : s.Solving) :
    ∀ x ∈ log, x.known = true → x.session.Solved ∧
      Grows (after (resolveMember sc methods (x.session.solver.apply x.access.receiver) x.access)
        x.session) t := by
  induction h with
  | nil => simp
  | solve _ ih =>
    intro x hx hk
    obtain ⟨hsolved, hgrows⟩ := ih x hx hk
    exact ⟨hsolved, hgrows.trans (Event.solve.grows _)⟩
  | @resolve log r h idle d known ih =>
    intro x hx hk
    rcases List.mem_append.mp hx with hx | hx
    · obtain ⟨hsolved, hgrows⟩ := ih x hx hk
      exact ⟨hsolved, hgrows.trans ((resolveMember_quiet sc methods _ d).growing r)⟩
    · rw [List.mem_singleton.mp hx]
      exact ⟨idle.solved (h.grows.solving hs), .refl _⟩
  | @ambiguous log r _ d ih =>
    intro x hx hk
    rcases List.mem_append.mp hx with hx | hx
    · obtain ⟨hsolved, hgrows⟩ := ih x hx hk
      exact ⟨hsolved, hgrows.trans (settleAmbiguous_after d r).1.grows⟩
    · rw [List.mem_singleton.mp hx] at hk
      cases hk

/-- What is handed on as ambiguous makes its complaint or its assumption, in order. -/
theorem Handles.reported (h : Handles sc methods s log t) (hunknown : ∀ x ∈ log, x.known = false) :
    t.faults.toList = s.faults.toList ++ (log.map (·.access)).filterMap (·.ambiguity?) ∧
      t.constraints.toList = s.constraints.toList ++ (log.map (·.access)).filterMap (·.default?) ∧
      t.sites = s.sites := by
  induction h with
  | nil => simp
  | solve _ ih => exact ih hunknown
  | resolve _ _ d _ _ => cases hunknown _ List.mem_concat_self
  | @ambiguous log r _ d ih =>
    obtain ⟨hfaults, hconstraints, hsites⟩ := ih fun x hx => hunknown x (List.mem_append_left _ hx)
    obtain ⟨-, kfaults, kconstraints, ksites⟩ := settleAmbiguous_after d r
    refine ⟨?_, ?_, ksites.trans hsites⟩
    · rw [kfaults, hfaults]
      cases hd : d.ambiguity? <;> simp [hd]
    · rw [kconstraints, hconstraints]
      cases hd : d.default? <;> simp [hd]

/-- Exactly the receivers that are unknown after the rounds are handed on as ambiguous, in the order
of the accesses. -/
theorem Parted.filter_unknown {start r : Session} {pending : List Deferred}
    {resolved reported : List Handling}
    (h : Parted sc methods start pending resolved r reported t []) (hstart : start.Solving)
    (hperm : ((resolved ++ reported).map (·.access)).Perm pending) :
    pending.filter r.unknown = reported.map (·.access) := by
  have hr : r.Solved := h.idle.solved (h.first.grows.solving hstart)
  have hknown : (resolved.map (·.access)).filter r.unknown = [] := by
    rw [List.filter_eq_nil_iff]
    intro d hd hunknown
    obtain ⟨x, hx, rfl⟩ := List.mem_map.mp hd
    obtain ⟨hsolved, hgrows⟩ := h.first.resolved hstart x hx (h.known x hx)
    have hlater := ((resolveMember_quiet sc methods _ x.access).growing x.session).trans hgrows
    have hbefore := hlater.unknown hsolved.solving hr hunknown
    rw [Session.unknown, h.first.known x hx (h.known x hx)] at hbefore
    cases hbefore
  have hself : (reported.map (·.access)).filter r.unknown = reported.map (·.access) :=
    List.filter_eq_self.mpr (by simpa using h.unknown)
  have hsub : (reported.map (·.access)).Sublist (pending.filter r.unknown) := by
    rw [← hself]
    exact (by simpa using h.order : (reported.map (·.access)).Sublist pending).filter _
  have hlength := (hperm.filter r.unknown).length_eq
  rw [List.map_append, List.filter_append, hknown, hself, List.nil_append] at hlength
  exact (hsub.eq_of_length hlength).symm

theorem Parted.mem_resolved {start r : Session} {pending : List Deferred}
    {resolved reported : List Handling}
    (h : Parted sc methods start pending resolved r reported t []) (hstart : start.Solving)
    (hperm : ((resolved ++ reported).map (·.access)).Perm pending) {d : Deferred}
    (hd : d ∈ pending) (hknown : r.unknown d = false) : d ∈ resolved.map (·.access) := by
  have hnot : d ∉ reported.map (·.access) := by
    rw [← h.filter_unknown hstart hperm]
    intro hmem
    rw [(List.mem_filter.mp hmem).2] at hknown
    cases hknown
  have hall := hperm.mem_iff.mpr hd
  rw [List.map_append] at hall
  exact (List.mem_append.mp hall).resolve_right hnot

end Settlement

/-- The expression whose type decides what an access means. -/
def ExprKind.receiver? : ExprKind → Option Expr
  | .field base _ => some base
  | .methodCall receiver _ _ => some receiver
  | .forLoop _ iterable _ => some iterable
  | _ => none

/-- An access is deferred with the type that its receiver has there. -/
theorem ExprKind.emitted_receiver {kind : ExprKind} {receiver : Expr}
    (h : receiver ∈ kind.receiver?) (cx : Context) (span : Span) (s : Session) :
    ∃ d, kind.emitted cx span s = [.defer d] ∧
      d.receiver = ((inferExpr cx receiver).run s).1 := by
  cases kind with
  | field base name =>
    cases h
    exact ⟨_, rfl, rfl⟩
  | methodCall base method args =>
    cases h
    exact ⟨_, rfl, rfl⟩
  | forLoop pattern iterable body =>
    cases h
    exact ⟨_, rfl, rfl⟩
  | _ => cases h

theorem Expr.receiver_mem_calls {e receiver : Expr} (h : receiver ∈ e.kind.receiver?)
    (cx : Context) (s : Session) : (.expr cx receiver, s) ∈ (Task.expr cx e).calls s := by
  obtain ⟨id, span, kind⟩ := e
  cases kind with
  | field base name =>
    cases h
    exact List.mem_singleton_self _
  | methodCall base method args =>
    cases h
    exact List.mem_cons_self
  | forLoop pattern iterable body =>
    cases h
    exact List.mem_cons_self
  | _ => cases h

theorem Task.not_report_emitted (t : Task) (s : Session) (f : Spanned TypeFault) :
    Event.report f ∉ t.emitted s := by
  cases t with
  | expr cx e =>
    obtain ⟨id, span, kind⟩ := e
    cases kind with
    | call callee args =>
      simp only [emitted, ExprKind.emitted]
      split <;> simp
    | _ => simp [emitted, ExprKind.emitted]
  | _ => simp [emitted]

theorem Deferred.isAmbiguous_ambiguity {d : Deferred} {f : Spanned TypeFault}
    (h : d.ambiguity? = some f) : f.node.isAmbiguous = true := by
  cases d with
  | iter iterable elem span => cases h
  | _ =>
    cases h
    rfl

/-- After settling there are complaints about generic parameters and about effects. -/
theorem concluding_leads {K : Event → Prop}
    (hgenerics : ∀ f, f.node.isRoutine = true → f.node.isAmbiguous = false → K (.report f))
    (hsites : ∀ span caller k, K (.report ⟨span, .undeclaredEffect caller k⟩)) (checkEffects : Bool)
    (t : Session) : Leads K t (after (checkSitesIf checkEffects t)
      (after (checkGenerics t.solver.subst .empty t.generics.entries) t)) :=
  ((checkGenerics_emits hgenerics _ _ _).leads t).trans
    ((checkSitesIf_emits hsites checkEffects t).leads _)

theorem concluding_reports (checkEffects : Bool) (t : Session) :
    Leads Event.IsReport t (after (checkSitesIf checkEffects t)
      (after (checkGenerics t.solver.subst .empty t.generics.entries) t)) :=
  concluding_leads (fun _ _ _ => trivial) (fun _ _ _ => trivial) checkEffects t

/-- After the rounds, the solver goes through what is assumed of iterables. -/
theorem Settlement.Parted.solver {sc : TypeScope} {methods : Methods} {start r t : Session}
    {pending : List Deferred} {resolved reported : List Handling}
    (h : Parted sc methods start pending resolved r reported t []) (hr : r.Solved) (ht : t.Solved) :
    t.solver = r.solver.run ((reported.map (·.access)).filterMap (·.default?)) := by
  obtain ⟨-, hconstraints, -⟩ := h.last.reported h.ambiguous
  rw [ht.2, hconstraints, Solver.run_append, ← hr.2]

section Program

variable {catalog : Catalog} {checkEffects : Bool} {p : Program}

/-- How a check that succeeds has come to its end. -/
theorem checkProgram_parted (hsolved : (checkProgram catalog checkEffects p).solved = true) :
    ∃ resolved r reported t,
      ((resolved ++ reported).map (·.access)).Perm
        (p.visited catalog checkEffects).deferred.toList ∧
      Parted (p.scope catalog) (p.present catalog).1.methods
        (Event.solve.apply (p.visited catalog checkEffects))
        (p.visited catalog checkEffects).deferred.toList resolved r reported t [] ∧
      t.Solved ∧
      (checkProgram catalog checkEffects p).session = after (checkSitesIf checkEffects t)
        (after (checkGenerics t.solver.subst .empty t.generics.entries) t) := by
  have hrun := finish_visited catalog checkEffects p
  have hok : ((finish (p.scope catalog) (p.present catalog).1.methods checkEffects).run
      (p.visited catalog checkEffects)).1 = true := by rw [hrun, hsolved]
  obtain ⟨t, hsolve, -⟩ := finish_settles hok
  obtain ⟨hidle, hsettle⟩ := solveProgram_run _ _ hsolve
  obtain ⟨resolved, r, reported, hperm, hparted⟩ := settle_parted _ _ hidle hsettle
  obtain ⟨-, hbrings, -⟩ := solveProgram_brings (p.scope catalog) (p.present catalog).1.methods _
    (p.solving_visited catalog checkEffects)
  rw [hsolve] at hbrings
  rw [finish_run hsolve] at hrun
  exact ⟨resolved, r, reported, t, hperm, hparted, hbrings () rfl, (congrArg Prod.snd hrun).symm⟩

theorem Program.grows_session (hsolved : (checkProgram catalog checkEffects p).solved = true) :
    Grows (p.visited catalog checkEffects) (checkProgram catalog checkEffects p).session := by
  have hrun := finish_visited catalog checkEffects p
  have hok : ((finish (p.scope catalog) (p.present catalog).1.methods checkEffects).run
      (p.visited catalog checkEffects)).1 = true := by rw [hrun, hsolved]
  have hfinish := (finish_solved _ _ _ (p.solving_visited catalog checkEffects) hok).2.grows
  rw [hrun] at hfinish
  exact hfinish

/-- What acceptance says about the final session. -/
theorem Program.settled (hok : (checkProgram catalog checkEffects p).ok = true) :
    (checkProgram catalog checkEffects p).session.Solved ∧
      (checkProgram catalog checkEffects p).session.faults = #[] ∧
      (checkProgram catalog checkEffects p).subst =
        (checkProgram catalog checkEffects p).session.solver.subst ∧
      Grows (p.visited catalog checkEffects) (checkProgram catalog checkEffects p).session := by
  obtain ⟨hflag, hfaults⟩ : (checkProgram catalog checkEffects p).solved = true ∧
      (checkProgram catalog checkEffects p).session.faults = #[] := by
    simpa only [TypeCheck.ok, Bool.and_eq_true, Array.isEmpty_iff] using hok
  have hsolved := (checkProgram_solved catalog checkEffects p
    (checkProgram catalog checkEffects p).valuation hflag).1
  exact ⟨hsolved, hfaults, by rw [TypeCheck.subst, if_pos hflag], p.grows_session hflag⟩

/-- The type recorded for a receiver is the one that its access is deferred with. -/
theorem Program.types_receiver (hsolved : (checkProgram catalog checkEffects p).solved = true)
    (hids : (p.nodes.map (·.id)).Nodup) {e receiver : Expr} (he : e ∈ p.checked)
    (hreceiver : receiver ∈ e.kind.receiver?) :
    ∃ d, e.Emits (p.walk catalog checkEffects) (.defer d) ∧
      (checkProgram catalog checkEffects p).types.get? receiver.id =
        some ((checkProgram catalog checkEffects p).subst.apply d.receiver) := by
  obtain ⟨cx, s, hreach⟩ := p.reaches_checked catalog checkEffects he
  obtain ⟨d, hemitted, htype⟩ := e.kind.emitted_receiver hreceiver cx e.span s
  refine ⟨d, ⟨cx, s, hreach, ?_⟩, ?_⟩
  · change Event.defer d ∈ e.kind.emitted cx e.span s
    rw [hemitted]
    exact List.mem_singleton_self _
  · have hinside : Reaches (p.walk catalog checkEffects) (.expr cx receiver, s) :=
      hreach.tail (e.receiver_mem_calls hreceiver cx s)
    have hmem : (receiver.id, d.receiver) ∈
        (checkProgram catalog checkEffects p).session.typed := by
      refine (Program.grows_session hsolved).mem_typed ((p.grows_visited hinside).mem_typed ?_)
      obtain ⟨id, span, kind⟩ := receiver
      rw [htype, Task.after, after, inferExpr_run]
      exact List.mem_cons_self
    obtain ⟨-, hrecorded, -⟩ := checkProgram_solved catalog checkEffects p
      (checkProgram catalog checkEffects p).valuation hsolved
    have hnodup : (checkProgram catalog checkEffects p).session.recorded.Nodup :=
      hrecorded.nodup_iff.mpr (hids.sublist (p.checked_sublist.map _))
    rw [TypeCheck.get?_types, Table.find_of_mem hnodup hmem]
    rfl

variable (catalog checkEffects p) in
/-- There is no complaint about a receiver before the accesses are settled. -/
theorem Program.visited_ambiguities :
    (p.visited catalog checkEffects).faults.toList.filter (·.node.isAmbiguous) = [] := by
  refine (p.traced_visited catalog checkEffects).filter_faults fun f hf => ?_
  rcases hf with hf | ⟨x, -, hf⟩
  · exact hf.not_ambiguous
  · exact absurd hf (x.1.not_report_emitted x.2 f)

theorem checkProgram_ambiguities {resolved reported : List Handling} {r t : Session}
    (hparted : Parted (p.scope catalog) (p.present catalog).1.methods
      (Event.solve.apply (p.visited catalog checkEffects))
      (p.visited catalog checkEffects).deferred.toList resolved r reported t [])
    (hsession : (checkProgram catalog checkEffects p).session = after (checkSitesIf checkEffects t)
      (after (checkGenerics t.solver.subst .empty t.generics.entries) t)) :
    (checkProgram catalog checkEffects p).session.faults.toList.filter (·.node.isAmbiguous) =
      (reported.map (·.access)).filterMap (·.ambiguity?) := by
  have hend := (concluding_leads (K := fun e => ∀ f, e = .report f → f.node.isAmbiguous = false)
    (fun f _ hf g hg => by cases hg; exact hf) (fun _ _ _ g hg => by cases hg; rfl)
    checkEffects t).filter_faults (q := (·.node.isAmbiguous)) fun f hf => hf f rfl
  have hrounds := (hparted.first.leads hparted.known).filter_faults
    (q := (·.node.isAmbiguous)) fun f hf => by
      rcases hf with hf | ⟨x, hf⟩
      · exact hf.not_ambiguous
      · cases hf
  have hself : ((reported.map (·.access)).filterMap (·.ambiguity?)).filter (·.node.isAmbiguous) =
      (reported.map (·.access)).filterMap (·.ambiguity?) := by
    refine List.filter_eq_self.mpr fun f hf => ?_
    obtain ⟨d, -, hd⟩ := List.mem_filterMap.mp hf
    exact Deferred.isAmbiguous_ambiguity hd
  obtain ⟨hfaults, -, -⟩ := hparted.last.reported hparted.ambiguous
  rw [hsession, hend, hfaults, List.filter_append, hrounds, hself]
  change (p.visited catalog checkEffects).faults.toList.filter _ ++ _ = _
  rw [p.visited_ambiguities catalog checkEffects, List.nil_append]

end Program

/-- In a check whose solver succeeds there is a session after which no access is resolved. The
complaints about receivers are about those that are unknown there, one for each field and each
method, in the order in which the accesses stand in the program; and what is solved after it is what
is assumed of the iterables that are unknown there. An access whose receiver is known there has been
resolved, against a type of which the final one is an instance. A receiver that is unknown in the
end was unknown there; so if no iterable was, the complaints are about the receivers that are
unknown in the end. -/
theorem ambiguous_iff_unknown_after_rounds (catalog : Catalog) (checkEffects : Bool) (p : Program)
    (hsolved : (checkProgram catalog checkEffects p).solved = true) :
    let c := checkProgram catalog checkEffects p
    let accesses := (p.visited catalog checkEffects).deferred.toList
    (∀ d, d ∈ accesses ↔ ∃ e ∈ p.checked, e.Emits (p.walk catalog checkEffects) (.defer d)) ∧
    ((p.nodes.map (·.id)).Nodup → ∀ e ∈ p.checked, ∀ receiver ∈ e.kind.receiver?,
      ∃ d, e.Emits (p.walk catalog checkEffects) (.defer d) ∧
        c.types.get? receiver.id = some (c.subst.apply d.receiver)) ∧
    ∃ r : Session, Grows (p.visited catalog checkEffects) r ∧ r.Solved ∧ Grows r c.session ∧
      c.session.faults.toList.filter (·.node.isAmbiguous) =
        (accesses.filter r.unknown).filterMap (·.ambiguity?) ∧
      c.session.solver = r.solver.run ((accesses.filter r.unknown).filterMap (·.default?)) ∧
      (∀ d ∈ accesses, r.unknown d = false → ∃ q : Session, q.Solved ∧
        (q.solver.apply d.receiver).asVar = none ∧
        c.subst.apply (q.solver.apply d.receiver) = c.subst.apply d.receiver ∧
        ∃ t, t = after (resolveMember (p.scope catalog) (p.present catalog).1.methods
          (q.solver.apply d.receiver) d) q ∧
        d.Answered (q.solver.apply d.receiver) q t ∧ Grows t c.session) ∧
      (∀ d ∈ accesses, (c.subst.apply d.receiver).asVar.isSome = true → r.unknown d = true) ∧
      ((∀ d ∈ accesses, d.default?.isSome = true → r.unknown d = false) →
        c.session.faults.toList.filter (·.node.isAmbiguous) =
          (accesses.filter fun d => (c.subst.apply d.receiver).asVar.isSome).filterMap
            (·.ambiguity?)) := by
  intro c accesses
  refine ⟨fun d => p.mem_deferred_visited catalog checkEffects,
    fun hids e he receiver hreceiver => p.types_receiver hsolved hids he hreceiver, ?_⟩
  have hstart := p.solving_visited catalog checkEffects
  have hsolve := Event.solve.grows (p.visited catalog checkEffects)
  obtain ⟨resolved, r, reported, t, hperm, hparted, ht, hsession⟩ := checkProgram_parted hsolved
  have hr : r.Solved := hparted.idle.solved (hparted.first.grows.solving (hsolve.solving hstart))
  have hunknown := hparted.filter_unknown (hsolve.solving hstart) hperm
  have hend := concluding_reports checkEffects t
  rw [← hsession] at hend
  have hsubst : c.subst = c.session.solver.subst := if_pos hsolved
  have hfinal : c.session.Solved := hend.solved ht
  have hrc : Grows r c.session := hparted.last.grows.trans hend.grows
  have hfaults : c.session.faults.toList.filter (·.node.isAmbiguous) =
      (accesses.filter r.unknown).filterMap (·.ambiguity?) := by
    rw [hunknown]
    exact checkProgram_ambiguities hparted hsession
  have hsolver : c.session.solver =
      r.solver.run ((accesses.filter r.unknown).filterMap (·.default?)) := by
    rw [hunknown, hend.eq_withFaults]
    exact hparted.solver hr ht
  have hlater : ∀ d ∈ accesses, (c.subst.apply d.receiver).asVar.isSome = true →
      r.unknown d = true := by
    intro d _ hd
    rw [hsubst] at hd
    exact hrc.unknown hr.solving hfinal hd
  refine ⟨r, hsolve.trans hparted.first.grows, hr, hrc, hfaults, hsolver, ?_, hlater, ?_⟩
  · intro d hd hknown
    obtain ⟨x, hx, rfl⟩ :=
      List.mem_map.mp (hparted.mem_resolved (hsolve.solving hstart) hperm hd hknown)
    obtain ⟨hq, hgrows⟩ :=
      hparted.first.resolved (hsolve.solving hstart) x hx (hparted.known x hx)
    have hqc := (((resolveMember_quiet _ _ _ _).growing x.session).trans hgrows).trans hrc
    refine ⟨x.session, hq, hparted.first.known x hx (hparted.known x hx), ?_, _, rfl,
      resolveMember_answers _ _ _ _ x.session, hgrows.trans hrc⟩
    rw [hsubst]
    exact hqc.replace_apply hq.solving hfinal x.access.receiver
  · intro hiter
    have hnone : (accesses.filter r.unknown).filterMap (·.default?) = [] := by
      rw [List.filterMap_eq_nil_iff]
      intro d hd
      obtain ⟨hmem, hd⟩ := List.mem_filter.mp hd
      by_contra hsome
      rw [hiter d hmem (Option.isSome_iff_ne_none.mpr hsome)] at hd
      cases hd
    rw [hnone, Solver.run_nil] at hsolver
    rw [hfaults, hsubst, hsolver]
    rfl

open Build in
/-- A receiver that is known and one that is not:
`fn f(s: str) { let n = s.len(); let g = |y| y.a; }`. -/
def fieldOfUnknown : Program :=
  .ofItems [.function (functionOf "f" [.param "s" (some (type "str")), .body (block
    [letIdent "n" (method (ident "s") "len" []),
      letIdent "g" (lambda ["y"] (field (ident "y") "a"))] none)])]

set_option maxRecDepth 4000 in
theorem fieldOfUnknown_ambiguous :
    (checkProgram .standard true fieldOfUnknown).solved = true ∧
    ∃ r : Session, r.Solved ∧
      ((fieldOfUnknown.visited .standard true).deferred.toList.filter r.unknown).filterMap
        (·.ambiguity?) = [⟨.dummy, .ambiguousField "a"⟩] := by
  have hrun : (fun c : TypeCheck => (c.solved, c.session.faults.toList.filter (·.node.isAmbiguous)))
      (checkProgram .standard true fieldOfUnknown) =
        (true, [⟨.dummy, .ambiguousField "a"⟩]) := by cbv
  obtain ⟨hsolved, hfaults⟩ := Prod.mk.inj hrun
  obtain ⟨-, -, r, -, hr, -, hambiguous, -⟩ :=
    ambiguous_iff_unknown_after_rounds .standard true fieldOfUnknown hsolved
  exact ⟨hsolved, r, hr, hambiguous.symm.trans hfaults⟩

open Build in
/-- A method of what a loop runs over: `fn f() { let g = |xs| { for x in xs {} xs.len() }; }`. -/
def lenAfterLoop : Program :=
  .ofItems [.function (functionOf "f" [.body (block [letIdent "g" (lambda ["xs"]
    (expr (.block (block [.expr (expr (.forLoop (patIdent "x") (ident "xs") (block [] none)))]
      (some (method (ident "xs") "len" []))))))] none)])]

set_option maxRecDepth 4000 in
/-- The receiver is an array in the end, and arrays have the method; it has been found ambiguous all
the same, before the loop made an array of it. -/
theorem lenAfterLoop_ambiguous_array :
    (checkProgram .standard true lenAfterLoop).solved = true ∧
    ∃ e ∈ lenAfterLoop.checked, ∃ receiver method elem,
      e.kind = .methodCall receiver method [] ∧
      (checkProgram .standard true lenAfterLoop).types.get? receiver.id = some (.array elem) ∧
      (Catalog.standard.methods.find? Ty.arrayName method.node).isSome = true ∧
      ⟨e.span, .ambiguousMethod method.node⟩ ∈
        (checkProgram .standard true lenAfterLoop).session.faults.toList := by
  have hrun : (fun c : TypeCheck => (c.solved, c.types.get? 5, c.session.faults.toList))
      (checkProgram .standard true lenAfterLoop) =
        (true, some (.array (.var 2)), [⟨.dummy, .ambiguousMethod "len"⟩]) := by cbv
  simp only [Prod.mk.injEq] at hrun
  obtain ⟨hsolved, htype, hfaults⟩ := hrun
  refine ⟨hsolved, ⟨4, .dummy, .methodCall ⟨5, .dummy, .ident "xs"⟩ (Build.name "len") []⟩, ?_, _,
    _, _, rfl, htype, by cbv, ?_⟩
  · have hchecked : lenAfterLoop.checked[4]? =
      some ⟨4, .dummy, .methodCall ⟨5, .dummy, .ident "xs"⟩ (Build.name "len") []⟩ := by cbv
    exact List.mem_of_getElem? hchecked
  · rw [hfaults]
    exact List.mem_singleton_self _

end Sema
