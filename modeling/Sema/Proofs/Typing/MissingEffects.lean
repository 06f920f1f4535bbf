import Sema.Proofs.Typing.Ambiguity
import Sema.Proofs.Typing.Callers

/-!
# Effects that a function performs and does not declare

Calls are put on record where the walk comes to them, and method calls where they are resolved, each
with the function around it. When all types are known, the check goes through the record and reports
each effect of each function at the first call that performs it.

Main statement: in a check whose solver succeeds, a function and an effect are reported exactly if
there is a call on record in that function whose callee is in the end a function with a closed row
that has the effect, and the function does not declare it. They are reported once, at the first such
call. The calls on record are the direct calls, unless the number of arguments is known to be wrong,
and the method calls that have been resolved with the right number of arguments.
-/

namespace Sema

open Settlement

/-- A function type with a closed row that has the effect. -/
def Ty.performs (k : EffectKind) : Ty → Bool
  | .fn _ _ (.closed row) => row.contains k
  | _ => false

namespace EffectSite

/-- A call in the function of that name performs the effect in the end, and the function does not
declare it. -/
def exceeds (σ : Subst) (caller : String) (k : EffectKind) (x : EffectSite) : Bool :=
  x.caller == caller && ((σ.apply x.callee).performs k && !x.declared.contains k)

theorem mem_undeclared (σ : Subst) (k : EffectKind) (x : EffectSite) :
    k ∈ x.undeclared σ ↔ ((σ.apply x.callee).performs k && !x.declared.contains k) = true := by
  unfold undeclared
  generalize σ.apply x.callee = t
  split
  · simp [Ty.performs, EffectSet.without]
  · rename_i hother
    have hnone : t.performs k = false := by
      unfold Ty.performs
      split
      · exact absurd rfl (hother _ _ _)
      · rfl
    simp [hnone]

/-- The undeclared effects at one call, with its place. -/
def missing (σ : Subst) (x : EffectSite) : List (Spanned (String × EffectKind)) :=
  (x.undeclared σ).map fun k => ⟨x.span, x.caller, k⟩

theorem find?_missing (σ : Subst) (caller : String) (k : EffectKind) (x : EffectSite) :
    (x.missing σ).find? (·.node == (caller, k)) =
      if x.exceeds σ caller k then some ⟨x.span, caller, k⟩ else none := by
  split
  · rename_i hx
    obtain ⟨hcaller, hk⟩ : x.caller = caller ∧ k ∈ x.undeclared σ := by
      rw [mem_undeclared]
      simpa [exceeds] using hx
    have hmem : ⟨x.span, x.caller, k⟩ ∈ x.missing σ := List.mem_map_of_mem hk
    have hsome : ((x.missing σ).find? (·.node == (caller, k))).isSome = true :=
      List.find?_isSome.mpr ⟨_, hmem, by simp [hcaller]⟩
    obtain ⟨y, hy⟩ := Option.isSome_iff_exists.mp hsome
    obtain ⟨j, -, rfl⟩ := List.mem_map.mp (List.mem_of_find?_eq_some hy)
    have hnode := List.find?_some hy
    simp only [beq_iff_eq, Prod.mk.injEq] at hnode
    rw [hy, hnode.1, hnode.2]
  · rename_i hx
    refine List.find?_eq_none.mpr fun y hy heq => hx ?_
    obtain ⟨j, hj, rfl⟩ := List.mem_map.mp hy
    simp only [beq_iff_eq, Prod.mk.injEq] at heq
    rw [mem_undeclared, heq.2] at hj
    rw [exceeds, heq.1, beq_self_eq_true, hj]
    rfl

end EffectSite

/-- The first of the undeclared effects for a function and an effect is at the first call that
performs it. -/
theorem find?_undeclaredEffects (σ : Subst) (sites : List EffectSite) (caller : String)
    (k : EffectKind) :
    (undeclaredEffects σ sites).find? (·.node == (caller, k)) =
      (sites.find? (·.exceeds σ caller k)).map fun x => ⟨x.span, caller, k⟩ := by
  induction sites with
  | nil => rfl
  | cons x r ih =>
    have hrest : undeclaredEffects σ (x :: r) = x.missing σ ++ undeclaredEffects σ r :=
      List.flatMap_cons
    rw [hrest, List.find?_append, ih, EffectSite.find?_missing]
    cases hx : x.exceeds σ caller k with
    | true =>
      rw [List.find?_cons_of_pos hx]
      rfl
    | false =>
      rw [List.find?_cons_of_neg (by simp [hx])]
      rfl

/-- The first element for each function and effect, but for those that have been seen. -/
def firsts (seen : List (String × EffectKind)) :
    List (Spanned (String × EffectKind)) → List (Spanned (String × EffectKind))
  | [] => []
  | x :: r => if seen.contains x.node then firsts seen r else x :: firsts (x.node :: seen) r

theorem mem_firsts {seen : List (String × EffectKind)} {l : List (Spanned (String × EffectKind))}
    {x : Spanned (String × EffectKind)} :
    x ∈ firsts seen l ↔ x.node ∉ seen ∧ l.find? (·.node == x.node) = some x := by
  induction l generalizing seen with
  | nil => simp [firsts]
  | cons y r ih =>
    by_cases hxy : y.node = x.node
    · have hfind : (y :: r).find? (·.node == x.node) = some y :=
        List.find?_cons_of_pos (by simp [hxy])
      rw [hfind, firsts, hxy]
      split
      · rename_i hseen
        rw [ih]
        simp_all
      · rename_i hseen
        rw [List.mem_cons, ih]
        simp_all [eq_comm]
    · have hfind : (y :: r).find? (·.node == x.node) = r.find? (·.node == x.node) :=
        List.find?_cons_of_neg (by simp [hxy])
      rw [hfind, firsts]
      split
      · exact ih
      · have hne : x ≠ y := fun h => hxy (h ▸ rfl)
        rw [List.mem_cons, ih]
        simp [hne, Ne.symm hxy]

theorem nodup_firsts (seen : List (String × EffectKind))
    (l : List (Spanned (String × EffectKind))) : ((firsts seen l).map (·.node)).Nodup := by
  induction l generalizing seen with
  | nil => simp [firsts]
  | cons x r ih =>
    rw [firsts]
    split
    · exact ih seen
    · rw [List.map_cons, List.nodup_cons]
      refine ⟨fun hmem => ?_, ih _⟩
      obtain ⟨y, hy, hxy⟩ := List.mem_map.mp hmem
      exact (mem_firsts.mp hy).1 (hxy ▸ List.mem_cons_self)

/-- The complaint that an effect is not declared. -/
def undeclaredFault (x : Spanned (String × EffectKind)) : Spanned TypeFault :=
  ⟨x.span, .undeclaredEffect x.node.1 x.node.2⟩

/-- The function and the effect that the complaint is about. -/
def TypeFault.undeclared? : TypeFault → Option (String × EffectKind)
  | undeclaredEffect caller k => some (caller, k)
  | _ => none

theorem TypeFault.undeclared?_of_isRoutine {f : TypeFault} (h : f.isRoutine = true) :
    f.undeclared? = none := by
  cases f with
  | undeclaredEffect caller k => cases h
  | _ => rfl

theorem faults_checkSites (seen : List (String × EffectKind))
    (l : List (Spanned (String × EffectKind))) (s : Session) :
    (after (checkSites seen l) s).faults.toList =
      s.faults.toList ++ (firsts seen l).map undeclaredFault := by
  induction l generalizing seen s with
  | nil => exact (List.append_nil _).symm
  | cons x r ih =>
    rw [checkSites, firsts]
    by_cases hseen : seen.contains x.node = true
    · rw [if_pos hseen, if_pos hseen]
      exact ih seen s
    · rw [if_neg hseen, if_neg hseen]
      have hrest := ih (x.node :: seen) ((Event.report (undeclaredFault x)).apply s)
      refine hrest.trans ?_
      simp [Event.apply]

section Methods

variable (sc : TypeScope) (methods : Methods)

/-- The function takes that many arguments besides the receiver. -/
def Ty.takes (n : Nat) : Ty → Bool
  | .fn params _ _ => params.length - 1 == n
  | _ => true

/-- The type of the method for a receiver of that type, where there is one and the number of
arguments is right. Its variables are numbered from `next`. -/
def MemberCall.signature? (receiver : Ty) (next : Nat) (call : MemberCall) : Option Ty :=
  (receiver.nominalName?.bind (methods.find? · call.method)).bind fun scheme =>
    let signature := (scheme.instantiate next).1
    if signature.takes call.args.length then some signature else none

/-- The call that an access puts on record when it is resolved. -/
def Deferred.site? (receiver : Ty) (next : Nat) : Deferred → Option EffectSite
  | method call => (call.signature? methods receiver next).bind fun signature =>
    call.caller.map (·.site signature call.span)
  | _ => none

theorem Leads.sites_eq {K : Event → Prop} {s t : Session} (h : Leads K s t)
    (hK : ∀ x, ¬ K (.site x)) : t.sites = s.sites := by
  refine h.induct (R := fun s t => t.sites = s.sites) (fun _ => rfl)
    (fun _ _ _ hst htu => htu.trans hst) fun e s he => ?_
  cases e with
  | site x => exact absurd he (hK x)
  | _ => rfl

theorem Emits.sites_eq {α : Type} {m : Check α} (h : Notes m) (s : Session) :
    (after m s).sites = s.sites :=
  (h.leads s).sites_eq fun _ => id

theorem sites_callMethod (receiver signature : Ty) (call : MemberCall) (s : Session) :
    (after (callMethod receiver signature call) s).sites.toList =
      s.sites.toList ++ (call.caller.map (·.site signature call.span)).toList := by
  unfold callMethod
  cases call.caller with
  | none => exact (List.append_nil _).symm
  | some f => exact Array.toList_push

/-- A method call is put on record if the number of arguments is right. -/
theorem sites_compared (typeName : String) (receiver signature : Ty) (call : MemberCall)
    (s : Session) :
    (after (match signature with
      | .fn params ret _ =>
        if params.length - 1 ≠ call.args.length then do
          report (.methodArguments typeName call.method (params.length - 1) call.args.length)
            call.span
          constrain ret call.ret call.span .member
        else callMethod receiver signature call
      | _ => callMethod receiver signature call) s).sites.toList = s.sites.toList ++
      ((if signature.takes call.args.length then some signature else none).bind fun signature =>
        call.caller.map (·.site signature call.span)).toList := by
  have hcall := sites_callMethod receiver signature call s
  cases signature with
  | fn params ret row =>
    by_cases hcount : params.length - 1 = call.args.length
    · simp only [Ty.takes, hcount, ne_eq, not_true_eq_false, if_false, beq_self_eq_true, if_true]
      exact hcall
    · simp only [Ty.takes, hcount, ne_eq, not_false_eq_true, if_true, beq_iff_eq, if_false]
      exact (List.append_nil _).symm
  | _ => exact hcall

theorem sites_resolveMethod (receiver : Ty) (call : MemberCall) (s : Session) :
    (after (resolveMethod methods receiver call) s).sites.toList = s.sites.toList ++
      ((Deferred.method call).site? methods receiver s.nextVar).toList := by
  cases hname : receiver.nominalName? with
  | none =>
    simp only [resolveMethod, Deferred.site?, MemberCall.signature?, hname]
    exact (List.append_nil _).symm
  | some typeName =>
    cases hfind : methods.find? typeName call.method with
    | none =>
      simp only [resolveMethod, Deferred.site?, MemberCall.signature?, hname, hfind,
        Option.bind_some]
      exact (List.append_nil _).symm
    | some scheme =>
      simp only [resolveMethod, Deferred.site?, MemberCall.signature?, hname, hfind,
        Option.bind_some]
      -- The instance takes new variables and does nothing else.
      exact sites_compared typeName receiver (scheme.instantiate s.nextVar).1 call
        (after (instantiate scheme) s)

theorem sites_resolveMember (receiver : Ty) (d : Deferred) (s : Session) :
    (after (resolveMember sc methods receiver d) s).sites.toList =
      s.sites.toList ++ (d.site? methods receiver s.nextVar).toList := by
  cases d with
  | field base name result span =>
    have hsame := (resolveField_notes sc receiver name result span).sites_eq s
    exact (congrArg Array.toList hsame).trans (List.append_nil _).symm
  | iter iterable elem span =>
    have hsame := (resolveIter_notes receiver elem span).sites_eq s
    exact (congrArg Array.toList hsame).trans (List.append_nil _).symm
  | method call => exact sites_resolveMethod methods receiver call s

end Methods

/-- The call that has been put on record when an access was resolved. -/
def Handling.site? (methods : Methods) (x : Handling) : Option EffectSite :=
  x.access.site? methods (x.session.solver.apply x.access.receiver) x.session.nextVar

theorem Settlement.Handles.sites {sc : TypeScope} {methods : Methods} {s t : Session}
    {log : List Handling} (h : Handles sc methods s log t) (hknown : ∀ x ∈ log, x.known = true) :
    t.sites.toList = s.sites.toList ++ log.filterMap (·.site? methods) := by
  induction h with
  | nil => exact (List.append_nil _).symm
  | solve _ ih => exact ih hknown
  | @resolve log r _ _ d _ ih =>
    have hfirst := ih fun x hx => hknown x (List.mem_append_left _ hx)
    have hlast : [(⟨d, r, true⟩ : Handling)].filterMap (·.site? methods) =
        (d.site? methods (r.solver.apply d.receiver) r.nextVar).toList := by
      have hsite : Handling.site? methods ⟨d, r, true⟩ =
          d.site? methods (r.solver.apply d.receiver) r.nextVar := rfl
      rw [List.filterMap_cons, hsite]
      cases d.site? methods (r.solver.apply d.receiver) r.nextVar <;> rfl
    rw [sites_resolveMember, hfirst, List.filterMap_append, List.append_assoc, hlast]
  | ambiguous _ d _ => cases hknown _ List.mem_concat_self

section Expressions

variable {cx : Context} {e : Expr} {s : Session}

/-- The expression calls a function of that type, unless it is known that the number of arguments is
wrong. -/
def Expr.Calls (cx : Context) (s : Session) (callee : Ty) (e : Expr) : Prop :=
  ∃ function args, e.kind = .call function args ∧ callee = ((inferExpr cx function).run s).1 ∧
    miscounted function.calleeName? callee
      ((inferAll cx args).run (after (inferExpr cx function) s)).1 = false

/-- The expression calls a method that has been resolved on the way to `t`, with the right number of
arguments. Its type is that of the method for the type that the receiver had by then. -/
def Expr.CallsMethod (cx : Context) (s : Session) (sc : TypeScope) (methods : Methods) (t : Session)
    (callee : Ty) (e : Expr) : Prop :=
  ∃ call q, Event.defer (.method call) ∈ (Task.expr cx e).emitted s ∧ q.Solved ∧
    (q.solver.apply call.receiver).asVar = none ∧
    Grows (after (resolveMember sc methods (q.solver.apply call.receiver) (.method call)) q) t ∧
    call.signature? methods (q.solver.apply call.receiver) q.nextVar = some callee

/-- The frame of a call says which function is around. -/
theorem Context.map_site_eq_some {callee : Ty} {span : Span} {y : EffectSite} :
    cx.frames.head?.map (·.site callee span) = some y ↔
      cx.caller? = some (y.caller, y.declared) ∧ callee = y.callee ∧ span = y.span := by
  obtain ⟨c, caller, declared, place⟩ := y
  unfold caller?
  cases cx.frames.head? with
  | none => simp
  | some f =>
    simp only [Option.map_some, Option.some.injEq, Frame.site, EffectSite.mk.injEq, Prod.mk.injEq]
    tauto

theorem Expr.emits_site_iff {y : EffectSite} :
    Event.site y ∈ (Task.expr cx e).emitted s ↔
      cx.caller? = some (y.caller, y.declared) ∧ y.span = e.span ∧ e.Calls cx s y.callee := by
  obtain ⟨id, span, kind⟩ := e
  constructor
  · intro h
    cases kind with
    | call function args =>
      simp only [Task.emitted, ExprKind.emitted] at h
      split at h
      · cases h
      · rename_i hcount
        obtain ⟨f, hf, heq⟩ := List.mem_map.mp h
        cases heq
        have hsite : cx.frames.head?.map (·.site ((inferExpr cx function).run s).1 span) =
            some (f.site ((inferExpr cx function).run s).1 span) := by
          rw [Option.mem_toList.mp hf]
          rfl
        exact ⟨(Context.map_site_eq_some.mp hsite).1, rfl, function, args, rfl, rfl,
          Bool.eq_false_iff.mpr hcount⟩
    | methodCall receiver method args => cases List.mem_singleton.mp h
    | field base name => cases List.mem_singleton.mp h
    | forLoop pattern iterable body => cases List.mem_singleton.mp h
    | _ => cases h
  · rintro ⟨hcaller, hspan, function, args, hkind, hcallee, hcount⟩
    subst hkind
    have hsite := Context.map_site_eq_some.mpr ⟨hcaller, hcallee.symm, hspan.symm⟩
    obtain ⟨f, hf, heq⟩ := Option.map_eq_some_iff.mp hsite
    rw [hcallee] at hcount
    simp only [Task.emitted, ExprKind.emitted, hcount]
    exact List.mem_map.mpr ⟨f, by simpa using hf, congrArg Event.site heq⟩

/-- A method call is deferred with the frame around it. -/
theorem Expr.emits_method {call : MemberCall}
    (h : Event.defer (.method call) ∈ (Task.expr cx e).emitted s) :
    call.caller = cx.frames.head? ∧ call.span = e.span := by
  obtain ⟨id, span, kind⟩ := e
  cases kind with
  | call function args =>
    simp only [Task.emitted, ExprKind.emitted] at h
    split at h
    · cases h
    · obtain ⟨f, -, heq⟩ := List.mem_map.mp h
      cases heq
  | methodCall receiver method args =>
    cases List.mem_singleton.mp h
    exact ⟨rfl, rfl⟩
  | field base name => cases List.mem_singleton.mp h
  | forLoop pattern iterable body => cases List.mem_singleton.mp h
  | _ => cases h

end Expressions

section Program

variable {catalog : Catalog} {checkEffects : Bool} {p : Program}

/-- Until the record is gone through, no complaint is about an undeclared effect. -/
theorem Program.undeclared?_eq_none {resolved reported : List Handling} {r t : Session}
    (h : Parted (p.scope catalog) (p.present catalog).1.methods
      (Event.solve.apply (p.visited catalog checkEffects))
      (p.visited catalog checkEffects).deferred.toList resolved r reported t [])
    {f : Spanned TypeFault}
    (hf : f ∈ (after (checkGenerics t.solver.subst .empty t.generics.entries) t).faults.toList) :
    f.node.undeclared? = none := by
  let K : Event → Prop := fun e => ∀ f, e = .report f → f.node.undeclared? = none
  have hvisited : Leads K {} (p.visited catalog checkEffects) := by
    refine (p.traced_visited catalog checkEffects).mono fun e he f hef => ?_
    subst hef
    rcases he with (⟨hroutine, -⟩ | hawait) | ⟨x, -, hmem⟩
    · exact TypeFault.undeclared?_of_isRoutine hroutine
    · rw [hawait]
      rfl
    · exact absurd hmem (x.1.not_report_emitted x.2 f)
  have hquiet : ∀ s u, Leads Event.IsQuiet s u → Leads K s u := by
    refine fun s u hsu => hsu.mono fun e he f hef => ?_
    subst hef
    exact TypeFault.undeclared?_of_isRoutine he
  have hsolve : Leads K (p.visited catalog checkEffects)
      (Event.solve.apply (p.visited catalog checkEffects)) :=
    .event (e := .solve) (fun _ h => nomatch h) _
  have hgenerics : Leads K t (after (checkGenerics t.solver.subst .empty t.generics.entries) t) :=
    (checkGenerics_emits (K := K) (fun g hg _ f hef => by
      cases hef
      exact TypeFault.undeclared?_of_isRoutine hg) _ _ _).leads t
  have hall := hvisited.trans (hsolve.trans ((hquiet _ _ h.first.quiet).trans
    ((hquiet _ _ h.last.quiet).trans hgenerics)))
  rcases hall.mem_faults hf with hmem | hnone
  · cases hmem
  · exact hnone f rfl

/-- The complaints about undeclared effects come last, one for each function and effect. -/
theorem checkProgram_undeclared (hsolved : (checkProgram catalog true p).solved = true) :
    ∃ before, (∀ f ∈ before, f.node.undeclared? = none) ∧
      (checkProgram catalog true p).session.faults.toList = before ++
        (firsts [] (undeclaredEffects (checkProgram catalog true p).subst
          (checkProgram catalog true p).session.sites.toList)).map undeclaredFault := by
  obtain ⟨resolved, r, reported, t, -, hparted, -, hsession⟩ := checkProgram_parted hsolved
  have hend := concluding_reports true t
  rw [← hsession] at hend
  have hsame := hend.eq_withFaults
  have hsubst : (checkProgram catalog true p).subst = t.solver.subst := by
    rw [TypeCheck.subst, if_pos hsolved, hsame]
    rfl
  have hsites : (checkProgram catalog true p).session.sites = t.sites := by
    rw [hsame]
    rfl
  refine ⟨_, fun f hf => Program.undeclared?_eq_none hparted hf, ?_⟩
  rw [hsubst, hsites, hsession]
  exact faults_checkSites [] _ _

/-- The calls on record when the check is done. -/
theorem checkProgram_sites (hsolved : (checkProgram catalog checkEffects p).solved = true) :
    ∃ resolved : List Handling, (checkProgram catalog checkEffects p).session.sites.toList =
        (p.visited catalog checkEffects).sites.toList ++
          resolved.filterMap (·.site? (p.present catalog).1.methods) ∧
      ∀ x ∈ resolved, x.access ∈ (p.visited catalog checkEffects).deferred.toList ∧
        x.session.Solved ∧ (x.session.solver.apply x.access.receiver).asVar = none ∧
        Grows (after (resolveMember (p.scope catalog) (p.present catalog).1.methods
          (x.session.solver.apply x.access.receiver) x.access) x.session)
          (checkProgram catalog checkEffects p).session := by
  obtain ⟨resolved, r, reported, t, hperm, hparted, -, hsession⟩ := checkProgram_parted hsolved
  have hend := concluding_reports checkEffects t
  rw [← hsession] at hend
  have hsites : (checkProgram catalog checkEffects p).session.sites = r.sites := by
    rw [hend.eq_withFaults]
    exact (hparted.last.reported hparted.ambiguous).2.2
  have hstart := (Event.solve.grows (p.visited catalog checkEffects)).solving
    (p.solving_visited catalog checkEffects)
  refine ⟨resolved, ?_, fun x hx => ?_⟩
  · rw [hsites]
    exact hparted.first.sites hparted.known
  · have hmem : x.access ∈ (resolved ++ reported).map (·.access) :=
      List.mem_map_of_mem (List.mem_append_left _ hx)
    obtain ⟨hx', hgrows⟩ := hparted.first.resolved hstart x hx (hparted.known x hx)
    exact ⟨hperm.mem_iff.mp hmem, hx', hparted.first.known x hx (hparted.known x hx),
      hgrows.trans (hparted.last.grows.trans hend.grows)⟩

/-- A call is on record if it is a direct one with the right number of arguments, as far as known,
or one of a method that has been resolved with the right number of arguments. -/
theorem checkProgram_mem_sites (hsolved : (checkProgram catalog checkEffects p).solved = true)
    (y : EffectSite) :
    y ∈ (checkProgram catalog checkEffects p).session.sites.toList ↔
      ∃ cx e s, Reaches (p.walk catalog checkEffects) (.expr cx e, s) ∧
        p.Caller catalog checkEffects (.expr cx e, s) y.caller y.declared ∧ y.span = e.span ∧
        (e.Calls cx s y.callee ∨ e.CallsMethod cx s (p.scope catalog)
          (p.present catalog).1.methods (checkProgram catalog checkEffects p).session
          y.callee) := by
  constructor
  · intro hy
    obtain ⟨resolved, hsites, hresolved⟩ := checkProgram_sites hsolved
    rw [hsites] at hy
    rcases List.mem_append.mp hy with hy | hy
    · obtain ⟨e, -, cx, s, hreach, hemitted⟩ := (p.mem_sites_visited catalog checkEffects).mp hy
      obtain ⟨hcaller, hspan, hcalls⟩ := Expr.emits_site_iff.mp hemitted
      exact ⟨cx, e, s, hreach, (Program.caller_iff hreach rfl).mpr hcaller, hspan, .inl hcalls⟩
    · obtain ⟨x, hx, hsite⟩ := List.mem_filterMap.mp hy
      obtain ⟨hmem, hsolved', hknown, hgrows⟩ := hresolved x hx
      obtain ⟨d, q, known⟩ := x
      cases d with
      | field base name result span => cases hsite
      | iter iterable elem span => cases hsite
      | method call =>
        obtain ⟨callee, hsignature, hsite⟩ := Option.bind_eq_some_iff.mp hsite
        obtain ⟨e, -, cx, s, hreach, hemitted⟩ :=
          (p.mem_deferred_visited catalog checkEffects).mp hmem
        obtain ⟨hframe, hspan⟩ := Expr.emits_method hemitted
        rw [hframe, hspan] at hsite
        obtain ⟨hcaller, rfl, hplace⟩ := Context.map_site_eq_some.mp hsite
        exact ⟨cx, e, s, hreach, (Program.caller_iff hreach rfl).mpr hcaller, hplace.symm,
          .inr ⟨call, q, hemitted, hsolved', hknown, hgrows, hsignature⟩⟩
  · rintro ⟨cx, e, s, hreach, hcaller, hspan, hcalls | hcalls⟩
    · have hemitted := Expr.emits_site_iff.mpr
        ⟨(Program.caller_iff hreach rfl).mp hcaller, hspan, hcalls⟩
      exact (Program.grows_session hsolved).mem_sites (hreach.emitted_after.2 y hemitted)
    · obtain ⟨call, q, hemitted, -, -, hgrows, hsignature⟩ := hcalls
      obtain ⟨hframe, hplace⟩ := Expr.emits_method hemitted
      have hsite : (Deferred.method call).site? (p.present catalog).1.methods
          (q.solver.apply call.receiver) q.nextVar = some y := by
        rw [Deferred.site?, hsignature, Option.bind_some, hframe, hplace]
        exact Context.map_site_eq_some.mpr
          ⟨(Program.caller_iff hreach rfl).mp hcaller, rfl, hspan.symm⟩
      refine hgrows.mem_sites ?_
      rw [sites_resolveMember, hsite]
      exact List.mem_append_right _ (List.mem_singleton_self _)

end Program

/-- In a check with effects whose solver succeeds, a function and an effect are reported at a place
exactly if that is the place of the first call on record in which the function exceeds its
declaration by the effect; no function and effect are reported twice. The calls on record are the
direct calls and the resolved method calls with the right number of arguments. They count against
the function around them, which declares what the signature on file under its name declares, with
`async` if it is `async`; or, in a constant, against a lambda, which declares nothing. In an accepted
program no call exceeds the declaration. -/
theorem undeclared_effects_reported_exactly (catalog : Catalog) (p : Program)
    (hsolved : (checkProgram catalog true p).solved = true) :
    let c := checkProgram catalog true p
    (∀ caller k span, ⟨span, .undeclaredEffect caller k⟩ ∈ c.session.faults.toList ↔
      ∃ y, c.session.sites.toList.find? (·.exceeds c.subst caller k) = some y ∧ y.span = span) ∧
    (c.session.faults.toList.filterMap (·.node.undeclared?)).Nodup ∧
    (∀ y, y ∈ c.session.sites.toList ↔
      ∃ cx e s, Reaches (p.walk catalog true) (.expr cx e, s) ∧
        p.Caller catalog true (.expr cx e, s) y.caller y.declared ∧ y.span = e.span ∧
        (e.Calls cx s y.callee ∨ e.CallsMethod cx s (p.scope catalog)
          (p.present catalog).1.methods c.session y.callee)) ∧
    (∀ name sig, (p.present catalog).1.signatures.get? name = some sig →
      ∃ d, p.Defines d name ∧ ∀ k, sig.effects.contains k = true ↔
        k ∈ d.effects.map (·.kind) ∨ d.isAsync = true ∧ k = .async) ∧
    (c.ok = true → ∀ y ∈ c.session.sites.toList, ∀ k,
      (c.subst.apply y.callee).performs k = true → y.declared.contains k = true) := by
  intro c
  obtain ⟨before, hbefore, hfaults⟩ := checkProgram_undeclared hsolved
  have hreported : ∀ caller k span, ⟨span, .undeclaredEffect caller k⟩ ∈ c.session.faults.toList ↔
      ∃ y, c.session.sites.toList.find? (·.exceeds c.subst caller k) = some y ∧
        y.span = span := by
    intro caller k span
    have hfirst : ⟨span, .undeclaredEffect caller k⟩ ∈ c.session.faults.toList ↔
        ⟨span, caller, k⟩ ∈ firsts [] (undeclaredEffects c.subst c.session.sites.toList) := by
      rw [hfaults, List.mem_append, List.mem_map]
      constructor
      · rintro (hmem | ⟨x, hx, heq⟩)
        · cases hbefore _ hmem
        · cases heq
          exact hx
      · exact fun hmem => .inr ⟨_, hmem, rfl⟩
    rw [hfirst, mem_firsts, find?_undeclaredEffects, Option.map_eq_some_iff]
    simp
  refine ⟨hreported, ?_, checkProgram_mem_sites hsolved, fun name sig hsig => ?_,
    fun hok y hy k hk => ?_⟩
  · have hnone : before.filterMap (·.node.undeclared?) = [] := List.filterMap_eq_nil_iff.mpr hbefore
    have hnodes : ∀ l : List (Spanned (String × EffectKind)),
        (l.map undeclaredFault).filterMap (·.node.undeclared?) = l.map (·.node) := by
      intro l
      rw [List.filterMap_map, ← List.filterMap_eq_map]
      rfl
    rw [hfaults, List.filterMap_append, hnone, hnodes, List.nil_append]
    exact nodup_firsts _ _
  · obtain ⟨d, hd, heffects⟩ := p.signedBy_present catalog name sig hsig
    exact ⟨d, hd, fun k => heffects ▸ d.contains_effectSet k⟩
  · by_contra hdeclared
    have hexceeds : y.exceeds c.subst y.caller k = true := by
      simpa [EffectSite.exceeds, hk] using hdeclared
    have hsome : (c.session.sites.toList.find? (·.exceeds c.subst y.caller k)).isSome = true :=
      List.find?_isSome.mpr ⟨y, hy, hexceeds⟩
    obtain ⟨z, hz⟩ := Option.isSome_iff_exists.mp hsome
    have hmem := (hreported y.caller k z.span).mpr ⟨z, hz, rfl⟩
    simp only [TypeCheck.ok, Bool.and_eq_true, Array.isEmpty_iff] at hok
    rw [hok.2] at hmem
    cases hmem

open Build in
/-- Two calls of the same effect, one of them in a lambda:
`fn greet(s: str) { let g = |t| println(t); print(s); }`. -/
def greeting : Program :=
  .ofItems [.function (functionOf "greet" [.param "s" (some (type "str")), .body (block
    [letIdent "g" (lambda ["t"] (call (ident "println") [ident "t"])),
      .expr (call (ident "print") [ident "s"])] none)])]

set_option maxRecDepth 4000 in
theorem greeting_reported_once :
    let c := checkProgram .standard true greeting
    c.solved = true ∧ c.session.faults.toList = [⟨.dummy, .undeclaredEffect "greet" .io⟩] ∧
    c.session.sites.size = 2 ∧
    ∃ y ∈ c.session.sites.toList, y.caller = "greet" ∧
      (c.subst.apply y.callee).performs .io = true ∧ y.declared.contains .io = false := by
  have hrun : (fun c : TypeCheck => (c.solved, c.session.faults.toList, c.session.sites.size))
      (checkProgram .standard true greeting) =
        (true, [⟨.dummy, .undeclaredEffect "greet" .io⟩], 2) := by cbv
  simp only [Prod.mk.injEq] at hrun
  obtain ⟨hsolved, hfaults, hsize⟩ := hrun
  obtain ⟨hreported, -⟩ := undeclared_effects_reported_exactly .standard greeting hsolved
  obtain ⟨y, hy, -⟩ := (hreported "greet" .io .dummy).mp (hfaults ▸ List.mem_singleton_self _)
  have hexceeds := List.find?_some hy
  simp only [EffectSite.exceeds, Bool.and_eq_true, beq_iff_eq, Bool.not_eq_true'] at hexceeds
  exact ⟨hsolved, hfaults, hsize, y, List.mem_of_find?_eq_some hy, hexceeds⟩

open Build in
/-- A lambda in a constant: `const HELLO: fn(str) -> () = |s| print(s);`. -/
def looseLambda : Program :=
  .ofItems [const "HELLO" (fnType [type "str"] unitType []) (lambda ["s"]
    (call (ident "print") [ident "s"]))]

set_option maxRecDepth 4000 in
/-- There is no function, and yet an effect that some function does not declare. -/
theorem looseLambda_reported :
    (checkProgram .standard true looseLambda).solved = true ∧
    (checkProgram .standard true looseLambda).session.faults.toList =
      [⟨.dummy, .undeclaredEffect "<lambda>" .io⟩] ∧
    ∀ d name, ¬ looseLambda.Defines d name := by
  have hrun : (fun c : TypeCheck => (c.solved, c.session.faults.toList))
      (checkProgram .standard true looseLambda) =
        (true, [⟨.dummy, .undeclaredEffect "<lambda>" .io⟩]) := by cbv
  obtain ⟨hsolved, hfaults⟩ := Prod.mk.inj hrun
  refine ⟨hsolved, hfaults, ?_⟩
  rintro d name (hmem | ⟨_, hmem, hd⟩)
  · cases List.mem_singleton.mp hmem
  · cases List.mem_singleton.mp hmem
    cases hd

end Sema
