import Sema.Proofs.Typing.Coverage
import Sema.Proofs.Typing.Members

/-!
# Where accesses and calls on record come from

An expression that accesses a member defers the access, one that calls a function may put the call
on record, and nothing else on the walk does either. `Task.emitted` lists these events of a task, as
far as they are its own and not those of the tasks it runs.

Main statement: every access deferred on the walk over a program, and every call put on record
there, is one of its own of an expression that is checked, and conversely. The walk complains
neither about receivers nor about effects.
-/

namespace Sema

namespace Event

/-- What neither defers an access nor puts a call on record. Complaints about receivers, about
effects and of the solver come later. -/
def IsPlain : Event → Prop
  | defer _ | site _ => False
  | report f => f.node.isRoutine = true ∧ f.node.isAmbiguous = false ∨ f.node = .awaitOutside
  | _ => True

theorem IsNote.isPlain {e : Event} (h : e.IsNote) : e.IsPlain := by
  cases e with
  | report f => exact .inl h
  | _ => simp_all [IsNote, IsPlain]

end Event

/-- Nothing but plain events. -/
abbrev Plain {α : Type} (m : Check α) : Prop := Emits Event.IsPlain m

section Plain

variable {α : Type}

theorem Emits.plain {m : Check α} (h : Notes m) : Plain m := h.mono fun _ => Event.IsNote.isPlain

theorem record_plain (id : ExprId) (t : Ty) : Plain (record id t) :=
  .event (e := .record id t) trivial fun _ _ => rfl

theorem generalizeBinding_plain (cx : Context) (t : Ty) : Plain (generalizeBinding cx t) := by
  have hsolve : Plain solvePending := .event (e := .solve) trivial fun _ _ => rfl
  refine hsolve.bind fun o => ?_
  cases o with
  | some _ => exact .pure _
  | none => exact .read fun _ _ => rfl

theorem bindLet_plain (cx : Context) (pattern : Pattern) (t : Ty) (hasValue mutable : Bool) :
    Plain (bindLet cx pattern t hasValue mutable) := by
  unfold bindLet
  split
  · exact (generalizeBinding_plain cx t).bind fun _ => .pure _
  · exact (checkPattern_notes cx pattern t).plain.bind fun _ => .pure _

theorem recordGenerics_plain (function : String) (span : Span) (generics : List (String × Ty)) :
    Plain (recordGenerics function span generics) := by
  refine .forM (fun (param, t) => ?_) _
  dsimp only
  split
  · rename_i v _
    exact .event (e := .generic v ⟨function, param, span⟩) trivial fun _ _ => rfl
  · exact .pure _

end Plain

/-- A call in the function of `frame`, put on record. -/
def Frame.site (frame : Frame) (callee : Ty) (span : Span) : EffectSite :=
  ⟨callee, frame.name, frame.effects, span⟩

/-- Is it known, from the name and the type of what is called, that the number of arguments is
wrong? -/
def miscounted (name : Option String) (callee : Ty) (args : List Ty) : Bool :=
  match name, callee with
  | some _, .fn params _ _ => params.length != args.length
  | _, _ => false

theorem callType_emits (cx : Context) (callee : Ty) (args : List Ty) (span : Span) :
    Emits (fun e => e.IsPlain ∨ ∃ f ∈ cx.frames.head?, e = .site (f.site callee span))
      (callType cx callee args span) := by
  have hplain : ∀ {α : Type} {m : Check α}, Notes m →
      Emits (fun e => e.IsPlain ∨ ∃ f ∈ cx.frames.head?, e = .site (f.site callee span)) m :=
    fun h => h.mono fun _ he => .inl he.isPlain
  refine (hplain fresh_notes).bind fun _ => (hplain (constrain_notes _ _ _ _)).bind fun _ => ?_
  refine Emits.bind ?_ fun _ => .pure _
  unfold recordSite
  split
  · rename_i f hf
    exact .event (e := .site (f.site callee span)) (.inr ⟨f, hf, rfl⟩) fun _ _ => rfl
  · exact .pure _

/-- A call puts itself on record in the function around it, if there is one, unless the number of
arguments is wrong. -/
theorem checkCall_emits (cx : Context) (name : Option String) (callee : Ty) (args : List Ty)
    (span : Span) :
    Emits (fun e => e.IsPlain ∨ miscounted name callee args = false ∧
        ∃ f ∈ cx.frames.head?, e = .site (f.site callee span))
      (checkCall cx name callee args span) := by
  have hcall : miscounted name callee args = false → Emits (fun e => e.IsPlain ∨
      miscounted name callee args = false ∧ ∃ f ∈ cx.frames.head?, e = .site (f.site callee span))
      (callType cx callee args span) :=
    fun hcount => (callType_emits cx callee args span).mono fun _ he => he.imp_right (⟨hcount, ·⟩)
  unfold checkCall
  split
  · split
    · exact ((report_notes _ _ rfl rfl).bind fun _ => .pure _).mono fun _ he => .inl he.isPlain
    · rename_i hcount
      exact hcall (by simpa [miscounted] using hcount)
  · rename_i hother
    refine hcall ?_
    unfold miscounted
    split
    · exact absurd rfl (hother _ _ _ _ rfl)
    · rfl

/-- The events of an expression's own that are not plain. -/
def ExprKind.emitted (cx : Context) (span : Span) (s : Session) : ExprKind → List Event
  | .call callee args =>
    let t := (inferExpr cx callee).run s
    let types := (inferAll cx args).run t.2
    if miscounted callee.calleeName? t.1 types.1 then []
    else cx.frames.head?.toList.map fun f => .site (f.site t.1 span)
  | .methodCall receiver method args =>
    let t := (inferExpr cx receiver).run s
    let types := (inferAll cx args).run t.2
    [.defer (.method ⟨t.1, method.node, types.1, .var types.2.nextVar, cx.frames.head?, span⟩)]
  | .field base name =>
    let t := (inferExpr cx base).run s
    [.defer (.field t.1 name.node (.var t.2.nextVar) name.span)]
  | .forLoop _ iterable _ =>
    let t := (inferExpr cx iterable).run s
    [.defer (.iter t.1 (.var t.2.nextVar) iterable.span)]
  | _ => []

/-- The events of a task's own that are not plain. -/
def Task.emitted : Task → Session → List Event
  | expr cx e, s => e.kind.emitted cx e.span s
  | _, _ => []

/-- The event is one of the expression's own, on the walk. -/
def Expr.Emits (walk : Task × Session) (e : Expr) (event : Event) : Prop :=
  ∃ cx s, Reaches walk (.expr cx e, s) ∧ event ∈ (Task.expr cx e).emitted s

/-- The check, started in `s`, does nothing but plain events and events of `P`. -/
def Tracing (P : Event → Prop) {α : Type} (m : Check α) (s : Session) : Prop :=
  Leads (fun e => e.IsPlain ∨ P e) s (after m s)

/-- The same of a task. -/
def Traced (P : Event → Prop) (x : Task × Session) : Prop :=
  Leads (fun e => e.IsPlain ∨ P e) x.2 (x.1.after x.2)

namespace Tracing

variable {P : Event → Prop} {α β : Type} {s : Session}

theorem bind {m : Check α} {f : α → Check β} (hm : Tracing P m s)
    (hf : Tracing P (f (m.run s).1) (after m s)) : Tracing P (m >>= f) s :=
  Leads.trans hm hf

theorem plain {m : Check α} (h : Plain m) : Tracing P m s := (h.leads s).mono fun _ => .inl

theorem pure (a : α) : Tracing P (pure a : Check α) s := .plain (.pure a)

theorem notes {m : Check α} (h : Notes m) : Tracing P m s := .plain h.plain

theorem emits {K : Event → Prop} {m : Check α} (h : Emits (fun e => e.IsPlain ∨ K e) m)
    (hK : ∀ e, K e → P e) : Tracing P m s :=
  (h.leads s).mono fun e => Or.imp_right (hK e)

theorem defer {d : Deferred} (h : P (.defer d)) : Tracing P (defer d) s :=
  .event (e := Event.defer d) (.inr h) s

end Tracing

theorem forall_mem_pair_iff {α : Type} {P : α → Prop} {a b : α} :
    (∀ x ∈ [a, b], P x) ↔ P a ∧ P b := by
  simp

theorem forall_mem_optionCall {P : Task × Session → Prop} {cx : Context} {s : Session} {e : Expr}
    (h : ∀ x ∈ optionCall cx s (some e), P x) : P (.expr cx e, s) :=
  h _ (List.mem_singleton_self _)

section Calls

variable {P : Event → Prop} (cx : Context) (s : Session)

theorem structLit_tracing (span : Span) (name : Ident) (fields : List FieldInit)
    (base : Option Expr)
    (hcalls : ∀ x ∈ (ExprKind.structLit name fields base).calls cx s, Traced P x) :
    Tracing P (inferKind cx span (.structLit name fields base)) s := by
  rw [inferKind]
  simp only [ExprKind.calls] at hcalls
  cases hstruct : cx.scope.decls.structs.get? (cx.scope.structName name.node) with
  | none =>
    rw [hstruct] at hcalls
    obtain ⟨hfields, hbase⟩ := List.forall_mem_cons.mp hcalls
    refine .bind (.notes (report_notes _ _ rfl rfl)) (.bind hfields ?_)
    cases base with
    | none => exact .notes fresh_notes
    | some e =>
      have he : Tracing P (discard (inferExpr cx e)) _ :=
        .bind (forall_mem_optionCall hbase) (.pure _)
      exact .bind he (.notes fresh_notes)
  | some d =>
    rw [hstruct] at hcalls
    obtain ⟨hinits, hbase⟩ := List.forall_mem_cons.mp hcalls
    refine .bind (.notes (instantiateNominal_notes _ _)) (.bind hinits ?_)
    cases base with
    | none => exact .bind (.notes (checkComplete_notes _ _ _ _)) (.pure _)
    | some e =>
      exact .bind (forall_mem_optionCall hbase) (.bind (.notes (constrain_notes _ _ _ _)) (.pure _))

theorem range_tracing (span : Span) (start stop : Option Expr) (inclusive : Bool)
    (hcalls : ∀ x ∈ (ExprKind.range start stop inclusive).calls cx s, Traced P x) :
    Tracing P (inferKind cx span (.range start stop inclusive)) s := by
  obtain ⟨hstart, hstop⟩ := List.forall_mem_append.mp hcalls
  rw [inferKind]
  refine .bind (.notes fresh_notes) ?_
  cases start with
  | none =>
    refine .bind (.pure _) ?_
    cases stop with
    | none => exact .bind (.pure _) (.pure _)
    | some e =>
      exact .bind (forall_mem_optionCall hstop) (.bind (.notes (constrain_notes _ _ _ _)) (.pure _))
  | some d =>
    refine .bind (forall_mem_optionCall hstart) (.bind (.notes (constrain_notes _ _ _ _)) ?_)
    cases stop with
    | none => exact .bind (.pure _) (.pure _)
    | some e =>
      exact .bind (forall_mem_optionCall hstop) (.bind (.notes (constrain_notes _ _ _ _)) (.pure _))

/-- An expression does what its parts do, and what is its own. -/
theorem ExprKind.tracing (span : Span) (k : ExprKind) (hcalls : ∀ x ∈ k.calls cx s, Traced P x)
    (hown : ∀ e ∈ k.emitted cx span s, P e) : Tracing P (inferKind cx span k) s := by
  cases k with
  | literal lit => exact .notes (literalType_notes lit span)
  | ident name => exact .notes (lookupName_notes _ _ _ _ rfl rfl)
  | path segments => exact .notes (lookupName_notes _ _ _ _ rfl rfl)
  | binary op left right =>
    obtain ⟨hleft, hright⟩ := forall_mem_pair_iff.mp hcalls
    exact .bind hleft (.bind hright (.notes (binaryType_notes _ _ _ _ _)))
  | unary op operand =>
    have hoperand := List.forall_mem_singleton.mp hcalls
    rw [inferKind]
    refine .bind hoperand ?_
    cases op with
    | not => exact .bind (.notes (constrain_notes _ _ _ _)) (.pure _)
    | _ => exact .pure _
  | call callee args =>
    obtain ⟨hcallee, hargs⟩ := forall_mem_pair_iff.mp hcalls
    refine .bind hcallee (.bind hargs (.emits (checkCall_emits _ _ _ _ _) ?_))
    rintro e ⟨hcount, f, hf, rfl⟩
    refine hown _ ?_
    simp only [emitted, hcount]
    exact List.mem_map.mpr ⟨f, by simpa using hf, rfl⟩
  | methodCall receiver method args =>
    obtain ⟨hreceiver, hargs⟩ := forall_mem_pair_iff.mp hcalls
    refine .bind hreceiver (.bind hargs (.bind (.notes fresh_notes) (.bind ?_ (.pure _))))
    exact .defer (hown _ (List.mem_singleton_self _))
  | field base name =>
    have hbase := List.forall_mem_singleton.mp hcalls
    refine .bind hbase (.bind (.notes fresh_notes) (.bind ?_ (.pure _)))
    exact .defer (hown _ (List.mem_singleton_self _))
  | index base i =>
    obtain ⟨hbase, hindex⟩ := forall_mem_pair_iff.mp hcalls
    exact .bind hbase (.bind hindex (.bind (.notes fresh_notes)
      (.bind (.notes (constrain_notes _ _ _ _)) (.pure _))))
  | ifThen cond thenBranch elseBranch =>
    obtain ⟨hcond, hcalls⟩ := List.forall_mem_cons.mp hcalls
    obtain ⟨hthen, helse⟩ := List.forall_mem_cons.mp hcalls
    rw [inferKind]
    refine .bind hcond (.bind (.notes (constrain_notes _ _ _ _)) (.bind hthen ?_))
    cases elseBranch with
    | none => exact .pure _
    | some other =>
      exact .bind (forall_mem_optionCall helse) (.bind (.notes (constrain_notes _ _ _ _)) (.pure _))
  | matchOn scrutinee arms =>
    obtain ⟨hscrutinee, harms⟩ := forall_mem_pair_iff.mp hcalls
    exact .bind hscrutinee (.bind (.notes fresh_notes) (.bind harms (.pure _)))
  | block body =>
    have hbody := List.forall_mem_singleton.mp hcalls
    exact hbody
  | lambda params ret body isMove =>
    have hbody := List.forall_mem_singleton.mp hcalls
    exact .bind (.notes (paramTypes_notes _ _)) (.bind (.notes (lowerOr_notes _ fresh_notes _))
      (.bind hbody (.bind (.notes (constrain_notes _ _ _ _)) (.pure _))))
  | tuple elems =>
    have helems := List.forall_mem_singleton.mp hcalls
    exact .bind helems (.pure _)
  | array elems =>
    have helems := List.forall_mem_singleton.mp hcalls
    exact .bind (.notes fresh_notes) (.bind helems (.pure _))
  | structLit name fields base => exact structLit_tracing cx s span name fields base hcalls
  | cast e ty =>
    have he := List.forall_mem_singleton.mp hcalls
    exact .bind he (.notes (lower_notes _ _))
  | tryOp e =>
    have he := List.forall_mem_singleton.mp hcalls
    exact .bind he (.bind (.notes fresh_notes) (.bind (.notes fresh_notes)
      (.bind (.notes (constrain_notes _ _ _ _)) (.pure _))))
  | await e =>
    have he := List.forall_mem_singleton.mp hcalls
    rw [inferKind]
    refine .bind he ?_
    split
    · exact .bind (.plain (report_emits _ _ (.inr rfl))) (.pure _)
    · exact .bind (.pure _) (.pure _)
  | whileLoop cond body =>
    obtain ⟨hcond, hbody⟩ := forall_mem_pair_iff.mp hcalls
    exact .bind hcond (.bind (.notes (constrain_notes _ _ _ _)) (.bind hbody (.pure _)))
  | loop body =>
    have hbody := List.forall_mem_singleton.mp hcalls
    exact .bind (.notes fresh_notes) (.bind hbody (.pure _))
  | forLoop pattern iterable body =>
    obtain ⟨hiterable, hbody⟩ := forall_mem_pair_iff.mp hcalls
    refine .bind hiterable (.bind (.notes fresh_notes) (.bind ?_
      (.bind (.notes (checkPattern_notes _ _ _)) (.bind hbody (.pure _)))))
    exact .defer (hown _ (List.mem_singleton_self _))
  | range start stop inclusive => exact range_tracing cx s span start stop inclusive hcalls

theorem armCalls_tracing (t result : Ty) (l : List MatchArm)
    (hcalls : ∀ x ∈ armCalls cx t result s l, Traced P x) :
    Tracing P (checkArms cx t result l) s := by
  cases l with
  | nil => exact .pure _
  | cons arm r =>
    obtain ⟨span, pattern, guard, body⟩ := arm
    obtain ⟨hguard, hrest⟩ := List.forall_mem_append.mp hcalls
    obtain ⟨hbody, harms⟩ := forall_mem_pair_iff.mp hrest
    rw [checkArms]
    refine .bind (.notes (checkPattern_notes _ _ _)) ?_
    cases guard with
    | none => exact .bind hbody (.bind (.notes (constrain_notes _ _ _ _)) harms)
    | some g =>
      exact .bind (forall_mem_optionCall hguard) (.bind (.notes (constrain_notes _ _ _ _))
        (.bind hbody (.bind (.notes (constrain_notes _ _ _ _)) harms)))

theorem Stmt.tracing (st : Stmt) (hcalls : ∀ x ∈ st.calls cx s, Traced P x) :
    Tracing P (checkStmt cx st) s := by
  cases st with
  | letBind span pattern ty value mutable =>
    cases value with
    | none =>
      exact .bind (.notes (lowerOr_notes _ fresh_notes _)) (.plain (bindLet_plain _ _ _ _ _))
    | some e =>
      rw [checkStmt]
      refine .bind (forall_mem_optionCall hcalls) ?_
      cases ty with
      | none => exact .plain (bindLet_plain _ _ _ _ _)
      | some ty =>
        exact .bind (.notes (lower_notes _ _)) (.bind (.notes (constrain_notes _ _ _ _))
          (.plain (bindLet_plain _ _ _ _ _)))
  | assign span target value =>
    obtain ⟨htarget, hvalue⟩ := forall_mem_pair_iff.mp hcalls
    exact .bind htarget (.bind hvalue (.bind (.notes (constrain_notes _ _ _ _)) (.pure _)))
  | expr e =>
    have he := List.forall_mem_singleton.mp hcalls
    exact .bind he (.pure _)
  | ret span value =>
    cases value with
    | none => exact .bind (.pure _) (.bind (.notes (checkReturn_notes _ _ _)) (.pure _))
    | some e =>
      exact .bind (forall_mem_optionCall hcalls)
        (.bind (.notes (checkReturn_notes _ _ _)) (.pure _))
  | brk span value =>
    cases value with
    | none => exact .bind (.pure _) (.bind (.notes (checkBreak_notes _ _ _ _)) (.pure _))
    | some e =>
      exact .bind (forall_mem_optionCall hcalls)
        (.bind (.notes (checkBreak_notes _ _ _ _)) (.pure _))
  | cont span =>
    rw [checkStmt]
    split
    · exact .bind (.notes (report_notes _ _ rfl rfl)) (.pure _)
    · exact .pure _

theorem itemCalls_tracing (i : Interface) (targets : List ImplTarget) (l : List Item)
    (hcalls : ∀ x ∈ itemCalls cx i s targets l, Traced P x) :
    Tracing P (checkBodies cx i targets l) s := by
  cases l with
  | nil => exact .pure _
  | cons item r =>
    cases item with
    | function d =>
      obtain ⟨hfunction, hrest⟩ := forall_mem_pair_iff.mp hcalls
      exact .bind hfunction hrest
    | const d =>
      simp only [itemCalls] at hcalls
      rw [checkBodies]
      cases hconst : i.consts.get? d.name.node with
      | none =>
        rw [hconst] at hcalls
        obtain ⟨hvalue, hrest⟩ := forall_mem_pair_iff.mp hcalls
        exact .bind hvalue hrest
      | some declared =>
        rw [hconst] at hcalls
        obtain ⟨hvalue, hrest⟩ := forall_mem_pair_iff.mp hcalls
        exact .bind hvalue (.bind (.notes (constrain_notes _ _ _ _)) hrest)
    | impl b =>
      cases targets with
      | nil =>
        have hrest := List.forall_mem_singleton.mp hcalls
        exact hrest
      | cons target rest =>
        obtain ⟨hmethods, hrest⟩ := forall_mem_pair_iff.mp hcalls
        exact .bind hmethods hrest
    | trait d =>
      obtain ⟨hmethods, hrest⟩ := forall_mem_pair_iff.mp hcalls
      exact .bind hmethods hrest
    | struct _ =>
      have hrest := List.forall_mem_singleton.mp hcalls
      exact hrest
    | enum _ =>
      have hrest := List.forall_mem_singleton.mp hcalls
      exact hrest
    | typeAlias _ =>
      have hrest := List.forall_mem_singleton.mp hcalls
      exact hrest
    | imports _ =>
      have hrest := List.forall_mem_singleton.mp hcalls
      exact hrest

end Calls

namespace Task

variable {P : Event → Prop}

/-- A task does what the tasks it runs do, and what is its own. -/
theorem traced_of_calls (t : Task) (s : Session) (hcalls : ∀ x ∈ t.calls s, Traced P x)
    (hown : ∀ e ∈ t.emitted s, P e) : Traced P (t, s) := by
  cases t with
  | expr cx e =>
    obtain ⟨id, span, kind⟩ := e
    exact Tracing.bind (ExprKind.tracing cx s span kind hcalls hown)
      (.bind (.plain (record_plain id _)) (.pure _))
  | arms cx t result l => exact armCalls_tracing cx s t result l hcalls
  | stmt cx st => exact Stmt.tracing cx s st hcalls
  | items cx i targets l => exact itemCalls_tracing cx s i targets l hcalls
  | exprs cx l =>
    cases l with
    | nil => exact Tracing.pure _
    | cons e r =>
      obtain ⟨he, hr⟩ := forall_mem_pair_iff.mp hcalls
      exact Tracing.bind he (.bind hr (.pure _))
  | elems cx elem origin l =>
    cases l with
    | nil => exact Tracing.pure _
    | cons e r =>
      obtain ⟨he, hr⟩ := forall_mem_pair_iff.mp hcalls
      exact Tracing.bind he (.bind (.notes (constrain_notes _ _ _ _)) hr)
  | values cx l =>
    cases l with
    | nil => exact Tracing.pure _
    | cons init r =>
      obtain ⟨span, name, value⟩ := init
      obtain ⟨hvalue, hr⟩ := forall_mem_pair_iff.mp hcalls
      exact Tracing.bind hvalue hr
  | inits cx d struct seen l =>
    cases l with
    | nil => exact Tracing.pure _
    | cons init r =>
      obtain ⟨span, name, value⟩ := init
      obtain ⟨hvalue, hr⟩ := forall_mem_pair_iff.mp hcalls
      change Tracing P (checkInits cx d struct seen (⟨span, name, value⟩ :: r)) s
      rw [checkInits]
      refine .bind hvalue ?_
      by_cases hseen : seen.contains name.node = true
      · rw [if_pos hseen] at hr
        rw [if_pos hseen]
        exact .bind (.notes (report_notes _ _ rfl rfl)) hr
      · rw [if_neg hseen] at hr
        rw [if_neg hseen]
        exact .bind (.notes (checkInit_notes _ _ _ _ _ _)) hr
  | block cx b =>
    obtain ⟨span, l, tail⟩ := b
    obtain ⟨hstmts, htail⟩ := List.forall_mem_cons.mp hcalls
    change Tracing P (inferBlock cx ⟨span, l, tail⟩) s
    rw [inferBlock]
    refine .bind hstmts ?_
    cases tail with
    | none =>
      dsimp only
      split
      · exact .notes fresh_notes
      · exact .pure _
    | some e => exact forall_mem_optionCall htail
  | stmts cx l =>
    cases l with
    | nil => exact Tracing.pure _
    | cons st r =>
      obtain ⟨hst, hr⟩ := forall_mem_pair_iff.mp hcalls
      exact Tracing.bind hst hr
  | contracts cx ret l =>
    cases l with
    | nil => exact Tracing.pure _
    | cons c r =>
      obtain ⟨hc, hr⟩ := forall_mem_pair_iff.mp hcalls
      exact Tracing.bind (.bind hc (.notes (constrain_notes _ _ _ _))) hr
  | function cx i d name =>
    change Tracing P (checkFunction cx i d name) s
    simp only [calls] at hcalls
    unfold checkFunction
    cases hbody : d.body with
    | none => exact .pure _
    | some body =>
      cases hsig : i.signatures.get? name with
      | none => exact .pure _
      | some sig =>
        rw [hbody, hsig] at hcalls
        obtain ⟨hcontracts, hblock⟩ := forall_mem_pair_iff.mp hcalls
        exact .bind hcontracts (.bind hblock (.bind (.notes (constrain_notes _ _ _ _))
          (.plain (recordGenerics_plain _ _ _))))
  | methods cx i typeName l =>
    cases l with
    | nil => exact Tracing.pure _
    | cons m r =>
      obtain ⟨hm, hr⟩ := forall_mem_pair_iff.mp hcalls
      exact Tracing.bind hm hr

/-- What is not plain is some task's own. By induction on the size of the syntax. -/
theorem traced (t : Task) (s : Session) :
    Traced (fun e => ∃ x, Reaches (t, s) x ∧ e ∈ x.1.emitted x.2) (t, s) := by
  induction hn : t.size using Nat.strongRecOn generalizing t s with
  | ind n ih =>
    refine t.traced_of_calls s (fun x hx => ?_) fun e he => ⟨(t, s), .refl, he⟩
    refine (ih _ (hn ▸ t.calls_size s x hx) x.1 x.2 rfl).mono fun e => Or.imp_right ?_
    rintro ⟨y, hy, he⟩
    exact ⟨y, .head hx hy, he⟩

theorem growing (t : Task) (s : Session) : Grows s (t.after s) := (t.traced s).grows

end Task

theorem Grows.mem_sites {s t : Session} (h : Grows s t) {x : EffectSite}
    (hx : x ∈ s.sites.toList) : x ∈ t.sites.toList := by
  obtain ⟨l, hl⟩ := h.sites
  rw [hl]
  exact List.mem_append_left l hx

theorem checkCall_site {cx : Context} {f : Frame} (hf : f ∈ cx.frames.head?) {name : Option String}
    {callee : Ty} {args : List Ty} (hcount : miscounted name callee args = false) (span : Span)
    (s : Session) :
    f.site callee span ∈ (after (checkCall cx name callee args span) s).sites.toList := by
  have hcall : f.site callee span ∈ (after (callType cx callee args span) s).sites.toList := by
    have hrecord : recordSite cx callee span = modify fun s : Session =>
        { s with sites := s.sites.push (f.site callee span) } := by
      unfold recordSite
      rw [Option.mem_def.mp hf]
      rfl
    unfold callType
    rw [hrecord]
    exact Array.mem_toList_iff.mpr Array.mem_push_self
  unfold checkCall
  split
  · split
    · rename_i hwrong
      simp [miscounted, hwrong] at hcount
    · exact hcall
  · exact hcall

/-- What is an expression's own is there after it. -/
theorem Task.emitted_after (t : Task) (s : Session) :
    (∀ d, Event.defer d ∈ t.emitted s → d ∈ (t.after s).deferred.toList) ∧
      ∀ x, Event.site x ∈ t.emitted s → x ∈ (t.after s).sites.toList := by
  cases t with
  | expr cx e =>
    obtain ⟨id, span, kind⟩ := e
    cases kind with
    | call callee args =>
      simp only [emitted, ExprKind.emitted]
      split
      · simp
      · rename_i hcount
        refine ⟨by simp, fun x hx => ?_⟩
        obtain ⟨f, hf, heq⟩ := List.mem_map.mp hx
        cases heq
        exact checkCall_site (by simpa using hf) (Bool.eq_false_iff.mpr hcount) span _
    | methodCall receiver method args =>
      refine ⟨fun d hd => ?_, fun x hx => nomatch List.mem_singleton.mp hx⟩
      cases List.mem_singleton.mp hd
      exact Array.mem_toList_iff.mpr Array.mem_push_self
    | field base name =>
      refine ⟨fun d hd => ?_, fun x hx => nomatch List.mem_singleton.mp hx⟩
      cases List.mem_singleton.mp hd
      exact Array.mem_toList_iff.mpr Array.mem_push_self
    | forLoop pattern iterable body =>
      refine ⟨fun d hd => ?_, fun x hx => nomatch List.mem_singleton.mp hx⟩
      cases List.mem_singleton.mp hd
      -- The pattern and the body are still to come.
      let t := (inferExpr cx iterable).run s
      let elem := fresh.run t.2
      let deferred := Sema.after (defer (.iter t.1 elem.1 iterable.span)) elem.2
      let bound := (checkPattern cx.pushScope pattern elem.1).run deferred
      let inside := Task.block ((cx.pushScope.bindAll bound.1).enterLoop none) body
      have hhere : Deferred.iter t.1 elem.1 iterable.span ∈ deferred.deferred.toList :=
        Array.mem_toList_iff.mpr Array.mem_push_self
      have hpattern : Grows deferred bound.2 := (checkPattern_notes _ _ _).growing deferred
      have hbody : Reaches (.expr cx ⟨id, span, .forLoop pattern iterable body⟩, s)
          (inside, bound.2) := .single (List.mem_cons_of_mem _ (List.mem_singleton_self _))
      exact ((hpattern.trans (inside.growing _)).trans hbody.grows.2).mem_deferred hhere
    | _ => simp [emitted, ExprKind.emitted]
  | _ => simp [emitted]

/-- What a task inside does of its own is there after the task around it. -/
theorem Reaches.emitted_after {a x : Task × Session} (h : Reaches a x) :
    (∀ d, Event.defer d ∈ x.1.emitted x.2 → d ∈ (a.1.after a.2).deferred.toList) ∧
      ∀ y, Event.site y ∈ x.1.emitted x.2 → y ∈ (a.1.after a.2).sites.toList := by
  obtain ⟨hdefer, hsite⟩ := x.1.emitted_after x.2
  exact ⟨fun d hd => h.grows.2.mem_deferred (hdefer d hd),
    fun y hy => h.grows.2.mem_sites (hsite y hy)⟩

namespace Leads

variable {K : Event → Prop} {s t : Session}

/-- What is new in a part of the session has been put there by an event. -/
theorem mem_part {α : Type} (part : Session → List α) {made : α → Event}
    (hpart : ∀ e s a, a ∈ part (e.apply s) → a ∈ part s ∨ e = made a) (h : Leads K s t) {a : α}
    (ha : a ∈ part t) : a ∈ part s ∨ K (made a) := by
  refine h.induct (R := fun s t => ∀ a ∈ part t, a ∈ part s ∨ K (made a)) (fun _ _ => .inl)
    (fun s t u hst htu a ha => ?_) (fun e s he a ha => ?_) a ha
  · rcases htu a ha with ha | ha
    · exact hst a ha
    · exact .inr ha
  · rcases hpart e s a ha with ha | rfl
    · exact .inl ha
    · exact .inr he

theorem mem_deferred (h : Leads K s t) {d : Deferred} (hd : d ∈ t.deferred.toList) :
    d ∈ s.deferred.toList ∨ K (.defer d) := by
  refine h.mem_part (fun s => s.deferred.toList) (fun e s a ha => ?_) hd
  cases e with
  | defer d => simpa [Event.apply, eq_comm] using ha
  | _ => exact .inl ha

theorem mem_sites (h : Leads K s t) {x : EffectSite} (hx : x ∈ t.sites.toList) :
    x ∈ s.sites.toList ∨ K (.site x) := by
  refine h.mem_part (fun s => s.sites.toList) (fun e s a ha => ?_) hx
  cases e with
  | site x => simpa [Event.apply, eq_comm] using ha
  | _ => exact .inl ha

theorem mem_faults (h : Leads K s t) {f : Spanned TypeFault} (hf : f ∈ t.faults.toList) :
    f ∈ s.faults.toList ∨ K (.report f) := by
  refine h.mem_part (fun s => s.faults.toList) (fun e s a ha => ?_) hf
  cases e with
  | report f => simpa [Event.apply, eq_comm] using ha
  | _ => exact .inl ha

end Leads

section Program

variable (catalog : Catalog) (checkEffects : Bool) (p : Program)

theorem Program.emits_of_reaches {x : Task × Session}
    (hx : Reaches (p.walk catalog checkEffects) x) {event : Event}
    (hevent : event ∈ x.1.emitted x.2) :
    ∃ e ∈ p.checked, e.Emits (p.walk catalog checkEffects) event := by
  obtain ⟨task, s⟩ := x
  cases task with
  | expr cx e => exact ⟨e, p.checked_of_reaches catalog checkEffects hx, cx, s, hx, hevent⟩
  | _ => cases hevent

theorem Program.present_notes : Leads Event.IsNote {} (p.present catalog).2 := by
  have hdecls : Notes (p.items.foldlM declareItem ({}, catalog.env)) :=
    .foldlM declareItem_notes _ _
  have hitems : ∀ i, Notes (p.items.foldlM (interfaceItem (p.scope catalog)) i) :=
    fun i => .foldlM (interfaceItem_notes _) _ i
  exact (hdecls.leads {}).trans ((hitems _).leads _)

/-- All that has happened when the bodies have been visited. -/
theorem Program.traced_visited :
    Leads (fun e => e.IsPlain ∨
      ∃ x, Reaches (p.walk catalog checkEffects) x ∧ e ∈ x.1.emitted x.2) {}
      (p.visited catalog checkEffects) := by
  have hpresent := (p.present_notes catalog).mono fun _ he => he.isPlain
  exact (hpresent.mono fun _ => .inl).trans (Task.traced _ _)

/-- The accesses left open by the bodies are those of the expressions that are checked. -/
theorem Program.mem_deferred_visited {d : Deferred} :
    d ∈ (p.visited catalog checkEffects).deferred.toList ↔
      ∃ e ∈ p.checked, e.Emits (p.walk catalog checkEffects) (.defer d) := by
  constructor
  · intro hd
    rcases (p.traced_visited catalog checkEffects).mem_deferred hd with hd | hd | ⟨x, hx, hd⟩
    · cases hd
    · cases hd
    · exact p.emits_of_reaches catalog checkEffects hx hd
  · rintro ⟨e, -, cx, s, hx, hd⟩
    exact hx.emitted_after.1 d hd

/-- The calls on record after the bodies are those of the expressions that are checked. -/
theorem Program.mem_sites_visited {y : EffectSite} :
    y ∈ (p.visited catalog checkEffects).sites.toList ↔
      ∃ e ∈ p.checked, e.Emits (p.walk catalog checkEffects) (.site y) := by
  constructor
  · intro hy
    rcases (p.traced_visited catalog checkEffects).mem_sites hy with hy | hy | ⟨x, hx, hy⟩
    · cases hy
    · cases hy
    · exact p.emits_of_reaches catalog checkEffects hx hy
  · rintro ⟨e, -, cx, s, hx, hy⟩
    exact hx.emitted_after.2 y hy

end Program

end Sema
