import Sema.Proofs.Typing.Ambiguity
import Sema.Syntax.Build

/-!
# What is pushed to an array

The elements of an array literal share one type. A name that a `let` binds to the literal stands
at each use for an instance of its scheme, and `push` takes a value of the element type of that
instance. So where the `let` quantifies nothing, as one of a mutable name never does, everything
that is pushed has the type of the elements; where it quantifies, two calls may be about two
instances.
-/

namespace Sema

section Calls

variable (v : Valuation) {sc : TypeScope} {methods : Methods} {s t : Session}

/-- The type of a call as seen from the arguments. -/
def MemberCall.asFn (call : MemberCall) (receiver : Ty) : Ty :=
  .fn (receiver :: call.args) call.ret .openRow

theorem callMethod_infers (receiver signature : Ty) (call : MemberCall) :
    Infers v [] (callMethod receiver signature call) fun _ =>
      (v.value signature).compatible (v.value (call.asFn receiver)) = true := by
  unfold callMethod
  refine (Infers.bind (R := fun _ _ => True) (Infers.constrain _ _ _ _) fun _ => ?_).mono rfl ?_
  · exact Infers.quiet <| by
      split
      · rename_i f _
        exact .event (e := .site ⟨signature, f.name, f.effects, call.span⟩) trivial fun _ _ => rfl
      · exact .pure _
  · rintro _ ⟨_, h, _⟩
    exact h

theorem instantiate_infers (scheme : Scheme) :
    Infers v [] (instantiate scheme) fun t => ∃ g : Nat → Ty,
      (∀ w, w ∉ scheme.vars → g w = v.vars w) ∧ v.value t = scheme.body.replace g where
  grows := (Infers.quiet (v := v) (instantiate_notes scheme).quiet).grows
  records := (Infers.quiet (v := v) (instantiate_notes scheme).quiet).records
  consistent _ _ e he := by simp at he
  result r _ := by
    refine ⟨fun w => (Scheme.fresh scheme.vars r.nextVar w).replace v.vars, fun w hw => ?_,
      Ty.replace_replace _ _ _⟩
    simp only [Scheme.fresh_of_not_mem r.nextVar hw, Ty.replace]

/-- A method of a known type is called as an instance of its signature says. -/
theorem resolveMethod_infers {receiver : Ty} {n : String} (hn : receiver.nominalName? = some n)
    {call : MemberCall} {scheme : Scheme}
    (hscheme : methods.find? n call.method = some scheme) :
    Infers v [] (resolveMethod methods receiver call) fun _ => ∃ g : Nat → Ty,
      (∀ w, w ∉ scheme.vars → g w = v.vars w) ∧
        (scheme.body.replace g).compatible (v.value (call.asFn receiver)) = true := by
  rw [resolveMethod]
  simp only [hn, hscheme]
  refine (Infers.bind (R := fun signature _ =>
    (v.value signature).compatible (v.value (call.asFn receiver)) = true)
    (instantiate_infers v scheme) fun signature => ?_).mono rfl ?_
  · split
    · split
      · refine ((Infers.report _ _).bind fun _ => Infers.constrain _ _ _ _).mono rfl ?_
        rintro _ ⟨_, h, _⟩
        exact h.elim
      · exact callMethod_infers v _ _ _
    · exact callMethod_infers v _ _ _
  · rintro _ ⟨signature, ⟨g, hg, hsignature⟩, h⟩
    exact ⟨g, hg, hsignature ▸ h⟩

/-- A method call waits for its receiver. -/
theorem inferExpr_methodCall_run {cx : Context} {receiver : Expr} {args : List Expr}
    {r : Session} {b x : Ty × Session} {types : List Ty × Session}
    (hb : (inferExpr cx receiver).run r = b) (hargs : (inferAll cx args).run b.2 = types)
    (hx : fresh.run types.2 = x) (id : ExprId) (span : Span) (method : Ident) :
    (inferExpr cx ⟨id, span, .methodCall receiver method args⟩).run r =
      (x.1, (Event.record id x.1).apply ((Event.defer
        (.method ⟨b.1, method.node, types.1, x.1, cx.frames.head?, span⟩)).apply x.2)) := by
  subst hb hargs hx
  rw [inferExpr, inferKind]
  rfl

variable {v}

/-- Once everything is solved, a method call fits an instance of the signature of the method. -/
theorem Concludes.call (h : Concludes v sc methods s t)
    (hresolves : ∀ c, Deferred.method c ∈ s.deferred.toList →
      (Deferred.method c).Resolved sc methods t)
    {cx : Context} {call receiver : Expr} {method : Ident} {args : List Expr} {r : Session}
    (hkind : call.kind = .methodCall receiver method args)
    (hr : Grows (after (inferExpr cx call) r) s) {n : String} {l : List Ty}
    (hreceiver : v.value ((inferExpr cx receiver).run r).1 = .nominal n l) {scheme : Scheme}
    (hscheme : methods.find? n method.node = some scheme) :
    ∃ (g : Nat → Ty) (types : List Ty) (ret : Ty), (∀ w, w ∉ scheme.vars → g w = v.vars w) ∧
      args.map (fun e => v.typing e.id) = types.map some ∧
      (scheme.body.replace g).compatible (.fn (.nominal n l :: types) ret .openRow) = true := by
  obtain ⟨id, span, kind⟩ := call
  subst hkind
  obtain ⟨b, hb⟩ : ∃ b, (inferExpr cx receiver).run r = b := ⟨_, rfl⟩
  obtain ⟨types, htypes⟩ : ∃ types, (inferAll cx args).run b.2 = types := ⟨_, rfl⟩
  obtain ⟨x, hx⟩ : ∃ x, fresh.run types.2 = x := ⟨_, rfl⟩
  rw [after, inferExpr_methodCall_run hb htypes hx] at hr
  rw [hb] at hreceiver
  have hmem : Deferred.method ⟨b.1, method.node, types.1, x.1, cx.frames.head?, span⟩ ∈
      s.deferred.toList := hr.mem_deferred (by simp [Event.apply])
  obtain ⟨q, hq, hknown, hqt⟩ := hresolves _ hmem
  rw [Deferred.receiver] at hknown hqt
  have hgrows := ((resolveMember_quiet sc methods (q.solver.apply b.1) _).growing q).trans hqt
  have hsame : (q.solver.apply b.1).replace v.vars = .nominal n l := by
    rw [h.vars, hgrows.replace_apply hq.solving h.solved, ← h.vars]
    exact hreceiver
  obtain ⟨inst, hinst, -⟩ := Ty.nominal_of_replace_eq hknown hsame
  have hname : (q.solver.apply b.1).nominalName? = some n := by
    rw [hinst, Ty.nominalName?_nominal]
  obtain ⟨g, hg, hcompatible⟩ := (resolveMethod_infers v hname hscheme).result q
    (h.satisfies.of_grows hqt)
  have hbefore : Grows types.2 s := by
    have hfresh := fresh_notes.growing types.2
    rw [after, hx] at hfresh
    exact ((hfresh.trans ((Event.defer _).grows _)).trans ((Event.record _ _).grows _)).trans hr
  have hargs := (inferAll_infers v cx args).result b.2
    (by rw [htypes]; exact h.satisfies.of_grows (hbefore.trans h.grows))
  rw [htypes] at hargs
  refine ⟨g, types.1.map v.value, v.value x.1, hg, hargs, ?_⟩
  rw [MemberCall.asFn, Valuation.value, Ty.replace, Ty.replaceAll, hsame,
    Ty.replaceAll_eq_map] at hcompatible
  exact hcompatible

end Calls

section Elements

variable {v : Valuation} {sc : TypeScope} {methods : Methods} {s t : Session}

/-- The elements of an array literal fit one type, that of what the array is inferred to hold. -/
theorem array_elements (v : Valuation) (cx : Context) (span : Span) (elems : List Expr) :
    Infers v (ExprKind.array elems).nodes (inferKind cx span (.array elems)) fun t =>
      ∃ elem, t = .array elem ∧ ∀ e ∈ elems, e.Fits v.typing (v.value elem) := by
  rw [inferKind, ExprKind.nodes]
  refine ((Infers.quiet fresh_notes.quiet).bind fun _ =>
    (inferElems_infers v cx _ _ elems).bind fun _ => Infers.pure _).mono (by simp) ?_
  rintro t ⟨elem, _, _, helems, rfl⟩
  exact ⟨elem, rfl, helems⟩

theorem Concludes.elements (h : Concludes v sc methods s t) {cx : Context} {lit : Expr}
    {elems : List Expr} (hlit : lit.kind = .array elems) {r : Session}
    (hr : Grows (after (inferExpr cx lit) r) s) :
    ∃ elem, ((inferExpr cx lit).run r).1 = .array elem ∧
      ∀ e ∈ elems, e.Fits v.typing (v.value elem) := by
  obtain ⟨id, span, kind⟩ := lit
  subst hlit
  rw [after, inferExpr_run] at hr
  rw [inferExpr_run]
  exact (array_elements v cx span elems).result r
    (h.satisfies.of_grows (((Event.record _ _).grows _).trans (hr.trans h.grows)))

/-- The scheme of a method that puts a value of the element type into an array. -/
def Scheme.IsPush (s : Scheme) : Prop :=
  ∃ w ret effects, s = ⟨[w], .fn [.array (.var w), .var w] ret effects⟩

/-- A call that fits an instance of such a scheme has one argument, of the element type. -/
theorem Scheme.IsPush.argument {scheme : Scheme} (hpush : scheme.IsPush) {g : Nat → Ty} {c ret : Ty}
    {types : List Ty} {effects : EffectRow}
    (h : (scheme.body.replace g).compatible (.fn (.array c :: types) ret effects) = true) :
    ∃ b, types = [b] ∧ b.bare = c.bare := by
  obtain ⟨w, _, _, rfl⟩ := hpush
  obtain ⟨_, _, _, hfn, hparams, -⟩ := Ty.fn_of_compatible h
  cases hfn
  obtain ⟨a, r, hcons, harray, hrest⟩ := Ty.cons_of_compatibleAll hparams
  cases hcons
  obtain ⟨b, _, rfl, hvalue, hnil⟩ := Ty.cons_of_compatibleAll hrest
  rw [Ty.nil_of_compatibleAll hnil]
  obtain ⟨_, helem, hcompatible⟩ := Ty.array_of_compatible harray
  cases helem
  refine ⟨b, rfl, ?_⟩
  rw [← Ty.bare_eq_of_compatible _ _ hvalue, Ty.bare_eq_of_compatible _ _ hcompatible]

theorem Ty.bare_array (t : Ty) : (Ty.array t).bare = .array t.bare := rfl

end Elements

section Pushes

variable {cx : Context} {x : String}

/-- A mutable name is bound to its type as it is. -/
theorem bindLet_mutable_scheme (hx : cx.valueConstructor? x = none) (span : Span)
    {m mutable : Bool} (hm : mutable = true ∨ m = true) (byRef : Bool) (t : Ty) (r : Session)
    {scheme : Scheme}
    (h : ((bindLet cx (.ident span x m byRef) t true mutable).run r).1.lookup x = some scheme) :
    scheme.vars = [] := by
  have hnone : cx.generalizes? (.ident span x m byRef) true mutable = none := by
    rcases hm with rfl | rfl <;> simp [Context.generalizes?]
  rw [bindLet, hnone, checkPattern] at h
  simp only [hx] at h
  have hbound : (cx.env.bind x (.mono t)).lookup x = some scheme := h
  rw [Env.lookup_bind, if_pos rfl] at hbound
  rw [← Option.some.inj hbound]
  rfl

theorem LetBound.vars_mutable {walk : Task × Session} {lit : Expr} {scheme : Scheme}
    (l : LetBound walk cx lit x scheme) (hm : l.mutable = true ∨ l.patternMutable = true) :
    scheme.vars = [] := by
  obtain ⟨t, r, hrun, -⟩ := checkStmt_letBind_run cx l.span
    (.ident l.patternSpan x l.patternMutable l.byRef) l.ty lit l.mutable l.session
  have hlookup := l.lookup_eq
  rw [hrun] at hlookup
  exact bindLet_mutable_scheme l.not_constructor l.patternSpan hm l.byRef t r hlookup

/-- On the walk, a call of `push` on the name, where the name stands for the scheme. -/
structure PushCall (walk : Task × Session) (x : String) (scheme : Scheme) where
  cx : Context
  session : Session
  call : Expr
  receiver : Expr
  method : Ident
  args : List Expr
  reaches : Reaches walk (.expr cx call, session)
  kind_eq : call.kind = .methodCall receiver method args
  method_eq : method.node = "push"
  receiver_eq : receiver.kind = .ident x
  lookup_eq : cx.env.lookup x = some scheme

end Pushes

section Program

variable {catalog : Catalog} {checkEffects : Bool} {p : Program}

/-- An accepted program has resolved its method calls. -/
theorem Program.resolves_method (hok : (checkProgram catalog checkEffects p).ok = true)
    {call : MemberCall}
    (hmem : Deferred.method call ∈ (p.visited catalog checkEffects).deferred.toList) :
    (Deferred.method call).Resolved (p.scope catalog) (p.present catalog).1.methods
      (checkProgram catalog checkEffects p).session := by
  obtain ⟨hflag, hfaults⟩ : (checkProgram catalog checkEffects p).solved = true ∧
      (checkProgram catalog checkEffects p).session.faults = #[] := by
    simpa only [TypeCheck.ok, Bool.and_eq_true, Array.isEmpty_iff] using hok
  have hrun := finish_visited catalog checkEffects p
  have hsettled := finish_accesses (p.scope catalog) (p.present catalog).1.methods checkEffects
    (p.solving_visited catalog checkEffects) (by rw [hrun, hflag]) hmem
  rw [hrun] at hsettled
  exact hsettled.resolve_right fun hambiguous => hambiguous.faults_method hfaults

end Program

/-- In an accepted program whose expressions have distinct identities, let a `let` bind a name to
an array literal. The elements of the literal have one type, whatever their effect rows. If
`push` is what its name says, every call of it on the name has one argument, and the name has an
instance of its scheme there, an array of which the argument has the element type; the instance
differs from what the literal has only at variables that the `let` quantifies. So if it quantifies
none, as is the case for a mutable name, all that is pushed has the type of the elements. Every
expression that is checked is reached. -/
theorem arrays_take_element_type (catalog : Catalog) (checkEffects : Bool) (p : Program)
    (hids : (p.nodes.map (·.id)).Nodup) (hok : (checkProgram catalog checkEffects p).ok = true) :
    let walk := p.walk catalog checkEffects
    let types := (checkProgram catalog checkEffects p).types
    let σ := (checkProgram catalog checkEffects p).subst
    (∀ e ∈ p.checked, ∃ cx s, Reaches walk (.expr cx e, s)) ∧
    ∀ cx lit elems x scheme (l : LetBound walk cx lit x scheme), lit.kind = .array elems →
      (l.mutable = true ∨ l.patternMutable = true → scheme.vars = []) ∧
      ∃ elem : Ty,
        (∀ e ∈ elems, ∃ a, types.get? e.id = some a ∧ a.bare = (σ.apply elem).bare) ∧
        ∀ push, (p.present catalog).1.methods.find? Ty.arrayName "push" = some push →
          push.IsPush → ∀ c : PushCall walk x scheme,
            ∃ value b g, c.args = [value] ∧ types.get? value.id = some b ∧
              types.get? c.receiver.id = some (scheme.body.replace g) ∧
              (∀ w, w ∉ scheme.vars → g w = σ.assignment w) ∧
              (scheme.body.replace g).bare = (Ty.array (elem.replace g)).bare ∧
              b.bare = (elem.replace g).bare ∧
              (scheme.vars = [] → b.bare = (σ.apply elem).bare) := by
  intro walk types σ
  have h := p.concludes hids hok
  refine ⟨fun e he => p.reaches_checked catalog checkEffects he, ?_⟩
  intro cx lit elems x scheme l hlit
  have hreach : Reaches walk (.expr cx lit, l.session) :=
    l.reaches.tail (List.mem_singleton_self _)
  obtain ⟨raw, hraw, hfits⟩ := h.elements hlit (p.grows_visited hreach)
  obtain ⟨f, hf, hinstance⟩ := h.letBind l.not_constructor
    (l.reaches.grows.1.solving p.solving_present) (p.grows_visited l.reaches) l.lookup_eq
  refine ⟨l.vars_mutable, raw.replace f, fun e he => ?_, fun push hfind hpush c => ?_⟩
  · obtain ⟨a, ha, hcompatible⟩ := hfits e he
    rw [TypeCheck.typing_valuation] at ha
    refine ⟨a, ha, ?_⟩
    rw [Subst.apply_eq_replace, Ty.replace_replace, ← Ty.bare_eq_of_compatible _ _ hcompatible]
    exact congrArg (fun θ => (raw.replace θ).bare) (funext fun w => (hf w).symm)
  · obtain ⟨g, hg, hvalue⟩ := inferExpr_ident_value
      (checkProgram catalog checkEffects p).valuation c.receiver_eq c.lookup_eq c.session
    have hbody := hinstance g hg
    rw [hraw, ← Ty.replace_replace] at hbody
    obtain ⟨inner, harray, hinner⟩ := Ty.array_of_compatible hbody
    have helem : inner.bare = ((raw.replace f).replace g).bare := by
      rw [← Ty.bare_eq_of_compatible _ _ hinner, Ty.replace_replace]
    have hreceiver : Reaches walk (.expr c.cx c.receiver, c.session) :=
      c.reaches.tail (c.call.receiver_mem_calls (by rw [c.kind_eq]; rfl) c.cx c.session)
    have htype := (inferExpr_infers _ c.cx c.receiver).result c.session
      (h.satisfies.of_grows ((p.grows_visited hreceiver).trans h.grows))
    rw [hvalue, TypeCheck.typing_valuation] at htype
    have hnominal : (checkProgram catalog checkEffects p).valuation.value
        ((inferExpr c.cx c.receiver).run c.session).1 = .nominal Ty.arrayName [inner] :=
      hvalue.trans harray
    obtain ⟨_, sent, _, -, hargs, hfn⟩ := h.call (fun _ hmem => p.resolves_method hok hmem)
      c.kind_eq (p.grows_visited c.reaches) hnominal (c.method_eq ▸ hfind)
    obtain ⟨b, rfl, hb⟩ := hpush.argument hfn
    obtain ⟨value, hvalues, htyped⟩ := List.map_eq_singleton_iff.mp hargs
    rw [TypeCheck.typing_valuation] at htyped
    refine ⟨value, b, g, hvalues, htyped, htype, hg, ?_, hb.trans helem, fun hnone => ?_⟩
    · rw [harray, Ty.bare_array, Ty.bare_array, helem]
    · have hsame : g = σ.assignment := funext fun w => hg w (by simp [hnone])
      rw [hb, helem, hsame, Subst.apply_eq_replace]

namespace Pushes

open Build

/-- `[..]`. -/
def lit (elems : List Expr) : Expr := ⟨0, .dummy, .array elems⟩

/-- `let xs = [..];`. -/
def binding (elems : List Expr) (mutable : Bool) : Stmt :=
  .letBind .dummy (patIdent "xs") none (some (lit elems)) mutable

def receiver (id : ExprId) : Expr := ⟨id, .dummy, .ident "xs"⟩

/-- `xs.push(..)`. -/
def push (id : ExprId) (value : Expr) : Expr :=
  ⟨id, .dummy, .methodCall (receiver (id + 1)) (name "push") [value]⟩

def int (id : ExprId) (n : UInt64) : Expr := ⟨id, .dummy, .literal ⟨.int n, none⟩⟩

def bool (id : ExprId) (b : Bool) : Expr := ⟨id, .dummy, .literal ⟨.bool b, none⟩⟩

variable (elems : List Expr) (mutable : Bool) (a b : Expr)

def body : Block := block [binding elems mutable, .expr (push 1 a), .expr (push 3 b)] none

def function : FunctionDef := functionOf "f" [.effect .state, .body (body elems mutable a b)]

/-- An array that two values are pushed to. -/
def program : Program where
  items := [.function (function elems mutable a b)]

/-- The two calls are in the scope of the `let`. -/
theorem exists_pushes {walk : Task × Session} {cx : Context} {s : Session}
    (h : Reaches walk (.block cx (body elems mutable a b), s)) :
    ∃ scheme, ∃ l : LetBound walk cx.pushScope (lit elems) "xs" scheme,
      ∃ c d : PushCall walk "xs" scheme,
        l.mutable = mutable ∧ c.args = [a] ∧ d.args = [b] := by
  have hfirst := h.tail List.mem_cons_self
  have hsecond := hfirst.tail (List.mem_cons_of_mem _ (List.mem_singleton_self _))
  have hthird := hsecond.tail (List.mem_cons_of_mem _ (List.mem_singleton_self _))
  have hlet := hfirst.tail List.mem_cons_self
  have hone := (hsecond.tail List.mem_cons_self).tail (List.mem_singleton_self _)
  have htwo := (hthird.tail List.mem_cons_self).tail (List.mem_singleton_self _)
  have hx : cx.pushScope.valueConstructor? "xs" = none := rfl
  obtain ⟨scheme, hscheme⟩ := checkStmt_letBind_lookup hx .dummy .dummy false false none (lit elems)
    mutable s
  exact ⟨scheme, ⟨_, .dummy, .dummy, false, false, none, mutable, hlet, hx, hscheme⟩,
    ⟨_, _, push 1 a, receiver 2, name "push", [a], hone, rfl, rfl, rfl, hscheme⟩,
    ⟨_, _, push 3 b, receiver 4, name "push", [b], htwo, rfl, rfl, rfl, hscheme⟩, rfl, rfl, rfl⟩

theorem reaches_body (catalog : Catalog)
    (hsome : (((program elems mutable a b).present catalog).1.signatures.get? "f").isSome = true) :
    ∃ cx s, Reaches ((program elems mutable a b).walk catalog true)
      (.block cx (body elems mutable a b), s) := by
  obtain ⟨sig, hsig⟩ := Option.isSome_iff_exists.mp hsome
  have hfunction : Reaches ((program elems mutable a b).walk catalog true)
      (.function ((program elems mutable a b).context catalog true)
        ((program elems mutable a b).present catalog).1 (function elems mutable a b) "f",
        ((program elems mutable a b).present catalog).2) :=
    Relation.ReflTransGen.refl.tail List.mem_cons_self
  refine ⟨bodyContext ((program elems mutable a b).context catalog true)
    (function elems mutable a b) "f" sig, ((program elems mutable a b).present catalog).2, ?_⟩
  refine hfunction.tail ?_
  have hbody : (function elems mutable a b).body = some (body elems mutable a b) := rfl
  simp only [Task.calls, hbody, hsig]
  exact List.mem_cons_of_mem _ (List.mem_singleton_self _)

theorem standard_push : ∃ push,
    ((program elems mutable a b).present .standard).1.methods.find? Ty.arrayName "push" =
      some push ∧ push.IsPush := by
  refine ⟨_, ?_, 0, .unit, .closed (.ofList [.state]), rfl⟩
  cbv

/-- `fn f() State { let mut xs = [1]; xs.push(2); xs.push(3); }`. -/
def numbers : Program := program [int 5 1] true (int 6 2) (int 7 3)

/-- `fn f() State { let xs = []; xs.push(1); xs.push(true); }`. -/
def mixed : Program := program [] false (int 5 1) (bool 6 true)

/-- An array of numbers with a `push` of its own: `impl [i32] { fn push(self: [i32], b: bool) {} }`
and `fn f() { let mut xs = [1]; xs.push(true); }`. The element is node 1, what is pushed node 4. -/
def redefined : Program :=
  .ofItems [impl (arrayType (type "i32")) none [functionOf "push"
      [.param "self" (some (arrayType (type "i32"))), .param "b" (some (type "bool")),
        .body (block [] none)]],
    .function (functionOf "f" [.body (block [binding [int 0 1] true,
      .expr (push 0 (bool 0 true))] none)])]

end Pushes

open Pushes in
theorem numbers_take_element_type :
    (numbers.nodes.map (·.id)).Nodup ∧ (checkProgram .standard true numbers).ok = true ∧
    ∃ cx scheme, ∃ l : LetBound (numbers.walk .standard true) cx (lit [int 5 1]) "xs" scheme,
      ∃ c d : PushCall (numbers.walk .standard true) "xs" scheme,
      l.mutable = true ∧ c.args = [int 6 2] ∧ d.args = [int 7 3] ∧
      ∃ t₁ t₂ t₃, (checkProgram .standard true numbers).types.get? 5 = some t₁ ∧
        (checkProgram .standard true numbers).types.get? 6 = some t₂ ∧
        (checkProgram .standard true numbers).types.get? 7 = some t₃ ∧
        t₁.bare = t₂.bare ∧ t₁.bare = t₃.bare := by
  have hids : (numbers.nodes.map (·.id)).Nodup := by
    have hlist : numbers.nodes.map (·.id) = [0, 5, 1, 2, 6, 3, 4, 7] := by cbv
    rw [hlist]
    decide
  have hok : (checkProgram .standard true numbers).ok = true := by cbv
  obtain ⟨cx, s, hreach⟩ := reaches_body [int 5 1] true (int 6 2) (int 7 3) .standard (by cbv)
  obtain ⟨scheme, l, c, d, hmutable, hc, hd⟩ := exists_pushes _ _ _ _ hreach
  obtain ⟨push, hfind, hpush⟩ := standard_push [int 5 1] true (int 6 2) (int 7 3)
  refine ⟨hids, hok, cx.pushScope, scheme, l, c, d, hmutable, hc, hd, ?_⟩
  obtain ⟨-, harrays⟩ := arrays_take_element_type .standard true numbers hids hok
  generalize checkProgram .standard true numbers = r at harrays ⊢
  obtain ⟨hvars, elem, helems, htaken⟩ := harrays _ _ _ _ scheme l rfl
  obtain ⟨t₁, ht₁, hsame₁⟩ := helems (int 5 1) (List.mem_singleton_self _)
  obtain ⟨v, t₂, -, hv, ht₂, -, -, -, -, hsame₂⟩ := htaken push hfind hpush c
  obtain ⟨w, t₃, -, hw, ht₃, -, -, -, -, hsame₃⟩ := htaken push hfind hpush d
  cases List.singleton_injective (hc.symm.trans hv)
  cases List.singleton_injective (hd.symm.trans hw)
  have hnone := hvars (.inl hmutable)
  exact ⟨t₁, t₂, t₃, ht₁, ht₂, ht₃, hsame₁.trans (hsame₂ hnone).symm,
    hsame₁.trans (hsame₃ hnone).symm⟩

open Pushes in
/-- The empty array is generalised, and each call is about an instance of its own. Nor does an
array take its element type if `push` has been declared to take another. -/
theorem mixed_takes_two_types :
    ((mixed.nodes.map (·.id)).Nodup ∧ (checkProgram .standard true mixed).ok = true ∧
      ∃ cx scheme, ∃ _ : LetBound (mixed.walk .standard true) cx (lit []) "xs" scheme,
        ∃ c d : PushCall (mixed.walk .standard true) "xs" scheme,
        c.args = [int 5 1] ∧ d.args = [bool 6 true] ∧
        (checkProgram .standard true mixed).types.get? 5 = some (.prim .i32) ∧
        (checkProgram .standard true mixed).types.get? 6 = some .bool) ∧
    ((redefined.nodes.map (·.id)).Nodup ∧ (checkProgram .standard true redefined).ok = true ∧
      (checkProgram .standard true redefined).types.get? 1 = some (.prim .i32) ∧
      (checkProgram .standard true redefined).types.get? 4 = some .bool) := by
  have hmixed : (fun c : TypeCheck => (c.ok, c.types.get? 5, c.types.get? 6))
      (checkProgram .standard true mixed) = (true, some (.prim .i32), some .bool) := by cbv
  have hredefined : (fun c : TypeCheck => (c.ok, c.types.get? 1, c.types.get? 4))
      (checkProgram .standard true redefined) = (true, some (.prim .i32), some .bool) := by cbv
  simp only [Prod.mk.injEq] at hmixed hredefined
  obtain ⟨cx, s, hreach⟩ := reaches_body [] false (int 5 1) (bool 6 true) .standard (by cbv)
  obtain ⟨scheme, l, c, d, -, hc, hd⟩ := exists_pushes _ _ _ _ hreach
  refine ⟨⟨?_, hmixed.1, _, scheme, l, c, d, hc, hd, hmixed.2⟩, ?_, hredefined⟩
  · have hlist : mixed.nodes.map (·.id) = [0, 1, 2, 5, 3, 4, 6] := by cbv
    rw [hlist]
    decide
  · have hlist : redefined.nodes.map (·.id) = [0, 1, 2, 3, 4] := by cbv
    rw [hlist]
    decide

end Sema
