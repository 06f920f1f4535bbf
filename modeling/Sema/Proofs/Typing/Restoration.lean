import Sema.Proofs.Typing.Work

/-!
# The context comes back

A type checker that has its context in the state ends every part of a program with the context that
it began with. So the work on a part is the same as to `stay` and do what inference does there: the
two are shown to be equal, along the forms of the syntax. Only patterns and statements change
something, the innermost scope; the work on them is to bind the names that inference gives for them.

Main statement: after an expression or a block, whatever has been reported, the context is just as
it was before, and what has been found is what inference gives in that context. After a pattern it
is so but for the names of the pattern, in the innermost scope.
-/

namespace Sema

open TypeChecker (stay go)

namespace Table

variable {κ α β : Type} [DecidableEq κ] [LT κ] [DecidableLT κ]

theorem map_place (f : α → β) (k : κ) (a : α) (l : List (κ × α)) :
    (place k a l).map (fun e => (e.1, f e.2)) = place k (f a) (l.map fun e => (e.1, f e.2)) := by
  induction l with
  | nil => rfl
  | cons e l ih =>
    by_cases heq : k = e.1
    · simp [place, heq]
    · by_cases hlt : k < e.1
      · simp [place, heq, hlt]
      · simp [place, heq, hlt, ih]

theorem map_insert (f : α → β) (t : Table κ α) (k : κ) (a : α) :
    (t.insert k a).map f = (t.map f).insert k (f a) := congrArg Table.mk (map_place f k a t.entries)

theorem map_insertAll (f : α → β) (t : Table κ α) (l : List (κ × α)) :
    (t.insertAll l).map f = (t.map f).insertAll (l.map fun e => (e.1, f e.2)) := by
  induction l generalizing t with
  | nil => rfl
  | cons e l ih =>
    calc ((t.insert e.1 e.2).insertAll l).map f
      _ = ((t.insert e.1 e.2).map f).insertAll (l.map fun e => (e.1, f e.2)) := ih _
      _ = ((t.map f).insert e.1 (f e.2)).insertAll (l.map fun e => (e.1, f e.2)) := by
        rw [map_insert]

theorem map_ofList (f : α → β) (l : List (κ × α)) :
    (ofList l).map f = ofList (l.map fun e => (e.1, f e.2)) := map_insertAll f .empty l

end Table

namespace Env

/-- The names of a list with the schemes that they are bound to. -/
def monos (l : List (String × Ty)) : List (String × Scheme) := l.map fun x => (x.1, .mono x.2)

theorem get?_monos (l : List (String × Ty)) (name : String) :
    (Table.ofList (monos l)).get? name = ((Table.ofList l).get? name).map .mono := by
  rw [monos, ← Table.map_ofList, Table.get?_map]

/-- The types come out of the schemes again. -/
theorem body_ofList_monos (l : List (String × Ty)) :
    (Table.ofList (monos l)).map (·.body) = Table.ofList l := by
  rw [Table.map_ofList, monos, List.map_map]
  exact congrArg Table.ofList (List.map_id l)

theorem bindAll_nil_inner (root : Scope) (l : List (String × Ty)) :
    Env.bindAll ⟨root, []⟩ l = ⟨root.insertAll (monos l), []⟩ := by
  induction l generalizing root with
  | nil => rfl
  | cons x l ih => exact ih (root.insert x.1 (.mono x.2))

theorem bindAll_cons_inner (root scope : Scope) (inner : List Scope) (l : List (String × Ty)) :
    Env.bindAll ⟨root, scope :: inner⟩ l = ⟨root, scope.insertAll (monos l) :: inner⟩ := by
  induction l generalizing scope with
  | nil => rfl
  | cons x l ih => exact ih (scope.insert x.1 (.mono x.2))

/-- The schemes that the innermost scope gives to names. -/
def top? (e : Env) (name : String) : Option Scheme := e.scopes.head?.bind (·.get? name)

/-- Binding names changes the innermost scope alone, and there these names alone. -/
theorem bindAll_frame (e : Env) (l : List (String × Ty)) :
    (e.bindAll l).scopes.tail = e.scopes.tail ∧
      ∀ name, (e.bindAll l).top? name =
        (((Table.ofList l).get? name).map .mono).or (e.top? name) := by
  obtain ⟨root, _ | ⟨scope, inner⟩⟩ := e
  · rw [bindAll_nil_inner]
    refine ⟨rfl, fun name => ?_⟩
    rw [← get?_monos]
    exact Table.get?_insertAll root (monos l) name
  · rw [bindAll_cons_inner]
    refine ⟨rfl, fun name => ?_⟩
    rw [← get?_monos]
    exact Table.get?_insertAll scope (monos l) name

/-- Names bound in a scope of their own are gone with it. -/
theorem pop?_bindAll_push (e : Env) (l : List (String × Ty)) :
    (e.push.bindAll l).pop? = some (.ofList (monos l), e) := by
  obtain ⟨root, inner⟩ := e
  rw [push, bindAll_cons_inner]
  rfl

/-- The environment around the innermost scope. -/
def outer? (e : Env) : Option Env := e.pop?.map (·.2)

theorem outer?_bind (e : Env) (name : String) (s : Scheme) :
    (e.bind name s).outer? = e.outer? := by
  obtain ⟨root, inner⟩ := e
  cases inner <;> rfl

theorem outer?_bindAll (e : Env) (l : List (String × Ty)) : (e.bindAll l).outer? = e.outer? := by
  induction l generalizing e with
  | nil => rfl
  | cons x l ih => exact (ih _).trans (e.outer?_bind _ _)

end Env

namespace Context

/-- Names bound in a scope of their own are gone with it. -/
theorem popScope_bindAll (cx : Context) (l : List (String × Ty)) :
    (cx.pushScope.bindAll l).popScope = cx := by
  have hpop := cx.env.pop?_bindAll_push l
  change popScope { cx with env := cx.env.push.bindAll l } = cx
  simp only [popScope, hpop]

/-- They are what the scope has. -/
theorem innermost_bindAll (cx : Context) (l : List (String × Ty)) :
    (cx.pushScope.bindAll l).innermost = .ofList (Env.monos l) := by
  have hpop := cx.env.pop?_bindAll_push l
  change innermost { cx with env := cx.env.push.bindAll l } = _
  simp only [innermost, hpop]
  rfl

end Context

namespace Work

section Laws

variable {α β : Type}

theorem stateM_bind_apply {σ : Type} (m : StateM σ α) (k : α → StateM σ β) (s : σ) :
    (m >>= k) s = k (m s).1 (m s).2 := rfl

theorem stay_apply (f : Place → Check α) (c : TypeChecker) :
    stay f c = ((f c.toPlace c.session).1, ⟨c.toPlace, (f c.toPlace c.session).2⟩) := rfl

theorem stay_bind_apply (f : Place → Check α) (k : α → StateM TypeChecker β) (c : TypeChecker) :
    (stay f >>= k) c = k (f c.toPlace c.session).1 ⟨c.toPlace, (f c.toPlace c.session).2⟩ := rfl

theorem exec_context_bind (k : Context → Work α) (c : TypeChecker) :
    (context >>= k).exec c = (k c.context).exec c := by
  rw [exec_bind]
  rfl

theorem exec_place_bind (k : Place → Work α) (c : TypeChecker) :
    (place >>= k).exec c = (k c.toPlace).exec c := by
  rw [exec_bind]
  rfl

end Laws

section Types

@[simp] theorem exec_fresh : fresh.exec = stay fun _ => Sema.fresh := by
  simp only [fresh, exec_bind, exec_freshVar, exec_pure]
  rfl

@[simp] theorem exec_freshMany (n : Nat) :
    (freshMany n).exec = stay fun _ => Sema.freshMany n := by
  induction n with
  | zero => rfl
  | succ n ih =>
    simp only [freshMany, exec_bind, exec_fresh, ih, exec_pure]
    rfl

@[simp] theorem exec_reportFresh (fault : TypeFault) (span : Span) :
    (reportFresh fault span).exec = stay fun _ => Sema.reportFresh fault span := by
  simp only [reportFresh, exec_bind, exec_lift, exec_fresh]
  rfl

@[simp] theorem exec_supply (generics : List GenericParam) (types : List Ty) :
    (supply generics types).exec = stay fun _ => Sema.supply generics types := by
  induction generics generalizing types with
  | nil => rfl
  | cons g r ih =>
    cases types with
    | nil =>
      simp only [supply, exec_bind, exec_fresh, ih, exec_pure]
      rfl
    | cons t ts =>
      simp only [supply, exec_bind, ih, exec_pure]
      rfl

@[simp] theorem exec_instantiateNominal (name : String) (generics : List GenericParam) :
    (instantiateNominal name generics).exec =
      stay fun _ => Sema.instantiateNominal name generics := by
  simp only [instantiateNominal, exec_bind, exec_supply, exec_pure]
  rfl

@[simp] theorem exec_applyNominal (name : String) (arity : Nat) (args : List Ty) (span : Span) :
    (applyNominal name arity args span).exec =
      stay fun _ => Sema.applyNominal name arity args span := by
  unfold applyNominal Sema.applyNominal
  by_cases harity : arity = 0
  · simp only [if_pos harity]
    cases args.isEmpty <;> rfl
  · simp only [if_neg harity]
    by_cases hargs : (!args.isEmpty && args.length != arity) = true
    · simp only [if_pos hargs, exec_bind, exec_lift, exec_freshMany, exec_pure]
      rfl
    · simp only [if_neg hargs, exec_bind, exec_freshMany, exec_pure]
      rfl

@[simp] theorem exec_lowerName (name : String) (args : List Ty) (span : Span) :
    (lowerName name args span).exec =
      stay fun w => Sema.lowerName w.context.scope name args span := by
  funext c
  rw [stay_apply]
  simp only [lowerName, Sema.lowerName, exec_context_bind]
  cases c.context.scope.arity? name with
  | some arity => simp only [exec_applyNominal, stay_apply]
  | none =>
    cases c.context.scope.catalog.aliases.get? name with
    | some t => rfl
    | none =>
      simp only [exec_ite]
      split
      · rfl
      · cases Primitive.ofName? name with
        | some p => rfl
        | none => simp only [exec_reportFresh, stay_apply]

variable {expand : Expansion} {f : Expander}

/-- An alias is expanded as `f` does it in the scope at hand. -/
abbrev Expansion.Does (expand : Expansion) (f : Expander) : Prop :=
  ∀ a args span, (expand a args span).exec = stay fun w => f w.context.scope a args span

theorem exec_lowerPath (h : expand.Does f) (segments : List String) (args : List Ty)
    (span : Span) : (lowerPath expand segments args span).exec =
      stay fun w => Sema.lowerPath f w.context.scope segments args span := by
  funext c
  rw [stay_apply]
  simp only [lowerPath, Sema.lowerPath, exec_context_bind]
  cases (if (segments.length == 1) = true then c.context.scope.param? (joinPath segments)
      else none) with
  | some t => rfl
  | none =>
    simp only [exec_ite]
    split
    · cases c.context.scope.selfTy with
      | some t => rfl
      | none => simp only [exec_reportFresh, stay_apply]
    · cases c.context.scope.decls.aliases.get? (joinPath segments) with
      | some a => simp only [h a, stay_apply]
      | none => simp only [exec_lowerName, stay_apply]

mutual

theorem exec_lowerWith (h : expand.Does f) : (t : TypeExpr) →
    (lowerWith expand t).exec = stay fun w => Sema.lowerWith f w.context.scope t
  | ⟨span, kind⟩ => by
    simp only [lowerWith, Sema.lowerWith]
    exact exec_lowerKind h span kind

theorem exec_lowerKind (h : expand.Does f) (span : Span) : (k : TypeExprKind) →
    (lowerKind expand span k).exec = stay fun w => Sema.lowerKind f w.context.scope span k
  | .primitive p => by
    simp only [lowerKind, Sema.lowerKind]
    rfl
  | .path segments args => by
    simp only [lowerKind, Sema.lowerKind, exec_bind, exec_lowerAll h args, exec_lowerPath h]
    rfl
  | .branded base brand => by
    simp only [lowerKind, Sema.lowerKind, exec_bind, exec_lowerWith h base, exec_pure]
    rfl
  | .function params none effects => by
    simp only [lowerKind, Sema.lowerKind, exec_bind, exec_lowerAll h params, exec_pure]
    rfl
  | .function params (some ret) effects => by
    simp only [lowerKind, Sema.lowerKind, exec_bind, exec_lowerAll h params,
      exec_lowerWith h ret, exec_pure]
    rfl
  | .reference inner _ _ => by
    simp only [lowerKind, Sema.lowerKind, exec_lowerWith h inner]
  | .tuple elems => by
    simp only [lowerKind, Sema.lowerKind, exec_bind, exec_lowerAll h elems, exec_pure]
    rfl
  | .array elem _ => by
    simp only [lowerKind, Sema.lowerKind, exec_bind, exec_lowerWith h elem, exec_pure]
    rfl

theorem exec_lowerAll (h : expand.Does f) : (l : List TypeExpr) →
    (lowerAll expand l).exec = stay fun w => Sema.lowerAll f w.context.scope l
  | [] => by
    simp only [lowerAll, Sema.lowerAll]
    rfl
  | t :: r => by
    simp only [lowerAll, Sema.lowerAll, exec_bind, exec_lowerWith h t, exec_lowerAll h r,
      exec_pure]
    rfl

end

/-- What is done among type parameters is done there; the parameters are gone then. -/
theorem exec_withParams {α : Type} {params : Table String Ty} {m : Work α}
    {g : Place → Check α} (h : m.exec = stay g) :
    (withParams params m).exec = stay fun w => g (w.onContext (·.enterParams params)) := by
  simp only [withParams, exec_bind, exec_change, h, exec_pure]
  rfl

theorem exec_expandAlias (n : Nat) : (expandAlias n).Does (Sema.expandAlias n) := by
  induction n with
  | zero => exact fun a _ span => exec_reportFresh _ span
  | succ n ih =>
    intro a args span
    funext c
    rw [stay_apply]
    simp only [expandAlias, Sema.expandAlias, exec_context_bind, exec_ite]
    split
    · simp only [exec_reportFresh, stay_apply]
    · simp only [exec_withParams (exec_lowerWith ih a.target), exec_bind, exec_supply, exec_change,
        exec_pure, exec_lift]
      split <;> rfl

@[simp] theorem exec_lower (t : TypeExpr) :
    (lower t).exec = stay fun w => Sema.lower w.context.scope t := by
  simp only [lower, Sema.lower, exec_bind, exec_context, exec_lowerWith (exec_expandAlias _)]
  rfl

theorem exec_lowerOr {otherwise : Work Ty} {m : Check Ty} (h : otherwise.exec = stay fun _ => m)
    (t : Option TypeExpr) :
    (lowerOr otherwise t).exec = stay fun w => Sema.lowerOr w.context.scope m t := by
  cases t with
  | none => exact h
  | some t => exact exec_lower t

end Types

section Patterns

theorem exec_fieldType (d : StructDef) (struct : String) (name : Ident) :
    (fieldType d struct name).exec =
      stay fun w => Sema.fieldType w.context.scope d struct name := by
  simp only [fieldType, Sema.fieldType]
  cases d.fields.find? (·.name.node == name.node) with
  | none => exact exec_reportFresh _ _
  | some field => exact exec_lower field.ty

/-- Do what a check does, and then bind the names that it gives. -/
def binds (f : Context → Check Bound) : StateM TypeChecker Unit := do
  let bound ← stay fun w => f w.context
  go (·.onContext (·.bindAll bound))

theorem binds_apply (f : Context → Check Bound) (c : TypeChecker) :
    binds f c = ((), ⟨c.onContext (·.bindAll (f c.context c.session).1),
      (f c.context c.session).2⟩) := rfl

/-- Names that come after others, where it does not matter what names mean. -/
theorem binds_bind {f g : Context → Check Bound} (h : ∀ cx l, g (cx.bindAll l) = g cx) :
    (binds f >>= fun _ => binds g) =
      binds fun cx => do return (← f cx) ++ (← g cx) := by
  funext c
  let first := f c.context c.session
  have hlast : ∀ l, (c.context.bindAll first.1).bindAll l = c.context.bindAll (first.1 ++ l) := by
    intro l
    simp [Context.bindAll, Env.bindAll]
  change ((), (⟨⟨(c.context.bindAll first.1).bindAll (g (c.context.bindAll first.1) first.2).1,
    c.interface⟩, (g (c.context.bindAll first.1) first.2).2⟩ : TypeChecker)) = _
  rw [h, hlast]
  rfl

theorem stay_binds_bind {α : Type} (f : Context → Check α) (g : α → Context → Check Bound)
    (k : Context → Check Bound) (h : ∀ cx l, k (cx.bindAll l) = k cx) :
    ((stay fun w => f w.context) >>= fun a => binds (g a) >>= fun _ => binds k) =
      binds fun cx => do
        let a ← f cx
        return (← g a cx) ++ (← k cx) :=
  congrArg ((stay fun w => f w.context) >>= ·) (funext fun _ => binds_bind h)

theorem exec_bindEach (l : List (String × Ty)) :
    (bindEach l).exec = go (·.onContext (·.bindAll l)) := by
  unfold bindEach
  induction l with
  | nil => rfl
  | cons x l ih =>
    simp only [List.forM_cons, List.forM_eq_forM] at ih ⊢
    rw [exec_bind, ih]
    rfl

/-- A scope of its own gives the names that are bound in it, and is gone. -/
theorem exec_aside {m : Work Unit} {f : Context → Check Bound} (h : m.exec = binds f) :
    (aside m).exec = stay fun w => return Table.ofList (← f w.context.pushScope) := by
  funext c
  let bound := f c.context.pushScope c.session
  have hnames : (c.context.pushScope.bindAll bound.1).innermost.map (·.body) =
      Table.ofList bound.1 := by
    rw [c.context.innermost_bindAll]
    exact Env.body_ofList_monos bound.1
  simp only [aside, exec_bind, exec_change, exec_context, exec_pure, h]
  change ((c.context.pushScope.bindAll bound.1).innermost.map (·.body),
    (⟨⟨(c.context.pushScope.bindAll bound.1).popScope, c.interface⟩, bound.2⟩ : TypeChecker)) = _
  rw [c.context.popScope_bindAll, hnames]
  rfl

mutual

/-- Any environment will do, as what a pattern binds does not depend on what names mean. -/
theorem exec_checkPattern_withEnv (env : Env) : (p : Pattern) → (expected : Ty) →
    (checkPattern p expected).exec =
      binds fun cx => Sema.checkPattern (cx.withEnv env) p expected
  | .wildcard _, _ => by
    simp only [checkPattern, Sema.checkPattern]
    rfl
  | .ident span name _ _, expected => by
    funext c
    have hsame : (c.context.withEnv env).valueConstructor? name =
        c.context.valueConstructor? name := rfl
    rw [binds_apply]
    simp only [checkPattern, Sema.checkPattern, exec_context_bind, hsame]
    cases c.context.valueConstructor? name <;> rfl
  | .literal span value, expected => by
    simp only [checkPattern, Sema.checkPattern]
    rfl
  | .range span start stop _, expected => by
    simp only [checkPattern, Sema.checkPattern]
    rfl
  | .tuple span elems, expected => by
    simp only [checkPattern, Sema.checkPattern, exec_bind, exec_freshMany, exec_lift,
      exec_checkPatterns env elems]
    rfl
  | .struct span name fields rest, expected => by
    funext c
    have hscope : (c.context.withEnv env).scope = c.context.scope := rfl
    rw [binds_apply]
    simp only [checkPattern, Sema.checkPattern, exec_context_bind, hscope]
    cases c.context.scope.decls.structs.get? (c.context.scope.structName name.node) with
    | none =>
      simp only [exec_bind, exec_lift,
        exec_checkFields env _ (fun _ _ => Sema.fresh) (fun _ => exec_fresh) fields]
      rfl
    | some d =>
      have hfields := fun struct => exec_checkFields env (fieldType d struct)
        (fun sc => Sema.fieldType sc d struct) (exec_fieldType d struct) fields
      simp only [withParams, exec_bind, exec_instantiateNominal, exec_lift, exec_change, hfields,
        exec_ite, exec_pure]
      cases rest <;> rfl
  | .enum span path fields, expected => by
    funext c
    have hsame : (c.context.withEnv env).constructors = c.context.constructors := rfl
    rw [binds_apply]
    simp only [checkPattern, Sema.checkPattern, exec_context_bind, hsame]
    cases c.context.constructors.get? (joinPath (path.map (·.node))) with
    | none =>
      simp only [exec_bind, exec_lift, exec_checkUnknown env fields]
      rfl
    | some s =>
      -- What follows depends on the instance, and that on the session.
      simp only [exec_bind, exec_instantiate, stateM_bind_apply, stay_apply]
      generalize Sema.instantiate s c.session = r
      obtain ⟨t, s⟩ := r
      cases t with
      | fn params ret row =>
        simp only [exec_bind, exec_lift, exec_ite, exec_checkPatterns env fields]
        by_cases hlen : params.length ≠ fields.length
        · simp only [if_pos hlen]
          rfl
        · simp only [if_neg hlen]
          rfl
      | _ => cases fields.isEmpty <;> rfl
  | .or span [], expected => by
    simp only [checkPattern, Sema.checkPattern]
    rfl
  | .or span (p :: rest), expected => by
    simp only [checkPattern, Sema.checkPattern, exec_bind,
      exec_aside (exec_checkPattern_withEnv env p expected), exec_checkAlternatives env rest,
      exec_bindEach]
    rfl

theorem exec_checkPatterns (env : Env) : (l : List Pattern) → (types : List Ty) →
    (checkPatterns l types).exec =
      binds fun cx => Sema.checkPatterns (cx.withEnv env) l types
  | [], _ => by
    simp only [checkPatterns, Sema.checkPatterns]
    rfl
  | _ :: _, [] => by
    simp only [checkPatterns, Sema.checkPatterns]
    rfl
  | p :: l, t :: types => by
    simp only [checkPatterns, Sema.checkPatterns, exec_bind, exec_checkPattern_withEnv env p,
      exec_checkPatterns env l]
    exact binds_bind fun _ _ => rfl

theorem exec_checkUnknown (env : Env) : (l : List Pattern) →
    (checkUnknown l).exec = binds fun cx => Sema.checkUnknown (cx.withEnv env) l
  | [] => by
    simp only [checkUnknown, Sema.checkUnknown]
    rfl
  | p :: l => by
    simp only [checkUnknown, Sema.checkUnknown, exec_bind, exec_fresh,
      exec_checkPattern_withEnv env p, exec_checkUnknown env l]
    exact stay_binds_bind (fun _ => Sema.fresh) _ _ fun _ _ => rfl

theorem exec_checkFields (env : Env) (type : Ident → Work Ty) (f : TypeScope → Ident → Check Ty)
    (h : ∀ name, (type name).exec = stay fun w => f w.context.scope name) :
    (l : List FieldPattern) → (checkFields type l).exec =
      binds fun cx => Sema.checkFields (cx.withEnv env) (f cx.scope) l
  | [] => by
    simp only [checkFields, Sema.checkFields]
    rfl
  | ⟨_, name, some p⟩ :: l => by
    simp only [checkFields, Sema.checkFields, exec_bind, h, exec_checkPattern_withEnv env p,
      exec_checkFields env type f h l]
    exact stay_binds_bind (fun cx => f cx.scope name) _ _ fun _ _ => rfl
  | ⟨_, name, none⟩ :: l => by
    simp only [checkFields, Sema.checkFields, exec_bind, h, exec_change,
      exec_checkFields env type f h l]
    exact stay_binds_bind (fun cx => f cx.scope name) (fun t _ => pure [(name.node, t)])
      (fun cx => Sema.checkFields (cx.withEnv env) (f cx.scope) l) fun _ _ => rfl

theorem exec_checkAlternatives (env : Env) : (l : List Pattern) → (expected : Ty) →
    (span : Span) → (first : Table String Ty) →
    (checkAlternatives l expected span first).exec =
      stay fun w => Sema.checkAlternatives (w.context.withEnv env) l expected span first
  | [], _, _, _ => by
    simp only [checkAlternatives, Sema.checkAlternatives]
    rfl
  | p :: l, expected, span, first => by
    simp only [checkAlternatives, Sema.checkAlternatives, exec_bind,
      exec_aside (exec_checkPattern_withEnv env p expected), exec_lift,
      exec_checkAlternatives env l]
    rfl

end

theorem exec_checkPattern (p : Pattern) (expected : Ty) :
    (checkPattern p expected).exec = binds fun cx => Sema.checkPattern cx p expected := by
  funext c
  exact congrFun (exec_checkPattern_withEnv c.context.env p expected) c

end Patterns

section Scopes

/-- Do what a check does, and go on in the environment that it gives. -/
def becomes (f : Context → Check Env) : StateM TypeChecker Unit := do
  let env ← stay fun w => f w.context
  go (·.onContext (·.withEnv env))

theorem binds_eq_becomes (f : Context → Check Bound) :
    binds f = becomes fun cx => do return cx.env.bindAll (← f cx) := rfl

/-- A scope is pushed; whatever is bound in it, it is the one that is popped. -/
theorem in_scope {α β : Type} (f : Context → Check Env)
    (hf : ∀ cx s, (f cx s).1.outer? = cx.env.outer?) (g : Context → Check α)
    (k : α → Context → Check β) :
    (go (·.onContext (·.pushScope)) >>= fun _ => becomes f >>= fun _ =>
      (stay fun w => g w.context) >>= fun a =>
      go (·.onContext (·.popScope)) >>= fun _ => stay fun w => k a w.context) =
      stay fun w => f w.context.pushScope >>= fun env =>
        g (w.context.withEnv env) >>= fun a => k a w.context := by
  funext c
  let env := f c.context.pushScope c.session
  have hback : (c.context.withEnv env.1).popScope = c.context := by
    have houter : env.1.outer? = some c.context.env := hf c.context.pushScope c.session
    obtain ⟨⟨scope, outer⟩, hpop, heq⟩ := Option.map_eq_some_iff.mp houter
    simp only [Context.popScope, Context.withEnv, hpop]
    cases heq
    rfl
  let a := g (c.context.withEnv env.1) env.2
  change (stay fun w => k a.1 w.context)
    ⟨⟨(c.context.withEnv env.1).popScope, c.interface⟩, a.2⟩ = _
  rw [hback]
  rfl

/-- The scope of a pattern has its names until it is popped. -/
theorem in_pattern_scope {α β : Type} (p : Pattern) (t : Ty) (g : Context → Check α)
    (k : α → Context → Check β) :
    (go (·.onContext (·.pushScope)) >>= fun _ => (checkPattern p t).exec >>= fun _ =>
      (stay fun w => g w.context) >>= fun a =>
      go (·.onContext (·.popScope)) >>= fun _ => stay fun w => k a w.context) =
      stay fun w => Sema.checkPattern w.context.pushScope p t >>= fun bound =>
        g (w.context.pushScope.bindAll bound) >>= fun a => k a w.context := by
  rw [exec_checkPattern, binds_eq_becomes]
  exact in_scope _ (fun cx _ => cx.env.outer?_bindAll _) g k

theorem exec_bindParams (l : List Param) :
    (bindParams l).exec = (do
      let types ← stay fun w => paramTypes w.context.scope l
      go (·.onContext (·.bindAll types))
      return types.map (·.2)) := by
  induction l with
  | nil => rfl
  | cons p l ih =>
    simp only [bindParams, paramTypes, exec_bind, exec_lowerOr exec_fresh, exec_change, exec_pure,
      ih]
    rfl

theorem exec_bindLet (p : Pattern) (t : Ty) (hasValue mutable : Bool) :
    (bindLet p t hasValue mutable).exec =
      becomes fun cx => Sema.bindLet cx p t hasValue mutable := by
  funext c
  simp only [bindLet, Sema.bindLet, exec_context_bind, becomes, stay_bind_apply]
  cases c.context.generalizes? p hasValue mutable with
  | some name =>
    simp only [exec_bind, exec_check, exec_change]
    rfl
  | none =>
    rw [exec_checkPattern]
    rfl

theorem exec_lookupName (name : String) (missing : TypeFault) (span : Span) :
    (lookupName name missing span).exec =
      stay fun w => Sema.lookupName w.context name missing span := by
  funext c
  rw [stay_apply]
  simp only [lookupName, Sema.lookupName, exec_context_bind]
  cases c.context.env.lookup name with
  | some scheme => rfl
  | none => rw [exec_reportFresh, stay_apply]

theorem exec_callType (callee : Ty) (args : List Ty) (span : Span) :
    (callType callee args span).exec =
      stay fun w => Sema.callType w.context callee args span := by
  simp only [callType, Sema.callType, exec_bind, exec_fresh, exec_lift, exec_check, exec_pure]
  rfl

theorem exec_checkCall (name : Option String) (callee : Ty) (args : List Ty) (span : Span) :
    (checkCall name callee args span).exec =
      stay fun w => Sema.checkCall w.context name callee args span := by
  cases name with
  | none => exact exec_callType callee args span
  | some name =>
    cases callee with
    | fn params ret row =>
      simp only [checkCall, Sema.checkCall, exec_ite, exec_bind, exec_lift, exec_pure,
        exec_callType]
      split <;> rfl
    | _ => exact exec_callType _ args span

theorem exec_checkInit (d : StructDef) (struct : String) (name : Ident) (t : Ty)
    (valueSpan : Span) : (checkInit d struct name t valueSpan).exec =
      stay fun w => Sema.checkInit w.context.scope d struct name t valueSpan := by
  simp only [checkInit, Sema.checkInit]
  cases d.fields.find? (·.name.node == name.node) with
  | none => rfl
  | some field =>
    simp only [exec_bind, exec_lower, exec_lift]
    rfl

end Scopes

end Work

section Statements

variable (cx : Context) (t : Session)

theorem bindLet_outer (p : Pattern) (ty : Ty) (hasValue mutable : Bool) :
    (bindLet cx p ty hasValue mutable t).1.outer? = cx.env.outer? := by
  unfold bindLet
  cases cx.generalizes? p hasValue mutable with
  | some name => exact cx.env.outer?_bind _ _
  | none => exact cx.env.outer?_bindAll _

/-- A statement binds names in the innermost scope only. -/
theorem checkStmt_outer (s : Stmt) : (checkStmt cx s t).1.outer? = cx.env.outer? := by
  cases s with
  | letBind span p ty value mutable =>
    cases value <;> cases ty <;> simp only [checkStmt] <;> exact bindLet_outer _ _ _ _ _ _
  | ret span value => cases value <;> simp only [checkStmt] <;> rfl
  | brk span value => cases value <;> simp only [checkStmt] <;> rfl
  | cont span =>
    simp only [checkStmt]
    cases cx.loops.isEmpty <;> rfl
  | _ =>
    simp only [checkStmt]
    rfl

theorem checkStmts_outer (l : List Stmt) : (checkStmts cx l t).1.outer? = cx.env.outer? := by
  induction l generalizing cx t with
  | nil =>
    simp only [checkStmts]
    rfl
  | cons s l ih =>
    simp only [checkStmts]
    exact (ih _ _).trans (checkStmt_outer cx t s)

end Statements

namespace Work

-- What is pushed on a list comes off by definition: a loop, a function, type parameters. Only the
-- scopes need an argument, as names are bound in them before they are popped.
mutual

theorem exec_inferExpr : (e : Expr) →
    (inferExpr e).exec = stay fun w => Sema.inferExpr w.context e
  | ⟨id, span, k⟩ => by
    simp only [inferExpr, Sema.inferExpr, exec_bind, exec_inferKind span k, exec_lift, exec_pure]
    rfl

theorem exec_inferKind (span : Span) : (k : ExprKind) →
    (inferKind span k).exec = stay fun w => Sema.inferKind w.context span k
  | .literal lit => by
    simp only [inferKind, Sema.inferKind, exec_lift]
  | .ident name => by
    simp only [inferKind, Sema.inferKind, exec_lookupName]
  | .path segments => by
    simp only [inferKind, Sema.inferKind, exec_lookupName]
  | .binary op left right => by
    simp only [inferKind, Sema.inferKind, exec_bind, exec_inferExpr left, exec_inferExpr right,
      exec_lift]
    rfl
  | .unary op operand => by
    simp only [inferKind, Sema.inferKind, exec_bind, exec_inferExpr operand]
    cases op <;> rfl
  | .call callee args => by
    simp only [inferKind, Sema.inferKind, exec_bind, exec_inferExpr callee, exec_inferAll args,
      exec_checkCall]
    rfl
  | .methodCall receiver method args => by
    simp only [inferKind, Sema.inferKind, exec_bind, exec_inferExpr receiver, exec_inferAll args,
      exec_fresh, exec_check, exec_pure]
    rfl
  | .field base field => by
    simp only [inferKind, Sema.inferKind, exec_bind, exec_inferExpr base, exec_fresh, exec_lift,
      exec_pure]
    rfl
  | .index base index => by
    simp only [inferKind, Sema.inferKind, exec_bind, exec_inferExpr base, exec_inferExpr index,
      exec_fresh, exec_lift, exec_pure]
    rfl
  | .ifThen cond thenBranch none => by
    simp only [inferKind, Sema.inferKind, exec_bind, exec_inferExpr cond,
      exec_inferBlock thenBranch, exec_lift, exec_pure]
    rfl
  | .ifThen cond thenBranch (some other) => by
    simp only [inferKind, Sema.inferKind, exec_bind, exec_inferExpr cond,
      exec_inferBlock thenBranch, exec_inferExpr other, exec_lift, exec_pure]
    rfl
  | .matchOn scrutinee l => by
    simp only [inferKind, Sema.inferKind, exec_bind, exec_inferExpr scrutinee, exec_fresh,
      exec_checkArms _ _ l, exec_pure]
    rfl
  | .block body => by
    simp only [inferKind, Sema.inferKind, exec_inferBlock body]
  | .lambda ps ret body isMove => by
    simp only [inferKind, Sema.inferKind, exec_bind, exec_change, exec_bindParams,
      exec_lowerOr exec_fresh, exec_context, exec_inferExpr body, exec_lift, exec_pure]
    funext c
    let types := paramTypes c.context.scope ps c.session
    -- The function and the loops around are back; the scope has the parameters in it.
    have hback := c.context.popScope_bindAll types.1
    refine Eq.trans
      (b := (_, ⟨⟨(c.context.pushScope.bindAll types.1).popScope, c.interface⟩, _⟩)) rfl ?_
    rw [hback]
    rfl
  | .tuple l => by
    simp only [inferKind, Sema.inferKind, exec_bind, exec_inferAll l, exec_pure]
    rfl
  | .array l => by
    simp only [inferKind, Sema.inferKind, exec_bind, exec_fresh, exec_inferElems _ _ l, exec_pure]
    rfl
  | .structLit name fields none => by
    funext c
    rw [stay_apply]
    simp only [inferKind, Sema.inferKind, exec_context_bind]
    cases c.context.scope.decls.structs.get? (c.context.scope.structName name.node) with
    | none =>
      simp only [exec_bind, exec_lift, exec_inferFields fields, exec_fresh]
      rfl
    | some d =>
      simp only [exec_bind, exec_instantiateNominal, exec_lift, exec_pure,
        exec_withParams (exec_checkInits d _ [] fields)]
      rfl
  | .structLit name fields (some base) => by
    funext c
    rw [stay_apply]
    simp only [inferKind, Sema.inferKind, exec_context_bind]
    cases c.context.scope.decls.structs.get? (c.context.scope.structName name.node) with
    | none =>
      simp only [exec_bind, exec_lift, exec_inferFields fields, exec_discard, exec_inferExpr base,
        exec_fresh]
      rfl
    | some d =>
      simp only [exec_bind, exec_instantiateNominal, exec_inferExpr base, exec_lift, exec_pure,
        exec_withParams (exec_checkInits d _ [] fields)]
      rfl
  | .cast e ty => by
    simp only [inferKind, Sema.inferKind, exec_bind, exec_inferExpr e, exec_lower]
    rfl
  | .tryOp e => by
    simp only [inferKind, Sema.inferKind, exec_bind, exec_inferExpr e, exec_fresh, exec_lift,
      exec_pure]
    rfl
  | .await e => by
    funext c
    rw [stay_apply]
    simp only [inferKind, Sema.inferKind]
    rw [exec_bind, exec_inferExpr e, stay_bind_apply, exec_context_bind, exec_ite]
    by_cases hasync : (c.context.checkEffects && !(c.context.frames.head?.any (·.isAsync))) = true
    · simp only [if_pos hasync]
      rfl
    · simp only [if_neg hasync]
      rfl
  | .whileLoop cond body => by
    simp only [inferKind, Sema.inferKind, exec_bind, exec_inferExpr cond, exec_inferBlock body,
      exec_lift, exec_change, exec_pure]
    rfl
  | .loop body => by
    simp only [inferKind, Sema.inferKind, exec_bind, exec_fresh, exec_inferBlock body,
      exec_change, exec_pure]
    rfl
  | .forLoop p iterable body => by
    simp only [inferKind, Sema.inferKind, exec_bind, exec_inferExpr iterable, exec_fresh,
      exec_lift, exec_change, exec_inferBlock body, exec_pure]
    have hloop := fun elem => in_pattern_scope p elem
      (fun cx => Sema.inferBlock (cx.enterLoop none) body) (fun _ _ => pure Ty.unit)
    exact congrArg (stay _ >>= ·) (funext fun t => congrArg (stay _ >>= ·) (funext fun elem =>
      congrArg (stay _ >>= ·) (funext fun _ => hloop elem)))
  | .range none none _ => by
    simp only [inferKind, Sema.inferKind, exec_bind, exec_fresh, exec_pure]
    rfl
  | .range (some start) none _ => by
    simp only [inferKind, Sema.inferKind, exec_bind, exec_fresh, exec_inferExpr start, exec_lift,
      exec_pure]
    rfl
  | .range none (some stop) _ => by
    simp only [inferKind, Sema.inferKind, exec_bind, exec_fresh, exec_inferExpr stop, exec_lift,
      exec_pure]
    rfl
  | .range (some start) (some stop) _ => by
    simp only [inferKind, Sema.inferKind, exec_bind, exec_fresh, exec_inferExpr start,
      exec_inferExpr stop, exec_lift, exec_pure]
    rfl

theorem exec_inferAll : (l : List Expr) →
    (inferAll l).exec = stay fun w => Sema.inferAll w.context l
  | [] => by
    simp only [inferAll, Sema.inferAll]
    rfl
  | e :: r => by
    simp only [inferAll, Sema.inferAll, exec_bind, exec_inferExpr e, exec_inferAll r, exec_pure]
    rfl

theorem exec_inferElems (elem : Ty) (origin : Origin) : (l : List Expr) →
    (inferElems elem origin l).exec = stay fun w => Sema.inferElems w.context elem origin l
  | [] => by
    simp only [inferElems, Sema.inferElems]
    rfl
  | e :: r => by
    simp only [inferElems, Sema.inferElems, exec_bind, exec_inferExpr e, exec_lift,
      exec_inferElems elem origin r]
    rfl

theorem exec_inferFields : (l : List FieldInit) →
    (inferFields l).exec = stay fun w => Sema.inferFields w.context l
  | [] => by
    simp only [inferFields, Sema.inferFields]
    rfl
  | ⟨_, _, value⟩ :: r => by
    simp only [inferFields, Sema.inferFields, exec_bind, exec_inferExpr value, exec_inferFields r]
    rfl

theorem exec_checkInits (d : StructDef) (struct : String) :
    (seen : List String) → (l : List FieldInit) →
    (checkInits d struct seen l).exec =
      stay fun w => Sema.checkInits w.context d struct seen l
  | _, [] => by
    simp only [checkInits, Sema.checkInits]
    rfl
  | seen, ⟨span, name, value⟩ :: r => by
    simp only [checkInits, Sema.checkInits, exec_bind, exec_inferExpr value, exec_ite, exec_lift,
      exec_checkInit, exec_checkInits d struct _ r]
    by_cases hseen : seen.contains name.node = true
    · simp only [if_pos hseen]
      rfl
    · simp only [if_neg hseen]
      rfl

theorem exec_checkArms (t result : Ty) : (l : List MatchArm) →
    (checkArms t result l).exec = stay fun w => Sema.checkArms w.context t result l
  | [] => by
    simp only [checkArms, Sema.checkArms]
    rfl
  | ⟨_, p, none, body⟩ :: r => by
    simp only [checkArms, Sema.checkArms, exec_bind, exec_change, exec_inferExpr body, exec_lift,
      exec_checkArms t result r]
    exact in_pattern_scope p t
      (fun cx => do constrain result (← Sema.inferExpr cx body) body.span .branch)
      (fun _ cx => Sema.checkArms cx t result r)
  | ⟨_, p, some guard, body⟩ :: r => by
    simp only [checkArms, Sema.checkArms, exec_bind, exec_change, exec_inferExpr guard,
      exec_inferExpr body, exec_lift, exec_checkArms t result r]
    exact in_pattern_scope p t
      (fun cx => do
        constrain .bool (← Sema.inferExpr cx guard) guard.span .condition
        constrain result (← Sema.inferExpr cx body) body.span .branch)
      (fun _ cx => Sema.checkArms cx t result r)

theorem exec_inferBlock : (b : Block) →
    (inferBlock b).exec = stay fun w => Sema.inferBlock w.context b
  | ⟨_, l, some e⟩ => by
    simp only [inferBlock, Sema.inferBlock, exec_bind, exec_change, exec_checkStmts l,
      exec_inferExpr e, exec_pure]
    exact in_scope _ (fun cx s => checkStmts_outer cx s l) (fun cx => Sema.inferExpr cx e)
      fun t _ => pure t
  | ⟨_, l, none⟩ => by
    simp only [inferBlock, Sema.inferBlock, exec_bind, exec_change, exec_checkStmts l, exec_ite,
      exec_fresh, exec_pure]
    by_cases hjump : diverges l = true
    · simp only [if_pos hjump]
      exact in_scope _ (fun cx s => checkStmts_outer cx s l) (fun _ => Sema.fresh)
        fun t _ => pure t
    · simp only [if_neg hjump]
      exact in_scope _ (fun cx s => checkStmts_outer cx s l) (fun _ => pure Ty.unit)
        fun t _ => pure t

theorem exec_checkStmts : (l : List Stmt) →
    (checkStmts l).exec = becomes fun cx => Sema.checkStmts cx l
  | [] => by
    simp only [checkStmts, Sema.checkStmts]
    rfl
  | s :: r => by
    simp only [checkStmts, Sema.checkStmts, exec_bind, exec_checkStmt s, exec_checkStmts r]
    rfl

theorem exec_checkStmt : (s : Stmt) →
    (checkStmt s).exec = becomes fun cx => Sema.checkStmt cx s
  | .letBind _ p ty none mutable => by
    simp only [checkStmt, Sema.checkStmt, exec_bind, exec_lowerOr exec_fresh, exec_bindLet]
    rfl
  | .letBind _ p none (some e) mutable => by
    simp only [checkStmt, Sema.checkStmt, exec_bind, exec_inferExpr e, exec_bindLet]
    rfl
  | .letBind _ p (some ty) (some e) mutable => by
    simp only [checkStmt, Sema.checkStmt, exec_bind, exec_inferExpr e, exec_lower, exec_lift,
      exec_bindLet]
    rfl
  | .assign _ target value => by
    simp only [checkStmt, Sema.checkStmt, exec_bind, exec_inferExpr target, exec_inferExpr value,
      exec_lift]
    rfl
  | .expr e => by
    simp only [checkStmt, Sema.checkStmt, exec_bind, exec_inferExpr e, exec_pure]
    rfl
  | .ret span none => by
    simp only [checkStmt, Sema.checkStmt, exec_bind, exec_check, exec_pure]
    rfl
  | .ret span (some e) => by
    simp only [checkStmt, Sema.checkStmt, exec_bind, exec_inferExpr e, exec_check]
    rfl
  | .brk span none => by
    simp only [checkStmt, Sema.checkStmt, exec_bind, exec_check, exec_pure]
    rfl
  | .brk span (some e) => by
    simp only [checkStmt, Sema.checkStmt, exec_bind, exec_inferExpr e, exec_check]
    rfl
  | .cont span => by
    funext c
    simp only [checkStmt, Sema.checkStmt, exec_context_bind, becomes, stay_bind_apply]
    cases c.context.loops.isEmpty <;> rfl

end

end Work

/-- From any place, whatever has been found out so far: after the work on an expression or a block
all that can be seen is as it was, and its type and the findings are what inference gives there.
After the work on a pattern the context differs in the environment only, there in the innermost
scope only, and in that scope in the names of the pattern only. -/
theorem context_restored (c : TypeChecker) :
    (∀ e, (Work.inferExpr e).run c =
      let r := (inferExpr c.context e).run c.session
      (r.1, { c with session := r.2 })) ∧
    (∀ b, (Work.inferBlock b).run c =
      let r := (inferBlock c.context b).run c.session
      (r.1, { c with session := r.2 })) ∧
    ∀ p t,
      let r := (checkPattern c.context p t).run c.session
      let env := c.context.env.bindAll r.1
      (Work.checkPattern p t).run c =
          ((), { c with context := { c.context with env }, session := r.2 }) ∧
        env.scopes.tail = c.context.env.scopes.tail ∧
        ∀ name, env.top? name =
          (((Table.ofList r.1).get? name).map .mono).or (c.context.env.top? name) := by
  refine ⟨fun e => ?_, fun b => ?_, fun p t => ⟨?_, c.context.env.bindAll_frame _⟩⟩
  · exact congrFun (Work.exec_inferExpr e) c
  · exact congrFun (Work.exec_inferBlock b) c
  · exact congrFun (Work.exec_checkPattern p t) c

end Sema
