import Sema.Proofs.Typing.Binding
import Sema.Proofs.Typing.Generalization
import Sema.Proofs.Typing.Origins

/-!
# Where patterns are checked

A `PatternCheck` is one check of a pattern, with its context, the type expected and the session
it starts in. `PatternCheck.parts` lists the checks that it makes of the patterns directly inside,
`Task.checks` those that a task of the walk makes, and `PatternCheck.On` closes the one under the
other. What a check leaves is there after the walk; and if there is no complaint in the end, then
every pattern written in the code that is checked, and all that is inside it, has been checked,
but for the plain names that a `let` generalises.
-/

namespace Sema

/-- The patterns directly inside. -/
def Pattern.parts : Pattern → List Pattern
  | .tuple _ elems => elems
  | .struct _ _ fields _ => fields.filterMap (·.pattern)
  | .enum _ _ fields => fields
  | .or _ alternatives => alternatives
  | _ => []

/-- The first pattern has the second inside, at any depth. -/
abbrev Pattern.Holds : Pattern → Pattern → Prop :=
  Relation.ReflTransGen fun p q => q ∈ p.parts

/-- One check of a pattern. -/
structure PatternCheck where
  cx : Context
  pattern : Pattern
  type : Ty
  start : Session

namespace PatternCheck

/-- What the check binds, in order. -/
def bound (c : PatternCheck) : Bound := ((checkPattern c.cx c.pattern c.type).run c.start).1

/-- The names that the check binds, with their types. -/
def names (c : PatternCheck) : Table String Ty := .ofList c.bound

def after (c : PatternCheck) : Session := Sema.after (checkPattern c.cx c.pattern c.type) c.start

/-- The check starts after `s`, and what it leaves is there in `t`. -/
def Between (c : PatternCheck) (s t : Session) : Prop := Grows s c.start ∧ Grows c.after t

theorem Between.self (c : PatternCheck) : c.Between c.start c.after := ⟨.refl _, .refl _⟩

section Between

variable {c : PatternCheck} {α β : Type} {m : Check α} {f : α → Check β} {s : Session}

theorem Between.left (h : c.Between s (Sema.after m s)) (hf : ∀ a, Growing (f a)) :
    c.Between s (Sema.after (m >>= f) s) :=
  ⟨h.1, h.2.trans (hf _ _)⟩

theorem Between.right (hm : Growing m)
    (h : c.Between (Sema.after m s) (Sema.after (f (m.run s).1) (Sema.after m s))) :
    c.Between s (Sema.after (m >>= f) s) :=
  ⟨(hm s).trans h.1, h.2⟩

end Between

end PatternCheck

section Checks

variable (cx : Context)

/-- The checks of patterns against types, pairwise. -/
def patternChecks : List Pattern → List Ty → Session → List PatternCheck
  | p :: ps, t :: ts, s =>
    ⟨cx, p, t, s⟩ :: patternChecks ps ts (after (checkPattern cx p t) s)
  | _, _, _ => []

def fieldChecks (type : Ident → Check Ty) : List FieldPattern → Session → List PatternCheck
  | [], _ => []
  | ⟨_, name, some p⟩ :: r, s =>
    let t := (type name).run s
    ⟨cx, p, t.1, t.2⟩ :: fieldChecks type r (after (checkPattern cx p t.1) t.2)
  | ⟨_, name, none⟩ :: r, s => fieldChecks type r (after (type name) s)

/-- The checks of the other alternatives of an or-pattern, whose first has bound `first`. -/
def alternativeChecks (t : Ty) (span : Span) (first : Table String Ty) :
    List Pattern → Session → List PatternCheck
  | [], _ => []
  | p :: r, s =>
    let c : PatternCheck := ⟨cx, p, t, s⟩
    c :: alternativeChecks t span first r (after (agree first span (p.span, c.names)) c.after)

/-- The checks of the patterns directly inside. Where a struct or a variant is not declared, or
has another number of fields, there has been a complaint. -/
def PatternCheck.parts (c : PatternCheck) : List PatternCheck :=
  match c.pattern with
  | .tuple span elems =>
    let types := (freshMany elems.length).run c.start
    patternChecks c.cx elems types.1
      (Sema.after (constrain c.type (.tuple types.1) span .pattern) types.2)
  | .struct span name fields _ =>
    let struct := c.cx.scope.structName name.node
    match c.cx.scope.decls.structs.get? struct with
    | none => []
    | some d =>
      let x := (instantiateNominal struct d.generics).run c.start
      let inside := c.cx.enterParams x.1.2
      fieldChecks inside (fieldType inside.scope d struct) fields
        (Sema.after (constrain c.type x.1.1 span .pattern) x.2)
  | .enum span path fields =>
    match c.cx.constructors.get? (joinPath (path.map (·.node))) with
    | none => []
    | some scheme =>
      let t := (instantiate scheme).run c.start
      match t.1 with
      | .fn params ret _ =>
        if params.length = fields.length then
          patternChecks c.cx fields params (Sema.after (constrain c.type ret span .pattern) t.2)
        else []
      | _ => []
  | .or span (p :: rest) =>
    let first : PatternCheck := ⟨c.cx, p, c.type, c.start⟩
    first :: alternativeChecks c.cx c.type span first.names rest first.after
  | _ => []

variable {cx}

theorem patternChecks_between (ps : List Pattern) (ts : List Ty) (s : Session) :
    ∀ d ∈ patternChecks cx ps ts s, d.Between s (after (checkPatterns cx ps ts) s) := by
  induction ps generalizing ts s with
  | nil => simp [patternChecks]
  | cons p ps ih =>
    cases ts with
    | nil => simp [patternChecks]
    | cons t ts =>
      rw [patternChecks, checkPatterns]
      refine List.forall_mem_cons.mpr ⟨.left (.self _) fun _ => ?_, fun d hd => ?_⟩
      · exact (checkPatterns_notes cx ps ts).growing.bind fun _ => .pure _
      · exact .right (checkPattern_notes cx p t).growing (.left (ih ts _ d hd) fun _ => .pure _)

theorem map_patternChecks {ps : List Pattern} {ts : List Ty} (h : ts.length = ps.length)
    (s : Session) : (patternChecks cx ps ts s).map (·.pattern) = ps := by
  induction ps generalizing ts s with
  | nil => simp [patternChecks]
  | cons p ps ih =>
    obtain ⟨t, ts, rfl⟩ := List.exists_cons_of_length_eq_add_one h
    rw [patternChecks, List.map_cons, ih (Nat.succ.inj h)]

theorem fieldChecks_between {type : Ident → Check Ty} (htype : ∀ name, Notes (type name))
    (l : List FieldPattern) (s : Session) :
    ∀ d ∈ fieldChecks cx type l s, d.Between s (after (checkFields cx type l) s) := by
  induction l generalizing s with
  | nil => simp [fieldChecks]
  | cons f r ih =>
    obtain ⟨span, name, pattern⟩ := f
    have hrest := (checkFields_notes cx htype r).growing
    cases pattern with
    | none =>
      rw [fieldChecks, checkFields]
      exact fun d hd => .right (htype name).growing (.right (.pure _)
        (.left (ih _ d hd) fun _ => .pure _))
    | some p =>
      rw [fieldChecks, checkFields]
      refine List.forall_mem_cons.mpr ⟨.right (htype name).growing (.left (.self _) fun _ => ?_),
        fun d hd => .right (htype name).growing ?_⟩
      · exact hrest.bind fun _ => .pure _
      · exact .right (checkPattern_notes cx p _).growing (.left (ih _ d hd) fun _ => .pure _)

theorem map_fieldChecks (type : Ident → Check Ty) (l : List FieldPattern) (s : Session) :
    (fieldChecks cx type l s).map (·.pattern) = l.filterMap (·.pattern) := by
  induction l generalizing s with
  | nil => rfl
  | cons f r ih =>
    obtain ⟨span, name, _ | p⟩ := f
    · simp [fieldChecks, ih]
    · simp [fieldChecks, ih]

theorem alternativeChecks_between (t : Ty) (span : Span) (first : Table String Ty)
    (l : List Pattern) (s : Session) : ∀ d ∈ alternativeChecks cx t span first l s,
      d.Between s (after (checkAlternatives cx l t span first) s) := by
  induction l generalizing s with
  | nil => simp [alternativeChecks]
  | cons p r ih =>
    have hrest := (checkAlternatives_notes cx r t span first).growing
    have hagree := fun x => (agree_notes first span x).growing
    rw [alternativeChecks, checkAlternatives]
    refine List.forall_mem_cons.mpr ⟨.left (.self _) fun _ => (hagree _).bind fun _ => hrest,
      fun d hd => .right (checkPattern_notes cx p t).growing (.right (hagree _) (ih _ d hd))⟩

theorem map_alternativeChecks (t : Ty) (span : Span) (first : Table String Ty) (l : List Pattern)
    (s : Session) : (alternativeChecks cx t span first l s).map (·.pattern) = l := by
  induction l generalizing s with
  | nil => rfl
  | cons p r ih => simp [alternativeChecks, ih]

theorem alternativeChecks_same (t : Ty) (span : Span) (first : Table String Ty) (l : List Pattern)
    (s : Session) : ∀ d ∈ alternativeChecks cx t span first l s, d.cx = cx ∧ d.type = t := by
  induction l generalizing s with
  | nil => simp [alternativeChecks]
  | cons p r ih => exact List.forall_mem_cons.mpr ⟨⟨rfl, rfl⟩, ih _⟩
end Checks

namespace PatternCheck

variable (c : PatternCheck)

/-- The patterns inside are checked while the pattern is. -/
theorem parts_between : ∀ d ∈ c.parts, d.Between c.start c.after := by
  obtain ⟨cx, pattern, type, s⟩ := c
  unfold after
  intro d hd
  cases pattern with
  | tuple span elems =>
    rw [checkPattern]
    exact .right (freshMany_notes _).growing (.right (constrain_growing _ _ _ _)
      (patternChecks_between elems _ _ d hd))
  | struct span name fields rest =>
    simp only [parts] at hd
    rw [checkPattern]
    dsimp only
    cases hstruct : cx.scope.decls.structs.get? (cx.scope.structName name.node) with
    | none => simp [hstruct] at hd
    | some sd =>
      rw [hstruct] at hd
      refine .right (instantiateNominal_notes _ _).growing (.right (constrain_growing _ _ _ _)
        (.left (fieldChecks_between (fieldType_notes _ _ _) fields _ d hd) fun _ => ?_))
      split
      · exact (checkMentioned_notes _ _ _ _).growing.bind fun _ => .pure _
      · exact .pure _
  | enum span path fields =>
    simp only [parts] at hd
    rw [checkPattern]
    dsimp only
    cases hscheme : cx.constructors.get? (joinPath (path.map (·.node))) with
    | none => simp [hscheme] at hd
    | some scheme =>
      rw [hscheme] at hd
      refine .right (instantiate_notes scheme).growing ?_
      dsimp only at hd
      cases hfn : ((instantiate scheme).run s).1 with
      | fn params ret row =>
        rw [hfn] at hd
        dsimp only at hd ⊢
        split at hd
        · next hlength =>
          rw [if_neg (by simpa using hlength)]
          exact .right (constrain_growing _ _ _ _) (patternChecks_between fields _ _ d hd)
        · cases hd
      | _ =>
        rw [hfn] at hd
        cases hd
  | or span alternatives =>
    cases alternatives with
    | nil => cases hd
    | cons p rest =>
      rw [checkPattern]
      have hrest := fun first => (checkAlternatives_notes cx rest type span first).growing
      rcases List.mem_cons.mp hd with rfl | hd
      · exact .left (.self _) fun _ => (hrest _).bind fun _ => .pure _
      · exact .right (checkPattern_notes cx p type).growing
          (.left (alternativeChecks_between type span _ rest _ d hd) fun _ => .pure _)
  | _ => cases hd

/-- Without a complaint, every pattern inside has been checked. -/
theorem map_parts (h : c.after.faults = #[]) : c.parts.map (·.pattern) = c.pattern.parts := by
  obtain ⟨cx, pattern, type, s⟩ := c
  unfold after at h
  dsimp only at h ⊢
  cases pattern with
  | tuple span elems =>
    rw [checkPattern] at h
    have hrest : ∀ types, Growing (do
        constrain type (.tuple types) span .pattern
        checkPatterns cx elems types) :=
      fun types => (constrain_growing _ _ _ _).bind fun _ =>
        (checkPatterns_notes cx elems types).growing
    have hmid := (hrest _ _).no_faults h
    have hstart := ((freshMany_notes elems.length).growing s).no_faults hmid
    exact map_patternChecks ((freshMany_length elems.length).result s (hmid.trans hstart.symm)) _
  | struct span name fields rest =>
    rw [checkPattern] at h
    simp only [parts]
    cases hstruct : cx.scope.decls.structs.get? (cx.scope.structName name.node) with
    | none =>
      simp only [hstruct] at h
      exact absurd h (faults_of_report
        ((checkFields_notes cx (fun _ => fresh_notes) fields).growing _))
    | some sd => exact map_fieldChecks _ fields _
  | enum span path fields =>
    rw [checkPattern] at h
    simp only [parts]
    cases hscheme : cx.constructors.get? (joinPath (path.map (·.node))) with
    | none =>
      simp only [hscheme] at h
      exact absurd h (faults_of_report ((checkUnknown_notes cx fields).growing _))
    | some scheme =>
      simp only [hscheme] at h
      rw [after_bind] at h
      dsimp only
      split
      · next params ret row hfn =>
        simp only [hfn] at h
        split at h
        · exact absurd h (faults_of_report ((checkPatterns_notes cx fields params).growing _))
        · next hlength =>
          have hlength : params.length = fields.length := by simpa using hlength
          rw [if_pos hlength]
          exact map_patternChecks hlength _
      · next hvalue =>
        split at h
        · next params ret row hfn => exact absurd hfn (hvalue params ret row)
        · split at h
          · exact absurd h (faults_of_report (.refl _))
          · next hempty => simpa [Pattern.parts] using hempty
  | or span alternatives =>
    cases alternatives with
    | nil => rfl
    | cons p rest => exact congrArg (p :: ·) (map_alternativeChecks type span _ rest _)
  | _ => rfl
end PatternCheck

/-- The type that a `let` binds, with or without a value. -/
def boundType (cx : Context) (ty : Option TypeExpr) : Option Expr → Check Ty
  | some e => letType cx ty e
  | none => lowerOr cx.scope fresh ty

/-- The patterns that the task itself is for. -/
def Task.patterns : Task → List Pattern
  | arms _ _ _ (arm :: _) => [arm.pattern]
  | expr _ ⟨_, _, .forLoop pattern _ _⟩ => [pattern]
  | stmt _ (.letBind _ pattern _ _ _) => [pattern]
  | _ => []

/-- The checks of these patterns. A `let` that generalises checks none: its pattern is a name. -/
def Task.checks : Task → Session → List PatternCheck
  | arms cx t _ (arm :: _), s => [⟨cx.pushScope, arm.pattern, t, s⟩]
  | expr cx ⟨_, _, .forLoop pattern iterable _⟩, s =>
    let t := (inferExpr cx iterable).run s
    let elem := fresh.run t.2
    [⟨cx.pushScope, pattern, elem.1, Sema.after (defer (.iter t.1 elem.1 iterable.span)) elem.2⟩]
  | stmt cx (.letBind _ pattern ty value mutable), s =>
    let t := (boundType cx ty value).run s
    if (cx.generalizes? pattern value.isSome mutable).isSome then [] else [⟨cx, pattern, t.1, t.2⟩]
  | _, _ => []

namespace Task

theorem checkStmt_letBind_eq (cx : Context) (span : Span) (pattern : Pattern)
    (ty : Option TypeExpr) (value : Option Expr) (mutable : Bool) :
    checkStmt cx (.letBind span pattern ty value mutable) =
      boundType cx ty value >>= fun t => bindLet cx pattern t value.isSome mutable := by
  cases value with
  | none =>
    rw [checkStmt]
    rfl
  | some e => exact checkStmt_letBind cx span pattern ty e mutable

theorem boundType_growing (cx : Context) (ty : Option TypeExpr) (value : Option Expr) :
    Growing (boundType cx ty value) := by
  cases value with
  | none => exact (lowerOr_notes cx.scope fresh_notes ty).growing
  | some e => exact (letType_keeps (U := fun _ => True) cx ty e).growing

/-- The patterns of a task are checked while the task runs. -/
theorem checks_between (t : Task) (s : Session) : ∀ c ∈ t.checks s, c.Between s (t.after s) := by
  intro c hc
  cases t with
  | arms cx t result l =>
    cases l with
    | nil => cases hc
    | cons arm r =>
      obtain ⟨span, pattern, guard, body⟩ := arm
      obtain rfl := List.mem_singleton.mp hc
      have hinside := fun cy e => (inferExpr_keeps (U := fun _ => True) cy e).growing
      have hrest := fun u => (constrain_growing result u body.span .branch).bind fun _ =>
        (checkArms_keeps (U := fun _ => True) cx t result r).growing
      rw [after, checkArms]
      cases guard with
      | none =>
        exact .left (.self _) fun _ => (hinside _ body).bind hrest
      | some g =>
        exact .left (.self _) fun _ => (hinside _ g).bind fun _ =>
          (constrain_growing _ _ _ _).bind fun _ => (hinside _ body).bind hrest
  | expr cx e =>
    obtain ⟨id, span, kind⟩ := e
    cases kind with
    | forLoop pattern iterable body =>
      obtain rfl := List.mem_singleton.mp hc
      rw [after, inferExpr, inferKind]
      refine .left (.right (inferExpr_keeps (U := fun _ => True) cx iterable).growing
        (.right fresh_notes.growing (.right (defer_quiet _).growing (.left (.self _) fun _ => ?_))))
        fun t => (record_plain id t).growing.bind fun _ => .pure _
      exact (inferBlock_keeps (U := fun _ => True) _ body).growing.bind fun _ => .pure _
    | _ => cases hc
  | stmt cx st =>
    cases st with
    | letBind span pattern ty value mutable =>
      simp only [checks] at hc
      split at hc
      · cases hc
      · next hnone =>
        obtain rfl := List.mem_singleton.mp hc
        rw [after, checkStmt_letBind_eq]
        refine .right (boundType_growing cx ty value) ?_
        rw [bindLet, Option.not_isSome_iff_eq_none.mp hnone]
        exact .left (.self _) fun _ => .pure _
    | _ => cases hc
  | _ => cases hc

/-- A pattern with an or-pattern inside is not one that a `let` generalises, so it is checked. -/
theorem exists_check {t : Task} {q : Pattern} (hq : q ∈ t.patterns) {span : Span}
    {alternatives : List Pattern} (hor : q.Holds (.or span alternatives)) (s : Session) :
    ∃ c ∈ t.checks s, c.pattern = q := by
  cases t with
  | arms cx t result l =>
    cases l with
    | nil => cases hq
    | cons arm r => exact ⟨_, List.mem_singleton_self _, (List.mem_singleton.mp hq).symm⟩
  | expr cx e =>
    obtain ⟨id, span, kind⟩ := e
    cases kind with
    | forLoop pattern iterable body =>
      exact ⟨_, List.mem_singleton_self _, (List.mem_singleton.mp hq).symm⟩
    | _ => cases hq
  | stmt cx st =>
    cases st with
    | letBind span pattern ty value mutable =>
      obtain rfl := List.mem_singleton.mp hq
      have hname : cx.generalizes? q value.isSome mutable = none := by
        cases q with
        | ident _ name _ _ =>
          rcases hor.cases_head with heq | ⟨_, hpart, -⟩
          · cases heq
          · cases hpart
        | _ => rfl
      let t := (boundType cx ty value).run s
      exact ⟨⟨cx, q, t.1, t.2⟩, by simp [checks, hname, t], rfl⟩
    | _ => cases hq
  | _ => cases hq

end Task

/-- The check of a pattern on the walk, or of a pattern inside one that is checked there. -/
inductive PatternCheck.On (walk : Task × Session) : PatternCheck → Prop where
  | task {x : Task × Session} {c : PatternCheck} (hx : Reaches walk x) (hc : c ∈ x.1.checks x.2) :
      On walk c
  | part {c d : PatternCheck} (hc : On walk c) (hd : d ∈ c.parts) : On walk d

/-- What a check leaves is there after the walk. -/
theorem PatternCheck.On.grows {walk : Task × Session} {c : PatternCheck} (h : On walk c) :
    Grows c.after (walk.1.after walk.2) := by
  induction h with
  | @task x c hx hc => exact (x.1.checks_between x.2 c hc).2.trans hx.grows.2
  | part _ hd ih => exact (parts_between _ _ hd).2.trans ih

/-- If the walk ends without a complaint, all that is inside a pattern has been checked. -/
theorem PatternCheck.On.exists_holds {walk : Task × Session} {c : PatternCheck} (h : On walk c)
    (hfaults : (walk.1.after walk.2).faults = #[]) {q : Pattern} (hq : c.pattern.Holds q) :
    ∃ d, On walk d ∧ d.pattern = q := by
  induction hq with
  | refl => exact ⟨c, h, rfl⟩
  | tail _ hpart ih =>
    obtain ⟨d, hd, rfl⟩ := ih
    rw [← d.map_parts (hd.grows.no_faults hfaults)] at hpart
    obtain ⟨e, he, heq⟩ := List.mem_map.mp hpart
    exact ⟨e, .part hd he, heq⟩

section Written

/-- The patterns of a block's own `let` statements. -/
def Block.patterns (b : Block) : List Pattern :=
  b.stmts.filterMap fun
    | .letBind _ pattern _ _ _ => some pattern
    | _ => none

/-- The patterns written in an expression, apart from those in the expressions inside it. -/
def Expr.patterns (e : Expr) : List Pattern :=
  match e.kind with
  | .matchOn _ arms => arms.map (·.pattern)
  | .forLoop pattern _ body => pattern :: body.patterns
  | .ifThen _ body _ | .block body | .whileLoop _ body | .loop body => body.patterns
  | _ => []

/-- The functions that the item declares. -/
def Item.functions : Item → List FunctionDef
  | .function d => [d]
  | .trait d => d.methods
  | .impl d => d.methods
  | .const _ | .struct _ | .enum _ | .typeAlias _ | .imports _ => []

/-- The bodies of the functions of a program. -/
def Program.bodies (p : Program) : List Block :=
  p.items.flatMap fun item => item.functions.filterMap (·.body)

/-- The patterns written in the code that is checked: in expressions, and in the bodies of
functions. -/
def Program.patterns (p : Program) : List Pattern :=
  p.bodies.flatMap (·.patterns) ++ p.checked.flatMap (·.patterns)

theorem reaches_stmt {st : Stmt} {l : List Stmt} (h : st ∈ l) (cx : Context) (s : Session) :
    ∃ cy r, Reaches (.stmts cx l, s) (.stmt cy st, r) := by
  induction l generalizing cx s with
  | nil => cases h
  | cons st' l ih =>
    rcases List.mem_cons.mp h with rfl | h
    · exact ⟨cx, s, .single (by simp [Task.calls])⟩
    · let env := (checkStmt cx st').run s
      obtain ⟨cy, r, hreach⟩ := ih h { cx with env := env.1 } env.2
      exact ⟨cy, r, .head (by simp [Task.calls, env]) hreach⟩

theorem reaches_arm {arm : MatchArm} {l : List MatchArm} (h : arm ∈ l) (cx : Context)
    (t result : Ty) (s : Session) :
    ∃ l' r, Reaches (.arms cx t result l, s) (.arms cx t result (arm :: l'), r) := by
  induction l generalizing s with
  | nil => cases h
  | cons arm' l ih =>
    rcases List.mem_cons.mp h with rfl | hmem
    · exact ⟨l, s, .refl⟩
    · obtain ⟨span, pattern, guard, body⟩ := arm'
      obtain ⟨s', hcall⟩ : ∃ s', (Task.arms cx t result l, s') ∈
          (Task.arms cx t result (⟨span, pattern, guard, body⟩ :: l)).calls s :=
        ⟨_, List.mem_append_right _ (List.mem_cons_of_mem _ List.mem_cons_self)⟩
      obtain ⟨l', r, hreach⟩ := ih hmem s'
      exact ⟨l', r, .head hcall hreach⟩

/-- The task for which the pattern is checked runs inside. -/
def Task.Comes (q : Pattern) (x : Task × Session) : Prop := ∃ y, Reaches x y ∧ q ∈ y.1.patterns

theorem Task.Comes.of_reaches {q : Pattern} {x y : Task × Session} (h : Comes q y)
    (hxy : Reaches x y) : Comes q x := by
  obtain ⟨z, hyz, hq⟩ := h
  exact ⟨z, hxy.trans hyz, hq⟩

theorem Block.comes {b : Block} {q : Pattern} (hq : q ∈ b.patterns) (cx : Context)
    (s : Session) : Task.Comes q (.block cx b, s) := by
  obtain ⟨span, stmts, tail⟩ := b
  obtain ⟨st, hst, hpattern⟩ := List.mem_filterMap.mp hq
  obtain ⟨cy, r, hreach⟩ := reaches_stmt hst cx.pushScope s
  have hcall : (Task.stmts cx.pushScope stmts, s) ∈ (Task.block cx ⟨span, stmts, tail⟩).calls s :=
    List.mem_cons_self
  refine ⟨_, .head hcall hreach, ?_⟩
  cases st with
  | letBind _ pattern _ _ _ =>
    obtain rfl := Option.some.inj hpattern
    exact List.mem_singleton_self _
  | _ => cases hpattern

/-- The patterns written in an expression are checked when the expression is. -/
theorem Expr.comes {e : Expr} {q : Pattern} (hq : q ∈ e.patterns) (cx : Context) (s : Session) :
    Task.Comes q (.expr cx e, s) := by
  have hblock : ∀ (b : Block) {cy : Context} {r : Session}, q ∈ b.patterns →
      (Task.block cy b, r) ∈ (Task.expr cx e).calls s → Task.Comes q (.expr cx e, s) :=
    fun b cy r hb hcall => (b.comes hb cy r).of_reaches (.single hcall)
  obtain ⟨id, span, kind⟩ := e
  cases kind with
  | matchOn scrutinee arms =>
    obtain ⟨arm, harm, rfl⟩ := List.mem_map.mp hq
    let t := (inferExpr cx scrutinee).run s
    let result := fresh.run t.2
    obtain ⟨l, r, hreach⟩ := reaches_arm harm cx t.1 result.1 result.2
    have hcall : (Task.arms cx t.1 result.1 arms, result.2) ∈
        (Task.expr cx ⟨id, span, .matchOn scrutinee arms⟩).calls s :=
      List.mem_cons_of_mem _ List.mem_cons_self
    exact ⟨_, .head hcall hreach, List.mem_singleton_self _⟩
  | forLoop pattern iterable body =>
    rcases List.mem_cons.mp hq with rfl | hq
    · exact ⟨_, .refl, List.mem_singleton_self _⟩
    · exact hblock body hq (List.mem_cons_of_mem _ List.mem_cons_self)
  | ifThen cond body other => exact hblock body hq (List.mem_cons_of_mem _ List.mem_cons_self)
  | block body => exact hblock body hq List.mem_cons_self
  | whileLoop cond body => exact hblock body hq (List.mem_cons_of_mem _ List.mem_cons_self)
  | loop body => exact hblock body hq List.mem_cons_self
  | _ => cases hq

variable {i : Interface}

theorem reaches_body {d : FunctionDef} {b : Block} (hb : d.body = some b) {name : String}
    (hsig : i.signatures.contains name = true) (cx : Context) (s : Session) :
    ∃ cy r, Reaches (.function cx i d name, s) (.block cy b, r) := by
  obtain ⟨sig, hget⟩ := Option.isSome_iff_exists.mp hsig
  let inside := bodyContext cx d name sig
  refine ⟨inside, after (d.contracts.forM (checkContract inside sig.ret)) s, .single ?_⟩
  simp only [Task.calls, hb, hget]
  exact List.mem_cons_of_mem _ List.mem_cons_self

theorem reaches_method_body {d : FunctionDef} {b : Block} (hb : d.body = some b)
    {typeName : String} {l : List FunctionDef} (hl : i.HasMethods typeName l) (hd : d ∈ l)
    (cx : Context) (s : Session) :
    ∃ cy r, Reaches (.methods cx i typeName l, s) (.block cy b, r) := by
  induction l generalizing s with
  | nil => cases hd
  | cons m l ih =>
    rcases List.mem_cons.mp hd with rfl | hmem
    · obtain ⟨cy, r, hreach⟩ := reaches_body hb (hl d List.mem_cons_self) cx s
      exact ⟨cy, r, .head List.mem_cons_self hreach⟩
    · obtain ⟨cy, r, hreach⟩ := ih (fun m hm => hl m (List.mem_cons_of_mem _ hm)) hmem _
      exact ⟨cy, r, .head (List.mem_cons_of_mem _ List.mem_cons_self) hreach⟩

/-- After the first item come the others. -/
theorem exists_items_call {targets rest : List ImplTarget} {item : Item} {items : List Item}
    (h : item.Declared i targets) (cx : Context) (s : Session) :
    ∃ s', (Task.items cx i rest items, s') ∈
      (Task.items cx i (targets ++ rest) (item :: items)).calls s := by
  cases item with
  | impl b =>
    obtain ⟨target, rfl, -⟩ := h
    exact ⟨_, List.mem_cons_of_mem _ List.mem_cons_self⟩
  | function d =>
    obtain ⟨rfl, -⟩ := h
    exact ⟨_, List.mem_cons_of_mem _ List.mem_cons_self⟩
  | trait d =>
    obtain ⟨rfl, -⟩ := h
    exact ⟨_, List.mem_cons_of_mem _ List.mem_cons_self⟩
  | const d =>
    obtain rfl := h
    exact ⟨_, List.mem_cons_of_mem _ List.mem_cons_self⟩
  | _ =>
    obtain rfl := h
    exact ⟨_, List.mem_cons_self⟩

/-- The bodies of the functions of an item are checked with the item. -/
theorem reaches_own_body {targets rest : List ImplTarget} {item : Item} {items : List Item}
    (h : item.Declared i targets) {d : FunctionDef} (hd : d ∈ item.functions) {b : Block}
    (hb : d.body = some b) (cx : Context) (s : Session) :
    ∃ cy r, Reaches (.items cx i (targets ++ rest) (item :: items), s) (.block cy b, r) := by
  cases item with
  | function f =>
    obtain ⟨rfl, hsig⟩ := h
    obtain rfl := List.mem_singleton.mp hd
    obtain ⟨cy, r, hreach⟩ := reaches_body hb hsig cx s
    exact ⟨cy, r, .head List.mem_cons_self hreach⟩
  | impl f =>
    obtain ⟨target, rfl, hmethods⟩ := h
    obtain ⟨cy, r, hreach⟩ := reaches_method_body hb hmethods hd (cx.withSelf target.selfTy) s
    exact ⟨cy, r, .head List.mem_cons_self hreach⟩
  | trait f =>
    obtain ⟨rfl, hmethods⟩ := h
    let inside := cx.withSelf (.named f.name.node)
    obtain ⟨cy, r, hreach⟩ := reaches_method_body hb hmethods hd inside s
    exact ⟨cy, r, .head List.mem_cons_self hreach⟩
  | _ => cases hd

theorem reaches_item_body {targets : List ImplTarget} {items : List Item}
    (h : i.Declares targets items) {item : Item} (hitem : item ∈ items) {d : FunctionDef}
    (hd : d ∈ item.functions) {b : Block} (hb : d.body = some b) (cx : Context) (s : Session) :
    ∃ cy r, Reaches (.items cx i targets items, s) (.block cy b, r) := by
  induction h generalizing s with
  | nil => cases hitem
  | cons hfirst _ ih =>
    rcases List.mem_cons.mp hitem with rfl | hmem
    · exact reaches_own_body hfirst hd hb cx s
    · obtain ⟨s', hcall⟩ := exists_items_call hfirst cx s
      obtain ⟨cy, r, hreach⟩ := ih hmem s'
      exact ⟨cy, r, .head hcall hreach⟩

end Written

/-- Every pattern that is written in the code that is checked is the pattern of a task. -/
theorem Program.comes {p : Program} (catalog : Catalog) (checkEffects : Bool) {q : Pattern}
    (hq : q ∈ p.patterns) : Task.Comes q (p.walk catalog checkEffects) := by
  rcases List.mem_append.mp hq with hq | hq
  · obtain ⟨b, hb, hq⟩ := List.mem_flatMap.mp hq
    obtain ⟨item, hitem, hb⟩ := List.mem_flatMap.mp hb
    obtain ⟨d, hd, hb⟩ := List.mem_filterMap.mp hb
    obtain ⟨cy, r, hreach⟩ := reaches_item_body (p.present_declares catalog) hitem hd hb
      (p.context catalog checkEffects) (p.present catalog).2
    exact (b.comes hq cy r).of_reaches hreach
  · obtain ⟨e, he, hq⟩ := List.mem_flatMap.mp hq
    obtain ⟨cx, s, hreach⟩ := p.reaches_checked catalog checkEffects he
    exact (e.comes hq cx s).of_reaches hreach
end Sema
