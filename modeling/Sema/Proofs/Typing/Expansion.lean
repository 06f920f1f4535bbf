import Mathlib
import Sema.Proofs.Typing.Scoping
import Sema.Syntax.Build

/-!
# Lowering of types ends

As a procedure, lowering walks over a type expression with two stacks at hand: the generic
parameters in scope and the aliases being expanded. At an alias it pushes onto both, goes on with
the target of the alias, which may be larger than the type expression it came from, and pops both
again. What decides that this ends is the number of aliases that are not being expanded: inside an
expansion it has gone down, and everywhere else the stacks are what they were and the type
expression gets smaller.

`Lowers` is this procedure as a relation between a start and an outcome. Nothing in it limits the
depth of the expansions, so a type expression without an outcome would be one on which the
procedure runs for ever; and what it pops is whatever it finds on the stacks.
-/

namespace Sema

mutual

def TypeExpr.size : TypeExpr → Nat
  | ⟨_, kind⟩ => kind.size + 1

def TypeExprKind.size : TypeExprKind → Nat
  | .primitive _ => 0
  | .path _ args => typesSize args
  | .branded base _ => base.size
  | .function params ret _ =>
    typesSize params + match ret with
      | some t => t.size
      | none => 0
  | .reference inner _ _ => inner.size
  | .tuple elems => typesSize elems
  | .array elem _ => elem.size

def typesSize : List TypeExpr → Nat
  | [] => 0
  | t :: r => t.size + typesSize r

end

theorem typesSize_append (l m : List TypeExpr) :
    typesSize (l ++ m) = typesSize l + typesSize m := by
  induction l with
  | nil => simp [typesSize]
  | cons t l ih =>
    rw [List.cons_append, typesSize, typesSize, ih]
    omega

namespace TypeExpr

/-- The type expressions directly inside, in the order in which they are lowered. -/
def parts (t : TypeExpr) : List TypeExpr :=
  match t.kind with
  | .primitive _ => []
  | .path _ args => args
  | .branded base _ => [base]
  | .function params ret _ => params ++ ret.toList
  | .reference inner _ _ => [inner]
  | .tuple elems => elems
  | .array elem _ => [elem]

/-- The alias that a path stands for, unless it is a parameter or `Self`. -/
def alias? (t : TypeExpr) (sc : TypeScope) : Option TypeAlias :=
  match t.kind, t.pathName? with
  | .path segments _, some name =>
    if segments.length = 1 ∧ ((sc.param? name).isSome ∨ name = "Self") then none
    else sc.decls.aliases.get? name
  | _, _ => none

/-- The last step, when the parts have been lowered. -/
def assemble (t : TypeExpr) (expand : Expander) (sc : TypeScope) (args : List Ty) : Check Ty :=
  match t.kind with
  | .primitive p => return .prim p
  | .path segments _ => lowerPath expand sc segments args t.span
  | .branded _ brand => return .branded brand (args.headD .unit)
  | .function _ ret effects =>
    let row := .closed (.ofList (effects.map (·.kind)))
    match ret with
    | some _ => return .fn args.dropLast (args.getLastD .unit) row
    | none => return .fn args .unit row
  | .reference .. => return args.headD .unit
  | .tuple _ => return .tuple args
  | .array .. => return .array (args.headD .unit)

theorem size_parts (t : TypeExpr) : typesSize t.parts < t.size := by
  obtain ⟨span, kind⟩ := t
  rw [size, Nat.lt_succ_iff]
  cases kind with
  | function params ret effects =>
    cases ret <;> simp [parts, TypeExprKind.size, typesSize_append, typesSize]
  | _ => simp [parts, TypeExprKind.size, typesSize]

section Alias

variable {t : TypeExpr} {sc : TypeScope}

theorem alias?_mem {a : TypeAlias} (h : t.alias? sc = some a) :
    ∃ key, (key, a) ∈ sc.decls.aliases.entries := by
  unfold alias? at h
  split at h
  · split at h
    · cases h
    · exact ⟨_, Table.mem_of_get? h⟩
  · cases h

/-- Without an alias nobody asks for an expansion. -/
theorem assemble_of_alias?_eq_none (h : t.alias? sc = none) (e e' : Expander) (args : List Ty) :
    t.assemble e sc args = t.assemble e' sc args := by
  obtain ⟨span, kind⟩ := t
  cases kind with
  | path segments args' =>
    simp only [alias?, pathName?] at h
    simp only [assemble, lowerPath]
    by_cases hone : segments.length = 1
    · cases hparam : sc.param? (joinPath segments) with
      | some u => simp [hone]
      | none =>
        by_cases hself : joinPath segments = "Self"
        · simp [hone, hself]
        · simp [hone, hparam, hself] at h
          simp [hone, hself, h]
    · simp [hone] at h
      simp [hone, h]
  | _ => rfl

theorem assemble_of_alias?_eq_some {a : TypeAlias} (h : t.alias? sc = some a) (e : Expander)
    (args : List Ty) : t.assemble e sc args = e sc a args t.span := by
  obtain ⟨span, kind⟩ := t
  cases kind with
  | path segments args' =>
    simp only [alias?, pathName?] at h
    split at h
    · cases h
    · next hnot =>
      simp only [assemble, lowerPath]
      by_cases hone : segments.length = 1
      · simp only [hone, true_and, not_or, Bool.not_eq_true, Option.isSome_eq_false_iff,
          Option.isNone_iff_eq_none] at hnot
        simp [hone, hnot.1, hnot.2, h]
      · simp [hone, h]
  | _ => cases h

end Alias

end TypeExpr

theorem lowerAll_append (e : Expander) (sc : TypeScope) (l m : List TypeExpr) :
    lowerAll e sc (l ++ m) =
      lowerAll e sc l >>= fun a => lowerAll e sc m >>= fun b => pure (a ++ b) := by
  induction l with
  | nil => simp [lowerAll]
  | cons t l ih => simp [lowerAll, ih]

/-- Lowering does the parts first and the root last. -/
theorem lowerWith_eq (e : Expander) (sc : TypeScope) (t : TypeExpr) :
    lowerWith e sc t = lowerAll e sc t.parts >>= fun args => t.assemble e sc args := by
  obtain ⟨span, kind⟩ := t
  rw [lowerWith]
  cases kind with
  | function params ret effects =>
    cases ret with
    | none => simp [lowerKind, TypeExpr.parts]; rfl
    | some r => simp [lowerKind, lowerAll, lowerAll_append, TypeExpr.parts, TypeExpr.assemble]
  | path segments args => rw [lowerKind]; rfl
  | tuple elems => rw [lowerKind]; rfl
  | _ => simp [lowerKind, lowerAll, TypeExpr.parts, TypeExpr.assemble]

theorem run_bind_eq {α β : Type} {m : Check α} {f : α → Check β} {s s' : Session} {a : α}
    {r : β × Session} (hm : m.run s = (a, s')) (hf : (f a).run s' = r) : (m >>= f).run s = r := by
  rw [StateT.run_bind, hm]
  exact hf

/-- A list is lowered by the parts of its head, the root of its head and its tail in turn. -/
theorem run_lowerAll_cons {e : Expander} {sc : TypeScope} {t : TypeExpr} {rest : List TypeExpr}
    {p q r s : Session} {args us : List Ty} {u : Ty}
    (hparts : (lowerAll e sc t.parts).run p = (args, q))
    (hroot : (t.assemble e sc args).run q = (u, r))
    (hrest : (lowerAll e sc rest).run r = (us, s)) :
    (lowerAll e sc (t :: rest)).run p = (u :: us, s) := by
  rw [lowerAll, lowerWith_eq]
  refine run_bind_eq (run_bind_eq hparts hroot) ?_
  exact run_bind_eq hrest rfl

theorem run_lowerAll_singleton {e : Expander} {sc : TypeScope} {t : TypeExpr} {s : Session}
    {u : Ty} {s' : Session} :
    (lowerAll e sc [t]).run s = ([u], s') ↔ (lowerWith e sc t).run s = (u, s') := by
  have hrun : (lowerAll e sc [t]).run s =
      ([((lowerWith e sc t).run s).1], ((lowerWith e sc t).run s).2) := by
    rw [lowerAll, lowerAll]
    rfl
  rw [hrun, Prod.ext_iff, Prod.ext_iff]
  simp

/-- The scope inside the expansion of an alias. -/
def TypeScope.expanding (sc : TypeScope) (a : TypeAlias) (params : List (String × Ty)) :
    TypeScope :=
  { sc.enter (.ofList params) with resolving := a.name.node :: sc.resolving }

/-- The types that the parameters of an alias stand for, with a complaint about arguments that
are too many. -/
def alignArgs (a : TypeAlias) (args : List Ty) (span : Span) : Check (List (String × Ty)) := do
  if args.length > a.generics.length then
    report (.aliasArguments a.name.node a.generics.length args.length) span
  supply a.generics args

theorem expandAlias_of_mem {n : Nat} {sc : TypeScope} {a : TypeAlias}
    (h : a.name.node ∈ sc.resolving) (args : List Ty) (span : Span) :
    expandAlias n sc a args span = reportFresh (.cyclicAlias a.name.node) span := by
  cases n with
  | zero => rfl
  | succ n => simp [expandAlias, h]

theorem expandAlias_of_not_mem {n : Nat} {sc : TypeScope} {a : TypeAlias}
    (h : a.name.node ∉ sc.resolving) (args : List Ty) (span : Span) :
    expandAlias (n + 1) sc a args span = alignArgs a args span >>= fun params =>
      lowerWith (expandAlias n) (sc.expanding a params) a.target := by
  by_cases hlen : args.length > a.generics.length
  · simp [expandAlias, alignArgs, TypeScope.expanding, h, hlen]
  · simp [expandAlias, alignArgs, TypeScope.expanding, h, hlen]

/-- What the procedure works on: the scope, with its stacks, and the session. -/
@[ext] structure Lowering where
  scope : TypeScope
  session : Session

namespace Lowering

/-- The work of a check that leaves the scope alone. -/
def doing {α : Type} (x : Lowering) (m : Check α) : Lowering :=
  { x with session := after m x.session }

/-- Push the parameters and the name of an alias. -/
def push (x : Lowering) (a : TypeAlias) (args : List Ty) (span : Span) : Lowering :=
  { x.doing (alignArgs a args span) with
    scope := x.scope.expanding a ((alignArgs a args span).run x.session).1 }

/-- Pop whatever is on top of the two stacks. -/
def pop (x : Lowering) : Lowering :=
  { x with
    scope := { x.scope with params := x.scope.params.tail, resolving := x.scope.resolving.tail } }

end Lowering

/-- The recursive procedure on type expressions, one after the other: the parts of each first,
then its root, then the next. -/
inductive Lowers : Lowering → List TypeExpr → List Ty → Lowering → Prop where
  | done (x : Lowering) : Lowers x [] [] x
  | plain {x y z : Lowering} {t : TypeExpr} {rest : List TypeExpr} {args us : List Ty}
      {expand : Expander} (hparts : Lowers x t.parts args y) (halias : t.alias? y.scope = none)
      (hrest : Lowers (y.doing (t.assemble expand y.scope args)) rest us z) :
      Lowers x (t :: rest) (((t.assemble expand y.scope args).run y.session).1 :: us) z
  | cyclic {x y z : Lowering} {t : TypeExpr} {rest : List TypeExpr} {args us : List Ty}
      {a : TypeAlias} (hparts : Lowers x t.parts args y) (halias : t.alias? y.scope = some a)
      (hmem : a.name.node ∈ y.scope.resolving)
      (hrest : Lowers (y.doing (reportFresh (.cyclicAlias a.name.node) t.span)) rest us z) :
      Lowers x (t :: rest)
        (((reportFresh (.cyclicAlias a.name.node) t.span).run y.session).1 :: us) z
  | expand {x y w z : Lowering} {t : TypeExpr} {rest : List TypeExpr} {args us : List Ty}
      {a : TypeAlias} {u : Ty} (hparts : Lowers x t.parts args y)
      (halias : t.alias? y.scope = some a) (hmem : a.name.node ∉ y.scope.resolving)
      (htarget : Lowers (y.push a args t.span) [a.target] [u] w)
      (hrest : Lowers w.pop rest us z) : Lowers x (t :: rest) (u :: us) z

/-- After an expansion the scope is the one before it. -/
theorem Lowering.scope_pop {x y : Lowering} {a : TypeAlias} {args : List Ty} {span : Span}
    (h : y.scope = (x.push a args span).scope) : y.pop.scope = x.scope := by
  rw [pop, h]
  rfl

/-- The number of declared aliases that are not being expanded. -/
def TypeScope.pending (sc : TypeScope) : Nat :=
  sc.decls.aliases.entries.countP fun e => e.2.name.node ∉ sc.resolving

theorem TypeScope.pending_le_size (sc : TypeScope) : sc.pending ≤ sc.decls.aliases.size :=
  List.countP_le_length

/-- Inside the expansion of an alias, one alias less is pending. -/
theorem TypeScope.pending_expanding {sc : TypeScope} {t : TypeExpr} {a : TypeAlias}
    (ha : t.alias? sc = some a) (hmem : a.name.node ∉ sc.resolving)
    (params : List (String × Ty)) : (sc.expanding a params).pending < sc.pending := by
  obtain ⟨key, hkey⟩ := TypeExpr.alias?_mem ha
  have hinside : (sc.expanding a params).pending =
      (sc.decls.aliases.entries.filter fun e => e.2.name.node ∉ sc.resolving).countP
        fun e => e.2.name.node ≠ a.name.node := by
    simp [pending, expanding, enter, List.countP_filter]
  have houtside : sc.pending =
      (sc.decls.aliases.entries.filter fun e => e.2.name.node ∉ sc.resolving).length :=
    List.countP_eq_length_filter
  rw [hinside, houtside, List.countP_lt_length_iff]
  exact ⟨(key, a), List.mem_filter.mpr ⟨hkey, by simpa using hmem⟩, by simp⟩

namespace Lowers

variable {x y : Lowering} {l : List TypeExpr} {us : List Ty}

theorem length_eq (h : Lowers x l us y) : us.length = l.length := by
  induction h with
  | done x => rfl
  | plain _ _ _ _ ih => simp [ih]
  | cyclic _ _ _ _ _ ih => simp [ih]
  | expand _ _ _ _ _ _ _ ih => simp [ih]

/-- Every run leaves the scope as it was: what is popped after an expansion is what was pushed
before it. -/
theorem scope_eq (h : Lowers x l us y) : y.scope = x.scope := by
  induction h with
  | done x => rfl
  | plain _ _ _ ihparts ihrest => exact ihrest.trans ihparts
  | cyclic _ _ _ _ ihparts ihrest => exact ihrest.trans ihparts
  | expand _ _ _ _ _ ihparts ihtarget ihrest =>
    exact ihrest.trans ((Lowering.scope_pop ihtarget).trans ihparts)

/-- What the procedure gives is what lowering computes with enough depth. -/
theorem run_eq (h : Lowers x l us y) {n : Nat} (hn : x.scope.pending ≤ n) :
    (lowerAll (expandAlias n) x.scope l).run x.session = (us, y.session) := by
  induction h generalizing n with
  | done x => rfl
  | @plain x y z t rest args us expand hparts halias hrest ihparts ihrest =>
    have hscope := hparts.scope_eq
    have hlast := ihrest (n := n) (hscope ▸ hn)
    rw [TypeExpr.assemble_of_alias?_eq_none halias expand (expandAlias n)] at hlast ⊢
    refine run_lowerAll_cons (ihparts hn) ?_ (hscope ▸ hlast)
    rw [hscope]
    rfl
  | @cyclic x y z t rest args us a hparts halias hmem hrest ihparts ihrest =>
    have hscope := hparts.scope_eq
    have hlast := ihrest (n := n) (hscope ▸ hn)
    refine run_lowerAll_cons (ihparts hn) ?_ (hscope ▸ hlast)
    rw [← hscope, TypeExpr.assemble_of_alias?_eq_some halias, expandAlias_of_mem hmem]
    rfl
  | @expand x y w z t rest args us a u hparts halias hmem htarget hrest ihparts ihtarget ihrest =>
    have hscope := hparts.scope_eq
    have hpop : w.pop.scope = x.scope := (Lowering.scope_pop htarget.scope_eq).trans hscope
    have hless : (y.push a args t.span).scope.pending < x.scope.pending := by
      rw [← hscope]
      exact TypeScope.pending_expanding halias hmem _
    -- Some depth is left, since the alias is pending.
    obtain ⟨k, rfl⟩ : ∃ k, n = k + 1 := Nat.exists_eq_add_one.mpr (by omega)
    have hinside := ihtarget (n := k) (by omega)
    refine run_lowerAll_cons (r := w.session) (ihparts hn) ?_ ?_
    · rw [← hscope, TypeExpr.assemble_of_alias?_eq_some halias, expandAlias_of_not_mem hmem]
      exact run_bind_eq rfl (run_lowerAll_singleton.mp hinside)
    · have hlast := ihrest (n := k + 1) (hpop ▸ hn)
      rwa [hpop] at hlast

end Lowers

/-- The procedure comes to an end. The recursion is the one of the procedure itself. -/
theorem exists_lowers (x : Lowering) (l : List TypeExpr) : ∃ us y, Lowers x l us y := by
  cases l with
  | nil => exact ⟨[], x, .done x⟩
  | cons t rest =>
    have hsize := t.size_parts
    obtain ⟨args, y, hparts⟩ := exists_lowers x t.parts
    have hscope := congrArg TypeScope.pending hparts.scope_eq
    cases halias : t.alias? y.scope with
    | none =>
      let root := t.assemble (expandAlias 0) y.scope args
      obtain ⟨us, z, hrest⟩ := exists_lowers (y.doing root) rest
      exact ⟨_, z, .plain hparts halias hrest⟩
    | some a =>
      by_cases hmem : a.name.node ∈ y.scope.resolving
      · let root := reportFresh (.cyclicAlias a.name.node) t.span
        obtain ⟨us, z, hrest⟩ := exists_lowers (y.doing root) rest
        exact ⟨_, z, .cyclic hparts halias hmem hrest⟩
      · have hless : (y.push a args t.span).scope.pending < y.scope.pending :=
          TypeScope.pending_expanding halias hmem _
        obtain ⟨vs, w, htarget⟩ := exists_lowers (y.push a args t.span) [a.target]
        obtain ⟨u, rfl⟩ := List.length_eq_one_iff.mp htarget.length_eq
        have hpop := congrArg TypeScope.pending (Lowering.scope_pop htarget.scope_eq)
        obtain ⟨us, z, hrest⟩ := exists_lowers w.pop rest
        exact ⟨_, z, .expand hparts halias hmem htarget hrest⟩
termination_by (x.scope.pending, typesSize l)
decreasing_by
  · exact lex_step le_rfl (by rw [typesSize]; omega)
  · exact lex_step hscope.le (by rw [typesSize]; omega)
  · exact lex_step hscope.le (by rw [typesSize]; omega)
  · exact .left _ _ (hscope ▸ hless)
  · exact lex_step (hpop.trans hscope).le (by rw [typesSize]; omega)

/-- The outcome of the procedure on one type expression is the one that `lower` computes, in the
scope of the start. -/
theorem lowers_iff_lower {sc : TypeScope} {s : Session} {t : TypeExpr} {u : Ty} {y : Lowering} :
    Lowers ⟨sc, s⟩ [t] [u] y ↔ y.scope = sc ∧ (lower sc t).run s = (u, y.session) := by
  have hrun : ∀ {v z}, Lowers ⟨sc, s⟩ [t] [v] z → (lower sc t).run s = (v, z.session) :=
    fun h => run_lowerAll_singleton.mp (h.run_eq sc.pending_le_size)
  constructor
  · intro h
    exact ⟨h.scope_eq, hrun h⟩
  · rintro ⟨hscope, heq⟩
    obtain ⟨us, z, h⟩ := exists_lowers ⟨sc, s⟩ [t]
    obtain ⟨v, rfl⟩ := List.length_eq_one_iff.mp h.length_eq
    obtain ⟨rfl, hsession⟩ := Prod.mk.inj ((hrun h).symm.trans heq)
    have hz : z = y := Lowering.ext (h.scope_eq.trans hscope.symm) hsession
    exact hz ▸ h

/-- A call of the procedure: a type expression, and what the procedure works on at that time. -/
structure LowerCall where
  start : Lowering
  type : TypeExpr

namespace LowerCall

/-- The first call makes the second, on a part when those before it have been lowered, or on the
target of an alias when its arguments have been. -/
inductive Makes : LowerCall → LowerCall → Prop where
  | part {x y : Lowering} {t p : TypeExpr} {before behind : List TypeExpr} {args : List Ty}
      (hparts : t.parts = before ++ p :: behind) (hbefore : Lowers x before args y) :
      Makes ⟨x, t⟩ ⟨y, p⟩
  | target {x y : Lowering} {t : TypeExpr} {args : List Ty} {a : TypeAlias}
      (hparts : Lowers x t.parts args y) (halias : t.alias? y.scope = some a)
      (hmem : a.name.node ∉ y.scope.resolving) :
      Makes ⟨x, t⟩ ⟨y.push a args t.span, a.target⟩

/-- The number of aliases that are not being expanded, and the size of the type expression. -/
def weight (c : LowerCall) : Nat × Nat := (c.start.scope.pending, c.type.size)

/-- A call is lighter than the one that makes it. -/
theorem Makes.weight_lt {c d : LowerCall} (h : c.Makes d) :
    Prod.Lex (· < ·) (· < ·) d.weight c.weight := by
  cases h with
  | @part x y t p before behind args hparts hbefore =>
    have hsize := t.size_parts
    rw [hparts, typesSize_append, typesSize] at hsize
    rw [weight, weight, hbefore.scope_eq]
    exact .right _ (by dsimp only; omega)
  | target hparts halias hmem =>
    refine .left _ _ ?_
    rw [← hparts.scope_eq]
    exact TypeScope.pending_expanding halias hmem _

theorem acc_makes (c : LowerCall) : Acc (fun d c => Makes c d) c :=
  (Subrelation.wf Makes.weight_lt
    (InvImage.wf weight (Prod.lex Nat.lt_wfRel Nat.lt_wfRel).wf)).apply c

end LowerCall

/-- Lowering ends for every type expression in every scope, whatever the aliases: in every call of
the recursion the calls it makes in turn are lighter, by the number of aliases not being expanded
first and by size second. So there is no infinite descent, and the procedure has exactly one
outcome: the type and the session that `lower` gives, and the scope it started with. The same
holds of the calls in between, as each is itself a start. -/
theorem lowering_terminates (sc : TypeScope) (s : Session) (t : TypeExpr) :
    let start : LowerCall := ⟨⟨sc, s⟩, t⟩
    (∀ c d, Relation.ReflTransGen LowerCall.Makes start c → c.Makes d →
      Prod.Lex (· < ·) (· < ·) d.weight c.weight) ∧
    Acc (fun d c => LowerCall.Makes c d) start ∧
    ∀ u y, Lowers ⟨sc, s⟩ [t] [u] y ↔ y.scope = sc ∧ (lower sc t).run s = (u, y.session) := by
  intro start
  exact ⟨fun c d _ h => h.weight_lt, start.acc_makes, fun u y => lowers_iff_lower⟩

namespace Spiral

open Build

/-- `type Spiral<T> = (Turn<T>, T)`. -/
def spiral : TypeAlias :=
  ⟨.dummy, name "Spiral", [generic "T"], tupleType [typeNode (.path ["Turn"] [type "T"]), type "T"]⟩

/-- `type Turn<T> = &Spiral<(T, T)>`. -/
def turn : TypeAlias :=
  ⟨.dummy, name "Turn", [generic "T"],
    refType (typeNode (.path ["Spiral"] [tupleType [type "T", type "T"]])) false⟩

def scope : TypeScope :=
  { catalog := .empty, decls := { aliases := ⟨[("Spiral", spiral), ("Turn", turn)]⟩ } }

end Spiral

/-- Each turn of the spiral would have a larger argument. The target of the first expansion is
larger than what it is expanded for, but fewer aliases are left; the second turn is refused. -/
theorem lowering_terminates_spiral :
    let first : LowerCall :=
      ⟨⟨Spiral.scope, {}⟩, ⟨.dummy, .path ["Spiral"] [⟨.dummy, .primitive .bool⟩]⟩⟩
    let second : LowerCall := ⟨first.start.push Spiral.spiral [.bool] .dummy, Spiral.spiral.target⟩
    first.Makes second ∧ first.weight = (2, 2) ∧ second.weight = (1, 4) ∧
      Prod.Lex (· < ·) (· < ·) second.weight first.weight ∧
      Lowers first.start [first.type] [.tuple [.var 0, .bool]]
        ⟨Spiral.scope, { nextVar := 1, faults := #[⟨.dummy, .cyclicAlias "Spiral"⟩] }⟩ := by
  intro first second
  have hall := lowering_terminates Spiral.scope {} first.type
  have hargs : Lowers first.start first.type.parts [.bool] first.start :=
    @Lowers.plain _ _ _ _ _ _ _ (expandAlias 0) (.done _) rfl (.done _)
  have hget : Spiral.scope.decls.aliases.get? "Spiral" = some Spiral.spiral := rfl
  have hparam : Spiral.scope.param? "Spiral" = none := rfl
  have halias : first.type.alias? first.start.scope = some Spiral.spiral := by
    simp [first, TypeExpr.alias?, TypeExpr.pathName?, joinPath, hget, hparam]
  have hmakes : first.Makes second := .target hargs halias List.not_mem_nil
  refine ⟨hmakes, by cbv, by cbv, hall.1 first second .refl hmakes, ?_⟩
  exact (hall.2.2 _ _).mpr ⟨rfl, by cbv⟩

end Sema
