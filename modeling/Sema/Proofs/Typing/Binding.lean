import Mathlib
import Sema.Analysis
import Sema.Proofs.Typing.Settling
import Sema.Syntax.Build

/-!
# What a pattern binds

Two recursions say what a pattern binds. `Pattern.bindings` goes by the pattern alone, and the
check of moves and the live ranges go by it; the check of types also looks at the constructors,
where a bare upper-case name may be one that is a value, such as `None`, and bind nothing.
`resolve` writes such a name as the constructor that it is. A check without complaints binds the
names of the resolved pattern; so the two agree on every pattern without a bare constructor. A
bare constructor they take differently, and then its second mention is a use of a moved value.
-/

namespace Sema

namespace Pattern

mutual

/-- The pattern with its bare constructors told apart from names. -/
def resolve (constructor : String → Bool) : Pattern → Pattern
  | .ident span name mutable byRef =>
    if constructor name then .enum span [⟨span, name⟩] []
    else .ident span name mutable byRef
  | .tuple span elems => .tuple span (resolveAll constructor elems)
  | .struct span name fields rest => .struct span name (resolveFields constructor fields) rest
  | .enum span path fields => .enum span path (resolveAll constructor fields)
  | .or span alternatives => .or span (resolveAll constructor alternatives)
  | .wildcard span => .wildcard span
  | .literal span value => .literal span value
  | .range span start stop inclusive => .range span start stop inclusive

def resolveAll (constructor : String → Bool) : List Pattern → List Pattern
  | [] => []
  | p :: r => p.resolve constructor :: resolveAll constructor r

def resolveFields (constructor : String → Bool) : List FieldPattern → List FieldPattern
  | [] => []
  | ⟨span, name, pattern⟩ :: r =>
    (match pattern with
      | some p => ⟨span, name, some (p.resolve constructor)⟩
      | none => ⟨span, name, none⟩) :: resolveFields constructor r

end

end Pattern

/-- If the check reports nothing, its result has `Q`; and it only adds to the session. -/
structure Silently {α : Type} (m : Check α) (Q : α → Prop) : Prop where
  growing : Growing m
  result : ∀ s, (after m s).faults = s.faults → Q (m.run s).1

/-- Where nothing has been reported in the end, nothing has been reported on the way. -/
theorem Grows.faults_eq {s t u : Session} (h : Grows s t) (k : Grows t u)
    (hsame : u.faults = s.faults) : t.faults = s.faults ∧ u.faults = t.faults := by
  obtain ⟨l, hl⟩ := h.faults
  obtain ⟨m, hm⟩ := k.faults
  have hnone : l ++ m = [] := by
    have := hm
    rw [hsame, hl, List.append_assoc] at this
    exact List.self_eq_append_right.mp this
  have ht : t.faults = s.faults := by
    rw [(List.append_eq_nil_iff.mp hnone).1, List.append_nil] at hl
    exact Array.toList_inj.mp hl
  exact ⟨ht, hsame.trans ht.symm⟩

namespace Silently

variable {α β : Type} {m : Check α} {f : α → Check β} {P : α → Prop} {Q : β → Prop}

theorem pure {a : α} (h : P a) : Silently (pure a : Check α) P := ⟨.pure a, fun _ _ => h⟩

theorem bind (hm : Silently m P) (hf : ∀ a, Silently (f a) fun b => P a → Q b) :
    Silently (m >>= f) Q := by
  refine ⟨hm.growing.bind fun a => (hf a).growing, fun s hs => ?_⟩
  obtain ⟨hfirst, hsecond⟩ := (hm.growing s).faults_eq ((hf _).growing _) hs
  exact (hf _).result _ hsecond (hm.result s hfirst)

/-- A step whose result does not matter. -/
theorem skip (hm : Growing m) (hf : ∀ a, Silently (f a) Q) : Silently (m >>= f) Q := by
  refine ⟨hm.bind fun a => (hf a).growing, fun s hs => ?_⟩
  exact (hf _).result _ ((hm s).faults_eq ((hf _).growing _) hs).2

/-- A report is not silent. -/
theorem report {fault : TypeFault} {span : Span} {g : Unit → Check β} (hg : ∀ a, Growing (g a)) :
    Silently (report fault span >>= g) Q := by
  refine ⟨(report_growing fault span).bind hg, fun s hs => ?_⟩
  obtain ⟨hfirst, -⟩ := (report_growing fault span s).faults_eq (hg _ _) hs
  have hsize : (s.faults.push ⟨span, fault⟩).size = s.faults.size := congrArg Array.size hfirst
  simp at hsize

theorem mono {R : α → Prop} (hm : Silently m P) (h : ∀ a, P a → R a) : Silently m R :=
  ⟨hm.growing, fun s hs => h _ (hm.result s hs)⟩

end Silently

theorem Table.mem_keys_ofList {α : Type} (l : List (String × α)) (name : String) :
    name ∈ (Table.ofList l).keys ↔ name ∈ l.map (·.1) := by
  have hall : ∀ t : Table String α, name ∈ (t.insertAll l).keys ↔
      name ∈ l.map (·.1) ∨ name ∈ t.keys := by
    induction l with
    | nil => exact fun t => (or_iff_right (by simp)).symm
    | cons e l ih =>
      intro t
      have hstep : name ∈ (t.insertAll (e :: l)).keys ↔
          name ∈ l.map (·.1) ∨ name ∈ (t.insert e.1 e.2).keys := ih (t.insert e.1 e.2)
      rw [hstep, mem_keys_insert, List.map_cons, List.mem_cons, or_left_comm, or_assoc]
  exact (hall .empty).trans (or_iff_left (by simp [keys, empty]))

/-- The names of `bound`, each perhaps more than once. -/
def Shows (names : List String) (bound : Bound) : Prop :=
  ∀ name, name ∈ bound.map (·.1) ↔ name ∈ names

theorem Shows.append_map {b c : List (String × Span)} {x y : Bound} (hx : Shows (b.map (·.1)) x)
    (hy : Shows (c.map (·.1)) y) : Shows ((b ++ c).map (·.1)) (x ++ y) := by
  intro name
  rw [List.map_append, List.map_append, List.mem_append, List.mem_append, hx name, hy name]

theorem Shows.ofList {a : List String} {x : Bound} (hx : Shows a x) :
    Shows a (Table.ofList x).entries :=
  fun name => (Table.mem_keys_ofList x name).trans (hx name)

/-- Does a bare name stand for a constructor? -/
def Context.isConstructor (cx : Context) (name : String) : Bool :=
  (cx.valueConstructor? name).isSome

theorem freshMany_length : (n : Nat) → Silently (freshMany n) fun l => l.length = n
  | 0 => .pure rfl
  | n + 1 => .skip fresh_notes.growing fun _ => (freshMany_length n).bind fun _ =>
      .pure fun h => congrArg Nat.succ h

mutual

theorem checkPattern_shows (cx : Context) : (p : Pattern) → (expected : Ty) →
    Silently (checkPattern cx p expected) (Shows (p.resolve cx.isConstructor).names)
  | .wildcard _, _ => by
    rw [checkPattern]
    exact .pure fun _ => Iff.rfl
  | .ident _ name _ _, _ => by
    rw [checkPattern]
    cases hname : cx.valueConstructor? name with
    | some scheme =>
      refine .skip (instantiate_notes scheme).growing fun t =>
        .skip (constrain_growing _ _ _ _) fun _ => .pure ?_
      simp [Shows, Pattern.resolve, Context.isConstructor, hname, Pattern.names,
        Pattern.bindings, Pattern.bindingsAll]
    | none =>
      refine .pure ?_
      simp [Shows, Pattern.resolve, Context.isConstructor, hname, Pattern.names,
        Pattern.bindings]
  | .literal _ _, _ => by
    rw [checkPattern]
    exact .skip (checkLiteral_notes _ _ _).growing fun _ => .pure fun _ => Iff.rfl
  | .range _ _ _ _, _ => by
    rw [checkPattern]
    exact .skip (Emits.forIn (fun _ => checkLiteral_notes _ _ _) _).growing fun _ =>
      .pure fun _ => Iff.rfl
  | .tuple _ elems, _ => by
    rw [checkPattern]
    exact (freshMany_length _).bind fun types => .skip (constrain_growing _ _ _ _) fun _ =>
      checkPatterns_shows cx elems types
  | .struct _ _ fields _, _ => by
    rw [checkPattern]
    dsimp only
    split
    · exact .report fun _ => (checkFields_notes cx (fun _ => fresh_notes) fields).growing
    · refine .skip (instantiateNominal_notes _ _).growing fun x =>
        .skip (constrain_growing _ _ _ _) fun _ => ?_
      refine (checkFields_shows (cx.enterParams x.2)
        (fun name => (fieldType_notes _ _ _ name).growing) fields).bind fun bound => ?_
      split
      · exact .skip (checkMentioned_notes _ _ _ _).growing fun _ => .pure id
      · exact .pure id
  | .enum _ _ fields, _ => by
    rw [checkPattern]
    dsimp only
    split
    · exact .report fun _ => (checkUnknown_notes cx fields).growing
    · refine .skip (instantiate_notes _).growing fun t => ?_
      split
      · refine .skip (constrain_growing _ _ _ _) fun _ => ?_
        split
        · exact .report fun _ => (checkPatterns_notes cx fields _).growing
        · rename_i hlength
          exact (checkPatterns_shows cx fields _).mono fun _ h => h (by simpa using hlength)
      · refine .skip (constrain_growing _ _ _ _) fun _ => ?_
        split
        · exact .report fun _ => .pure _
        · obtain rfl : fields = [] := by simpa using ‹¬(!fields.isEmpty) = true›
          exact .pure fun _ => Iff.rfl
  | .or _ [], _ => by
    rw [checkPattern]
    exact .pure fun _ => Iff.rfl
  | .or _ (p :: rest), expected => by
    rw [checkPattern]
    exact (checkPattern_shows cx p expected).bind fun _ =>
      .skip (checkAlternatives_notes cx rest expected _ _).growing fun _ => .pure .ofList

theorem checkPatterns_shows (cx : Context) : (ps : List Pattern) → (ts : List Ty) →
    Silently (checkPatterns cx ps ts) fun bound => ts.length = ps.length →
      Shows ((Pattern.bindingsAll (Pattern.resolveAll cx.isConstructor ps)).map (·.1)) bound
  | p :: ps, t :: ts => by
    rw [checkPatterns]
    refine (checkPattern_shows cx p t).bind fun _ => (checkPatterns_shows cx ps ts).bind fun _ =>
      .pure fun hrest hfirst hlength => ?_
    exact hfirst.append_map (hrest (Nat.succ.inj hlength))
  | [], _ => by
    rw [checkPatterns]
    · exact .pure fun _ _ => Iff.rfl
    · simp
  | _ :: _, [] => by
    rw [checkPatterns]
    · exact .pure fun h => nomatch h
    · simp

theorem checkFields_shows (cx : Context) {type : Ident → Check Ty}
    (htype : ∀ name, Growing (type name)) : (fields : List FieldPattern) →
    Silently (checkFields cx type fields)
      (Shows ((Pattern.bindingsFields (Pattern.resolveFields cx.isConstructor fields)).map (·.1)))
  | [] => by
    rw [checkFields]
    exact .pure fun _ => Iff.rfl
  | ⟨_, name, some p⟩ :: r => by
    rw [checkFields]
    refine .skip (htype name) fun t => (checkPattern_shows cx p t).bind fun _ =>
      (checkFields_shows cx htype r).bind fun _ => .pure fun hrest hfirst => ?_
    exact hfirst.append_map hrest
  | ⟨_, name, none⟩ :: r => by
    rw [checkFields]
    have hname : ∀ t : Ty, Shows ([(name.node, name.span)].map (·.1)) [(name.node, t)] :=
      fun _ _ => Iff.rfl
    refine .skip (htype name) fun t => (Silently.pure (hname t)).bind fun _ =>
      (checkFields_shows cx htype r).bind fun _ => .pure fun hrest hfirst => ?_
    exact hfirst.append_map hrest

end

namespace Pattern

variable {constructor : String → Bool}

mutual

/-- Without a bare constructor there is nothing to resolve. -/
theorem bindings_resolve : (p : Pattern) → (∀ x ∈ p.bindings, constructor x.1 = false) →
    (p.resolve constructor).bindings = p.bindings
  | .wildcard _, _ => rfl
  | .ident span name _ _, h => by
    have hname : constructor name = false := h (name, span) (by simp [bindings])
    simp [resolve, hname]
  | .literal _ _, _ => rfl
  | .tuple _ elems, h => bindingsAll_resolve elems h
  | .struct _ _ fields _, h => bindingsFields_resolve fields h
  | .enum _ _ fields, h => bindingsAll_resolve fields h
  | .or _ [], _ => rfl
  | .or _ (p :: _), h => bindings_resolve p h
  | .range _ _ _ _, _ => rfl

theorem bindingsAll_resolve : (l : List Pattern) →
    (∀ x ∈ bindingsAll l, constructor x.1 = false) →
    bindingsAll (resolveAll constructor l) = bindingsAll l
  | [], _ => rfl
  | p :: r, h => by
    simp only [bindingsAll, List.forall_mem_append] at h
    simp only [resolveAll, bindingsAll, bindings_resolve p h.1, bindingsAll_resolve r h.2]

theorem bindingsFields_resolve : (l : List FieldPattern) →
    (∀ x ∈ bindingsFields l, constructor x.1 = false) →
    bindingsFields (resolveFields constructor l) = bindingsFields l
  | [], _ => rfl
  | ⟨_, _, some p⟩ :: r, h => by
    simp only [bindingsFields, List.forall_mem_append] at h
    simp only [resolveFields, bindingsFields, bindings_resolve p h.1,
      bindingsFields_resolve r h.2]
  | ⟨_, _, none⟩ :: r, h => by
    simp only [bindingsFields, List.forall_mem_append] at h
    simp only [resolveFields, bindingsFields, bindingsFields_resolve r h.2]

end

end Pattern

/-- A check that adds no complaint binds the names of the resolved pattern; where the pattern
has no bare constructor these are all its names. -/
theorem checkPattern_binds (cx : Context) (p : Pattern) (expected : Ty) (s : Session)
    (silent : ((checkPattern cx p expected).run s).2.faults = s.faults) :
    (∀ name, name ∈ ((checkPattern cx p expected).run s).1.map (·.1) ↔
      name ∈ (p.resolve cx.isConstructor).names) ∧
    ((∀ name ∈ p.names, cx.valueConstructor? name = none) →
      ∀ name, name ∈ ((checkPattern cx p expected).run s).1.map (·.1) ↔ name ∈ p.names) := by
  have hshows := (checkPattern_shows cx p expected).result s silent
  refine ⟨hshows, fun hbare => ?_⟩
  have hsame : (p.resolve cx.isConstructor).names = p.names := by
    refine congrArg (List.map (·.1)) (p.bindings_resolve fun x hx => ?_)
    have hnone := hbare x.1 (List.mem_map_of_mem hx)
    simp [Context.isConstructor, hnone]
  rwa [hsame] at hshows

namespace BareNone

open Build

/-- The type `Option` and its constructor `None`. -/
def catalog : Catalog :=
  Catalog.empty |>.type Ty.optionName 1 |>.constructor "None" ⟨[0], .app Ty.optionName [.var 0]⟩

/-- Outside every item. -/
def context : Context where
  scope := { catalog, decls := {} }
  env := catalog.env
  constructors := catalog.constructors

/-- `(None, x)`. -/
def pair : Pattern := .tuple .dummy [patIdent "None", patIdent "x"]

/-- `(None, None)`. -/
def nones : Expr := expr (.tuple [ident "None", ident "None"])

/-- `fn f() { match None { None => (None, None) }; }`. -/
def program : Program where
  items := [.function (functionOf "f" [.body (block
    [.expr (matchOn (ident "None") [arm (patIdent "None") none nones])] none)])]

end BareNone

/-- Of `None` and `x`, only `x` is a name. -/
theorem bareNone_pair_binds :
    let run := (checkPattern BareNone.context BareNone.pair (.var 0)).run { nextVar := 1 }
    run.2.faults = #[] ∧ ∀ name, name ∈ run.1.map (·.1) ↔ name ∈ ["x"] := by
  intro run
  have hsilent : run.2.faults = #[] := rfl
  have hnames : (BareNone.pair.resolve BareNone.context.isConstructor).names = ["x"] := by
    decide +kernel
  have hbinds := checkPattern_binds BareNone.context BareNone.pair (.var 0) { nextVar := 1 } hsilent
  exact ⟨hsilent, hnames ▸ hbinds.1⟩

/-- `None` is no name for the check of types, and a name for the check of moves; so a program
is refused for a value that nothing has moved. -/
theorem bareNone_taken_for_name :
    let run := (checkPattern BareNone.context (Build.patIdent "None") (.var 0)).run { nextVar := 1 }
    run.2.faults = #[] ∧ run.1 = [] ∧ (Build.patIdent "None").names = ["None"] ∧
      (checkProgram BareNone.catalog true BareNone.program).ok = true ∧
      BareNone.program.ownershipFaults = [⟨.dummy, .useMoved "None" (some .dummy)⟩] := by
  intro run
  have hok : (checkProgram BareNone.catalog true BareNone.program).ok = true := by cbv
  exact ⟨rfl, rfl, rfl, hok, rfl⟩

end Sema
