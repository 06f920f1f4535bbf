import Sema.Proofs.Typing.Origins
import Sema.Proofs.Typing.Registration

/-!
# The function around an expression

What an expression performs counts against the function around it. The check knows that function by
the first frame of the context, which the body of a function sets and a lambda takes over; a lambda
in the value of a constant, with no function around it, gets a name and an empty declaration of its
own.

Main statement: for an expression on the walk over a program, the frame says what the syntax says.
It is that of a function if the walk has come to the expression through that function, with the
effects of the signature on file under its name; it is that of a lambda if the walk has come there
through a lambda in a constant.
-/

namespace Sema

/-- The function around, with the effects that it declares. -/
def Context.caller? (cx : Context) : Option (String × EffectSet) :=
  cx.frames.head?.map fun f => (f.name, f.effects)

/-- What a lambda outside every function is called, and what it declares. -/
def Frame.loose : String × EffectSet := ("<lambda>", .empty)

namespace Task

/-- Inside a body or a value, and not on the way to one. -/
def isBody : Task → Bool
  | function .. | methods .. | items .. => false
  | _ => true

def isLambda : Task → Bool
  | expr _ ⟨_, _, .lambda ..⟩ => true
  | _ => false

/-- The function around what the task runs. -/
def passes (t : Task) : Option (String × EffectSet) :=
  if t.isLambda then some (t.context.caller?.getD Frame.loose) else t.context.caller?

end Task

theorem Context.caller?_lambdaFrame (cx : Context) (ret : Ty) (env : Env)
    (loops : List (Option Ty)) :
    Context.caller? { cx with env, frames := cx.lambdaFrame ret :: cx.frames, loops } =
      some (cx.caller?.getD Frame.loose) := by
  unfold caller? lambdaFrame
  cases cx.frames.head? <;> rfl

section Calls

variable (cx : Context) (s : Session)

/-- The task is inside, with that function around it. -/
def Task.Under (caller : Option (String × EffectSet)) (t : Task) : Prop :=
  t.isBody = true ∧ t.context.caller? = caller

theorem optionCall_under {cx cy : Context} (h : cy.caller? = cx.caller?) (s : Session)
    (e : Option Expr) : ∀ x ∈ optionCall cy s e, x.1.Under cx.caller? := by
  cases e with
  | none => simp [optionCall]
  | some e => exact List.forall_mem_singleton.mpr ⟨rfl, h⟩

theorem kindCalls_under (id : ExprId) (span : Span) (k : ExprKind) :
    ∀ x ∈ k.calls cx s, x.1.Under (Task.expr cx ⟨id, span, k⟩).passes := by
  cases k with
  | lambda params ret body isMove =>
    exact List.forall_mem_singleton.mpr ⟨rfl, cx.caller?_lambdaFrame _ _ _⟩
  | structLit name fields base =>
    simp only [ExprKind.calls]
    split <;> exact List.forall_mem_cons.mpr ⟨⟨rfl, rfl⟩, optionCall_under rfl _ base⟩
  | ifThen cond thenBranch elseBranch =>
    exact List.forall_mem_cons.mpr ⟨⟨rfl, rfl⟩, List.forall_mem_cons.mpr ⟨⟨rfl, rfl⟩,
      optionCall_under rfl _ elseBranch⟩⟩
  | range start stop inclusive =>
    exact List.forall_mem_append.mpr
      ⟨optionCall_under rfl _ start, optionCall_under rfl _ stop⟩
  | literal _ => simp [ExprKind.calls]
  | ident _ => simp [ExprKind.calls]
  | path _ => simp [ExprKind.calls]
  | binary _ _ _ => exact forall_mem_pair ⟨rfl, rfl⟩ ⟨rfl, rfl⟩
  | call _ _ => exact forall_mem_pair ⟨rfl, rfl⟩ ⟨rfl, rfl⟩
  | methodCall _ _ _ => exact forall_mem_pair ⟨rfl, rfl⟩ ⟨rfl, rfl⟩
  | index _ _ => exact forall_mem_pair ⟨rfl, rfl⟩ ⟨rfl, rfl⟩
  | matchOn _ _ => exact forall_mem_pair ⟨rfl, rfl⟩ ⟨rfl, rfl⟩
  | whileLoop _ _ => exact forall_mem_pair ⟨rfl, rfl⟩ ⟨rfl, rfl⟩
  | forLoop _ _ _ => exact forall_mem_pair ⟨rfl, rfl⟩ ⟨rfl, rfl⟩
  | _ => exact List.forall_mem_singleton.mpr ⟨rfl, rfl⟩

theorem armCalls_under (t result : Ty) (l : List MatchArm) :
    ∀ x ∈ armCalls cx t result s l, x.1.Under cx.caller? := by
  cases l with
  | nil => simp [armCalls]
  | cons arm r =>
    obtain ⟨span, pattern, guard, body⟩ := arm
    exact List.forall_mem_append.mpr ⟨optionCall_under rfl _ guard,
      forall_mem_pair ⟨rfl, rfl⟩ ⟨rfl, rfl⟩⟩

theorem Stmt.calls_under (st : Stmt) : ∀ x ∈ st.calls cx s, x.1.Under cx.caller? := by
  cases st with
  | letBind span pattern ty value mutable => exact optionCall_under rfl s value
  | ret span value => exact optionCall_under rfl s value
  | brk span value => exact optionCall_under rfl s value
  | assign span target value => exact forall_mem_pair ⟨rfl, rfl⟩ ⟨rfl, rfl⟩
  | expr e => exact List.forall_mem_singleton.mpr ⟨rfl, rfl⟩
  | cont span => simp [calls]

end Calls

namespace Task

/-- Only a lambda changes what is around. -/
theorem calls_under (t : Task) (s : Session) (ht : t.isBody = true) :
    ∀ x ∈ t.calls s, x.1.Under t.passes := by
  cases t with
  | function cx i d name => cases ht
  | methods cx i typeName l => cases ht
  | items cx i targets l => cases ht
  | expr cx e =>
    obtain ⟨id, span, kind⟩ := e
    exact kindCalls_under cx s id span kind
  | arms cx t result l => exact armCalls_under cx s t result l
  | stmt cx st => exact st.calls_under cx s
  | block cx b =>
    obtain ⟨span, l, tail⟩ := b
    exact List.forall_mem_cons.mpr ⟨⟨rfl, rfl⟩, optionCall_under rfl _ tail⟩
  | exprs cx l => cases l with
    | nil => simp [calls]
    | cons e r => exact forall_mem_pair ⟨rfl, rfl⟩ ⟨rfl, rfl⟩
  | elems cx elem origin l => cases l with
    | nil => simp [calls]
    | cons e r => exact forall_mem_pair ⟨rfl, rfl⟩ ⟨rfl, rfl⟩
  | values cx l => cases l with
    | nil => simp [calls]
    | cons init r =>
      obtain ⟨span, name, value⟩ := init
      exact forall_mem_pair ⟨rfl, rfl⟩ ⟨rfl, rfl⟩
  | inits cx d struct seen l => cases l with
    | nil => simp [calls]
    | cons init r =>
      obtain ⟨span, name, value⟩ := init
      exact forall_mem_pair ⟨rfl, rfl⟩ ⟨rfl, rfl⟩
  | stmts cx l => cases l with
    | nil => simp [calls]
    | cons st r => exact forall_mem_pair ⟨rfl, rfl⟩ ⟨rfl, rfl⟩
  | contracts cx ret l => cases l with
    | nil => simp [calls]
    | cons c r =>
      refine forall_mem_pair ⟨rfl, ?_⟩ ⟨rfl, rfl⟩
      change (c.context cx ret).caller? = cx.caller?
      unfold Contract.context
      split <;> rfl

/-- A function is around its contracts and its body, with the signature on file. -/
theorem function_calls_under (cx : Context) (i : Interface) (d : FunctionDef) (name : String)
    (s : Session) : ∀ x ∈ (Task.function cx i d name).calls s,
      ∃ sig, i.signatures.get? name = some sig ∧ x.1.Under (some (name, sig.effects)) := by
  simp only [calls]
  split
  · rename_i body sig _ hsig
    exact forall_mem_pair ⟨sig, hsig, rfl, rfl⟩ ⟨sig, hsig, rfl, rfl⟩
  · simp

end Task

/-- The second task runs inside a lambda that runs inside the first. -/
def InLambda (a b : Task × Session) : Prop :=
  ∃ x y, Reaches a x ∧ x.1.isLambda = true ∧ y ∈ x.1.calls x.2 ∧ Reaches y b

section Runs

variable {a b : Task × Session}

/-- What has a function around it runs only what has that function around it. -/
theorem Reaches.under {caller : String × EffectSet} (h : Reaches a b)
    (ha : a.1.Under (some caller)) : b.1.Under (some caller) := by
  induction h with
  | refl => exact ha
  | @tail x y _ hxy ih =>
    have hy := x.1.calls_under x.2 ih.1 y hxy
    rw [Task.passes, ih.2] at hy
    simpa using hy

/-- What has no function around it runs what has none, but for what is inside a lambda. -/
theorem Reaches.under_none (h : Reaches a b) (ha : a.1.Under none) :
    b.1.Under none ∨ b.1.Under (some Frame.loose) ∧ InLambda a b := by
  induction h with
  | refl => exact .inl ha
  | @tail x y hax hxy ih =>
    rcases ih with hx | ⟨hx, u, v, hau, hu, hv, hvx⟩
    · have hy := x.1.calls_under x.2 hx.1 y hxy
      rw [Task.passes, hx.2] at hy
      cases hlambda : x.1.isLambda with
      | true => exact .inr ⟨by simpa [hlambda] using hy, x, y, hax, hlambda, hxy, .refl⟩
      | false => exact .inl (by simpa [hlambda] using hy)
    · have hstep : Reaches x y := .single hxy
      exact .inr ⟨hstep.under hx, u, v, hau, hu, hv, hvx.tail hxy⟩

theorem InLambda.under (h : InLambda a b) (ha : a.1.Under none) : b.1.Under (some Frame.loose) := by
  obtain ⟨x, y, hax, hlambda, hxy, hyb⟩ := h
  refine hyb.under ?_
  rcases hax.under_none ha with hx | ⟨hx, -⟩
  · have hy := x.1.calls_under x.2 hx.1 y hxy
    simpa [Task.passes, hlambda, hx.2] using hy
  · have hstep : Reaches x y := .single hxy
    exact hstep.under hx

/-- Inside a function, that function is around. -/
theorem Reaches.under_function {cx : Context} {i : Interface} {d : FunctionDef} {name : String}
    {s : Session} (h : Reaches (.function cx i d name, s) b) (hb : b.1.isBody = true) :
    ∃ sig, i.signatures.get? name = some sig ∧ b.1.Under (some (name, sig.effects)) := by
  rcases Relation.ReflTransGen.cases_head h with heq | ⟨x, hx, hxb⟩
  · subst heq
    cases hb
  · obtain ⟨sig, hsig, hunder⟩ := Task.function_calls_under cx i d name s x hx
    exact ⟨sig, hsig, Reaches.under hxb hunder⟩

end Runs

def Item.methods : Item → List FunctionDef
  | .impl b => b.methods
  | .trait d => d.methods
  | _ => []

/-- The program has the function under that name: its own, or a qualified one for a method. -/
inductive Program.Defines (p : Program) : FunctionDef → String → Prop
  | function {d : FunctionDef} : .function d ∈ p.items → Defines p d d.name.node
  | method {item : Item} {d : FunctionDef} (typeName : String) : item ∈ p.items →
    d ∈ item.methods → Defines p d (typeName ++ "::" ++ d.name.node)

section Program

variable (catalog : Catalog) (checkEffects : Bool) (p : Program)

/-- What an expression performs counts against that function, which declares these effects: a
function that it is in, or a lambda in a constant. -/
inductive Program.Caller (x : Task × Session) : String → EffectSet → Prop
  | function {cx : Context} {d : FunctionDef} {name : String} {s : Session} {sig : Signature} :
    p.Defines d name → (p.present catalog).1.signatures.get? name = some sig →
    Reaches (p.walk catalog checkEffects) (.function cx (p.present catalog).1 d name, s) →
    Reaches (.function cx (p.present catalog).1 d name, s) x → Caller x name sig.effects
  | lambda {d : ConstDef} {s : Session} : .const d ∈ p.items →
    Reaches (p.walk catalog checkEffects) (.expr (p.context catalog checkEffects) d.value, s) →
    InLambda (.expr (p.context catalog checkEffects) d.value, s) x → Caller x "<lambda>" .empty

/-- Where a task on the walk stands. -/
inductive Program.Placed : Task × Session → Prop
  | items {targets : List ImplTarget} {l : List Item} {s : Session} (hl : l ⊆ p.items) :
    Placed (.items (p.context catalog checkEffects) (p.present catalog).1 targets l, s)
  | methods {cx : Context} {typeName : String} {l : List FunctionDef} {s : Session} {item : Item}
    (hitem : item ∈ p.items) (hl : l ⊆ item.methods) :
    Placed (.methods cx (p.present catalog).1 typeName l, s)
  | function {cx : Context} {d : FunctionDef} {name : String} {s : Session}
    (hd : p.Defines d name) : Placed (.function cx (p.present catalog).1 d name, s)
  | inFunction {cx : Context} {d : FunctionDef} {name : String} {s : Session} {x : Task × Session}
    (hd : p.Defines d name)
    (hs : Reaches (p.walk catalog checkEffects) (.function cx (p.present catalog).1 d name, s))
    (hx : Reaches (.function cx (p.present catalog).1 d name, s) x) (hbody : x.1.isBody = true) :
    Placed x
  | inConst {d : ConstDef} {s : Session} {x : Task × Session} (hd : .const d ∈ p.items)
    (hs : Reaches (p.walk catalog checkEffects)
      (.expr (p.context catalog checkEffects) d.value, s))
    (hx : Reaches (.expr (p.context catalog checkEffects) d.value, s) x)
    (hbody : x.1.isBody = true) : Placed x

variable {catalog checkEffects p}

theorem Program.Placed.item {x : Task × Session} {targets : List ImplTarget} {l : List Item}
    {s : Session} (hl : l ⊆ p.items)
    (hwalk : Reaches (p.walk catalog checkEffects) x)
    (hx : x ∈ itemCalls (p.context catalog checkEffects) (p.present catalog).1 s targets l) :
    p.Placed catalog checkEffects x := by
  cases l with
  | nil => cases hx
  | cons item r =>
    obtain ⟨hitem, hr⟩ := List.cons_subset.mp hl
    cases item with
    | function d =>
      rcases List.mem_cons.mp hx with rfl | hx
      · exact .function (.function hitem)
      · rw [List.mem_singleton.mp hx]
        exact .items hr
    | const d =>
      rcases List.mem_cons.mp hx with rfl | hx
      · exact .inConst hitem hwalk .refl rfl
      · rw [List.mem_singleton.mp hx]
        exact .items hr
    | impl b =>
      cases targets with
      | nil =>
        rw [List.mem_singleton.mp hx]
        exact .items hr
      | cons target rest =>
        rcases List.mem_cons.mp hx with rfl | hx
        · exact .methods hitem (List.Subset.refl _)
        · rw [List.mem_singleton.mp hx]
          exact .items hr
    | trait d =>
      rcases List.mem_cons.mp hx with rfl | hx
      · exact .methods hitem (List.Subset.refl _)
      · rw [List.mem_singleton.mp hx]
        exact .items hr
    | _ =>
      rw [List.mem_singleton.mp hx]
      exact .items hr

/-- What the walk comes to is a list of items or methods, a function, or inside a function or a
constant. -/
theorem Program.placed_of_reaches {x : Task × Session}
    (h : Reaches (p.walk catalog checkEffects) x) : p.Placed catalog checkEffects x := by
  induction h with
  | refl => exact .items (List.Subset.refl _)
  | @tail x y hx hxy ih =>
    have hy : Reaches (p.walk catalog checkEffects) y := hx.tail hxy
    cases ih with
    | items hl => exact .item hl hy hxy
    | @methods cx typeName l s item hitem hl =>
      cases l with
      | nil => cases hxy
      | cons m r =>
        obtain ⟨hm, hr⟩ := List.cons_subset.mp hl
        rcases List.mem_cons.mp hxy with rfl | hxy
        · exact .function (.method typeName hitem hm)
        · rw [List.mem_singleton.mp hxy]
          exact .methods hitem hr
    | @function cx d name s hd =>
      obtain ⟨-, -, hbody, -⟩ := Task.function_calls_under cx _ d name s y hxy
      exact .inFunction hd hx (.single hxy) hbody
    | inFunction hd hs hin hbody =>
      exact .inFunction hd hs (hin.tail hxy) (x.1.calls_under x.2 hbody y hxy).1
    | inConst hd hs hin hbody =>
      exact .inConst hd hs (hin.tail hxy) (x.1.calls_under x.2 hbody y hxy).1

/-- The first frame says which function is around. -/
theorem Program.caller_iff {x : Task × Session} (h : Reaches (p.walk catalog checkEffects) x)
    (hbody : x.1.isBody = true) {name : String} {effects : EffectSet} :
    p.Caller catalog checkEffects x name effects ↔
      x.1.context.caller? = some (name, effects) := by
  constructor
  · rintro (⟨hd, hsig, hs, hx⟩ | ⟨hd, hs, hx⟩)
    · obtain ⟨sig, hsig', hunder⟩ := hx.under_function hbody
      rw [hsig] at hsig'
      cases hsig'
      exact hunder.2
    · exact (hx.under ⟨rfl, rfl⟩).2
  · intro hcaller
    cases p.placed_of_reaches h with
    | items => cases hbody
    | methods => cases hbody
    | function => cases hbody
    | inFunction hd hs hx =>
      obtain ⟨sig, hsig, -, hunder⟩ := hx.under_function hbody
      rw [hcaller] at hunder
      cases hunder
      exact .function hd hsig hs hx
    | inConst hd hs hx =>
      rcases Reaches.under_none hx ⟨rfl, rfl⟩ with hunder | ⟨hunder, hlambda⟩
      · rw [hunder.2] at hcaller
        cases hcaller
      · rw [hunder.2] at hcaller
        cases hcaller
        exact .lambda hd hs hlambda

end Program

section Signatures

variable {p : Program}

/-- Every signature on file declares what some definition of that name declares. -/
def Interface.SignedBy (p : Program) (i : Interface) : Prop :=
  ∀ name s, i.signatures.get? name = some s → ∃ d, p.Defines d name ∧ s.effects = d.effectSet

/-- The traits of the program. -/
def Declarations.TraitsOf (p : Program) (d : Declarations) : Prop :=
  ∀ name t, d.traits.get? name = some t → .trait t ∈ p.items

theorem signature_effects (sc : TypeScope) (d : FunctionDef) (outer : List (String × Ty)) :
    Yields (signature sc d outer) fun s => s.effects = d.effectSet :=
  fun _ => rfl

namespace Interface.SignedBy

variable {i j : Interface}

theorem of_same (h : i.SignedBy p) (hs : j.signatures = i.signatures) : j.SignedBy p := by
  intro name s
  rw [hs]
  exact h name s

theorem addFunction (h : i.SignedBy p) {d : FunctionDef} {name : String} {s : Signature}
    (hd : p.Defines d name) (hs : s.effects = d.effectSet) : (i.addFunction name s).SignedBy p := by
  intro other t ht
  rw [Interface.addFunction, Table.get?_insert] at ht
  split at ht
  · rename_i heq
    cases ht
    exact ⟨d, heq ▸ hd, hs⟩
  · exact h other t ht

theorem declareMethods (h : i.SignedBy p) (sc : TypeScope) (typeName : String)
    (outer : List (String × Ty)) {item : Item} (hitem : item ∈ p.items) {l : List FunctionDef}
    (hl : l ⊆ item.methods) :
    Yields (Sema.declareMethods sc typeName outer i l) (Interface.SignedBy p) := by
  induction l generalizing i with
  | nil => exact .pure h
  | cons d l ih =>
    obtain ⟨hd, hrest⟩ := List.cons_subset.mp hl
    refine (signature_effects sc d outer).bind fun s hs => ih ?_ hrest
    exact (h.addFunction (.method typeName hitem hd) hs).of_same rfl

theorem inheritMethods (h : i.SignedBy p) (sc : TypeScope) (b : ImplBlock)
    (traitName typeName : String) (outer : List (String × Ty)) {t : TraitDef}
    (ht : .trait t ∈ p.items) {l : List FunctionDef} (hl : l ⊆ t.methods) :
    Yields (Sema.inheritMethods sc b traitName typeName outer i l) (Interface.SignedBy p) := by
  induction l generalizing i with
  | nil => exact .pure h
  | cons d l ih =>
    obtain ⟨hd, hrest⟩ := List.cons_subset.mp hl
    unfold Sema.inheritMethods
    split
    · exact ih h hrest
    · split
      · have hone : [d] ⊆ (Item.trait t).methods := List.cons_subset.mpr ⟨hd, List.nil_subset _⟩
        exact (h.declareMethods sc typeName outer ht hone).bind fun j hj => ih hj hrest
      · exact (Yields.any _).bind fun _ _ => ih h hrest

theorem declareImpl (h : i.SignedBy p) (sc : TypeScope) (hsc : sc.decls.TraitsOf p) {b : ImplBlock}
    (hb : .impl b ∈ p.items) : Yields (Sema.declareImpl sc i b) (Interface.SignedBy p) := by
  unfold Sema.declareImpl
  refine (Yields.any _).bind fun generics _ => (Yields.any _).bind fun self _ =>
    (h.declareMethods _ _ _ hb (List.Subset.refl _)).bind fun j hj => ?_
  have hlast : ∀ (k : Interface) targets, k.SignedBy p →
      Yields (pure { k with impls := targets } : Check Interface) (Interface.SignedBy p) :=
    fun k targets hk => .pure (hk.of_same rfl)
  split
  · rename_i t _
    refine Yields.bind (P := Interface.SignedBy p) ?_ fun k hk => hlast k _ hk
    unfold implementTrait
    split
    · exact (Yields.any _).bind fun _ _ => .pure hj
    · rename_i d hd
      exact (hj.inheritMethods _ _ _ _ _ (hsc _ _ hd) (List.Subset.refl _)).bind fun k hk =>
        (Yields.any _).bind fun _ _ => .pure hk
  · exact (Yields.pure hj).bind fun k hk => hlast k _ hk

theorem interfaceItem (h : i.SignedBy p) (sc : TypeScope) (hsc : sc.decls.TraitsOf p) {item : Item}
    (hitem : item ∈ p.items) : Yields (Sema.interfaceItem sc i item) (Interface.SignedBy p) := by
  cases item with
  | function d =>
    simp only [Sema.interfaceItem]
    split
    · exact (Yields.any _).bind fun _ _ => .pure h
    · exact (signature_effects sc d []).bind fun s hs => .pure (h.addFunction (.function hitem) hs)
  | impl b => exact h.declareImpl sc hsc hitem
  | trait d =>
    exact (Yields.any _).bind fun generics _ =>
      h.declareMethods _ _ _ hitem (List.Subset.refl _)
  | enum d =>
    refine (Yields.any _).bind fun params _ s => ?_
    cases declareVariants_filed (sc.enter (.ofList params)) d.name.node
      ((params.map (·.2)).filterMap Ty.asVar) (.nominal d.name.node (params.map (·.2))) i
      d.variants s with
    | nil hs => exact h.of_same hs
  | const d => exact (Yields.any _).bind fun t _ => .pure (h.of_same rfl)
  | struct d => exact .pure h
  | typeAlias d => exact .pure h
  | imports d => exact .pure h

end Interface.SignedBy

theorem declareItem_traits {x : Declarations × Env} (h : x.1.TraitsOf p) {item : Item}
    (hitem : item ∈ p.items) : Yields (declareItem x item) fun y => y.1.TraitsOf p := by
  obtain ⟨d, env⟩ := x
  have hkeep : ∀ (name : Ident) (add : Declarations), add.traits = d.traits →
      Yields (do return (← d.unlessDeclared name add, env)) fun y => y.1.TraitsOf p := by
    intro name add hadd
    refine Yields.bind (P := Declarations.TraitsOf p) ?_ fun e he => .pure he
    unfold Declarations.unlessDeclared
    split
    · exact (Yields.any _).bind fun _ _ => .pure h
    · refine .pure fun n t ht => ?_
      rw [hadd] at ht
      exact h n t ht
  cases item with
  | typeAlias a => exact hkeep a.name _ rfl
  | struct s => exact hkeep s.name _ rfl
  | enum e => exact hkeep e.name _ rfl
  | trait t =>
    refine .pure fun n u hu => ?_
    rw [Table.get?_insert] at hu
    split at hu
    · cases hu
      exact hitem
    · exact h n u hu
  | imports i => exact (Yields.any _).bind fun _ _ => .pure h
  | function d => exact .pure h
  | const d => exact .pure h
  | impl d => exact .pure h

/-- What each item keeps, all of them keep. -/
theorem Yields.foldlM {α β : Type} {P : β → Prop} {f : β → α → Check β} {l : List α}
    (hf : ∀ a ∈ l, ∀ b, P b → Yields (f b a) P) {b : β} (hb : P b) : Yields (l.foldlM f b) P := by
  induction l generalizing b with
  | nil => exact .pure hb
  | cons a l ih =>
    rw [List.foldlM_cons]
    exact (hf a List.mem_cons_self b hb).bind fun c hc =>
      ih (fun a ha => hf a (List.mem_cons_of_mem _ ha)) hc

/-- The declared effects of a function are those of a definition of its name. -/
theorem Program.signedBy_present (p : Program) (catalog : Catalog) :
    (p.present catalog).1.SignedBy p := by
  have htraits : (p.declare catalog).1.1.TraitsOf p :=
    Yields.foldlM (P := fun x : Declarations × Env => x.1.TraitsOf p)
      (fun item hitem _ hx => declareItem_traits hx hitem) (by nofun) {}
  exact Yields.foldlM (fun item hitem i hi => hi.interfaceItem (p.scope catalog) htraits hitem)
    (by nofun) (p.declare catalog).2

theorem FunctionDef.contains_effectSet (d : FunctionDef) (k : EffectKind) :
    d.effectSet.contains k = true ↔ k ∈ d.effects.map (·.kind) ∨ d.isAsync = true ∧ k = .async := by
  unfold effectSet
  split
  · rename_i hasync
    simp only [EffectSet.contains_insert, EffectSet.contains_ofList, Bool.or_eq_true,
      decide_eq_true_eq, hasync, true_and]
    exact or_comm
  · rename_i hasync
    simp only [EffectSet.contains_ofList, decide_eq_true_eq, hasync, false_and, or_false,
      Bool.false_eq_true]

end Signatures

end Sema
