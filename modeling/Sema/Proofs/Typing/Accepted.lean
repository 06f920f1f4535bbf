import Mathlib
import Sema.Proofs.Typing.Consistency
import Sema.Syntax.Build

/-!
# Accepted programs

The second pass files a signature for every function and a target for every `impl` block, so
the third visits every body. If the check then succeeds, the final substitution is a valuation
that satisfies its session, and so the types of an accepted program are consistent at every
expression that is checked. The expressions that are not checked are the contracts of functions
without a body.
-/

namespace Sema

/-- The expressions of a function that are checked: none unless it has a body. -/
def FunctionDef.checked (d : FunctionDef) : List Expr :=
  match d.body with
  | some b => d.contracts.flatMap (·.condition.nodes) ++ b.nodes
  | none => []

def Item.checked : Item → List Expr
  | .function d => d.checked
  | .const d => d.value.nodes
  | .trait d => d.methods.flatMap (·.checked)
  | .impl d => d.methods.flatMap (·.checked)
  | .struct _ | .enum _ | .typeAlias _ | .imports _ => []

/-- The expressions of a program that are checked. -/
def Program.checked (p : Program) : List Expr := p.items.flatMap (·.checked)

theorem FunctionDef.checked_sublist (d : FunctionDef) : d.checked.Sublist d.nodes := by
  unfold checked nodes
  cases d.body with
  | some b => exact .refl _
  | none => exact List.nil_sublist _

theorem sublist_flatMap {α β : Type} {f g : α → List β} (h : ∀ a, (f a).Sublist (g a))
    (l : List α) : (l.flatMap f).Sublist (l.flatMap g) := by
  induction l with
  | nil => exact .refl _
  | cons a l ih =>
    simp only [List.flatMap_cons]
    exact (h a).append ih

theorem Item.checked_sublist (item : Item) : item.checked.Sublist item.nodes := by
  cases item with
  | function d => exact d.checked_sublist
  | trait d => exact sublist_flatMap FunctionDef.checked_sublist _
  | impl d => exact sublist_flatMap FunctionDef.checked_sublist _
  | _ => exact .refl _

theorem Program.checked_sublist (p : Program) : p.checked.Sublist p.nodes :=
  sublist_flatMap Item.checked_sublist p.items

/-- Whatever the session, the result of the check has `Q`. -/
def Yields {α : Type} (m : Check α) (Q : α → Prop) : Prop := ∀ s, Q (m.run s).1

namespace Yields

variable {α β : Type} {P Q : α → Prop}

theorem any (m : Check α) : Yields m fun _ => True := fun _ => trivial

theorem pure {a : α} (h : Q a) : Yields (pure a : Check α) Q := fun _ => h

theorem bind {R : β → Prop} {m : Check α} {f : α → Check β} (hm : Yields m P)
    (hf : ∀ a, P a → Yields (f a) R) : Yields (m >>= f) R :=
  fun s => hf _ (hm s) _

end Yields

namespace Interface

/-- Every name with a signature in `i` has one in `j`. -/
def Within (i j : Interface) : Prop :=
  ∀ name, i.signatures.contains name = true → j.signatures.contains name = true

theorem Within.trans {i j k : Interface} (h : i.Within j) (h' : j.Within k) : i.Within k :=
  fun name hn => h' name (h name hn)

/-- No signature is lost, and the targets are the same. -/
structure Extends (i j : Interface) : Prop where
  within : i.Within j
  impls : j.impls = i.impls

theorem Extends.of_same {i j : Interface} (hs : j.signatures = i.signatures)
    (hi : j.impls = i.impls) : Extends i j :=
  ⟨fun name hn => by rw [hs, hn], hi⟩

theorem Extends.refl (i : Interface) : Extends i i := .of_same rfl rfl

theorem Extends.trans {i j k : Interface} (h : Extends i j) (h' : Extends j k) : Extends i k :=
  ⟨h.within.trans h'.within, h'.impls.trans h.impls⟩

theorem contains_addFunction (i : Interface) (name : String) (s : Signature) (other : String) :
    (i.addFunction name s).signatures.contains other =
      (other == name || i.signatures.contains other) := by
  by_cases h : other = name <;> simp [addFunction, Table.contains, Table.get?_insert, h]

theorem extends_addFunction (i : Interface) (name : String) (s : Signature) :
    Extends i (i.addFunction name s) :=
  ⟨fun other h => by rw [contains_addFunction, h, Bool.or_true], rfl⟩

/-- Every method of the list has a signature under its qualified name. -/
def HasMethods (i : Interface) (typeName : String) (l : List FunctionDef) : Prop :=
  ∀ d ∈ l, i.signatures.contains (typeName ++ "::" ++ d.name.node) = true

theorem HasMethods.of_within {i j : Interface} {typeName : String} {l : List FunctionDef}
    (h : i.HasMethods typeName l) (hij : i.Within j) : j.HasMethods typeName l :=
  fun d hd => hij _ (h d hd)

end Interface

section Induction

variable {P : Interface → Prop} {typeName : String} {i : Interface}

/-- What every method that is added keeps, the methods of a block keep. -/
theorem declareMethods_induct (hadd : ∀ j method s, P j → P (j.addMethod typeName method s))
    (sc : TypeScope) (outer : List (String × Ty)) (h : P i) (l : List FunctionDef) :
    Yields (declareMethods sc typeName outer i l) P := by
  induction l generalizing i with
  | nil => exact .pure h
  | cons d l ih => exact (Yields.any _).bind fun s _ => ih (hadd i _ s h)

theorem inheritMethods_induct (hadd : ∀ j method s, P j → P (j.addMethod typeName method s))
    (sc : TypeScope) (b : ImplBlock) (traitName : String) (outer : List (String × Ty)) (h : P i)
    (l : List FunctionDef) : Yields (inheritMethods sc b traitName typeName outer i l) P := by
  induction l generalizing i with
  | nil => exact .pure h
  | cons d l ih =>
    unfold inheritMethods
    split
    · exact ih h
    · split
      · exact (declareMethods_induct hadd sc outer h [d]).bind fun _ hj => ih hj
      · exact (Yields.any _).bind fun _ _ => ih h

theorem implementTrait_induct (hadd : ∀ j method s, P j → P (j.addMethod typeName method s))
    (sc : TypeScope) (b : ImplBlock) (outer : List (String × Ty)) (h : P i) (traitName : Ident) :
    Yields (implementTrait sc b typeName outer i traitName) P := by
  unfold implementTrait
  split
  · exact (Yields.any _).bind fun _ _ => .pure h
  · exact (inheritMethods_induct hadd sc b _ outer h _).bind fun j hj =>
      (Yields.any _).bind fun _ _ => .pure hj

/-- What every constructor that is added keeps, the variants of an enumeration keep. -/
theorem declareVariants_induct {vars : List Nat}
    (hadd : ∀ j name body, P j → P (j.addConstructor name ⟨vars, body⟩)) (sc : TypeScope)
    (enum : String) (result : Ty) (h : P i) (l : List VariantDef) :
    Yields (declareVariants sc enum vars result i l) P := by
  induction l generalizing i with
  | nil => exact .pure h
  | cons d l ih =>
    unfold declareVariants
    split
    · exact (Yields.any _).bind fun _ _ => ih (hadd i _ _ h)
    · exact (Yields.any _).bind fun _ _ => (Yields.any _).bind fun _ _ => ih (hadd i _ _ h)

end Induction

section Declaring

open Interface (Extends)

theorem declareMethods_yields (sc : TypeScope) (typeName : String) (outer : List (String × Ty))
    (i : Interface) (l : List FunctionDef) :
    Yields (declareMethods sc typeName outer i l) fun j =>
      Extends i j ∧ j.HasMethods typeName l := by
  induction l generalizing i with
  | nil => exact .pure ⟨.refl i, by simp [Interface.HasMethods]⟩
  | cons d l ih =>
    refine (Yields.any _).bind fun s _ t => ?_
    obtain ⟨hext, hl⟩ := ih (i.addMethod typeName d.name.node s) t
    have hadd := i.extends_addFunction (typeName ++ "::" ++ d.name.node) s
    refine ⟨⟨hadd.within.trans hext.within, hext.impls⟩, fun m hm => ?_⟩
    rcases List.mem_cons.mp hm with rfl | hm
    · refine hext.within _ ?_
      change (i.addFunction (typeName ++ "::" ++ m.name.node) s).signatures.contains _ = true
      simp [Interface.contains_addFunction]
    · exact hl m hm

theorem declareVariants_yields (sc : TypeScope) (enum : String) (vars : List Nat) (result : Ty)
    (i : Interface) (l : List VariantDef) :
    Yields (declareVariants sc enum vars result i l) (Extends i) :=
  declareVariants_induct (fun _ _ _ h => h.trans (.of_same rfl rfl)) sc enum result (.refl i) l

theorem declareEnum_yields (sc : TypeScope) (i : Interface) (d : EnumDef) :
    Yields (declareEnum sc i d) (Extends i) :=
  (Yields.any _).bind fun _ _ => declareVariants_yields _ _ _ _ i _

theorem implementTrait_yields (sc : TypeScope) (b : ImplBlock) (typeName : String)
    (outer : List (String × Ty)) (i : Interface) (traitName : Ident) :
    Yields (implementTrait sc b typeName outer i traitName) (Extends i) := by
  refine implementTrait_induct (fun j method s h => h.trans ?_) sc b outer (.refl i) traitName
  exact ⟨(j.extends_addFunction (typeName ++ "::" ++ method) s).within, rfl⟩

/-- The bodies of the item can be checked: its functions have signatures, and `targets` holds
the target of an `impl` block and nothing for other items. -/
def Item.Declared (i : Interface) (targets : List ImplTarget) : Item → Prop
  | .function d => targets = [] ∧ i.signatures.contains d.name.node = true
  | .impl b => ∃ target, targets = [target] ∧ i.HasMethods target.typeName b.methods
  | .trait d => targets = [] ∧ i.HasMethods d.name.node d.methods
  | .const _ | .struct _ | .enum _ | .typeAlias _ | .imports _ => targets = []

theorem Item.Declared.of_within {i j : Interface} {targets : List ImplTarget} {item : Item}
    (h : item.Declared i targets) (hij : i.Within j) : item.Declared j targets := by
  cases item with
  | function d => exact ⟨h.1, hij _ h.2⟩
  | impl b =>
    obtain ⟨target, htarget, hmethods⟩ := h
    exact ⟨target, htarget, hmethods.of_within hij⟩
  | trait d => exact ⟨h.1, h.2.of_within hij⟩
  | _ => exact h

theorem declareImpl_yields (sc : TypeScope) (i : Interface) (b : ImplBlock) :
    Yields (declareImpl sc i b) fun j => ∃ target, i.Within j ∧
      j.impls = i.impls ++ [target] ∧ j.HasMethods target.typeName b.methods := by
  unfold declareImpl
  refine (Yields.any _).bind fun _ _ => (Yields.any _).bind fun self _ =>
    (declareMethods_yields _ _ _ _ _).bind fun j hj => ?_
  have hlast : ∀ k, Extends j k → Yields
      (pure { k with impls := k.impls ++ [⟨self.nominalName?.getD b.target.text, self⟩] } : Check _)
      fun j => ∃ target, i.Within j ∧ j.impls = i.impls ++ [target] ∧
        j.HasMethods target.typeName b.methods := by
    intro k hk
    refine .pure ⟨⟨self.nominalName?.getD b.target.text, self⟩, ?_, ?_, ?_⟩
    · exact hj.1.within.trans hk.within
    · rw [hk.impls, hj.1.impls]
    · exact hj.2.of_within hk.within
  split
  · exact (implementTrait_yields _ _ _ _ _ _).bind hlast
  · exact (Yields.pure (.refl j)).bind hlast

theorem interfaceItem_yields (sc : TypeScope) (i : Interface) (item : Item) :
    Yields (interfaceItem sc i item) fun j => ∃ targets, i.Within j ∧
      j.impls = i.impls ++ targets ∧ item.Declared j targets := by
  cases item with
  | function d =>
    simp only [interfaceItem]
    split
    · rename_i hdeclared
      exact (Yields.any _).bind fun _ _ => .pure ⟨[], fun _ h => h, by simp, rfl, hdeclared⟩
    · refine (Yields.any _).bind fun s _ => .pure ⟨[], ?_, ?_, rfl, ?_⟩
      · exact (i.extends_addFunction _ s).within
      · simp [Interface.addFunction]
      · simp [Interface.contains_addFunction]
  | impl b =>
    intro s
    obtain ⟨target, hwithin, himpls, hmethods⟩ := declareImpl_yields sc i b s
    exact ⟨[target], hwithin, himpls, target, rfl, hmethods⟩
  | trait d =>
    refine (Yields.any _).bind fun generics _ s => ?_
    obtain ⟨hext, hmethods⟩ := declareMethods_yields
      { sc with selfTy := some (.named d.name.node) } d.name.node generics i d.methods s
    exact ⟨[], hext.within, hext.impls.trans (List.append_nil _).symm, rfl, hmethods⟩
  | enum d =>
    intro s
    have hext := declareEnum_yields sc i d s
    exact ⟨[], hext.within, hext.impls.trans (List.append_nil _).symm, rfl⟩
  | const d =>
    exact (Yields.any _).bind fun t _ =>
      .pure ⟨[], fun _ h => h, by simp [Interface.addConst], rfl⟩
  | struct d => exact .pure ⟨[], fun _ h => h, by simp, rfl⟩
  | typeAlias d => exact .pure ⟨[], fun _ h => h, by simp, rfl⟩
  | imports d => exact .pure ⟨[], fun _ h => h, by simp, rfl⟩

/-- The targets of the `impl` blocks of some items, in order, and signatures for all of their
functions. -/
inductive Interface.Declares (i : Interface) : List ImplTarget → List Item → Prop
  | nil : Declares i [] []
  | cons {targets rest : List ImplTarget} {item : Item} {items : List Item} :
    item.Declared i targets → Declares i rest items → Declares i (targets ++ rest) (item :: items)

/-- The second pass declares all items. -/
theorem interfaceItems_yields (sc : TypeScope) (i : Interface) (items : List Item) :
    Yields (items.foldlM (interfaceItem sc) i) fun j => ∃ targets, i.Within j ∧
      j.impls = i.impls ++ targets ∧ j.Declares targets items := by
  induction items generalizing i with
  | nil => exact .pure ⟨[], fun _ h => h, by simp, .nil⟩
  | cons item items ih =>
    rw [List.foldlM_cons]
    refine (interfaceItem_yields sc i item).bind fun j hj s => ?_
    obtain ⟨targets, hij, himpls, hitem⟩ := hj
    obtain ⟨rest, hjk, himpls', hrest⟩ := ih j s
    refine ⟨targets ++ rest, hij.trans hjk, ?_, .cons (hitem.of_within hjk) hrest⟩
    rw [himpls', himpls, List.append_assoc]

end Declaring

section Bodies

variable (v : Valuation) (cx : Context)

theorem Infers.forM {α : Type} {v : Valuation} {f : α → Check Unit} {g : α → List Expr}
    (l : List α) (hf : ∀ a ∈ l, Infers v (g a) (f a) fun _ => True) :
    Infers v (l.flatMap g) (l.forM f) fun _ => True := by
  induction l with
  | nil => exact (Infers.pure _).mono rfl fun _ _ => trivial
  | cons a l ih =>
    exact ((hf a List.mem_cons_self).bind fun _ =>
      ih fun b hb => hf b (List.mem_cons_of_mem a hb)).mono (by simp) fun _ _ => trivial

theorem checkContract_infers (ret : Ty) (c : Contract) :
    Infers v c.condition.nodes (checkContract cx ret c) fun _ => True :=
  ((inferExpr_infers v _ c.condition).bind fun _ =>
    Infers.quiet (constrain_notes _ _ _ _).quiet).mono (by simp) fun _ _ => trivial

theorem recordGenerics_quiet (function : String) (span : Span) (generics : List (String × Ty)) :
    Quiet (recordGenerics function span generics) := by
  refine .forM (fun (param, t) => ?_) _
  dsimp only
  split
  · rename_i w _
    exact .event (e := .generic w ⟨function, param, span⟩) trivial fun _ _ => rfl
  · exact .pure _

theorem checkFunction_infers (i : Interface) (d : FunctionDef) (name : String)
    (h : i.signatures.contains name = true) :
    Infers v d.checked (checkFunction cx i d name) fun _ => True := by
  obtain ⟨s, hs⟩ := Option.isSome_iff_exists.mp h
  unfold checkFunction FunctionDef.checked
  rw [hs]
  cases d.body with
  | none => exact .quiet (.pure _)
  | some body =>
    exact ((Infers.forM d.contracts fun c _ => checkContract_infers v _ s.ret c).bind fun _ =>
      (inferBlock_infers v _ body).bind fun _ =>
      (Infers.quiet (constrain_notes _ _ _ _).quiet).bind fun _ =>
      Infers.quiet (recordGenerics_quiet _ _ _)).mono (by simp) fun _ _ => trivial

theorem checkMethods_infers (i : Interface) (typeName : String) (self : Ty)
    (methods : List FunctionDef) (h : i.HasMethods typeName methods) :
    Infers v (methods.flatMap (·.checked)) (checkMethods cx i typeName self methods)
      fun _ => True :=
  .forM methods fun d hd => checkFunction_infers v _ i d _ (h d hd)

/-- The third pass visits every expression that is to be checked. -/
theorem checkBodies_infers (i : Interface) {targets : List ImplTarget} {items : List Item}
    (h : i.Declares targets items) :
    Infers v (items.flatMap (·.checked)) (checkBodies cx i targets items) fun _ => True := by
  induction h with
  | nil => exact .quiet (.pure _)
  | @cons targets rest item items hitem _ ih =>
    cases item with
    | function d =>
      obtain ⟨rfl, hd⟩ := hitem
      exact ((checkFunction_infers v cx i d _ hd).bind fun _ => ih).mono rfl fun _ _ => trivial
    | impl b =>
      obtain ⟨target, rfl, hb⟩ := hitem
      exact ((checkMethods_infers v cx i _ target.selfTy _ hb).bind fun _ => ih).mono rfl
        fun _ _ => trivial
    | trait d =>
      obtain ⟨rfl, hd⟩ := hitem
      exact ((checkMethods_infers v cx i _ _ _ hd).bind fun _ => ih).mono rfl fun _ _ => trivial
    | const d =>
      obtain rfl := hitem
      refine ((inferExpr_infers v cx d.value).bind (R := fun _ _ => True) fun t => ?_).mono rfl
        fun _ _ => trivial
      dsimp only
      split
      · exact ((Infers.quiet (constrain_notes _ _ _ _).quiet).bind fun _ => ih).mono rfl
          fun _ _ => trivial
      · exact ((Infers.pure ()).bind fun _ => ih).mono rfl fun _ _ => trivial
    | _ =>
      obtain rfl := hitem
      exact ih

end Bodies

section Program

variable (catalog : Catalog) (checkEffects : Bool) (p : Program)

/-- The first pass over a program: its declarations, the names it imports, and the session
after that. -/
def Program.declare : (Declarations × Env) × Session :=
  (p.items.foldlM declareItem ({}, catalog.env)).run {}

/-- The scope of the bodies, and of the fields of declared types. -/
def Program.scope : TypeScope := { catalog, decls := (p.declare catalog).1.1 }

/-- The second pass: the interface, and the session after that. -/
def Program.present : Interface × Session :=
  (p.items.foldlM (interfaceItem (p.scope catalog))
    { env := (p.declare catalog).1.2, constructors := catalog.constructors,
      methods := catalog.methods }).run (p.declare catalog).2

/-- Where the bodies start from. -/
def Program.context : Context :=
  { scope := p.scope catalog, env := (p.present catalog).1.env,
    constructors := (p.present catalog).1.constructors, checkEffects }

/-- The third pass, over the bodies. -/
def Program.visit : Check Unit :=
  checkBodies (p.context catalog checkEffects) (p.present catalog).1 (p.present catalog).1.impls
    p.items

/-- The session after the bodies. -/
def Program.visited : Session := ((p.visit catalog checkEffects).run (p.present catalog).2).2

/-- What follows the bodies. -/
theorem finish_visited :
    (finish (p.scope catalog) (p.present catalog).1.methods checkEffects).run
        (p.visited catalog checkEffects) =
      ((checkProgram catalog checkEffects p).solved,
        (checkProgram catalog checkEffects p).session) := rfl

/-- Both passes before the bodies record nothing. -/
theorem Program.present_quiet : Leads Event.IsQuiet {} (p.present catalog).2 := by
  have hdecls : Quiet (p.items.foldlM declareItem ({}, catalog.env)) :=
    Emits.quiet (.foldlM declareItem_notes _ _)
  have hitems : ∀ i, Quiet (p.items.foldlM (interfaceItem (p.scope catalog)) i) :=
    fun i => Emits.quiet (.foldlM (interfaceItem_notes _) _ i)
  exact (hdecls.leads {}).trans ((hitems _).leads _)

theorem Program.present_declares :
    (p.present catalog).1.Declares (p.present catalog).1.impls p.items := by
  obtain ⟨targets, _, himpls, hdeclares⟩ := interfaceItems_yields (p.scope catalog)
    { env := (p.declare catalog).1.2, constructors := catalog.constructors,
      methods := catalog.methods } p.items (p.declare catalog).2
  have htargets : targets = (p.present catalog).1.impls := himpls.symm
  subst htargets
  exact hdeclares

theorem Program.solving_visited : (p.visited catalog checkEffects).Solving := by
  have hstart : Session.Solving {} := ⟨[], [], rfl, rfl⟩
  have hpresent := (p.present_quiet catalog).grows.solving hstart
  have hbodies := checkBodies_infers ⟨fun _ => none, .var⟩ (p.context catalog checkEffects)
    (p.present catalog).1 (p.present_declares catalog)
  exact (hbodies.grows _).solving hpresent

/-- A program is checked by visiting its bodies, after passes that record nothing, and by
finishing what they leave. -/
theorem checkProgram_stages : ∃ (sc : TypeScope) (i : Interface) (cx : Context) (s : Session),
    Leads Event.IsQuiet {} s ∧ i.Declares i.impls p.items ∧
      (finish sc i.methods checkEffects).run ((checkBodies cx i i.impls p.items).run s).2 =
        ((checkProgram catalog checkEffects p).solved,
          (checkProgram catalog checkEffects p).session) :=
  ⟨p.scope catalog, (p.present catalog).1, p.context catalog checkEffects, (p.present catalog).2,
    p.present_quiet catalog, p.present_declares catalog, rfl⟩

/-- What is recorded between two stretches that record nothing is all that is recorded. -/
theorem Infers.recorded_between {v : Valuation} {l : List Expr} {α : Type} {m : Check α}
    {Q : α → Prop} (h : Infers v l m Q) {s t : Session} (hbefore : Leads Event.IsUntyped {} s)
    (hafter : Leads Event.IsUntyped (m.run s).2 t) : t.recorded.Perm (l.map (·.id)) := by
  have hnone : s.recorded = [] := by
    rw [Session.recorded, hbefore.typed_eq]
    rfl
  have hperm := h.records s
  rw [hnone, List.append_nil] at hperm
  rw [Session.recorded, hafter.typed_eq]
  exact hperm

/-- When the solver has succeeded, every constraint of the session is solved, exactly the
checked expressions have been recorded, and a valuation that satisfies the session is
consistent at each of them. -/
theorem checkProgram_solved (v : Valuation)
    (hsolved : (checkProgram catalog checkEffects p).solved = true) :
    (checkProgram catalog checkEffects p).session.Solved ∧
      (checkProgram catalog checkEffects p).session.recorded.Perm (p.checked.map (·.id)) ∧
      (v.Satisfies (checkProgram catalog checkEffects p).session →
        ∀ e ∈ p.checked, e.Consistent v.typing) := by
  obtain ⟨sc, i, cx, s, hquiet, hdeclares, hrun⟩ := checkProgram_stages catalog checkEffects p
  have hbodies := checkBodies_infers v cx i hdeclares
  have hstart : Session.Solving {} := ⟨[], [], rfl, rfl⟩
  have hsolving := (hbodies.grows s).solving (hquiet.grows.solving hstart)
  have hok : ((finish sc i.methods checkEffects).run
      ((checkBodies cx i i.impls p.items).run s).2).1 = true := by rw [hrun, hsolved]
  obtain ⟨hfinal, hfinish⟩ := finish_solved sc i.methods checkEffects hsolving hok
  rw [hrun] at hfinal hfinish
  have huntyped := hquiet.mono fun _ => Event.IsQuiet.isUntyped
  exact ⟨hfinal, hbodies.recorded_between huntyped hfinish,
    fun hv => hbodies.consistent s (hv.of_grows hfinish.grows)⟩

end Program

namespace Table

variable {κ α : Type} [DecidableEq κ]

/-- In a table made from a list in reverse, the first entry of the list for a key counts. -/
theorem get?_ofList_reverse [LT κ] [DecidableLT κ] (l : List (κ × α)) (k : κ) :
    (ofList l.reverse).get? k = find k l := by
  rw [ofList, insertAll, List.foldl_reverse]
  induction l with
  | nil => rfl
  | cons e l ih =>
    rw [List.foldr_cons, get?_insert, ih]
    rfl

theorem isSome_find_iff (l : List (κ × α)) (k : κ) :
    (find k l).isSome = true ↔ k ∈ l.map (·.1) := by
  induction l with
  | nil => simp [find]
  | cons e l ih =>
    obtain ⟨j, b⟩ := e
    by_cases hkj : k = j
    · simp [find, hkj]
    · simp only [find, hkj, if_false, ih, List.map_cons, List.mem_cons, false_or]

theorem find_of_mem {l : List (κ × α)} (hl : (l.map (·.1)).Nodup) {k : κ} {a : α}
    (h : (k, a) ∈ l) : find k l = some a := by
  induction l with
  | nil => cases h
  | cons e l ih =>
    obtain ⟨j, b⟩ := e
    obtain ⟨hj, hrest⟩ := List.nodup_cons.mp hl
    rcases List.mem_cons.mp h with heq | hmem
    · cases heq
      simp [find]
    · have hkj : k ≠ j := by
        rintro rfl
        exact hj (List.mem_map.mpr ⟨_, hmem, rfl⟩)
      simp [find, hkj, ih hrest hmem]

end Table

namespace TypeCheck

theorem get?_types (c : TypeCheck) (i : ExprId) :
    c.types.get? i = (Table.find i c.session.typed).map c.subst.apply := by
  rw [types, Table.get?_map, Table.get?_ofList_reverse]

/-- The valuation that a check arrives at. -/
def valuation (c : TypeCheck) : Valuation := ⟨c.types.get?, c.subst.assignment⟩

theorem typing_valuation (c : TypeCheck) : c.valuation.typing = c.types.get? := rfl

/-- The final substitution satisfies the session of a successful check that has recorded no
expression twice. -/
theorem satisfies_valuation {c : TypeCheck} (hsolved : c.session.Solved) (hok : c.ok = true)
    (hids : c.session.recorded.Nodup) : c.valuation.Satisfies c.session := by
  simp only [ok, Bool.and_eq_true, Array.isEmpty_iff] at hok
  obtain ⟨hflag, hfaults⟩ := hok
  have hsubst : c.subst = c.session.solver.subst := by rw [subst, if_pos hflag]
  refine ⟨fun x hx => ?_, fun d hd => ?_, hfaults⟩
  · have hfind := Table.find_of_mem hids hx
    change c.types.get? x.1 = _
    rw [get?_types, hfind]
    rfl
  · have hholds := hsolved.compatible hd
    rw [Solver.apply, Solver.apply, ← hsubst] at hholds
    exact hholds

theorem triangular_subst {c : TypeCheck} (hsolved : c.session.Solved) : c.subst.Triangular := by
  unfold subst
  split
  · rw [hsolved.2]
    exact Solver.run_triangular .empty _
  · exact .empty

end TypeCheck

/-- The types of an accepted program whose expressions have distinct identities: the final
substitution changes none of them, exactly the checked expressions have one, and at each of
these it goes with the types of its parts. -/
theorem checkProgram_consistent (catalog : Catalog) (checkEffects : Bool) (p : Program)
    (hids : (p.nodes.map (·.id)).Nodup) (hok : (checkProgram catalog checkEffects p).ok = true) :
    (∀ i t, (checkProgram catalog checkEffects p).types.get? i = some t →
      (checkProgram catalog checkEffects p).subst.apply t = t) ∧
    (∀ i, ((checkProgram catalog checkEffects p).types.get? i).isSome = true ↔
      i ∈ p.checked.map (·.id)) ∧
    ∀ e ∈ p.checked, e.Consistent (checkProgram catalog checkEffects p).types.get? := by
  have hflag : (checkProgram catalog checkEffects p).solved = true := by
    simp only [TypeCheck.ok, Bool.and_eq_true] at hok
    exact hok.1
  obtain ⟨hsolved, hrecorded, hconsistent⟩ := checkProgram_solved catalog checkEffects p
    (checkProgram catalog checkEffects p).valuation hflag
  have hnodup : (checkProgram catalog checkEffects p).session.recorded.Nodup :=
    hrecorded.nodup_iff.mpr (hids.sublist (p.checked_sublist.map _))
  have hchecked := hconsistent (TypeCheck.satisfies_valuation hsolved hok hnodup)
  rw [TypeCheck.typing_valuation] at hchecked
  refine ⟨fun i t ht => ?_, fun i => ?_, hchecked⟩
  · rw [TypeCheck.get?_types] at ht
    obtain ⟨u, _, rfl⟩ := Option.map_eq_some_iff.mp ht
    exact (TypeCheck.triangular_subst hsolved).apply_apply u
  · rw [← hrecorded.mem_iff, TypeCheck.get?_types, Option.isSome_map]
    exact Table.isSome_find_iff _ i

namespace Build

-- Programs are evaluated in examples, and a text is slow to split there. A plain name need not be.

/-- Past `l`, with no colon to come, the rest of a text stays in one piece. -/
theorem splitOnAux_of_plain (l r : List Char) (h : ':' ∉ r) :
    String.splitOnAux (.ofList (l ++ r)) "::" 0 ⟨String.utf8Len l⟩ 0 [] =
      [.ofList (l ++ r)] := by
  induction r generalizing l with
  | nil =>
    rw [String.splitOnAux, if_pos ((String.atEnd_of_valid l []).mpr rfl), List.append_nil,
      ← String.rawEndPos_ofList, String.extract_zero_rawEndPos]
    rfl
  | cons c r ih =>
    obtain ⟨hc, hr⟩ := not_or.mp (mt List.mem_cons.mpr h)
    have hend : ¬String.Pos.Raw.atEnd (.ofList (l ++ c :: r)) ⟨String.utf8Len l⟩ = true :=
      fun hend => List.cons_ne_nil c r ((String.atEnd_of_valid l _).mp hend)
    have hcolon : String.Pos.Raw.get "::" 0 = ':' := String.get_of_valid [] [':', ':']
    have hget : ¬(String.Pos.Raw.get (.ofList (l ++ c :: r)) ⟨String.utf8Len l⟩ ==
        String.Pos.Raw.get "::" 0) = true := by
      rw [String.get_of_valid, hcolon]
      simpa using Ne.symm hc
    have hnext : String.Pos.Raw.next (.ofList (l ++ c :: r)) ⟨String.utf8Len l⟩ =
        ⟨String.utf8Len (l ++ [c])⟩ := by
      rw [String.next_of_valid]
      simp
    have hrest := ih (l ++ [c]) hr
    rw [← hnext, List.append_assoc, List.singleton_append] at hrest
    rw [String.splitOnAux, if_neg hend, if_neg hget]
    exact hrest

/-- A name without a colon is a path of one segment. -/
theorem pathType_of_plain {s : String} (h : ':' ∉ s.toList) (args : List TypeExpr) :
    pathType s args = typeNode (.path [s] args) := by
  have hsplit : s.splitOn "::" = [s] := by
    rw [String.splitOn, if_neg (by decide)]
    simpa using splitOnAux_of_plain [] s.toList h
  rw [pathType, hsplit]

theorem type_of_plain {s : String} (hs : Primitive.ofName? s = none) (h : ':' ∉ s.toList) :
    type s = typeNode (.path [s] []) := by
  rw [type, hs]
  exact pathType_of_plain h []

end Build

open Build in
/-- A function that calls itself in one branch of a conditional:
`fn pick(flag: bool, n: i32) -> i32 { if !flag && n < 3 { pick(true, n) } else { n + 1 } }`. -/
def recursivePick : Program :=
  .ofItems [.function (functionOf "pick" [
    .param "flag" (some (type "bool")), .param "n" (some (type "i32")), .returns (type "i32"),
    .body (block [] (some (ifThen
      (binary .and (unary .not (ident "flag")) (binary .lt (ident "n") (int 3)))
      (block [] (some (call (ident "pick") [literal (.bool true), ident "n"])))
      (some (expr (.block (block [] (some (binary .add (ident "n") (int 1))))))))))])]

theorem recursivePick_consistent :
    (recursivePick.nodes.map (·.id)).Nodup ∧ (checkProgram .empty true recursivePick).ok = true ∧
      ∀ e ∈ recursivePick.checked,
        e.Consistent (checkProgram .empty true recursivePick).types.get? := by
  have hids : (recursivePick.nodes.map (·.id)).Nodup := by
    have hlist : recursivePick.nodes.map (·.id) =
        [0, 1, 2, 3, 4, 5, 6, 7, 8, 9, 10, 11, 12, 13, 14] := by cbv
    rw [hlist]
    decide
  have hok : (checkProgram .empty true recursivePick).ok = true := by cbv
  exact ⟨hids, hok, (checkProgram_consistent .empty true recursivePick hids hok).2.2⟩

end Sema
