import Sema.Proofs.Typing.Passes
import Sema.Proofs.Typing.Recorded

/-!
# Which signature a body is checked against

The second pass makes a signature from each definition and files it under the name of the
function or the qualified name of the method; the third looks the name up again when it comes to
the body. A function whose name is taken is refused with a complaint, but a method replaces
whatever was filed under its name before, and so does a method that a block takes over from its
trait, and a constant.

`Filing` is what the second pass makes of one definition. The third pass is one check for each
filing, in the same order, and a definition under whose name nothing is filed after it is checked
against the signature that was made from it.
-/

namespace Sema

/-- What a definition is filed under. -/
inductive Key where
  | function (name : String)
  | const (name : String)

/-- What the second pass makes of a definition. -/
inductive Filing where
  /-- A function or method, with the type of `Self` around it, the name it is filed under and
  the signature made from it. -/
  | function (self : Option Ty) (name : String) (d : FunctionDef) (own : Signature)
  /-- A function whose name is taken. -/
  | refused (d : FunctionDef)
  /-- A method that a block takes over from its trait. -/
  | inherited (name : String)
  | const (d : ConstDef) (own : Ty)

namespace Filing

def key : Filing → Option Key
  | function _ name _ _ | inherited name => some (.function name)
  | refused _ => none
  | const d _ => some (.const d.name.node)

/-- What the filing does to the tables of the interface. -/
def Enters (f : Filing) (i j : Interface) : Prop :=
  match f with
  | function _ name _ own => j.signatures = i.signatures.insert name own ∧ j.consts = i.consts
  | refused _ => j.signatures = i.signatures ∧ j.consts = i.consts
  | inherited name => ∃ s, j.signatures = i.signatures.insert name s ∧ j.consts = i.consts
  | const d own => j.signatures = i.signatures ∧ j.consts = i.consts.insert d.name.node own

/-- What was made from the definition is what its name stands for. -/
def OnFile (i : Interface) : Filing → Prop
  | function _ name _ own => i.signatures.get? name = some own
  | const d own => i.consts.get? d.name.node = some own
  | refused _ | inherited _ => True

end Filing

/-- The context of a body inside a block for `self`, if it is in one. -/
def Context.around (cx : Context) : Option Ty → Context
  | some self => cx.withSelf self
  | none => cx

/-- Check the contracts and the body of a function against a signature. -/
def checkAgainst (cx : Context) (d : FunctionDef) (name : String) (s : Signature) : Check Unit :=
  match d.body with
  | some body => do
    let inside := bodyContext cx d name s
    d.contracts.forM (checkContract inside s.ret)
    let t ← inferBlock inside body
    constrain s.ret t ((body.tail.map (·.span)).getD body.span) .return
    recordGenerics name d.name.span s.generics
  | none => return

/-- Check the initialiser of a constant against a type. -/
def checkInitialiser (cx : Context) (d : ConstDef) (declared : Option Ty) : Check Unit := do
  let t ← inferExpr cx d.value
  match declared with
  | some u => constrain u t d.value.span .annotated
  | none => return

/-- What the third pass does for the filing: it looks the name up. -/
def Filing.check (cx : Context) (i : Interface) : Filing → Check Unit
  | function self name d _ => checkFunction (cx.around self) i d name
  | refused d => checkFunction cx i d d.name.node
  | inherited _ => return
  | const d _ => checkInitialiser cx d (i.consts.get? d.name.node)

namespace Interface

/-- The key stands for the same in both. -/
def SameAt (i j : Interface) : Key → Prop
  | .function name => j.signatures.get? name = i.signatures.get? name
  | .const name => j.consts.get? name = i.consts.get? name

theorem SameAt.trans {i j k : Interface} {key : Key} (h : i.SameAt j key) (h' : j.SameAt k key) :
    i.SameAt k key := by
  cases key with
  | function name => exact Eq.trans h' h
  | const name => exact Eq.trans h' h

/-- The tables of the second interface are those of the first after the filings, in order. -/
inductive Filed : Interface → List Filing → Interface → Prop where
  | nil {i j : Interface} (hs : j.signatures = i.signatures) (hc : j.consts = i.consts) :
    Filed i [] j
  | cons {i j k : Interface} {f : Filing} {l : List Filing} (hf : f.Enters i j)
    (hl : Filed j l k) : Filed i (f :: l) k

end Interface

open Interface (Filed SameAt)

section Tables

variable {i j k : Interface} {f : Filing} {l m : List Filing} {key : Key}

theorem Filing.Enters.of_same (h : f.Enters j k) (hs : j.signatures = i.signatures)
    (hc : j.consts = i.consts) : f.Enters i k := by
  cases f <;> simp_all [Enters]

theorem Filing.Enters.sameAt (h : f.Enters i j) (hkey : f.key ≠ some key) : i.SameAt j key := by
  cases key with
  | function name =>
    cases f with
    | function self other d own =>
      have hne : name ≠ other := fun h => hkey (by rw [h]; rfl)
      simp [SameAt, h.1, hne]
    | refused d => simp [SameAt, h.1]
    | inherited other =>
      obtain ⟨s, hs, _⟩ := h
      have hne : name ≠ other := fun h => hkey (by rw [h]; rfl)
      simp [SameAt, hs, hne]
    | const d own => simp [SameAt, h.1]
  | const name =>
    cases f with
    | function self other d own => simp [SameAt, h.2]
    | refused d => simp [SameAt, h.2]
    | inherited other =>
      obtain ⟨s, _, hc⟩ := h
      simp [SameAt, hc]
    | const d own =>
      have hne : name ≠ d.name.node := fun h => hkey (by rw [h]; rfl)
      simp [SameAt, h.2, hne]

theorem Filing.Enters.onFile (h : f.Enters i j) : f.OnFile j := by
  cases f with
  | function self name d own => simp [OnFile, h.1]
  | const d own => simp [OnFile, h.2]
  | _ => trivial

theorem Filing.OnFile.of_sameAt (h : f.OnFile i)
    (hsame : ∀ key, f.key = some key → i.SameAt j key) : f.OnFile j := by
  cases f with
  | function self name d own => exact Eq.trans (hsame _ rfl) h
  | const d own => exact Eq.trans (hsame _ rfl) h
  | _ => trivial

theorem Interface.Filed.append (h : Filed i l j) (h' : Filed j m k) : Filed i (l ++ m) k := by
  induction h with
  | nil hs hc =>
    cases h' with
    | nil hs' hc' => exact .nil (hs'.trans hs) (hc'.trans hc)
    | cons hf hl => exact .cons (hf.of_same hs hc) hl
  | cons hf _ ih => exact .cons hf (ih h')

theorem Interface.Filed.of_same (h : Filed i l j) (hs : k.signatures = j.signatures)
    (hc : k.consts = j.consts) : Filed i l k := by
  simpa using h.append (.nil hs hc)

theorem Interface.Filed.sameAt (h : Filed i l j) (hkey : ∀ f ∈ l, f.key ≠ some key) :
    i.SameAt j key := by
  induction h with
  | nil hs hc =>
    cases key with
    | function name => simp [SameAt, hs]
    | const name => simp [SameAt, hc]
  | @cons i j k f l hf _ ih =>
    exact (hf.sameAt (hkey f List.mem_cons_self)).trans
      (ih fun g hg => hkey g (List.mem_cons_of_mem f hg))

/-- What is filed stays on file until something else is filed under the same key. -/
theorem Interface.Filed.onFile (h : Filed i (l ++ f :: m) k) (hlast : ∀ g ∈ m, g.key ≠ f.key) :
    f.OnFile k := by
  induction l generalizing i with
  | nil =>
    cases h with
    | cons hf hm => exact hf.onFile.of_sameAt fun key hkey => hm.sameAt (hkey ▸ hlast)
  | cons g l ih =>
    cases h with
    | cons _ hl => exact ih hl

end Tables

section SecondPass

/-- The filings of the methods of a block. -/
def methodFilings (sc : TypeScope) (typeName : String) (self : Ty) (outer : List (String × Ty)) :
    List FunctionDef → Check (List Filing)
  | [] => return []
  | d :: r => do
    let own ← signature sc d outer
    return .function (some self) (typeName ++ "::" ++ d.name.node) d own ::
      (← methodFilings sc typeName self outer r)

/-- The block lacks the method, which has a body in the trait. -/
def ImplBlock.takesOver (b : ImplBlock) (m : FunctionDef) : Bool :=
  !b.methods.any (·.name.node == m.name.node) && m.body.isSome

/-- The methods that the block takes over from its trait. -/
def ImplBlock.inherits (b : ImplBlock) (decls : Declarations) : List FunctionDef :=
  match b.traitName.bind fun t => decls.traits.get? t.node with
  | some d => d.methods.filter b.takesOver
  | none => []

/-- The filings of an item, when the second pass has come to it with the interface `i`. -/
def Item.filings (sc : TypeScope) (i : Interface) : Item → Check (List Filing)
  | .function d => do
    if i.signatures.contains d.name.node then
      return [.refused d]
    else
      return [.function none d.name.node d (← signature sc d [])]
  | .const d => return [.const d (← lower sc d.ty)]
  | .impl b => do
    let generics ← supply b.generics []
    let self ← lower (sc.enter (.ofList generics)) b.target
    let typeName := self.nominalName?.getD b.target.text
    let own ← methodFilings { sc with selfTy := some self } typeName self generics b.methods
    let taken := (b.inherits sc.decls).map fun m => typeName ++ "::" ++ m.name.node
    return own ++ taken.map .inherited
  | .trait d => do
    let generics ← supply d.generics []
    let self := Ty.named d.name.node
    methodFilings { sc with selfTy := some self } d.name.node self generics d.methods
  | .struct _ | .enum _ | .typeAlias _ | .imports _ => return []

/-- The filings of the items to come. -/
def filingsFrom (sc : TypeScope) : Interface → Session → List Item → List Filing
  | _, _, [] => []
  | i, s, item :: r =>
    let next := (interfaceItem sc i item).run s
    ((item.filings sc i).run s).1 ++ filingsFrom sc next.1 next.2 r

theorem declareMethods_filed (sc : TypeScope) (typeName : String) (self : Ty)
    (outer : List (String × Ty)) (i : Interface) (l : List FunctionDef) (s : Session) :
    Filed i ((methodFilings sc typeName self outer l).run s).1
      ((declareMethods sc typeName outer i l).run s).1 := by
  induction l generalizing i s with
  | nil => exact .nil rfl rfl
  | cons d l ih =>
    let made := (signature sc d outer).run s
    exact .cons (j := i.addMethod typeName d.name.node made.1) ⟨rfl, rfl⟩ (ih _ made.2)

theorem declareVariants_filed (sc : TypeScope) (enum : String) (vars : List Nat) (result : Ty)
    (i : Interface) (l : List VariantDef) :
    Yields (declareVariants sc enum vars result i l) (Filed i []) := by
  refine declareVariants_induct (fun j name body h => ?_) sc enum result (.nil rfl rfl) l
  have hadd : Filed j [] (j.addConstructor name ⟨vars, body⟩) := .nil rfl rfl
  exact h.append hadd

theorem inheritMethods_filed (sc : TypeScope) (b : ImplBlock) (traitName typeName : String)
    (outer : List (String × Ty)) (i : Interface) (l : List FunctionDef) :
    Yields (inheritMethods sc b traitName typeName outer i l) (Filed i
      (((l.filter b.takesOver).map fun m => typeName ++ "::" ++ m.name.node).map .inherited)) := by
  induction l generalizing i with
  | nil => exact .pure (.nil rfl rfl)
  | cons d l ih =>
    rw [inheritMethods]
    split
    · rename_i hhas
      rw [List.filter_cons_of_neg (by simp [ImplBlock.takesOver, hhas])]
      exact ih i
    · rename_i hlacks
      split
      · rename_i hbody
        rw [List.filter_cons_of_pos (by simp [ImplBlock.takesOver, hlacks, hbody])]
        intro s
        let made := (signature sc d outer).run s
        exact .cons (j := i.addMethod typeName d.name.node made.1) ⟨_, rfl, rfl⟩ (ih _ made.2)
      · rename_i hbody
        rw [List.filter_cons_of_neg (by simp [ImplBlock.takesOver, hbody])]
        exact (Yields.any _).bind fun _ _ => ih i

theorem implementTrait_filed (sc : TypeScope) (b : ImplBlock) (typeName : String)
    (outer : List (String × Ty)) (i : Interface) (t : Ident) (ht : b.traitName = some t) :
    Yields (implementTrait sc b typeName outer i t) (Filed i (((b.inherits sc.decls).map
      fun m => typeName ++ "::" ++ m.name.node).map .inherited)) := by
  unfold implementTrait ImplBlock.inherits
  rw [ht, Option.bind_some]
  cases sc.decls.traits.get? t.node with
  | none => exact (Yields.any _).bind fun _ _ => .pure (.nil rfl rfl)
  | some d =>
    exact (inheritMethods_filed sc b t.node typeName outer i d.methods).bind fun j hj =>
      (Yields.any _).bind fun _ _ => .pure hj

theorem checkMethods_filings (sc : TypeScope) (typeName : String) (self : Ty)
    (outer : List (String × Ty)) (l : List FunctionDef) (s : Session) (cx : Context)
    (k : Interface) :
    ((methodFilings sc typeName self outer l).run s).1.forM (Filing.check cx k) =
      checkMethods cx k typeName self l := by
  induction l generalizing s with
  | nil => rfl
  | cons d l ih =>
    let made := (signature sc d outer).run s
    have hrun : ((methodFilings sc typeName self outer (d :: l)).run s).1 =
        .function (some self) (typeName ++ "::" ++ d.name.node) d made.1 ::
          ((methodFilings sc typeName self outer l).run made.2).1 := rfl
    rw [hrun]
    exact congrArg (checkFunction (cx.withSelf self) k d _ >>= fun _ => ·) (ih made.2)

theorem check_inherited (names : List String) (cx : Context) (k : Interface) :
    (names.map .inherited).forM (Filing.check cx k) = pure () := by
  induction names with
  | nil => rfl
  | cons name names ih => exact ih

/-- The second pass over an `impl` block makes its filings, and a target under which the third
pass finds them again. -/
theorem declareImpl_filed (sc : TypeScope) (i : Interface) (b : ImplBlock) (s : Session) :
    Filed i ((Item.filings sc i (.impl b)).run s).1 ((declareImpl sc i b).run s).1 ∧
    ∃ target : ImplTarget, ((declareImpl sc i b).run s).1.impls = i.impls ++ [target] ∧
      ∀ cx k, ((Item.filings sc i (.impl b)).run s).1.forM (Filing.check cx k) =
        checkMethods cx k target.typeName target.selfTy b.methods := by
  let generics := (supply b.generics []).run s
  let self := (lower (sc.enter (.ofList generics.1)) b.target).run generics.2
  let target : ImplTarget := ⟨self.1.nominalName?.getD b.target.text, self.1⟩
  let inside : TypeScope := { sc with selfTy := some target.selfTy }
  let methods := (declareMethods inside target.typeName generics.1 i b.methods).run self.2
  let own :=
    ((methodFilings inside target.typeName target.selfTy generics.1 b.methods).run self.2).1
  let taken := ((b.inherits sc.decls).map fun m =>
    target.typeName ++ "::" ++ m.name.node).map Filing.inherited
  have hown : Filed i own methods.1 :=
    declareMethods_filed inside target.typeName target.selfTy generics.1 i b.methods self.2
  have hend : ∃ j : Interface, Filed methods.1 taken j ∧ j.impls = methods.1.impls ∧
      ((declareImpl sc i b).run s).1 = { j with impls := j.impls ++ [target] } := by
    unfold declareImpl
    cases ht : b.traitName with
    | none =>
      have hnone : taken = [] := by simp [taken, ImplBlock.inherits, ht]
      exact ⟨methods.1, hnone ▸ .nil rfl rfl, rfl, rfl⟩
    | some t =>
      refine ⟨((implementTrait inside b target.typeName generics.1 methods.1 t).run methods.2).1,
        implementTrait_filed inside b _ _ methods.1 t ht methods.2, ?_, rfl⟩
      exact (implementTrait_yields inside b _ _ methods.1 t methods.2).impls
  have hmethods := (declareMethods_yields inside target.typeName generics.1 i b.methods self.2).1
  obtain ⟨j, hj, himpls, hrun⟩ := hend
  have hfilings : ((Item.filings sc i (.impl b)).run s).1 = own ++ taken := rfl
  rw [hrun, hfilings]
  refine ⟨(hown.append hj).of_same rfl rfl, target, ?_, fun cx k => ?_⟩
  · rw [himpls]
    exact congrArg (· ++ [target]) hmethods.impls
  · rw [List.forM_eq_forM, List.forM_append, ← List.forM_eq_forM, check_inherited,
      checkMethods_filings]
    exact bind_pure _

/-- The second pass over an item makes the filings of the item. -/
theorem interfaceItem_filed (sc : TypeScope) (i : Interface) (item : Item) (s : Session) :
    Filed i ((item.filings sc i).run s).1 ((interfaceItem sc i item).run s).1 := by
  cases item with
  | function d =>
    simp only [Item.filings, interfaceItem]
    split
    · exact .cons (j := i) ⟨rfl, rfl⟩ (.nil rfl rfl)
    · let made := (signature sc d []).run s
      exact .cons (j := i.addFunction d.name.node made.1) ⟨rfl, rfl⟩ (.nil rfl rfl)
  | const d =>
    let made := (lower sc d.ty).run s
    exact .cons (j := i.addConst d.name.node made.1) ⟨rfl, rfl⟩ (.nil rfl rfl)
  | enum d => exact declareVariants_filed _ _ _ _ i _ _
  | trait d => exact declareMethods_filed _ _ _ _ i _ _
  | impl b => exact (declareImpl_filed sc i b s).1
  | _ => exact .nil rfl rfl

theorem filingsFrom_filed (sc : TypeScope) (i : Interface) (s : Session) (items : List Item) :
    Filed i (filingsFrom sc i s items) ((items.foldlM (interfaceItem sc) i).run s).1 := by
  induction items generalizing i s with
  | nil => exact .nil rfl rfl
  | cons item items ih =>
    rw [List.foldlM_cons]
    exact (interfaceItem_filed sc i item s).append (ih _ _)

end SecondPass

section ThirdPass

/-- The third pass over an item is one check for each of its filings. -/
theorem checkBodies_item (sc : TypeScope) (i : Interface) (item : Item) (s : Session) :
    ∃ targets, ((interfaceItem sc i item).run s).1.impls = i.impls ++ targets ∧
      ∀ cx k rest items, checkBodies cx k (targets ++ rest) (item :: items) = (do
        ((item.filings sc i).run s).1.forM (Filing.check cx k)
        checkBodies cx k rest items) := by
  cases item with
  | impl b =>
    obtain ⟨_, target, himpls, hcheck⟩ := declareImpl_filed sc i b s
    refine ⟨[target], himpls, fun cx k rest items => ?_⟩
    rw [hcheck]
    rfl
  | trait d =>
    let generics := (supply d.generics []).run s
    have hmethods := declareMethods_yields { sc with selfTy := some (.named d.name.node) }
      d.name.node generics.1 i d.methods generics.2
    refine ⟨[], hmethods.1.impls.trans (List.append_nil _).symm, fun cx k rest items => ?_⟩
    have hcheck := checkMethods_filings { sc with selfTy := some (.named d.name.node) }
      d.name.node (.named d.name.node) generics.1 d.methods generics.2 cx k
    exact congrArg (· >>= fun _ => checkBodies cx k rest items) hcheck.symm
  | function d =>
    simp only [Item.filings, interfaceItem]
    split
    · exact ⟨[], (List.append_nil _).symm, fun cx k rest items => rfl⟩
    · exact ⟨[], (List.append_nil _).symm, fun cx k rest items => rfl⟩
  | enum d =>
    have hext := declareEnum_yields sc i d s
    exact ⟨[], hext.impls.trans (List.append_nil _).symm, fun cx k rest items => rfl⟩
  | const d =>
    refine ⟨[], (List.append_nil _).symm, fun cx k rest items => ?_⟩
    change _ = (checkInitialiser cx d (k.consts.get? d.name.node) >>= fun _ =>
      checkBodies cx k rest items)
    simp only [List.nil_append, checkBodies, checkInitialiser, bind_assoc]
    cases k.consts.get? d.name.node with
    | some u => rfl
    | none => rfl
  | _ => exact ⟨[], (List.append_nil _).symm, fun cx k rest items => rfl⟩

theorem checkBodies_filings (sc : TypeScope) (i : Interface) (s : Session) (items : List Item) :
    ∃ targets, ((items.foldlM (interfaceItem sc) i).run s).1.impls = i.impls ++ targets ∧
      ∀ cx k, checkBodies cx k targets items =
        (filingsFrom sc i s items).forM (Filing.check cx k) := by
  induction items generalizing i s with
  | nil => exact ⟨[], (List.append_nil _).symm, fun cx k => rfl⟩
  | cons item items ih =>
    let next := (interfaceItem sc i item).run s
    obtain ⟨targets, himpls, hitem⟩ := checkBodies_item sc i item s
    obtain ⟨rest, hrest, hitems⟩ := ih next.1 next.2
    refine ⟨targets ++ rest, ?_, fun cx k => ?_⟩
    · rw [← List.append_assoc, ← himpls, List.foldlM_cons]
      exact hrest
    · rw [hitem, hitems, filingsFrom, List.forM_eq_forM, List.forM_append]

end ThirdPass

section Refusal

theorem refused_not_mem_methodFilings (sc : TypeScope) (typeName : String) (self : Ty)
    (outer : List (String × Ty)) (l : List FunctionDef) (s : Session) (d : FunctionDef) :
    .refused d ∉ ((methodFilings sc typeName self outer l).run s).1 := by
  induction l generalizing s with
  | nil => exact List.not_mem_nil
  | cons e l ih =>
    let made := (signature sc e outer).run s
    intro hmem
    rcases List.mem_cons.mp hmem with hmem | hmem
    · cases hmem
    · exact ih made.2 hmem

/-- A function is refused with a complaint. -/
theorem reported_of_refused (sc : TypeScope) (i : Interface) (item : Item) (s : Session)
    {d : FunctionDef} (h : .refused d ∈ ((item.filings sc i).run s).1) :
    ⟨d.name.span, .duplicateFunction d.name.node⟩ ∈
      ((interfaceItem sc i item).run s).2.faults.toList := by
  cases item with
  | function e =>
    by_cases htaken : i.signatures.contains e.name.node = true
    · simp only [Item.filings, interfaceItem, htaken, if_true] at h ⊢
      rcases List.mem_cons.mp h with h | h
      · cases h
        change _ ∈ (s.faults.push _).toList
        simp
      · cases h
    · simp only [Item.filings, htaken] at h
      rcases List.mem_cons.mp h with h | h
      · cases h
      · cases h
  | impl b =>
    rcases List.mem_append.mp h with h | h
    · exact absurd h (refused_not_mem_methodFilings _ _ _ _ _ _ d)
    · simp at h
  | trait e => exact absurd h (refused_not_mem_methodFilings _ _ _ _ _ _ d)
  | const e =>
    rcases List.mem_cons.mp h with h | h
    · cases h
    · cases h
  | _ => cases h

theorem reported_of_refused_from (sc : TypeScope) (i : Interface) (s : Session)
    (items : List Item) {d : FunctionDef} (h : .refused d ∈ filingsFrom sc i s items) :
    ⟨d.name.span, .duplicateFunction d.name.node⟩ ∈
      ((items.foldlM (interfaceItem sc) i).run s).2.faults.toList := by
  induction items generalizing i s with
  | nil => cases h
  | cons item items ih =>
    let next := (interfaceItem sc i item).run s
    rw [List.foldlM_cons]
    rcases List.mem_append.mp h with h | h
    · have hgrows := ((Emits.foldlM (interfaceItem_notes sc) items next.1).leads next.2).grows
      obtain ⟨l, hl⟩ := hgrows.faults
      have hreported := reported_of_refused sc i item s h
      have hlater := List.mem_append_left l hreported
      rw [← hl] at hlater
      exact hlater
    · exact ih next.1 next.2 h

/-- The bodies and what follows them take back no complaint. -/
theorem Program.grows_present (p : Program) (catalog : Catalog) (checkEffects : Bool) :
    Grows (p.present catalog).2 (checkProgram catalog checkEffects p).session := by
  have hbodies := checkBodies_infers ⟨fun _ => none, .var⟩ (p.context catalog checkEffects) _
    (p.present_declares catalog)
  have hfinish := finish_untyped (p.scope catalog) (p.present catalog).1.methods checkEffects
    (p.solving_visited catalog checkEffects)
  rw [finish_visited] at hfinish
  exact (hbodies.grows _).trans hfinish.grows

end Refusal

theorem checkFunction_eq {i : Interface} {name : String} {own : Signature}
    (h : i.signatures.get? name = some own) (cx : Context) (d : FunctionDef) :
    checkFunction cx i d name = checkAgainst cx d name own := by
  unfold checkFunction checkAgainst
  rw [h]
  cases d.body <;> rfl

/-- The filings of a program, in the order of the second pass. -/
def Program.filings (p : Program) (catalog : Catalog) : List Filing :=
  filingsFrom (p.scope catalog)
    { env := (p.declare catalog).1.2, constructors := catalog.constructors,
      methods := catalog.methods } (p.declare catalog).2 p.items

/-- Every body is checked against its own declaration, as long as nothing else is filed under
the same name after it. The third pass is one check for each filing of the second. For a function
or method it is the check against the signature that was made from that very definition, and for
a constant the check against the type that it declares; a function without a signature of its own
has been reported. -/
theorem bodies_checked_against_own (catalog : Catalog) (checkEffects : Bool) (p : Program) :
    let cx := p.context catalog checkEffects
    let i := (p.present catalog).1
    p.visit catalog checkEffects = (p.filings catalog).forM (Filing.check cx i) ∧
    (∀ l self name d own m, p.filings catalog = l ++ .function self name d own :: m →
      (∀ f ∈ m, f.key ≠ some (.function name)) →
      (Filing.function self name d own).check cx i = checkAgainst (cx.around self) d name own) ∧
    (∀ l d own m, p.filings catalog = l ++ .const d own :: m →
      (∀ f ∈ m, f.key ≠ some (.const d.name.node)) →
      (Filing.const d own).check cx i = checkInitialiser cx d (some own)) ∧
    ∀ d, .refused d ∈ p.filings catalog → ⟨d.name.span, .duplicateFunction d.name.node⟩ ∈
      (checkProgram catalog checkEffects p).session.faults.toList := by
  intro cx i
  have hfiled : Filed _ (p.filings catalog) i := filingsFrom_filed _ _ _ _
  refine ⟨?_, ?_, ?_, ?_⟩
  · obtain ⟨targets, himpls, hcheck⟩ := checkBodies_filings (p.scope catalog)
      { env := (p.declare catalog).1.2, constructors := catalog.constructors,
        methods := catalog.methods } (p.declare catalog).2 p.items
    have htargets : targets = i.impls := himpls.symm
    subst htargets
    exact hcheck cx i
  · intro l self name d own m hl hlast
    rw [hl] at hfiled
    exact checkFunction_eq (hfiled.onFile hlast) _ d
  · intro l d own m hl hlast
    rw [hl] at hfiled
    have hown : i.consts.get? d.name.node = some own := hfiled.onFile hlast
    rw [Filing.check, hown]
  · intro d hd
    obtain ⟨l, hl⟩ := (p.grows_present catalog checkEffects).faults
    rw [hl]
    exact List.mem_append_left l (reported_of_refused_from _ _ _ _ hd)

namespace Badge

open Build

/-- `const LIMIT: i32 = 1;`. -/
def limit : ConstDef := ⟨.dummy, name "LIMIT", type "i32", int 1⟩

/-- `fn tag() -> i32 { 1 }`, of the trait `Named`. -/
def named : FunctionDef :=
  functionOf "tag" [.returns (type "i32"), .body (block [] (some { int 1 with id := 1 }))]

/-- `fn tag() -> bool { true }`, of `Badge` itself. -/
def tag : FunctionDef :=
  functionOf "tag" [.returns (type "bool"),
    .body (block [] (some { literal (.bool true) with id := 2 }))]

/-- A struct `Badge` with its own method `tag` in the block `impl Badge`, which comes before or
after the block `impl Named for Badge`, which takes over the `tag` of the trait. -/
def program (ownFirst : Bool) : Program :=
  let target := typeNode (.path ["Badge"] [])
  let own := impl target none [tag]
  let taken := impl target (some "Named") []
  { items := [struct "Badge" [] [], .const limit, trait "Named" [named]] ++
      if ownFirst then [own, taken] else [taken, own] }

theorem filings_program : (program false).filings .empty =
    [.const limit (.prim .i32),
      .function (some (.named "Named")) "Named::tag" named ⟨[], .prim .i32, .empty, []⟩,
      .inherited "Badge::tag",
      .function (some (.named "Badge")) "Badge::tag" tag ⟨[], .bool, .empty, []⟩] := by
  cbv

end Badge

/-- The method of the later block is checked against its own signature, the constant against its
own type. -/
theorem badge_checked_against_own :
    let cx := (Badge.program false).context .empty true
    let i := ((Badge.program false).present .empty).1
    checkFunction (cx.withSelf (.named "Badge")) i Badge.tag "Badge::tag" =
      checkAgainst (cx.withSelf (.named "Badge")) Badge.tag "Badge::tag" ⟨[], .bool, .empty, []⟩ ∧
    checkInitialiser cx Badge.limit (i.consts.get? "LIMIT") =
      checkInitialiser cx Badge.limit (some (.prim .i32)) ∧
    (checkProgram .empty true (Badge.program false)).ok = true := by
  obtain ⟨_, hfunction, hconst, _⟩ := bodies_checked_against_own .empty true (Badge.program false)
  rw [Badge.filings_program] at hfunction hconst
  have htag := hfunction [_, _, _] _ _ _ _ [] rfl (by simp)
  have hlimit := hconst [] _ _ _ rfl (by simp [Filing.key])
  exact ⟨htag, hlimit, by cbv⟩

/-- The other way round the method taken over from the trait replaces the signature of the method
of the block before, whose body is then refused for not returning an integer. -/
theorem badge_checked_against_another :
    let c := checkProgram .empty true (Badge.program true)
    (c.interface.signatures.get? "Badge::tag").map (·.ret) = some (.prim .i32) ∧
      c.session.faults.toList.map (·.node) =
        [.unsolved ⟨.mismatch (.prim .i32) .bool, .dummy, .return⟩] := by
  have hrun : (fun c : TypeCheck => ((c.interface.signatures.get? "Badge::tag").map (·.ret),
      c.session.faults.toList.map (·.node))) (checkProgram .empty true (Badge.program true)) =
        (some (.prim .i32), [.unsolved ⟨.mismatch (.prim .i32) .bool, .dummy, .return⟩]) := by
    cbv
  exact Prod.mk.inj hrun

end Sema
