import Sema.Proofs.Typing.Restoration

/-!
# The work on a program is its check

The passes over the items change what the checker can see, as they declare what comes later in the
program. Inference is given these changes as values: `Work.Enacts` says that work, begun where some
of it is declared, ends where that is declared which a check gives. What is done in a body or for a
member access changes nothing, as in an expression.

Main statement: the work on all items, begun before any of them, ends with all that the check of the
program declares and finds.
-/

namespace Sema

open TypeChecker (stay go)

namespace Work

variable {α β : Type}

section Lists

theorem exec_forM {f : α → Work Unit} {g : Place → α → Check Unit}
    (h : ∀ a, (f a).exec = stay fun w => g w a) (l : List α) :
    Work.exec (l.forM f) = stay fun w => l.forM (g w) := by
  induction l with
  | nil => rfl
  | cons a l ih =>
    simp only [List.forM_cons, List.forM_eq_forM] at ih ⊢
    rw [exec_bind, h, ih]
    rfl

theorem exec_mapM {f : α → Work β} {g : Place → α → Check β}
    (h : ∀ a, (f a).exec = stay fun w => g w a) (l : List α) :
    (l.mapM f).exec = stay fun w => l.mapM (g w) := by
  induction l with
  | nil => simp only [List.mapM_nil]; rfl
  | cons a l ih =>
    simp only [List.mapM_cons, exec_bind, h, ih, exec_pure]
    rfl

end Lists

section Declaring

variable {σ : Type}

/-- Begun at the place of `x`, the work ends at the place of what `f` gives for `x`. -/
def Enacts (place : σ → Place) (m : Work Unit) (f : σ → Check σ) : Prop :=
  ∀ x s, m.exec ⟨place x, s⟩ = ((), ⟨place (f x s).1, (f x s).2⟩)

namespace Enacts

variable {place : σ → Place} {m : Work Unit} {f : σ → Check σ}

theorem pure : Enacts place (Pure.pure ()) Pure.pure := fun _ _ => rfl

theorem bind (hm : Enacts place m f) {m' : Work Unit} {g : σ → Check σ}
    (hm' : Enacts place m' g) : Enacts place (m >>= fun _ => m') fun x => f x >>= g := by
  intro x s
  rw [exec_bind, stateM_bind_apply, hm x s]
  exact hm' _ _

/-- Something is found out first. -/
theorem stay_bind {m : Work α} {h : Place → Check α} (hm : m.exec = stay h)
    {k : α → Work Unit} {f : α → σ → Check σ} (hk : ∀ a, Enacts place (k a) (f a)) :
    Enacts place (m >>= k) fun x => h (place x) >>= fun a => f a x := by
  intro x s
  rw [exec_bind, hm]
  exact hk _ _ _

theorem forM {f : α → Work Unit} {g : σ → α → Check σ}
    (h : ∀ a, Enacts place (f a) (g · a)) (l : List α) :
    Enacts place (l.forM f) (l.foldlM g) := by
  induction l with
  | nil => exact pure
  | cons a l ih =>
    simp only [List.forM_cons, List.forM_eq_forM, List.foldlM_cons] at ih ⊢
    exact (h a).bind ih

end Enacts

variable {checkEffects : Bool} {sc : TypeScope}

/-- The first pass over one item. -/
theorem declareType_enacts (catalog : Catalog) (name : Ident) (add : Declarations → Declarations) :
    Enacts (fun x : Declarations × Env => .first catalog checkEffects x.1 x.2)
      (declareType name add) fun x => return (← x.1.unlessDeclared name (add x.1), x.2) := by
  intro (d, env) s
  simp only [declareType, exec_context_bind, exec_ite, exec_lift, exec_change,
    Declarations.unlessDeclared]
  change (if d.declares name.node = true then _ else _ : StateM TypeChecker Unit) _ = _
  by_cases hdeclared : d.declares name.node = true
  · simp only [if_pos hdeclared]
    rfl
  · simp only [if_neg hdeclared]
    rfl

theorem importNames_enacts (catalog : Catalog) (names : List String) :
    Enacts (fun x : Declarations × Env => .first catalog checkEffects x.1 x.2)
      (names.forM importName) fun x => do
        return ({ x.1 with imported := x.1.imported ++ names }, ← importNames x.2 names) := by
  induction names with
  | nil =>
    intro (d, env) s
    simp only [List.append_nil]
    rfl
  | cons name names ih =>
    intro (d, env) s
    have happend := d.imported.append_cons name names
    simp only [List.forM_cons, List.forM_eq_forM, exec_bind, importName, importNames,
      happend] at ih ⊢
    let v := Sema.freshVar s
    exact ih ({ d with imported := d.imported ++ [name] },
      env.bindGlobal name ⟨[v.1], .var v.1⟩) v.2

theorem declareItem_enacts (catalog : Catalog) (checkEffects : Bool) (item : Item) :
    Enacts (fun x : Declarations × Env => .first catalog checkEffects x.1 x.2)
      (declareItem item) (Sema.declareItem · item) := by
  cases item with
  | typeAlias a => exact declareType_enacts catalog a.name (·.addAlias a)
  | struct d => exact declareType_enacts catalog d.name _
  | enum d => exact declareType_enacts catalog d.name _
  | trait d => exact fun _ _ => rfl
  | imports i => exact importNames_enacts catalog i.names
  | function d => exact fun _ _ => rfl
  | const d => exact fun _ _ => rfl
  | impl b => exact fun _ _ => rfl

theorem declare_enacts (f : Interface → Interface) :
    Enacts (.outside checkEffects sc) (declare f) fun i => return f i := fun _ _ => rfl

/-- Among type parameters, and then not. -/
theorem withParams_enacts {params : Table String Ty} {m : Work Unit}
    {f : Interface → Check Interface}
    (h : Enacts (.outside checkEffects (sc.enter params)) m f) :
    Enacts (.outside checkEffects sc) (withParams params m) f := by
  intro i s
  have hrun : (withParams params m).exec ⟨.outside checkEffects sc i, s⟩ =
      go (·.onContext (·.leaveParams))
        (m.exec ⟨.outside checkEffects (sc.enter params) i, s⟩).2 := by
    simp only [withParams, exec_bind]
    rfl
  rw [hrun, h i s]
  rfl

/-- Where `Self` is a type, and then not. -/
theorem withSelf_enacts {self : Ty} {m : Work Unit} {f : Interface → Check Interface}
    (h : Enacts (.outside checkEffects { sc with selfTy := some self }) m f) :
    Enacts (.outside checkEffects sc) (withSelf self m) f := by
  intro i s
  have hrun : (withSelf self m).exec ⟨.outside checkEffects sc i, s⟩ =
      go (·.onContext (·.putSelf sc.selfTy))
        (m.exec ⟨.outside checkEffects { sc with selfTy := some self } i, s⟩).2 := by
    simp only [withSelf, exec_bind]
    rfl
  rw [hrun, h i s]
  rfl

theorem exec_paramType (p : Param) :
    (paramType p).exec = stay fun w => Sema.paramType w.context.scope p := by
  funext c
  rw [stay_apply]
  simp only [paramType, Sema.paramType, exec_context_bind]
  cases p.ty with
  | some t => simp only [exec_lower, stay_apply]
  | none =>
    cases c.context.scope.selfTy with
    | none => simp only [exec_fresh, stay_apply]
    | some self =>
      simp only [exec_ite, exec_fresh, exec_pure]
      split <;> rfl

theorem exec_signature (d : FunctionDef) (outer : List (String × Ty)) :
    (signature d outer).exec = stay fun w => Sema.signature w.context.scope d outer := by
  have hinside : ∀ generics, (do
      let params ← d.params.mapM paramType
      let ret ← lowerOr (pure .unit) d.ret
      return ⟨params, ret, d.effectSet, generics⟩ : Work Signature).exec = stay fun w => do
        let params ← d.params.mapM (Sema.paramType w.context.scope)
        let ret ← Sema.lowerOr w.context.scope (pure .unit) d.ret
        return ⟨params, ret, d.effectSet, generics⟩ := by
    intro generics
    have hunit : (pure Ty.unit : Work Ty).exec = stay fun _ => pure Ty.unit := rfl
    simp only [exec_bind, exec_mapM exec_paramType, exec_lowerOr hunit, exec_pure]
    rfl
  simp only [signature, Sema.signature, exec_bind, exec_supply, exec_withParams (hinside _)]
  rfl

theorem declareMethod_enacts (typeName : String) (outer : List (String × Ty)) (d : FunctionDef) :
    Enacts (.outside checkEffects sc) (declareMethod typeName outer d) fun i => do
      return i.addMethod typeName d.name.node (← Sema.signature sc d outer) :=
  .stay_bind (exec_signature d outer) fun s => declare_enacts (·.addMethod typeName d.name.node s)

theorem declareMethods_enacts (typeName : String) (outer : List (String × Ty))
    (l : List FunctionDef) :
    Enacts (.outside checkEffects sc) (l.forM (declareMethod typeName outer))
      (declareMethods sc typeName outer · l) := by
  induction l with
  | nil => exact .pure
  | cons d l ih => exact (declareMethod_enacts typeName outer d).bind ih

theorem exec_variantType (result : Ty) (fields : List TypeExpr) :
    (variantType result fields).exec =
      stay fun w => if fields.isEmpty then pure result else (do
        pure (.fn (← fields.mapM (Sema.lower w.context.scope)) result .pure)) := by
  simp only [variantType, exec_ite, exec_bind, exec_mapM exec_lower, exec_pure]
  split <;> rfl

theorem declareVariants_enacts (enum : String) (vars : List Nat) (result : Ty)
    (l : List VariantDef) :
    Enacts (.outside checkEffects sc) (l.forM (declareVariant enum vars result))
      (declareVariants sc enum vars result · l) := by
  induction l with
  | nil => exact .pure
  | cons v l ih =>
    have hvariant : Enacts (.outside checkEffects sc) (declareVariant enum vars result v) _ :=
      .stay_bind (exec_variantType result v.fields) fun body => declare_enacts
        (·.addConstructor (enum ++ "::" ++ v.name.node) ⟨vars, body⟩)
    intro i s
    refine (hvariant.bind ih i s).trans ?_
    simp only [declareVariants]
    cases v.fields.isEmpty <;> rfl

theorem declareEnum_enacts (d : EnumDef) :
    Enacts (.outside checkEffects sc) (declareEnum d) (Sema.declareEnum sc · d) :=
  .stay_bind (exec_supply d.generics []) fun _ =>
    withParams_enacts (declareVariants_enacts d.name.node _ _ d.variants)

theorem inheritMethod_enacts (b : ImplBlock) (traitName typeName : String)
    (outer : List (String × Ty)) (d : FunctionDef) :
    Enacts (.outside checkEffects sc) (inheritMethod b traitName typeName outer d)
      (inheritMethods sc b traitName typeName outer · [d]) := by
  unfold inheritMethod
  intro i s
  simp only [inheritMethods, exec_ite]
  split
  · rfl
  · split
    · exact declareMethod_enacts typeName outer d i s
    · rfl

theorem inheritMethods_cons (b : ImplBlock) (traitName typeName : String)
    (outer : List (String × Ty)) (i : Interface) (d : FunctionDef) (l : List FunctionDef) :
    inheritMethods sc b traitName typeName outer i (d :: l) =
      (inheritMethods sc b traitName typeName outer i [d] >>=
        (inheritMethods sc b traitName typeName outer · l)) := by
  simp only [inheritMethods]
  split
  · rfl
  · split <;> rfl

theorem inheritMethods_enacts (b : ImplBlock) (traitName typeName : String)
    (outer : List (String × Ty)) (l : List FunctionDef) :
    Enacts (.outside checkEffects sc) (l.forM (inheritMethod b traitName typeName outer))
      (inheritMethods sc b traitName typeName outer · l) := by
  induction l with
  | nil => exact .pure
  | cons d l ih =>
    rw [funext fun i => inheritMethods_cons b traitName typeName outer i d l]
    exact (inheritMethod_enacts b traitName typeName outer d).bind ih

theorem implementTrait_enacts (b : ImplBlock) (typeName : String) (outer : List (String × Ty))
    (traitName : Ident) :
    Enacts (.outside checkEffects sc) (implementTrait b typeName outer traitName)
      (Sema.implementTrait sc b typeName outer · traitName) := by
  intro i s
  simp only [implementTrait, Sema.implementTrait, exec_context_bind, Place.scope_outside]
  cases sc.decls.traits.get? traitName.node with
  | none => rfl
  | some d =>
    exact (inheritMethods_enacts b traitName.node typeName outer d.methods).bind
      (fun _ _ => rfl) i s

theorem declareImpl_enacts (b : ImplBlock) :
    Enacts (.outside checkEffects sc) (declareImpl b) (Sema.declareImpl sc · b) := by
  refine .stay_bind (exec_supply b.generics []) fun generics =>
    .stay_bind (exec_withParams (exec_lower b.target)) fun self => ?_
  let typeName := self.nominalName?.getD b.target.text
  cases b.traitName with
  | none => exact (withSelf_enacts ((declareMethods_enacts typeName generics b.methods).bind
      .pure)).bind (declare_enacts _)
  | some t => exact (withSelf_enacts ((declareMethods_enacts typeName generics b.methods).bind
      (implementTrait_enacts b typeName generics t))).bind (declare_enacts _)

theorem declareTrait_enacts (d : TraitDef) :
    Enacts (.outside checkEffects sc) (declareTrait d) (Sema.declareTrait sc · d) :=
  withSelf_enacts (.stay_bind (exec_supply d.generics []) fun generics =>
    declareMethods_enacts d.name.node generics d.methods)

/-- The second pass over one item. -/
theorem interfaceItem_enacts (checkEffects : Bool) (sc : TypeScope) (item : Item) :
    Enacts (.outside checkEffects sc) (interfaceItem item) (Sema.interfaceItem sc · item) := by
  cases item with
  | function d =>
    intro i s
    simp only [interfaceItem, Sema.interfaceItem, exec_place_bind]
    change Work.exec (if i.signatures.contains d.name.node = true then _ else _) _ = _
    by_cases hdeclared : i.signatures.contains d.name.node = true
    · simp only [if_pos hdeclared]
      rfl
    · simp only [if_neg hdeclared]
      exact Enacts.stay_bind (exec_signature d []) (fun s => declare_enacts
        (·.addFunction d.name.node s)) i s
  | const d =>
    exact .stay_bind (exec_lower d.ty) fun t => declare_enacts (·.addConst d.name.node t)
  | enum d => exact declareEnum_enacts d
  | impl b => exact declareImpl_enacts b
  | trait d => exact declareTrait_enacts d
  | struct d => exact .pure
  | typeAlias a => exact .pure
  | imports i => exact .pure

end Declaring

section Bodies

theorem exec_checkContract (ret : Ty) (contract : Contract) :
    (checkContract ret contract).exec =
      stay fun w => Sema.checkContract w.context ret contract := by
  by_cases hensures : contract.kind = .ensures
  · funext c
    have hback := c.context.popScope_bindAll [("result", ret)]
    simp only [checkContract, Sema.checkContract, if_pos hensures, exec_bind, exec_change,
      exec_inferExpr, exec_lift]
    refine Eq.trans (b := ((), ⟨⟨(c.context.pushScope.bindAll [("result", ret)]).popScope,
      c.interface⟩, _⟩)) rfl ?_
    rw [hback]
    rfl
  · simp only [checkContract, Sema.checkContract, if_neg hensures, exec_bind, exec_inferExpr,
      exec_lift, exec_pure]
    rfl

theorem exec_checkFunction (d : FunctionDef) (name : String) :
    (checkFunction d name).exec =
      stay fun w => Sema.checkFunction w.context w.interface d name := by
  funext c
  rw [stay_apply]
  simp only [checkFunction, Sema.checkFunction, exec_place_bind]
  cases d.body with
  | none => rfl
  | some body =>
    cases c.interface.signatures.get? name with
    | none => rfl
    | some s =>
      let bound := (name, s.type) :: (d.params.map (·.name.node)).zip s.params
      have hback := c.context.popScope_bindAll bound
      simp only [exec_bind, exec_change, exec_bindEach, exec_forM (exec_checkContract s.ret),
        exec_inferBlock, exec_lift]
      refine Eq.trans
        (b := ((), ⟨⟨(c.context.pushScope.bindAll bound).popScope, c.interface⟩, _⟩)) rfl ?_
      rw [hback]
      rfl

theorem exec_checkMethods (typeName : String) (self : Ty) (methods : List FunctionDef) :
    (checkMethods typeName self methods).exec =
      stay fun w => Sema.checkMethods w.context w.interface typeName self methods := by
  have hmethods := exec_forM
    (fun m : FunctionDef => exec_checkFunction m (typeName ++ "::" ++ m.name.node)) methods
  simp only [checkMethods, withSelf, exec_bind, exec_context, exec_change, hmethods]
  rfl

theorem exec_checkBodies (targets : List ImplTarget) (items : List Item) :
    (checkBodies targets items).exec =
      stay fun w => Sema.checkBodies w.context w.interface targets items := by
  induction items generalizing targets with
  | nil => simp only [checkBodies, Sema.checkBodies]; rfl
  | cons item r ih =>
    cases item with
    | const d =>
      funext c
      rw [stay_apply]
      simp only [checkBodies, Sema.checkBodies]
      rw [exec_bind, exec_inferExpr, stay_bind_apply, exec_place_bind]
      cases c.interface.consts.get? d.name.node <;>
        · simp only [exec_bind, exec_lift, ih]
          rfl
    | impl b =>
      cases targets with
      | nil => simp only [checkBodies, Sema.checkBodies, ih]
      | cons target rest =>
        simp only [checkBodies, Sema.checkBodies, exec_bind, exec_checkMethods, ih]
        rfl
    | function d =>
      simp only [checkBodies, Sema.checkBodies, exec_bind, exec_checkFunction, ih]
      rfl
    | trait d =>
      simp only [checkBodies, Sema.checkBodies, exec_bind, exec_checkMethods, ih]
      rfl
    | struct d => simp only [checkBodies, Sema.checkBodies, ih]
    | enum d => simp only [checkBodies, Sema.checkBodies, ih]
    | typeAlias a => simp only [checkBodies, Sema.checkBodies, ih]
    | imports i => simp only [checkBodies, Sema.checkBodies, ih]

end Bodies

section Members

theorem exec_resolveStructField (base : Ty) (field : String) (result : Ty) (span : Span) :
    (resolveStructField base field result span).exec =
      stay fun w => Sema.resolveStructField w.context.scope base field result span := by
  funext c
  rw [stay_apply]
  simp only [resolveStructField, Sema.resolveStructField, exec_context_bind]
  cases base.nominalName?.bind (c.context.scope.decls.structs.get? ·) with
  | none => rfl
  | some d =>
    dsimp only
    cases d.fields.find? (·.name.node == field) with
    | none => rfl
    | some decl =>
      simp only [exec_bind, exec_supply, exec_withParams (exec_lower decl.ty), exec_lift]
      rfl

theorem exec_resolveField (base : Ty) (field : String) (result : Ty) (span : Span) :
    (resolveField base field result span).exec =
      stay fun w => Sema.resolveField w.context.scope base field result span := by
  unfold resolveField Sema.resolveField
  cases base.unbranded with
  | app name elems =>
    simp only [exec_ite, exec_lift, exec_resolveStructField]
    split <;> rfl
  | _ => exact exec_resolveStructField _ field result span

theorem exec_resolveMethod (receiver : Ty) (call : MemberCall) :
    (resolveMethod receiver call).exec =
      stay fun w => Sema.resolveMethod w.interface.methods receiver call := by
  funext c
  rw [stay_apply]
  unfold resolveMethod Sema.resolveMethod
  cases receiver.nominalName? with
  | none => rfl
  | some typeName =>
    simp only [exec_place_bind]
    cases c.interface.methods.find? typeName call.method with
    | none => rfl
    | some scheme =>
      simp only [exec_bind, exec_instantiate, stateM_bind_apply, stay_apply]
      generalize Sema.instantiate scheme c.session = r
      obtain ⟨t, s⟩ := r
      cases t with
      | fn params ret row =>
        simp only [exec_ite, exec_bind, exec_lift]
        split <;> rfl
      | _ => rfl

theorem exec_resolveMember (receiver : Ty) (d : Deferred) :
    (resolveMember receiver d).exec =
      stay fun w => Sema.resolveMember w.context.scope w.interface.methods receiver d := by
  cases d with
  | field base name result span => exact exec_resolveField receiver name result span
  | method call => exact exec_resolveMethod receiver call
  | iter iterable elem span => rfl

namespace Settling

/-- The work stays where it is and settles what `f` does there. -/
def Does (m : Settling α) (f : Place → Settle α) : Prop :=
  Work.exec m.run = stay fun w => (f w).run

namespace Does

theorem pure (a : α) : Does (Pure.pure a) fun _ => Pure.pure a := rfl

theorem bind {m : Settling α} {f : Place → Settle α} (hm : m.Does f) {k : α → Settling β}
    {g : α → Place → Settle β} (hk : ∀ a, (k a).Does (g a)) :
    (m >>= k).Does fun w => f w >>= fun a => g a w := by
  have hrun : Work.exec (m >>= k).run =
      Work.exec m.run >>= fun x => Work.exec (ExceptT.bindCont k x) := Work.exec_bind ..
  funext c
  rw [hrun, hm, stay_bind_apply]
  change _ = stay (fun w => (f w).run >>= fun x => ExceptT.bindCont (g · w) x) c
  rw [stay_apply, stateM_bind_apply]
  generalize (f c.toPlace).run c.session = r
  obtain ⟨x, s⟩ := r
  cases x with
  | error e => rfl
  | ok a => exact congrFun (hk a) _

theorem lift {m : Work α} {f : Place → Check α} (h : m.exec = stay f) :
    Does (liftM m) fun w => liftM (f w) := by
  change (Except.ok <$> m).exec = _
  rw [exec_map, h]
  rfl

theorem ite {p : Prop} [Decidable p] {m n : Settling α} {f g : Place → Settle α}
    (hm : m.Does f) (hn : n.Does g) :
    (if p then m else n).Does fun w => if p then f w else g w := by
  split
  · exact hm
  · exact hn

theorem forM {f : α → Settling Unit} {g : α → Settle Unit}
    (h : ∀ a, (f a).Does fun _ => g a) (l : List α) :
    (l.forM f).Does fun _ => l.forM g := by
  induction l with
  | nil => exact .pure ()
  | cons a l ih => exact (h a).bind fun _ => ih

end Does

end Settling

open Settling (Does)

theorem solveAll_does : solveAll.Does fun _ => Sema.solveAll := by
  refine .bind (.lift rfl) fun fault => ?_
  cases fault <;> exact rfl

theorem settleAmbiguous_does (d : Deferred) :
    (settleAmbiguous d).Does fun _ => Sema.settleAmbiguous d := by
  cases d with
  | iter iterable elem span => exact .bind (.lift rfl) fun _ => solveAll_does
  | field base name result span => exact .lift rfl
  | method call => exact .lift rfl

theorem settleRound_does (l : List Deferred) :
    (settleRound l).Does fun w =>
      Sema.settleRound w.context.scope w.interface.methods l := by
  induction l with
  | nil => exact .bind solveAll_does fun _ => .pure []
  | cons d l ih =>
    exact .bind solveAll_does fun _ => .bind (.lift rfl) fun s => .ite
      (.bind ih fun waiting => .pure (d :: waiting))
      (.bind (.lift (exec_resolveMember _ d)) fun _ => ih)

theorem settle_does (pending : List Deferred) :
    (settle pending).Does fun w => Sema.settle w.context.scope w.interface.methods pending := by
  fun_induction settle pending with
  | case1 pending h =>
    unfold Sema.settle
    simp only [if_pos h]
    exact .pure ()
  | case2 pending h ih =>
    unfold Sema.settle
    simp only [if_neg h]
    refine .bind (settleRound_does pending) fun waiting => ?_
    split
    · exact ih waiting ‹_›
    · exact .forM settleAmbiguous_does waiting

theorem solveProgram_does :
    solveProgram.Does fun w => Sema.solveProgram w.context.scope w.interface.methods :=
  .bind solveAll_does fun _ => .bind (.lift rfl) fun s => settle_does s.deferred.toList

theorem exec_finish : finish.exec =
    stay fun w => Sema.finish w.context.scope w.interface.methods w.context.checkEffects := by
  have hsolve : Work.exec solveProgram.run = _ := solveProgram_does
  funext c
  rw [stay_apply]
  simp only [finish, Sema.finish]
  rw [exec_bind, hsolve, stay_bind_apply, stateM_bind_apply]
  generalize (Sema.solveProgram c.context.scope c.interface.methods).run c.session = r
  obtain ⟨x, s⟩ := r
  cases x with
  | error fault => rfl
  | ok u =>
    simp only [exec_bind, exec_lift, exec_check, exec_pure, stateM_bind_apply, stay_apply]
    cases c.context.checkEffects <;> rfl

end Members

/-- Begun before any item, the work on a program ends outside of all bodies with what the check of
the program declares, and has found what that finds. -/
theorem run_checkItems (catalog : Catalog) (checkEffects : Bool) (items : List Item) :
    (checkItems items).run (.start catalog checkEffects) =
      let r := (Sema.checkItems catalog checkEffects items).run {}
      (r.1.1, ⟨.outside checkEffects { catalog, decls := r.1.2.1 } r.1.2.2, r.2⟩) := by
  let first := items.foldlM Sema.declareItem ({}, catalog.env) {}
  let sc : TypeScope := { catalog, decls := first.1.1 }
  let i : Interface :=
    { env := first.1.2, constructors := catalog.constructors, methods := catalog.methods }
  have hfirst := Enacts.forM (declareItem_enacts catalog checkEffects) items ({}, catalog.env) {}
  have hsecond := Enacts.forM (interfaceItem_enacts checkEffects sc) items i first.2
  have hbodies : ∀ c, (place >>= fun w => checkBodies w.interface.impls items >>= fun _ =>
      finish).exec c = stay (fun w => Sema.checkBodies w.context w.interface w.interface.impls items
        >>= fun _ => Sema.finish w.context.scope w.interface.methods w.context.checkEffects) c := by
    intro c
    rw [exec_place_bind, exec_bind, exec_checkBodies, exec_finish]
    rfl
  change (checkItems items).exec ⟨.first catalog checkEffects {} catalog.env, {}⟩ = _
  rw [checkItems, exec_bind, stateM_bind_apply, hfirst, exec_bind, stateM_bind_apply]
  change (place >>= _).exec (Work.exec (items.forM interfaceItem)
    ⟨.outside checkEffects sc i, first.2⟩).2 = _
  rw [hsecond, hbodies]
  rfl

end Work

end Sema
