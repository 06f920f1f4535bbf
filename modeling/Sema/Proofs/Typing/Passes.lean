import Sema.Proofs.Typing.Confinement

/-!
# The passes stay in scope

The interface that the second pass makes is over the variables taken so far, the bodies stay
over those of the interface and those they take, and so does the settling of member accesses at
the end. What lies outside is never seen again.
-/

namespace Sema

section Interface

variable {U : Nat → Prop}

structure Signature.Over (s : Signature) (U : Nat → Prop) : Prop where
  params : ∀ t ∈ s.params, t.Over U
  ret : s.ret.Over U
  generics : ∀ x ∈ s.generics, x.2.Over U

theorem Signature.Over.type {s : Signature} (h : s.Over U) : s.type.Over U :=
  Ty.over_fn.mpr ⟨h.params, h.ret⟩

theorem Signature.Over.scheme {s : Signature} (h : s.Over U) : s.scheme.Over U :=
  Scheme.over_of_body h.type

def Methods.Over (m : Methods) (U : Nat → Prop) : Prop :=
  ∀ type method s, m.find? type method = some s → s.Over U

theorem Methods.find?_add (m : Methods) (type method : String) (s : Scheme) (t n : String) :
    (m.add type method s).find? t n =
      if t = type ∧ n = method then some s else m.find? t n := by
  by_cases ht : t = type
  · subst ht
    by_cases hn : n = method
    · simp [find?, add, hn]
    · cases h : m.get? t <;> simp [find?, add, hn, h]
  · simp [find?, add, ht]

theorem Methods.Over.add {m : Methods} (h : m.Over U) (type method : String) {s : Scheme}
    (hs : s.Over U) : (m.add type method s).Over U := by
  intro t n u hu
  rw [find?_add] at hu
  split at hu
  · cases hu
    exact hs
  · exact h t n u hu

/-- Everything that the interface declares is over the set. -/
structure Interface.Over (i : Interface) (U : Nat → Prop) : Prop where
  env : i.env.Over U
  constructors : ∀ name s, i.constructors.get? name = some s → s.Over U
  methods : i.methods.Over U
  signatures : ∀ name s, i.signatures.get? name = some s → s.Over U
  consts : ∀ name t, i.consts.get? name = some t → t.Over U
  impls : ∀ target ∈ i.impls, target.selfTy.Over U

theorem Table.forall_get?_insert {α : Type} {p : α → Prop} {t : Table String α}
    (h : ∀ name a, t.get? name = some a → p a) (name : String) {a : α} (ha : p a) :
    ∀ other b, (t.insert name a).get? other = some b → p b := by
  intro other b hb
  rw [get?_insert] at hb
  split at hb
  · cases hb
    exact ha
  · exact h other b hb

namespace Interface.Over

variable {i : Interface}

theorem addFunction (h : i.Over U) (name : String) {s : Signature} (hs : s.Over U) :
    (i.addFunction name s).Over U :=
  { h with
    env := h.env.bindGlobal name hs.scheme
    signatures := Table.forall_get?_insert h.signatures name hs }

theorem addConst (h : i.Over U) (name : String) {t : Ty} (ht : t.Over U) :
    (i.addConst name t).Over U :=
  { h with
    env := h.env.bindGlobal name (Scheme.over_mono ht)
    consts := Table.forall_get?_insert h.consts name ht }

theorem addConstructor (h : i.Over U) (name : String) {s : Scheme} (hs : s.Over U) :
    (i.addConstructor name s).Over U :=
  { h with
    env := h.env.bindGlobal name hs
    constructors := Table.forall_get?_insert h.constructors name hs }

theorem addMethod (h : i.Over U) (typeName method : String) {s : Signature} (hs : s.Over U) :
    (i.addMethod typeName method s).Over U :=
  { h.addFunction (typeName ++ "::" ++ method) hs with
    methods := h.methods.add typeName method hs.scheme }

end Interface.Over

theorem Keeps.mapM {α β : Type} {P : Prop} {Q : β → Prop} {f : α → Check β}
    (hf : ∀ a, Keeps U P (f a) Q) (l : List α) : Keeps U P (l.mapM f) fun k => ∀ b ∈ k, Q b := by
  induction l with
  | nil =>
    rw [List.mapM_nil]
    exact .pure fun _ => by simp
  | cons a l ih =>
    rw [List.mapM_cons]
    exact (hf a).bind fun _ => (ih.given And.left).bind fun _ => .pure fun h =>
      List.forall_mem_cons.mpr ⟨h.1.2, h.2⟩

theorem Keeps.foldlM {α β : Type} {P : Prop} {Q : β → Prop} {f : β → α → Check β}
    (hf : ∀ b a, Keeps U (P ∧ Q b) (f b a) Q) (l : List α) (b : β) :
    Keeps U (P ∧ Q b) (l.foldlM f b) Q := by
  induction l generalizing b with
  | nil => exact .pure And.right
  | cons a l ih =>
    rw [List.foldlM_cons]
    exact (hf b a).bind fun c => (ih c).given fun h => ⟨h.1.1, h.2⟩

theorem unlessDeclared_keeps {P : Prop} (d : Declarations) (name : Ident) (add : Declarations) :
    Keeps U P (d.unlessDeclared name add) fun _ => True := by
  unfold Declarations.unlessDeclared
  split
  · exact (report_keeps _ _).andThen fun _ => .pure fun _ => trivial
  · exact .pure fun _ => trivial

theorem importNames_keeps (env : Env) (names : List String) :
    Keeps U (env.Over U) (importNames env names) (Env.Over · U) := by
  induction names generalizing env with
  | nil => exact .pure id
  | cons name r ih =>
    refine freshVar_keeps.bind fun v => (ih _).given fun h => h.1.bindGlobal name ?_
    exact Scheme.over_of_body (Ty.over_var.mpr h.2)

theorem declareItem_keeps (x : Declarations × Env) (item : Item) :
    Keeps U (x.2.Over U) (declareItem x item) fun y => y.2.Over U := by
  obtain ⟨d, env⟩ := x
  cases item with
  | typeAlias a => exact (unlessDeclared_keeps _ _ _).andThen fun _ => .pure id
  | struct s => exact (unlessDeclared_keeps _ _ _).andThen fun _ => .pure id
  | enum e => exact (unlessDeclared_keeps _ _ _).andThen fun _ => .pure id
  | imports i => exact (importNames_keeps env i.names).bind fun _ => .pure And.right
  | _ => exact .pure id

theorem paramType_keeps (sc : TypeScope) (p : Param) :
    Keeps U (sc.Over U) (paramType sc p) (·.Over U) := by
  unfold paramType
  split
  · exact lower_keeps _ _
  · rename_i self _ hself
    split
    · exact .pure fun h => h.selfTy self hself
    · exact fresh_keeps
  · exact fresh_keeps

theorem signature_keeps (sc : TypeScope) (d : FunctionDef) (outer : List (String × Ty)) :
    Keeps U (sc.Over U ∧ ∀ x ∈ outer, x.2.Over U) (signature sc d outer) (Signature.Over · U) := by
  refine ((supply_keeps d.generics []).given fun _ => by simp).bind fun own => ?_
  have hgenerics : (sc.Over U ∧ ∀ x ∈ outer, x.2.Over U) ∧ (∀ x ∈ own, x.2.Over U) →
      ∀ x ∈ outer ++ own, x.2.Over U := fun h => Bound.over_append h.1.2 h.2
  refine ((Keeps.mapM (paramType_keeps _) d.params).given fun h =>
    h.1.1.enter (hgenerics h)).bind fun params => ?_
  refine ((lowerOr_keeps _ (.pure fun _ => Ty.over_unit) d.ret).given fun h =>
    h.1.1.1.enter (hgenerics h.1)).bind fun ret => ?_
  exact .pure fun h => ⟨h.1.2, h.2, hgenerics h.1.1⟩

theorem declareMethods_keeps (sc : TypeScope) (typeName : String) (outer : List (String × Ty))
    (i : Interface) (l : List FunctionDef) :
    Keeps U ((sc.Over U ∧ ∀ x ∈ outer, x.2.Over U) ∧ i.Over U)
      (declareMethods sc typeName outer i l) (Interface.Over · U) := by
  induction l generalizing i with
  | nil => exact .pure And.right
  | cons d r ih =>
    exact ((signature_keeps sc d outer).given And.left).bind fun s => (ih _).given fun h =>
      ⟨h.1.1, h.1.2.addMethod typeName d.name.node h.2⟩

theorem declareVariants_keeps (sc : TypeScope) (enum : String) (vars : List Nat) (result : Ty)
    (i : Interface) (l : List VariantDef) :
    Keeps U ((sc.Over U ∧ result.Over U) ∧ i.Over U)
      (declareVariants sc enum vars result i l) (Interface.Over · U) := by
  induction l generalizing i with
  | nil => exact .pure And.right
  | cons v r ih =>
    have hrest : ∀ body, Keeps U (((sc.Over U ∧ result.Over U) ∧ i.Over U) ∧ body.Over U)
        (declareVariants sc enum vars result
          (i.addConstructor (enum ++ "::" ++ v.name.node) ⟨vars, body⟩) r) (Interface.Over · U) :=
      fun body => (ih _).given fun h => ⟨h.1.1, h.1.2.addConstructor _ (Scheme.over_of_body h.2)⟩
    simp only [declareVariants]
    split
    · exact .bind (Q := (Ty.Over · U)) (.pure fun h => h.1.2) hrest
    · refine ((Keeps.mapM (lower_keeps sc) v.fields).given fun h => h.1.1).bind fun types => ?_
      refine .bind (Q := (Ty.Over · U)) (.pure fun h => ?_) fun body => ?_
      · exact Ty.over_fn.mpr ⟨h.2, h.1.1.2⟩
      · exact (hrest body).given fun h => ⟨h.1.1, h.2⟩

theorem declareEnum_keeps (sc : TypeScope) (i : Interface) (d : EnumDef) :
    Keeps U (sc.Over U ∧ i.Over U) (declareEnum sc i d) (Interface.Over · U) := by
  refine ((supply_keeps d.generics []).given fun _ => by simp).bind fun params => ?_
  refine (declareVariants_keeps _ _ _ _ i d.variants).given fun h => ⟨⟨h.1.1.enter h.2, ?_⟩, h.1.2⟩
  exact Ty.over_nominal.mpr (List.forall_mem_map.mpr h.2)

theorem inheritMethods_keeps (sc : TypeScope) (b : ImplBlock) (traitName typeName : String)
    (outer : List (String × Ty)) (i : Interface) (l : List FunctionDef) :
    Keeps U ((sc.Over U ∧ ∀ x ∈ outer, x.2.Over U) ∧ i.Over U)
      (inheritMethods sc b traitName typeName outer i l) (Interface.Over · U) := by
  induction l generalizing i with
  | nil => exact .pure And.right
  | cons d r ih =>
    rw [inheritMethods]
    split
    · exact ih i
    · split
      · exact (declareMethods_keeps sc typeName outer i [d]).bind fun j => (ih j).given fun h =>
          ⟨h.1.1, h.2⟩
      · exact (report_keeps _ _).andThen fun _ => ih i

theorem implementTrait_keeps (sc : TypeScope) (b : ImplBlock) (typeName : String)
    (outer : List (String × Ty)) (i : Interface) (traitName : Ident) :
    Keeps U ((sc.Over U ∧ ∀ x ∈ outer, x.2.Over U) ∧ i.Over U)
      (implementTrait sc b typeName outer i traitName) (Interface.Over · U) := by
  unfold implementTrait
  split
  · exact (report_keeps _ _).andThen fun _ => .pure And.right
  · rename_i d _
    refine (inheritMethods_keeps sc b _ typeName outer i d.methods).bind fun j => ?_
    refine (Keeps.forM (fun m => ?_) b.methods).andThen fun _ => .pure And.right
    split
    · exact .pure fun _ => trivial
    · exact report_keeps _ _

theorem declareImpl_keeps (sc : TypeScope) (i : Interface) (b : ImplBlock) :
    Keeps U (sc.Over U ∧ i.Over U) (declareImpl sc i b) (Interface.Over · U) := by
  refine ((supply_keeps b.generics []).given fun _ => by simp).bind fun generics => ?_
  refine ((lower_keeps _ b.target).given fun h => h.1.1.enter h.2).bind fun self => ?_
  let scope : Prop := ({ sc with selfTy := some self } : TypeScope).Over U ∧
    ∀ x ∈ generics, x.2.Over U
  have hinside : ((sc.Over U ∧ i.Over U) ∧ ∀ x ∈ generics, x.2.Over U) ∧ self.Over U → scope := by
    rintro ⟨⟨⟨hsc, _⟩, hgenerics⟩, hself⟩
    exact ⟨{ hsc with selfTy := fun t ht => by cases ht; exact hself }, hgenerics⟩
  refine ((declareMethods_keeps _ _ generics i b.methods).given fun h =>
    ⟨hinside h, h.1.1.2⟩).bind fun j => ?_
  have hend : ∀ k : Interface, k.Over U → self.Over U → ∀ name,
      ({ k with impls := k.impls ++ [⟨name, self⟩] } : Interface).Over U := by
    intro k hk hself name
    refine { hk with impls := fun target ht => ?_ }
    rcases List.mem_append.mp ht with ht | ht
    · exact hk.impls target ht
    · rw [List.mem_singleton.mp ht]
      exact hself
  cases b.traitName with
  | none => exact .pure fun h => hend _ h.2 h.1.2 _
  | some t =>
    exact ((implementTrait_keeps _ b _ generics j t).given fun h => ⟨hinside h.1, h.2⟩).bind
      fun k => .pure fun h => hend _ h.2 h.1.1.2 _

theorem declareTrait_keeps (sc : TypeScope) (i : Interface) (d : TraitDef) :
    Keeps U (sc.Over U ∧ i.Over U) (declareTrait sc i d) (Interface.Over · U) := by
  refine ((supply_keeps d.generics []).given fun _ => by simp).bind fun generics => ?_
  refine (declareMethods_keeps _ _ generics i d.methods).given fun h => ⟨⟨?_, h.2⟩, h.1.2⟩
  exact { h.1.1 with selfTy := fun t ht => by cases ht; exact Ty.over_named _ }

theorem interfaceItem_keeps (sc : TypeScope) (i : Interface) (item : Item) :
    Keeps U (sc.Over U ∧ i.Over U) (interfaceItem sc i item) (Interface.Over · U) := by
  cases item with
  | function d =>
    simp only [interfaceItem]
    split
    · exact (report_keeps _ _).andThen fun _ => .pure And.right
    · exact ((signature_keeps sc d []).given fun h => ⟨h.1, by simp⟩).bind fun s => .pure fun h =>
        h.1.2.addFunction d.name.node h.2
  | const d =>
    exact ((lower_keeps sc d.ty).given And.left).bind fun _ => .pure fun h =>
      h.1.2.addConst d.name.node h.2
  | enum d => exact declareEnum_keeps sc i d
  | impl b => exact declareImpl_keeps sc i b
  | trait d => exact declareTrait_keeps sc i d
  | _ => exact .pure And.right

end Interface

section Bodies

variable {U : Nat → Prop}

/-- The context of a contract's condition. -/
def Contract.context (cx : Context) (ret : Ty) (c : Contract) : Context :=
  if c.kind = .ensures then cx.pushScope.bindAll [("result", ret)] else cx

/-- The context of the methods of a block for `self`. -/
def Context.withSelf (cx : Context) (self : Ty) : Context :=
  { cx with scope := { cx.scope with selfTy := some self } }

theorem Context.Over.contract {cx : Context} (h : cx.Over U) {ret : Ty} (hret : ret.Over U)
    (c : Contract) : (c.context cx ret).Over U := by
  unfold Contract.context
  split
  · exact h.pushScope.bindAll (List.forall_mem_singleton.mpr hret)
  · exact h

theorem Context.Over.withSelf {cx : Context} (h : cx.Over U) {self : Ty} (hself : self.Over U) :
    (cx.withSelf self).Over U :=
  { h with scope := { h.scope with selfTy := fun t ht => by cases ht; exact hself } }

theorem Context.Over.body {cx : Context} (h : cx.Over U) (d : FunctionDef) (name : String)
    {s : Signature} (hs : s.Over U) : (bodyContext cx d name s).Over U := by
  have hbound : ∀ x ∈ (name, s.type) :: (d.params.map (·.name.node)).zip s.params,
      x.2.Over U :=
    List.forall_mem_cons.mpr ⟨hs.type, fun x hx => hs.params x.2 (List.of_mem_zip hx).2⟩
  exact { (h.pushScope.bindAll hbound).enterParams hs.generics with
    frames := List.forall_mem_cons.mpr ⟨hs.ret, h.frames⟩ }

theorem checkContract_keeps (cx : Context) (ret : Ty) (c : Contract) :
    Keeps U (cx.Over U ∧ ret.Over U) (checkContract cx ret c) fun _ => True :=
  ((inferExpr_keeps (c.context cx ret) c.condition).given fun h => h.1.contract h.2 c).bind
    fun _ => (constrain_keeps _ _ _ _).given fun h => ⟨Ty.over_bool, h.2⟩

theorem recordGenerics_keeps {P : Prop} (function : String) (span : Span)
    (generics : List (String × Ty)) :
    Keeps U P (recordGenerics function span generics) fun _ => True := by
  refine .forM (fun x => ?_) generics
  obtain ⟨param, t⟩ := x
  dsimp only
  split
  · rename_i v _
    exact .idle (fun s => (Event.generic v ⟨function, param, span⟩).grows s) fun _ => ⟨rfl, rfl⟩
  · exact .pure fun _ => trivial

theorem checkFunction_keeps (cx : Context) (i : Interface) (d : FunctionDef) (name : String) :
    Keeps U (cx.Over U ∧ i.Over U) (checkFunction cx i d name) fun _ => True := by
  unfold checkFunction
  split
  · rename_i body s _ hs
    have hinside : cx.Over U ∧ i.Over U → (bodyContext cx d name s).Over U ∧ s.ret.Over U :=
      fun h => ⟨h.1.body d name (h.2.signatures name s hs), (h.2.signatures name s hs).ret⟩
    refine ((Keeps.forM (checkContract_keeps _ _) d.contracts).given hinside).andThen fun _ => ?_
    refine ((inferBlock_keeps _ body).given fun h => (hinside h).1).bind fun t => ?_
    exact ((constrain_keeps _ _ _ _).given fun h => ⟨(hinside h.1).2, h.2⟩).andThen fun _ =>
      recordGenerics_keeps _ _ _
  · exact .pure fun _ => trivial

theorem checkMethods_keeps (cx : Context) (i : Interface) (typeName : String) (self : Ty)
    (l : List FunctionDef) :
    Keeps U ((cx.Over U ∧ i.Over U) ∧ self.Over U) (checkMethods cx i typeName self l)
      fun _ => True :=
  .forM (fun m => (checkFunction_keeps (cx.withSelf self) i m _).given fun h =>
    ⟨h.1.1.withSelf h.2, h.1.2⟩) l

theorem checkBodies_keeps (cx : Context) (i : Interface) (targets : List ImplTarget)
    (l : List Item) :
    Keeps U ((cx.Over U ∧ i.Over U) ∧ ∀ target ∈ targets, target.selfTy.Over U)
      (checkBodies cx i targets l) fun _ => True := by
  induction l generalizing targets with
  | nil => exact .pure fun _ => trivial
  | cons item r ih =>
    cases item with
    | function d => exact ((checkFunction_keeps cx i d _).given And.left).andThen fun _ => ih targets
    | const d =>
      refine ((inferExpr_keeps cx d.value).given fun h => h.1.1).bind fun t => ?_
      dsimp only
      split
      · rename_i declared hdeclared
        refine ((constrain_keeps _ _ _ _).given fun h => ?_).andThen fun _ =>
          (ih targets).given And.left
        exact ⟨h.1.1.2.consts _ declared hdeclared, h.2⟩
      · exact (ih targets).given And.left
    | impl b =>
      cases targets with
      | nil => exact ih []
      | cons target rest =>
        exact ((checkMethods_keeps cx i _ _ b.methods).given fun h =>
          ⟨h.1, h.2 target (by simp)⟩).andThen fun _ => (ih rest).given fun h =>
          ⟨h.1, fun x hx => h.2 x (by simp [hx])⟩
    | trait d =>
      exact ((checkMethods_keeps cx i _ _ d.methods).given fun h =>
        ⟨h.1, Ty.over_named _⟩).andThen fun _ => ih targets
    | _ => exact ih targets

end Bodies

section Members

variable {U : Nat → Prop} {P : Prop}

theorem Ty.Over.unbranded {t : Ty} (h : t.Over U) : t.unbranded.Over U := by
  cases t with
  | branded b t => exact h
  | _ => exact h

theorem Ty.Over.args {t : Ty} (h : t.Over U) : ∀ u ∈ t.args, u.Over U := by
  cases t with
  | app n l => exact over_app.mp h
  | _ => simp [Ty.args]

theorem Ty.Over.elem {t u : Ty} (h : t.Over U) (hu : t.elem? = some u) : u.Over U := by
  unfold elem? at hu
  split at hu
  · split at hu
    · cases hu
      exact over_app.mp h u (by simp)
    · cases hu
  · cases hu
    exact over_prim _
  · cases hu

theorem resolveTupleField_keeps (tuple : Ty) (elems : List Ty) (field : String) (result : Ty)
    (span : Span) :
    Keeps U ((∀ t ∈ elems, t.Over U) ∧ result.Over U)
      (resolveTupleField tuple elems field result span) fun _ => True := by
  unfold resolveTupleField
  split
  · rename_i elem helem
    obtain ⟨n, _, hn⟩ := Option.bind_eq_some_iff.mp helem
    exact (constrain_keeps _ _ _ _).given fun h => ⟨h.1 elem (List.mem_of_getElem? hn), h.2⟩
  · exact report_keeps _ _

theorem resolveStructField_keeps (sc : TypeScope) (base : Ty) (field : String) (result : Ty)
    (span : Span) :
    Keeps U (sc.Over U ∧ base.Over U ∧ result.Over U)
      (resolveStructField sc base field result span) fun _ => True := by
  unfold resolveStructField
  split
  · exact report_keeps _ _
  · split
    · exact report_keeps _ _
    · refine ((supply_keeps _ base.args).given fun h => h.2.1.args).bind fun params => ?_
      exact ((lower_keeps _ _).given fun h => h.1.1.enter h.2).bind fun _ =>
        (constrain_keeps _ _ _ _).given fun h => ⟨h.2, h.1.1.2.2⟩

theorem resolveField_keeps (sc : TypeScope) (base : Ty) (field : String) (result : Ty)
    (span : Span) :
    Keeps U (sc.Over U ∧ base.Over U ∧ result.Over U) (resolveField sc base field result span)
      fun _ => True := by
  have hstruct : Keeps U (sc.Over U ∧ base.Over U ∧ result.Over U)
      (resolveStructField sc base.unbranded field result span) fun _ => True :=
    (resolveStructField_keeps _ _ _ _ _).given fun h => ⟨h.1, h.2.1.unbranded, h.2.2⟩
  unfold resolveField
  split
  · rename_i name elems hbase
    split
    · refine (resolveTupleField_keeps _ elems _ _ _).given fun h => ⟨?_, h.2.2⟩
      exact Ty.over_app.mp (hbase ▸ h.2.1.unbranded)
    · exact hstruct
  · exact hstruct

theorem callMethod_keeps (receiver signature : Ty) (call : MemberCall) :
    Keeps U ((receiver.Over U ∧ ∀ t ∈ (Deferred.method call).types, t.Over U) ∧ signature.Over U)
      (callMethod receiver signature call) fun _ => True := by
  refine ((constrain_keeps _ _ _ _).given fun h => ⟨h.2, Ty.over_fn.mpr ⟨?_, ?_⟩⟩).andThen
    fun _ => ?_
  · exact List.forall_mem_cons.mpr ⟨h.1.1, fun t ht => h.1.2 t (by simp [Deferred.types, ht])⟩
  · exact h.1.2 _ (by simp [Deferred.types])
  · split
    · rename_i f _
      exact .idle (fun s => (Event.site ⟨signature, f.name, f.effects, call.span⟩).grows s)
        fun _ => ⟨rfl, rfl⟩
    · exact .pure fun _ => trivial

theorem resolveMethod_keeps (methods : Methods) (receiver : Ty) (call : MemberCall) :
    Keeps U (methods.Over U ∧ receiver.Over U ∧ ∀ t ∈ (Deferred.method call).types, t.Over U)
      (resolveMethod methods receiver call) fun _ => True := by
  unfold resolveMethod
  split
  · exact report_keeps _ _
  · split
    · exact report_keeps _ _
    · rename_i scheme hscheme
      refine ((instantiate_keeps scheme).given fun h => h.1 _ _ scheme hscheme).bind fun t => ?_
      have hcall : Keeps U ((methods.Over U ∧ receiver.Over U ∧
          ∀ t ∈ (Deferred.method call).types, t.Over U) ∧ t.Over U)
          (callMethod receiver t call) fun _ => True :=
        (callMethod_keeps receiver t call).given fun h => ⟨h.1.2, h.2⟩
      split
      · split
        · refine (report_keeps _ _).andThen fun _ => (constrain_keeps _ _ _ _).given fun h => ?_
          exact ⟨(Ty.over_fn.mp h.2).2, h.1.2.2 _ (by simp [Deferred.types])⟩
        · exact hcall
      · exact hcall

theorem resolveIter_keeps (iterable elem : Ty) (span : Span) :
    Keeps U (iterable.Over U ∧ elem.Over U) (resolveIter iterable elem span) fun _ => True := by
  unfold resolveIter
  split
  · rename_i t ht
    exact (constrain_keeps _ _ _ _).given fun h => ⟨h.1.elem ht, h.2⟩
  · exact report_keeps _ _

/-- What settling may use: the scope of the declarations, the methods, and the accesses. -/
structure SettlesOver (U : Nat → Prop) (sc : TypeScope) (methods : Methods)
    (pending : List Deferred) : Prop where
  scope : sc.Over U
  methods : methods.Over U
  pending : ∀ d ∈ pending, ∀ t ∈ d.types, t.Over U

theorem resolveMember_keeps (sc : TypeScope) (methods : Methods) (receiver : Ty) (d : Deferred) :
    Keeps U (SettlesOver U sc methods [d] ∧ receiver.Over U)
      (resolveMember sc methods receiver d) fun _ => True := by
  have htypes : SettlesOver U sc methods [d] → ∀ t ∈ d.types, t.Over U :=
    fun h => h.pending d (by simp)
  cases d with
  | field base name result span =>
    exact (resolveField_keeps _ _ _ _ _).given fun h =>
      ⟨h.1.scope, h.2, htypes h.1 _ (by simp [Deferred.types])⟩
  | method call =>
    exact (resolveMethod_keeps _ _ _).given fun h => ⟨h.1.methods, h.2, htypes h.1⟩
  | iter iterable elem span =>
    exact (resolveIter_keeps _ _ _).given fun h =>
      ⟨h.2, htypes h.1 _ (by simp [Deferred.types])⟩

end Members

section Settle

variable {U : Nat → Prop} {P : Prop} {α β : Type}

/-- The check stays within the set; and if it does not fail its result has `Q`. -/
abbrev KeepsOk (U : Nat → Prop) (P : Prop) (m : Settle α) (Q : α → Prop) : Prop :=
  Keeps U P m.run fun r => ∀ a, r = .ok a → Q a

namespace KeepsOk

variable {Q : α → Prop} {R : β → Prop}

theorem pure {a : α} (h : P → Q a) : KeepsOk U P (pure a : Settle α) Q :=
  Keeps.pure fun hP b hb => by cases hb; exact h hP

theorem lift {m : Check α} (hm : Keeps U P m Q) : KeepsOk U P (liftM m : Settle α) Q :=
  Keeps.bind hm fun _ => .pure fun h b hb => by cases hb; exact h.2

theorem bind {m : Settle α} {f : α → Settle β} (hm : KeepsOk U P m Q)
    (hf : ∀ a, KeepsOk U (P ∧ Q a) (f a) R) : KeepsOk U P (m >>= f) R := by
  unfold KeepsOk
  rw [ExceptT.run_bind]
  refine Keeps.bind hm fun r => ?_
  cases r with
  | error e => exact .pure fun _ => nofun
  | ok a => exact (hf a).given fun h => ⟨h.1, h.2 a rfl⟩

theorem given {A : Prop} {m : Settle α} (hm : KeepsOk U P m Q) (h : A → P) : KeepsOk U A m Q :=
  Keeps.given hm h

end KeepsOk

/-- After solving, the solver keeps types over the set. -/
theorem solveAll_get_keeps :
    KeepsOk U P (solveAll >>= fun _ => (get : Settle Session))
      fun s => ∀ t : Ty, t.Over U → (s.solver.apply t).Over U where
  growing := by
    rw [ExceptT.run_bind]
    refine Growing.bind (fun s => ?_) fun r => ?_
    · rw [after, solveAll_run]
      exact Event.solve.grows s
    · cases r with
      | error e => exact .pure _
      | ok a => exact fun s => .refl s
  keeps _ τ s hs _ := by
    have hrun : ((solveAll >>= fun _ => (get : Settle Session)).run).run s =
        ((s.solver.solve s.constraints).failure.elim (.ok (Event.solve.apply s)) .error,
          Event.solve.apply s) := by
      rw [ExceptT.run_bind, StateT.run_bind, solveAll_run]
      cases (s.solver.solve s.constraints).failure <;> rfl
    rw [after, hrun]
    refine ⟨hs.solve, fun a ha t ht => ?_⟩
    cases hfailure : (s.solver.solve s.constraints).failure with
    | some fault => simp [hfailure] at ha
    | none =>
      rw [hfailure] at ha
      cases ha
      exact hs.solve.apply (hs.solving.solved hfailure) ht

theorem solveAll_keeps : KeepsOk U P solveAll fun _ => True where
  growing := fun s => by
    rw [after, solveAll_run]
    exact Event.solve.grows s
  keeps _ τ s hs _ := by
    rw [after, solveAll_run]
    exact ⟨hs.solve, fun _ _ => trivial⟩

theorem settleAmbiguous_keeps (d : Deferred) :
    KeepsOk U (∀ t ∈ d.types, t.Over U) (settleAmbiguous d) fun _ => True := by
  cases d with
  | iter iterable elem span =>
    refine (KeepsOk.lift ((constrain_keeps _ _ _ _).given fun h => ⟨?_, ?_⟩)).bind fun _ =>
      solveAll_keeps
    · exact Ty.over_array.mpr (h elem (by simp [Deferred.types]))
    · exact h iterable (by simp [Deferred.types])
  | field base name result span => exact .lift (report_keeps _ _)
  | method call => exact .lift (report_keeps _ _)

theorem settleRound_keeps (sc : TypeScope) (methods : Methods) (l : List Deferred) :
    KeepsOk U (SettlesOver U sc methods l) (settleRound sc methods l) fun waiting =>
      ∀ d ∈ waiting, ∀ t ∈ d.types, t.Over U := by
  induction l with
  | nil => exact solveAll_keeps.bind fun _ => .pure fun _ => by simp
  | cons d r ih =>
    have htail : SettlesOver U sc methods (d :: r) → SettlesOver U sc methods r :=
      fun h => { h with pending := fun e he => h.pending e (by simp [he]) }
    have hhead : SettlesOver U sc methods (d :: r) → SettlesOver U sc methods [d] :=
      fun h => { h with pending := List.forall_mem_singleton.mpr (h.pending d (by simp)) }
    rw [settleRound, ← bind_assoc]
    refine solveAll_get_keeps.bind fun s => ?_
    dsimp only
    split
    · refine (ih.given fun h => htail h.1).bind fun waiting => .pure fun h => ?_
      exact List.forall_mem_cons.mpr ⟨h.1.1.pending d (by simp), h.2⟩
    · refine (KeepsOk.lift ((resolveMember_keeps sc methods _ d).given fun h =>
        ⟨hhead h.1, h.2 _ ?_⟩)).bind fun _ => ih.given fun h => htail h.1.1
      refine h.1.pending d (by simp) _ ?_
      cases d <;> simp [Deferred.receiver, Deferred.types]

theorem settleAmbiguous_all_keeps (l : List Deferred) :
    KeepsOk U (∀ d ∈ l, ∀ t ∈ d.types, t.Over U) (l.forM settleAmbiguous) fun _ => True := by
  induction l with
  | nil => exact .pure fun _ => trivial
  | cons d r ih =>
    exact ((settleAmbiguous_keeps d).given fun h => h d (by simp)).bind fun _ =>
      ih.given fun h e he => h.1 e (by simp [he])

theorem settle_keeps (sc : TypeScope) (methods : Methods) (pending : List Deferred) :
    KeepsOk U (SettlesOver U sc methods pending) (settle sc methods pending) fun _ => True := by
  induction hn : pending.length using Nat.strongRecOn generalizing pending with
  | ind n ih =>
    rw [settle]
    split
    · exact .pure fun _ => trivial
    · refine (settleRound_keeps sc methods pending).bind fun waiting => ?_
      split
      · rename_i hlt
        exact (ih waiting.length (hn ▸ hlt) waiting rfl).given fun h => { h.1 with pending := h.2 }
      · exact (settleAmbiguous_all_keeps waiting).given And.right

theorem get_keeps : Keeps U P (get : Check Session) fun s =>
    ∀ d ∈ s.deferred.toList, ∀ t ∈ d.types, t.Over U :=
  ⟨fun s => .refl s, fun _ _ _ hs _ => ⟨hs, hs.deferred⟩⟩

theorem solveProgram_keeps (sc : TypeScope) (methods : Methods) :
    KeepsOk U (sc.Over U ∧ methods.Over U) (solveProgram sc methods) fun _ => True := by
  refine solveAll_keeps.bind fun _ => (KeepsOk.lift get_keeps).bind fun s => ?_
  exact (settle_keeps sc methods _).given fun h => ⟨h.1.1.1, h.1.1.2, h.2⟩

theorem Keeps.of_reports {m : Check α} (hm : Emits Event.IsReport m) :
    Keeps U P m fun _ => True := by
  refine .idle hm.growing fun s => ?_
  refine (hm.leads s).induct (R := fun s t => t.constraints = s.constraints ∧ t.deferred = s.deferred)
    (fun _ => ⟨rfl, rfl⟩) (fun _ _ _ h k => ⟨k.1.trans h.1, k.2.trans h.2⟩) fun e r he => ?_
  cases e with
  | report f => exact ⟨rfl, rfl⟩
  | _ => exact False.elim he

theorem finish_keeps (sc : TypeScope) (methods : Methods) (checkEffects : Bool) :
    Keeps U (sc.Over U ∧ methods.Over U) (finish sc methods checkEffects) fun _ => True := by
  refine (solveProgram_keeps sc methods).andThen fun r => ?_
  cases r with
  | error fault => exact (report_keeps _ _).andThen fun _ => .pure fun _ => trivial
  | ok _ =>
    refine get_keeps.andThen fun s => .of_reports ((checkGenerics_reports _ _ _).bind fun _ => ?_)
    split
    · exact (checkSites_reports _ _).bind fun _ => .pure _
    · exact .pure _

end Settle

end Sema
