import Sema.Proofs.Typing.Coverage
import Sema.Proofs.Typing.Lowering
import Sema.Proofs.Typing.Members

/-!
# Fields that are written and read

The declared type of a field is lowered at the literal that writes the field, in the scope of
the literal, and again at the access that reads it, when the type of the receiver is known. In
an accepted program each is compatible with the type of its expression; where the declared type
is definite both are the same tree, and so are the types of the value written and of the access.
Between a literal and an access through a name stands the scheme of the binding, whose
quantified variables the access may take to be anything.
-/

namespace Sema

namespace Ty

variable {n : String} {l : List Ty}

theorem replace_nominal (f : Nat → Ty) (n : String) (l : List Ty) :
    (nominal n l).replace f = nominal n (l.map (replace f)) := by
  rw [← replaceAll_eq_map]
  cases l <;> rfl

theorem nominal_of_compatible {t : Ty} (h : (nominal n l).compatible t = true) :
    ∃ m, t = nominal n m ∧ compatibleAll l m = true := by
  cases l with
  | nil => exact ⟨[], eq_of_compatible_atom h, rfl⟩
  | cons s r =>
    obtain ⟨m, rfl, hm⟩ := app_of_compatible h
    obtain ⟨u, q, rfl, _, _⟩ := cons_of_compatibleAll hm
    exact ⟨u :: q, rfl, hm⟩

/-- A known type that becomes nominal is nominal. -/
theorem nominal_of_replace_eq {f : Nat → Ty} {t : Ty} (hknown : t.asVar = none)
    (h : t.replace f = nominal n l) : ∃ m, t = nominal n m ∧ m.map (replace f) = l := by
  cases l with
  | nil =>
    cases t with
    | var v => simp [asVar] at hknown
    | atom a => exact ⟨[], h, rfl⟩
    | _ => simp [replace, nominal, named] at h
  | cons s r =>
    cases t with
    | var v => simp [asVar] at hknown
    | app m as =>
      simp only [replace, nominal, app.injEq, replaceAll_eq_map] at h
      obtain ⟨rfl, has⟩ := h
      cases as with
      | nil => simp at has
      | cons a as => exact ⟨a :: as, rfl, has⟩
    | _ => simp [replace, nominal] at h

theorem nominalName?_nominal (n : String) (l : List Ty) : (nominal n l).nominalName? = some n := by
  cases l <;> rfl

theorem args_nominal (n : String) (l : List Ty) : (nominal n l).args = l := by
  cases l <;> rfl

/-- What is compatible one by one is alike. -/
theorem forall₂_alike_of_compatible {f g : Nat → Ty} {l m : List Ty}
    (h : compatibleAll (l.map (replace f)) (m.map (replace g)) = true) :
    List.Forall₂ (Alike f g) l m := by
  induction l generalizing m with
  | nil =>
    have hm : m = [] := by simpa using nil_of_compatibleAll h
    rw [hm]
    exact .nil
  | cons s r ih =>
    obtain ⟨u, q, hm, hsu, hrq⟩ := cons_of_compatibleAll h
    obtain ⟨t, m, rfl, rfl, rfl⟩ := List.map_eq_cons_iff.mp hm
    exact .cons (bare_eq_of_compatible _ _ hsu) (ih hrq)

end Ty

section Literals

variable (v : Valuation)

/-- The value of the initialiser fits the declared type of the field in the scope. -/
def FieldInit.Written (v : Valuation) (sc : TypeScope) (d : StructDef) (init : FieldInit) :
    Prop :=
  ∃ decl t u, d.fields.find? (·.name.node == init.name.node) = some decl ∧
    sc.Denotes decl.ty t ∧ v.typing init.value.id = some u ∧ (v.value t).compatible u = true

theorem Infers.of_yields {v : Valuation} {α : Type} {m : Check α} {Q : α → Prop} (hm : Quiet m)
    (h : Yields m Q) : Infers v [] m Q :=
  { Infers.quiet hm with result := fun s _ => h s }

theorem lower_infers (sc : TypeScope) (e : TypeExpr) : Infers v [] (lower sc e) (sc.Denotes e) :=
  { Infers.quiet (lower_notes sc e).quiet with result := fun s hs => ⟨s, hs.faults, rfl⟩ }

theorem checkInit_infers (sc : TypeScope) (d : StructDef) (struct : String) (name : Ident)
    (t : Ty) (span : Span) :
    Infers v [] (checkInit sc d struct name t span) fun _ => ∃ decl u,
      d.fields.find? (·.name.node == name.node) = some decl ∧ sc.Denotes decl.ty u ∧
        (v.value u).compatible (v.value t) = true := by
  unfold checkInit
  cases d.fields.find? (·.name.node == name.node) with
  | none => exact (Infers.report _ _).mono rfl fun _ h => h.elim
  | some decl =>
    refine ((lower_infers v sc decl.ty).bind fun _ => Infers.constrain _ _ _ _).mono rfl ?_
    rintro _ ⟨u, hu, hcompatible⟩
    exact ⟨decl, u, rfl, hu, hcompatible⟩

theorem checkInits_written (cx : Context) (d : StructDef) (struct : String) (seen : List String)
    (l : List FieldInit) :
    Infers v (nodesInits l) (checkInits cx d struct seen l) fun _ =>
      ∀ init ∈ l, init.Written v cx.scope d := by
  induction l generalizing seen with
  | nil =>
    rw [checkInits, nodesInits]
    exact (Infers.pure _).mono rfl fun _ _ => by simp
  | cons init r ih =>
    obtain ⟨span, name, value⟩ := init
    rw [checkInits, nodesInits]
    have hrest := ih (name.node :: seen)
    refine ((inferExpr_infers v cx value).bind (k := nodesInits r) (R := fun t _ =>
      v.typing value.id = some (v.value t) → ∀ init ∈ ⟨span, name, value⟩ :: r,
        init.Written v cx.scope d) fun t => ?_).mono rfl fun _ ⟨t, ht, h⟩ => h ht
    split
    · exact ((Infers.report _ _).bind fun _ => hrest).mono (by simp) fun _ ⟨_, h, _⟩ => h.elim
    · refine ((checkInit_infers v _ _ _ _ _ _).bind fun _ => hrest).mono (by simp) ?_
      rintro _ ⟨_, ⟨decl, u, hdecl, hu, hcompatible⟩, hmem⟩ ht
      exact List.forall_mem_cons.mpr ⟨⟨decl, u, _, hdecl, hu, ht, hcompatible⟩, hmem⟩

/-- The names of what is supplied are those of the parameters. -/
theorem supply_yields (generics : List GenericParam) (types : List Ty) :
    Yields (supply generics types) fun l => l.map (·.1) = generics.map (·.name.node) := by
  induction generics generalizing types with
  | nil => exact .pure rfl
  | cons g r ih =>
    cases types with
    | nil => exact .bind (.any _) fun _ _ => .bind (ih []) fun l hl => .pure (by simp [hl])
    | cons t ts => exact .bind (ih ts) fun l hl => .pure (by simp [hl])

/-- A fresh instance: the struct applied to as many types as it has parameters. -/
theorem instantiateNominal_yields (name : String) (generics : List GenericParam) :
    Yields (instantiateNominal name generics) fun x => ∃ types,
      types.length = generics.length ∧
        x = (.nominal name types, .ofList ((generics.map (·.name.node)).zip types)) := by
  refine .bind (supply_yields generics []) fun l hl => .pure ⟨l.map (·.2), ?_, ?_⟩
  · simpa using congrArg List.length hl
  · rw [← hl, List.zip_map', List.map_id'' fun _ => rfl]

/-- A struct literal has the type of a fresh instance, and its fields are written in the scope
of that instance. -/
theorem structLit_writes (cx : Context) (span : Span) (name : Ident) (fields : List FieldInit)
    (base : Option Expr) {d : StructDef}
    (hd : cx.scope.decls.structs.get? (cx.scope.structName name.node) = some d) :
    Infers v (ExprKind.structLit name fields base).nodes
      (inferKind cx span (.structLit name fields base)) fun t => ∃ types,
        types.length = d.generics.length ∧ t = .nominal (cx.scope.structName name.node) types ∧
        ∀ init ∈ fields,
          init.Written v
            (cx.scope.enter (.ofList ((d.generics.map (·.name.node)).zip types))) d := by
  have hfresh := Infers.of_yields (v := v) (instantiateNominal_notes _ _).quiet
    (instantiateNominal_yields (cx.scope.structName name.node) d.generics)
  cases base with
  | none =>
    rw [inferKind, ExprKind.nodes]
    simp only [hd]
    refine (hfresh.bind fun _ => (checkInits_written v _ _ _ _ fields).bind fun _ =>
      (Infers.quiet (checkComplete_notes _ _ _ _).quiet).bind fun _ => Infers.pure _).mono
      (by simp) ?_
    rintro t ⟨_, ⟨types, hlen, rfl⟩, _, hwritten, _, _, rfl⟩
    exact ⟨types, hlen, rfl, hwritten⟩
  | some e =>
    rw [inferKind, ExprKind.nodes]
    simp only [hd]
    refine (hfresh.bind fun _ => (checkInits_written v _ _ _ _ fields).bind fun _ =>
      (inferExpr_infers v cx e).bind fun _ => (Infers.constrain _ _ _ _).bind fun _ =>
      Infers.pure _).mono (by simp) ?_
    rintro t ⟨_, ⟨types, hlen, rfl⟩, _, hwritten, _, _, _, _, rfl⟩
    exact ⟨types, hlen, rfl, hwritten⟩

end Literals

section Accesses

/-- The field of a known struct is compared with its declaration in the scope of the instance. -/
theorem resolveField_nominal {sc : TypeScope} {n : String} {d : StructDef} {decl : FieldDef}
    {args : List Ty} {field : String} (hd : sc.decls.structs.get? n = some d)
    (hdecl : d.fields.find? (·.name.node == field) = some decl)
    (hlen : args.length = d.generics.length) (htuple : d.generics ≠ [] → n ≠ Ty.tupleName)
    (result : Ty) (span : Span) :
    resolveField sc (.nominal n args) field result span =
      (lower (sc.enter (.ofList ((d.generics.map (·.name.node)).zip args))) decl.ty >>= fun t =>
        constrain t result span .field) := by
  have hstruct : resolveField sc (.nominal n args) field result span =
      resolveStructField sc (.nominal n args) field result span := by
    cases args with
    | nil => rfl
    | cons t r =>
      have hgenerics : d.generics ≠ [] := by
        intro hnil
        simp [hnil] at hlen
      simp [resolveField, Ty.nominal, Ty.unbranded, htuple hgenerics]
  rw [hstruct, resolveStructField, Ty.nominalName?_nominal, Option.bind_some, hd]
  simp only [hdecl, Ty.args_nominal, supply_of_length_le hlen.ge]
  rfl

theorem resolveField_infers (v : Valuation) {sc : TypeScope} {n : String} {d : StructDef}
    {decl : FieldDef} {args : List Ty} {field : String}
    (hd : sc.decls.structs.get? n = some d)
    (hdecl : d.fields.find? (·.name.node == field) = some decl)
    (hlen : args.length = d.generics.length) (htuple : d.generics ≠ [] → n ≠ Ty.tupleName)
    (result : Ty) (span : Span) :
    Infers v [] (resolveField sc (.nominal n args) field result span) fun _ => ∃ t,
      (sc.enter (.ofList ((d.generics.map (·.name.node)).zip args))).Denotes decl.ty t ∧
        (v.value t).compatible (v.value result) = true := by
  rw [resolveField_nominal hd hdecl hlen htuple]
  exact ((lower_infers v _ _).bind fun _ => Infers.constrain _ _ _ _).mono rfl fun _ => id

/-- A field access waits for its receiver. -/
theorem inferExpr_field_run {cx : Context} {base : Expr} {r : Session} {b x : Ty × Session}
    (hb : (inferExpr cx base).run r = b) (hx : fresh.run b.2 = x) (id : ExprId) (span : Span)
    (field : Ident) :
    (inferExpr cx ⟨id, span, .field base field⟩).run r =
      (x.1, (Event.record id x.1).apply
        ((Event.defer (.field b.1 field.node x.1 field.span)).apply x.2)) := by
  subst hb hx
  rw [inferExpr, inferKind]
  rfl

/-- What the solver has found out stays so until everything is solved. -/
theorem Grows.replace_apply {s t : Session} (h : Grows s t) (hs : s.Solving) (ht : t.Solved)
    (u : Ty) : (s.solver.apply u).replace t.solver.subst.assignment =
      u.replace t.solver.subst.assignment := by
  obtain ⟨done, rest, hconstraints, hsolver⟩ := hs
  obtain ⟨more, hmore⟩ := h.constraints
  have hrun : t.solver = s.solver.run (rest ++ more) := by
    rw [ht.2, hmore, hconstraints, List.append_assoc, Solver.run_append, hsolver]
  have htriangular : s.solver.subst.Triangular := by
    rw [hsolver]
    exact Solver.run_triangular .empty _
  rw [hrun]
  exact Solver.run_extends htriangular _ u

/-- A check that has come to a good end: `s` is the session after the bodies, `t` the last
one, and the valuation is what the last solver says. -/
structure Concludes (v : Valuation) (sc : TypeScope) (methods : Methods) (s t : Session) :
    Prop where
  satisfies : v.Satisfies t
  vars : v.vars = t.solver.subst.assignment
  solved : t.Solved
  grows : Grows s t
  resolves : ∀ base name result span, Deferred.field base name result span ∈ s.deferred.toList →
    (Deferred.field base name result span).Resolved sc methods t

variable {v : Valuation} {sc : TypeScope} {methods : Methods} {s t : Session}

/-- A field access on a struct has a type that the declared type of the field fits, lowered at
the root for the instance that the receiver is. -/
theorem Concludes.read (h : Concludes v sc methods s t) {cx : Context} {access base : Expr}
    {field : Ident} {r : Session} (hkind : access.kind = .field base field)
    (hr : Grows (after (inferExpr cx access) r) s) {n : String} {args : List Ty}
    (hbase : v.value ((inferExpr cx base).run r).1 = .nominal n args) {d : StructDef}
    {decl : FieldDef} (hd : sc.decls.structs.get? n = some d)
    (hdecl : d.fields.find? (·.name.node == field.node) = some decl)
    (hlen : args.length = d.generics.length) (htuple : d.generics ≠ [] → n ≠ Ty.tupleName) :
    ∃ inst u a, inst.map v.value = args ∧
      (sc.enter (.ofList ((d.generics.map (·.name.node)).zip inst))).Denotes decl.ty u ∧
        v.typing access.id = some a ∧ (v.value u).compatible a = true := by
  obtain ⟨id, span, kind⟩ := access
  subst hkind
  have htype := (inferExpr_infers v cx ⟨id, span, .field base field⟩).result r
    (h.satisfies.of_grows (hr.trans h.grows))
  obtain ⟨b, hb⟩ : ∃ b, (inferExpr cx base).run r = b := ⟨_, rfl⟩
  obtain ⟨x, hx⟩ : ∃ x, fresh.run b.2 = x := ⟨_, rfl⟩
  rw [inferExpr_field_run hb hx] at htype
  rw [after, inferExpr_field_run hb hx] at hr
  rw [hb] at hbase
  have hmem : Deferred.field b.1 field.node x.1 field.span ∈ s.deferred.toList :=
    hr.mem_deferred (by simp [Event.apply])
  obtain ⟨q, hq, hknown, hqt⟩ := h.resolves _ _ _ _ hmem
  rw [Deferred.receiver] at hknown hqt
  have hgrows := ((resolveMember_quiet sc methods (q.solver.apply b.1)
    (.field b.1 field.node x.1 field.span)).growing q).trans hqt
  have hsame : (q.solver.apply b.1).replace v.vars = .nominal n args := by
    rw [h.vars, hgrows.replace_apply hq.solving h.solved, ← h.vars]
    exact hbase
  obtain ⟨inst, hinst, hargs⟩ := Ty.nominal_of_replace_eq hknown hsame
  have hinstlen : inst.length = d.generics.length := by
    rw [← hlen, ← hargs, List.length_map]
  have hresolve : Grows (after (resolveField sc (q.solver.apply b.1) field.node x.1
    field.span) q) t := hqt
  rw [hinst] at hresolve
  obtain ⟨u, hu, hcompatible⟩ := (resolveField_infers v hd hdecl hinstlen htuple x.1
    field.span).result q (h.satisfies.of_grows hresolve)
  exact ⟨inst, u, _, hargs, hu, htype, hcompatible⟩

end Accesses

section Writes

/-- The names of the generic parameters in scope. -/
def TypeScope.paramNames (sc : TypeScope) : List String := sc.params.flatMap Table.keys

theorem TypeScope.param?_eq_none {sc : TypeScope} {name : String} (h : name ∉ sc.paramNames) :
    sc.param? name = none := by
  rw [param?, List.findSome?_eq_none_iff]
  intro params hparams
  rw [← Option.not_isSome_iff_eq_none]
  intro hsome
  exact h (List.mem_flatMap.mpr ⟨params, hparams, (Table.isSome_find_iff _ _).mp hsome⟩)

/-- A struct literal in `cx` that gives a value to the field, whose declared type is definite
as seen from there. -/
structure FieldWrite (root : TypeScope) (cx : Context) (lit : Expr) (field : String) where
  name : Ident
  inits : List FieldInit
  base : Option Expr
  kind_eq : lit.kind = .structLit name inits base
  init : FieldInit
  init_mem : init ∈ inits
  init_name : init.name.node = field
  struct : StructDef
  struct_eq : cx.scope.decls.structs.get? (cx.scope.structName name.node) = some struct
  decl : FieldDef
  decl_eq : struct.fields.find? (·.name.node == field) = some decl
  not_tuple : struct.generics ≠ [] → cx.scope.structName name.node ≠ Ty.tupleName
  definite : decl.ty.Definite root cx.scope.paramNames (struct.generics.map (·.name.node))

variable {v : Valuation} {root : TypeScope} {methods : Methods} {s t : Session}

theorem inferExpr_run (cx : Context) (id : ExprId) (span : Span) (kind : ExprKind)
    (r : Session) : (inferExpr cx ⟨id, span, kind⟩).run r =
      (((inferKind cx span kind).run r).1,
        (Event.record id ((inferKind cx span kind).run r).1).apply
          ((inferKind cx span kind).run r).2) := by
  rw [inferExpr]
  rfl

theorem Concludes.written (h : Concludes v root methods s t) {cx : Context} {lit : Expr}
    {field : String} (w : FieldWrite root cx lit field) {r : Session}
    (hr : Grows (after (inferExpr cx lit) r) s) :
    ∃ types u a, types.length = w.struct.generics.length ∧
      ((inferExpr cx lit).run r).1 = .nominal (cx.scope.structName w.name.node) types ∧
        (cx.scope.enter (.ofList ((w.struct.generics.map (·.name.node)).zip types))).Denotes
          w.decl.ty u ∧
        v.typing w.init.value.id = some a ∧ (v.value u).compatible a = true := by
  obtain ⟨id, span, kind⟩ := lit
  have hkind : kind = .structLit w.name w.inits w.base := w.kind_eq
  rw [after, inferExpr_run] at hr
  rw [inferExpr_run]
  have hlit := (structLit_writes v cx span w.name w.inits w.base w.struct_eq).result r
  rw [← hkind] at hlit
  obtain ⟨types, hlen, htype, hwritten⟩ := hlit
    (h.satisfies.of_grows (((Event.record _ _).grows _).trans (hr.trans h.grows)))
  obtain ⟨decl, u, a, hdecl, hu, ha, hcompatible⟩ := hwritten w.init w.init_mem
  rw [w.init_name, w.decl_eq] at hdecl
  cases hdecl
  exact ⟨types, u, a, hlen, htype, hu, ha, hcompatible⟩

theorem TypeScope.agree_root {f g : Nat → Ty} {sc : TypeScope} (hdecls : sc.decls = root.decls)
    (hcatalog : sc.catalog = root.catalog) (hparams : root.params = [])
    (hself : root.selfTy = none) : sc.Agree f g sc.paramNames [] root := by
  refine ⟨hdecls, hcatalog, by simp, fun name _ hname => ⟨param?_eq_none hname, ?_⟩, hself⟩
  rw [param?, hparams]
  rfl

/-- The value written to a field and an access that reads it, when the receiver of the access
is compatible with the literal under `f`. -/
theorem Concludes.reads_written (h : Concludes v root methods s t) (hparams : root.params = [])
    (hself : root.selfTy = none) {cx cy : Context} {lit access base : Expr} {field : Ident}
    (w : FieldWrite root cx lit field.node) (hdecls : cx.scope.decls = root.decls)
    (hcatalog : cx.scope.catalog = root.catalog) {q r : Session}
    (hlit : Grows (after (inferExpr cx lit) q) s) (hkind : access.kind = .field base field)
    (haccess : Grows (after (inferExpr cy access) r) s) (f : Nat → Ty)
    (hbase : (((inferExpr cx lit).run q).1.replace f).compatible
      (v.value ((inferExpr cy base).run r).1) = true) :
    ∃ u a b, v.typing w.init.value.id = some a ∧ v.typing access.id = some b ∧
      (v.value u).bare = a.bare ∧ (u.replace f).bare = b.bare := by
  obtain ⟨types, u, a, hlen, htype, hu, ha, hua⟩ := h.written w hlit
  rw [htype, Ty.replace_nominal] at hbase
  obtain ⟨args, hargs, hcompatible⟩ := Ty.nominal_of_compatible hbase
  have hargslen : args.length = w.struct.generics.length := by
    rw [← hlen, ← Ty.length_eq_of_compatibleAll hcompatible, List.length_map]
  have hstruct := w.struct_eq
  rw [hdecls] at hstruct
  obtain ⟨inst, c, b, hinst, hc, hb, hcb⟩ := h.read hkind haccess hargs hstruct w.decl_eq
    hargslen w.not_tuple
  rw [← hinst] at hcompatible
  have halike : List.Forall₂ (Ty.Alike f v.vars) types inst :=
    Ty.forall₂_alike_of_compatible hcompatible
  have hnames : ((w.struct.generics.map (·.name.node)).zip types).map (·.1) =
      w.struct.generics.map (·.name.node) := by
    rw [List.map_fst_zip]
    simp [hlen]
  have hagree := (TypeScope.agree_root (f := f) (g := v.vars) hdecls hcatalog hparams hself).enter
    (paramsAlike_zip halike (w.struct.generics.map (·.name.node))) cx.scope.resolving
    root.resolving
  rw [hnames, List.append_nil] at hagree
  have hinside : (cx.scope.enter (.ofList ((w.struct.generics.map (·.name.node)).zip
      types))).decls = root.decls := hdecls
  have huc : Ty.Alike f v.vars u c := w.definite.alike hinside hcatalog hagree hu hc
  refine ⟨u, a, b, ha, hb, Ty.bare_eq_of_compatible _ _ hua, ?_⟩
  exact huc.trans (Ty.bare_eq_of_compatible _ _ hcb)

end Writes

section Bindings

variable {cx : Context} {x : String}

/-- A name is bound to its type, which may be generalised first. -/
theorem bindLet_ident_run (hx : cx.valueConstructor? x = none) (span : Span) (m byRef : Bool)
    (t : Ty) (mutable : Bool) (r : Session) :
    (bindLet cx (.ident span x m byRef) t true mutable).run r = (cx.env.bind x (.mono t), r) ∨
      (bindLet cx (.ident span x m byRef) t true mutable).run r =
        (cx.env.bind x ((generalizeBinding cx t).run r).1,
          ((generalizeBinding cx t).run r).2) := by
  unfold bindLet
  simp only [Context.generalizes?]
  split
  · rename_i name hname
    split at hname
    · cases hname
      exact .inr rfl
    · cases hname
  · rw [checkPattern]
    simp only [hx]
    exact .inl rfl

/-- A name is bound to its type as it is, or as far as it is solved. -/
theorem bindLet_ident_scheme (hx : cx.valueConstructor? x = none) (span : Span)
    (m byRef : Bool) (t : Ty) (mutable : Bool) (r : Session) {scheme : Scheme}
    (h : ((bindLet cx (.ident span x m byRef) t true mutable).run r).1.lookup x = some scheme) :
    scheme = .mono t ∨ (r.solver.solve r.constraints).failure = none ∧
      scheme.body = (Event.solve.apply r).solver.apply t ∧
        after (bindLet cx (.ident span x m byRef) t true mutable) r = Event.solve.apply r := by
  rcases bindLet_ident_run hx span m byRef t mutable r with hrun | hrun
  · rw [hrun, Env.lookup_bind, if_pos rfl] at h
    exact .inl (Option.some.inj h).symm
  · rw [hrun, Env.lookup_bind, if_pos rfl, generalizeBinding_run] at h
    have hscheme := Option.some.inj h
    cases hfailure : (r.solver.solve r.constraints).failure with
    | some fault =>
      rw [hfailure] at hscheme
      exact .inl hscheme.symm
    | none =>
      rw [hfailure] at hscheme
      refine .inr ⟨rfl, ?_, ?_⟩
      · rw [← hscheme]
        rfl
      · rw [after, hrun, generalizeBinding_run]

/-- A `let` with a value binds a type that the type of the value is constrained to, or is. -/
theorem checkStmt_letBind_run (cx : Context) (span : Span) (pattern : Pattern)
    (ty : Option TypeExpr) (e : Expr) (mutable : Bool) (q : Session) :
    ∃ t r, (checkStmt cx (.letBind span pattern ty (some e) mutable)).run q =
        (bindLet cx pattern t true mutable).run r ∧
      Grows (after (inferExpr cx e) q) r ∧
      (t = ((inferExpr cx e).run q).1 ∨
        ∃ c ∈ r.constraints.toList, c.expected = t ∧ c.actual = ((inferExpr cx e).run q).1) := by
  rw [checkStmt]
  cases ty with
  | none => exact ⟨_, _, rfl, .refl _, .inl rfl⟩
  | some ty =>
    have hlower := (lower_notes cx.scope ty).growing (after (inferExpr cx e) q)
    refine ⟨_, _, rfl, hlower.trans (constrain_growing _ _ e.span .annotated _), .inr ?_⟩
    exact ⟨_, Array.mem_toList_iff.mpr Array.mem_push_self, rfl, rfl⟩

/-- A `let` with a value binds its name. -/
theorem checkStmt_letBind_lookup (hx : cx.valueConstructor? x = none) (span pspan : Span)
    (m byRef : Bool) (ty : Option TypeExpr) (e : Expr) (mutable : Bool) (q : Session) :
    ∃ scheme, ((checkStmt cx (.letBind span (.ident pspan x m byRef) ty (some e) mutable)).run
      q).1.lookup x = some scheme := by
  obtain ⟨t, r, hrun, -⟩ := checkStmt_letBind_run cx span (.ident pspan x m byRef) ty e mutable q
  rw [hrun]
  rcases bindLet_ident_run hx pspan m byRef t mutable r with hbind | hbind
  · exact ⟨_, by rw [hbind, Env.lookup_bind, if_pos rfl]⟩
  · exact ⟨_, by rw [hbind, Env.lookup_bind, if_pos rfl]⟩

variable {v : Valuation} {root : TypeScope} {methods : Methods} {s t : Session}

/-- Every instance of a binding, in which only quantified variables have been replaced, is
compatible with the type of the value that was bound, once its variables are as far solved as
they were at the binding. -/
theorem Concludes.letBind (h : Concludes v root methods s t)
    (hx : cx.valueConstructor? x = none) {span pspan : Span} {m byRef mutable : Bool}
    {ty : Option TypeExpr} {e : Expr} {q : Session} (hq : q.Solving)
    (hs : Grows (after (checkStmt cx
      (.letBind span (.ident pspan x m byRef) ty (some e) mutable)) q) s) {scheme : Scheme}
    (hscheme : ((checkStmt cx
      (.letBind span (.ident pspan x m byRef) ty (some e) mutable)).run q).1.lookup x =
        some scheme) :
    ∃ f : Nat → Ty, (∀ w, (f w).replace v.vars = v.vars w) ∧
      ∀ g : Nat → Ty, (∀ w, w ∉ scheme.vars → g w = v.vars w) →
        (((inferExpr cx e).run q).1.replace fun w => (f w).replace g).compatible
          (scheme.body.replace g) = true := by
  obtain ⟨declared, r, hrun, hqr, htype⟩ := checkStmt_letBind_run cx span (.ident pspan x m byRef)
    ty e mutable q
  rw [hrun] at hscheme
  rw [after, hrun] at hs
  have hcomparable : ∀ θ : Ty → Ty,
      (∀ c ∈ r.constraints.toList, (θ c.expected).compatible (θ c.actual) = true) →
      (θ ((inferExpr cx e).run q).1).compatible (θ declared) = true := by
    intro θ hθ
    rcases htype with rfl | ⟨c, hc, rfl, hactual⟩
    · exact Ty.compatible_refl _
    · rw [← hactual, Ty.compatible_comm]
      exact hθ c hc
  rcases bindLet_ident_scheme hx pspan m byRef declared mutable r hscheme with rfl | hsolve
  · refine ⟨.var, fun w => rfl, fun g hg => ?_⟩
    have hvars : g = v.vars := funext fun w => hg w (by simp [Scheme.mono])
    have hrt : Grows r t :=
      ((bindLet_quiet cx (.ident pspan x m byRef) declared true mutable).growing r).trans
        (hs.trans h.grows)
    have hvalue := hcomparable v.value fun c hc =>
      h.satisfies.constraints c (hrt.mem_constraints hc)
    rw [hvars]
    exact hvalue
  · obtain ⟨hok, hbody, hafter⟩ := hsolve
    have hr : r.Solving := hqr.solving (((inferExpr_keeps (U := fun _ => True) cx e).growing q).solving hq)
    have hsolved := hr.solved hok
    change Grows (after _ r) s at hs
    rw [hafter] at hs
    refine ⟨(Event.solve.apply r).solver.subst.assignment, fun w => ?_, fun g _ => ?_⟩
    · have hw := (hs.trans h.grows).replace_apply hsolved.solving h.solved (.var w)
      rw [← h.vars] at hw
      exact hw
    · have happly := hcomparable (Event.solve.apply r).solver.apply fun c hc =>
        hsolved.compatible hc
      rw [hbody, ← Ty.replace_replace]
      exact Ty.compatible_replace g _ _ happly

/-- A name has an instance of its scheme. -/
theorem inferExpr_ident {cx : Context} {e : Expr} {scheme : Scheme} (hkind : e.kind = .ident x)
    (hscheme : cx.env.lookup x = some scheme) (r : Session) :
    ((inferExpr cx e).run r).1 = scheme.body.replace (Scheme.fresh scheme.vars r.nextVar) := by
  obtain ⟨id, span, kind⟩ := e
  subst hkind
  rw [inferExpr_run, inferKind, lookupName, hscheme]
  rfl

/-- An instance leaves alone what is not quantified. -/
theorem inferExpr_ident_value (v : Valuation) {cx : Context} {e : Expr} {scheme : Scheme}
    (hkind : e.kind = .ident x) (hscheme : cx.env.lookup x = some scheme) (r : Session) :
    ∃ g : Nat → Ty, (∀ w, w ∉ scheme.vars → g w = v.vars w) ∧
      v.value ((inferExpr cx e).run r).1 = scheme.body.replace g := by
  refine ⟨fun w => (Scheme.fresh scheme.vars r.nextVar w).replace v.vars, fun w hw => ?_, ?_⟩
  · simp only [Scheme.fresh_of_not_mem r.nextVar hw, Ty.replace]
  · rw [inferExpr_ident hkind hscheme r]
    exact Ty.replace_replace _ _ _

/-- On the walk, a `let` whose value is `lit` binds the name to the scheme. -/
structure LetBound (walk : Task × Session) (cx : Context) (lit : Expr) (x : String)
    (scheme : Scheme) where
  session : Session
  span : Span
  patternSpan : Span
  patternMutable : Bool
  byRef : Bool
  ty : Option TypeExpr
  mutable : Bool
  reaches : Reaches walk (.stmt cx
    (.letBind span (.ident patternSpan x patternMutable byRef) ty (some lit) mutable), session)
  not_constructor : cx.valueConstructor? x = none
  lookup_eq : ((checkStmt cx (.letBind span (.ident patternSpan x patternMutable byRef) ty
    (some lit) mutable)).run session).1.lookup x = some scheme

end Bindings

section Program

variable {catalog : Catalog} {checkEffects : Bool} {p : Program}

theorem Program.solving_present : (p.present catalog).2.Solving :=
  (p.present_quiet catalog).grows.solving ⟨[], [], rfl, rfl⟩

theorem Program.concludes (hids : (p.nodes.map (·.id)).Nodup)
    (hok : (checkProgram catalog checkEffects p).ok = true) :
    Concludes (checkProgram catalog checkEffects p).valuation (p.scope catalog)
      (p.present catalog).1.methods (p.visited catalog checkEffects)
      (checkProgram catalog checkEffects p).session := by
  have hparts : (checkProgram catalog checkEffects p).solved = true ∧
      (checkProgram catalog checkEffects p).session.faults = #[] := by
    simpa only [TypeCheck.ok, Bool.and_eq_true, Array.isEmpty_iff] using hok
  obtain ⟨hflag, hfaults⟩ := hparts
  obtain ⟨hsolved, hrecorded, -⟩ := checkProgram_solved catalog checkEffects p
    (checkProgram catalog checkEffects p).valuation hflag
  have hnodup : (checkProgram catalog checkEffects p).session.recorded.Nodup :=
    hrecorded.nodup_iff.mpr (hids.sublist (p.checked_sublist.map _))
  have hsolving := p.solving_visited catalog checkEffects
  have hrun := finish_visited catalog checkEffects p
  have htrue : ((finish (p.scope catalog) (p.present catalog).1.methods checkEffects).run
      (p.visited catalog checkEffects)).1 = true := by rw [hrun, hflag]
  have hfinish := (finish_solved _ _ _ hsolving htrue).2.grows
  rw [hrun] at hfinish
  refine ⟨TypeCheck.satisfies_valuation hsolved hok hnodup, ?_, hsolved, hfinish, ?_⟩
  · simp only [TypeCheck.valuation, TypeCheck.subst, hflag, if_true]
  · intro base name result span hmem
    have hresolved := finish_resolves (p.scope catalog) (p.present catalog).1.methods checkEffects
      hsolving htrue (by rw [hrun, hfaults]) hmem
    rw [hrun] at hresolved
    exact hresolved

/-- What a task of the walk leaves is there after the bodies. -/
theorem Program.grows_visited {t : Task} {s : Session}
    (h : Reaches (p.walk catalog checkEffects) (t, s)) :
    Grows (t.after s) (p.visited catalog checkEffects) :=
  h.grows.2

/-- The receiver of an access is inferred where the access is. -/
theorem Reaches.receiver {walk : Task × Session} {cx : Context} {s : Session}
    {access base : Expr} {field : Ident} (h : Reaches walk (.expr cx access, s))
    (hkind : access.kind = .field base field) : Reaches walk (.expr cx base, s) := by
  refine h.tail ?_
  obtain ⟨id, span, kind⟩ := access
  subst hkind
  exact List.mem_singleton_self _

end Program

/-- In an accepted program whose expressions have distinct identities, a field is read with the
type it has been written with, if its declared type is definite: types are the same tree,
whatever their effect rows. Every expression that is checked is reached. The access may be on
the literal itself; or on a name that a `let` has bound to the literal, and then the access has
the type for the instance of the scheme that the name has there. -/
theorem fields_read_as_written (catalog : Catalog) (checkEffects : Bool) (p : Program)
    (hids : (p.nodes.map (·.id)).Nodup) (hok : (checkProgram catalog checkEffects p).ok = true) :
    (∀ e ∈ p.checked, ∃ cx s, Reaches (p.walk catalog checkEffects) (.expr cx e, s)) ∧
    (∀ cx s access lit field (w : FieldWrite (p.scope catalog) cx lit field.node),
      Reaches (p.walk catalog checkEffects) (.expr cx access, s) →
      access.kind = .field lit field →
      ∃ a b, (checkProgram catalog checkEffects p).types.get? w.init.value.id = some a ∧
        (checkProgram catalog checkEffects p).types.get? access.id = some b ∧
        a.bare = b.bare) ∧
    ∀ cx cy s access base lit field x scheme
      (w : FieldWrite (p.scope catalog) cx lit field.node)
      (_ : LetBound (p.walk catalog checkEffects) cx lit x scheme),
      Reaches (p.walk catalog checkEffects) (.expr cy access, s) →
      access.kind = .field base field → base.kind = .ident x → cy.env.lookup x = some scheme →
      ∃ u g a b, (checkProgram catalog checkEffects p).types.get? w.init.value.id = some a ∧
        (checkProgram catalog checkEffects p).types.get? access.id = some b ∧
        (checkProgram catalog checkEffects p).types.get? base.id = some (scheme.body.replace g) ∧
        (∀ v, v ∉ scheme.vars →
          g v = (checkProgram catalog checkEffects p).subst.assignment v) ∧
        ((checkProgram catalog checkEffects p).subst.apply u).bare = a.bare ∧
        (u.replace g).bare = b.bare := by
  have h := p.concludes hids hok
  refine ⟨fun e he => p.reaches_checked catalog checkEffects he, ?_, ?_⟩
  · intro cx s access lit field w hreach hkind
    obtain ⟨hdecls, hcatalog⟩ := hreach.sameTypes
    have hlit := p.grows_visited (hreach.receiver hkind)
    obtain ⟨u, a, b, ha, hb, hua, hub⟩ := h.reads_written rfl rfl w hdecls hcatalog hlit hkind
      (p.grows_visited hreach) _ (Ty.compatible_refl _)
    rw [TypeCheck.typing_valuation] at ha hb
    exact ⟨a, b, ha, hb, hua.symm.trans hub⟩
  · intro cx cy s access base lit field x scheme w l hreach hkind hbase hlookup
    obtain ⟨hdecls, hcatalog⟩ := l.reaches.sameTypes
    have hlit : Reaches (p.walk catalog checkEffects) (.expr cx lit, l.session) :=
      l.reaches.tail (List.mem_singleton_self _)
    obtain ⟨f, hf, hinstance⟩ := h.letBind l.not_constructor
      (l.reaches.grows.1.solving p.solving_present) (p.grows_visited l.reaches) l.lookup_eq
    obtain ⟨g, hg, hvalue⟩ := inferExpr_ident_value
      (checkProgram catalog checkEffects p).valuation hbase hlookup s
    have hreceiver := hinstance g hg
    rw [← hvalue] at hreceiver
    obtain ⟨u, a, b, ha, hb, hua, hub⟩ := h.reads_written rfl rfl w hdecls hcatalog
      (p.grows_visited hlit) hkind (p.grows_visited hreach) _ hreceiver
    have hbasetype := (inferExpr_infers _ cy base).result s
      (h.satisfies.of_grows ((p.grows_visited (hreach.receiver hkind)).trans h.grows))
    rw [hvalue] at hbasetype
    rw [TypeCheck.typing_valuation] at ha hb hbasetype
    refine ⟨u.replace f, g, a, b, ha, hb, hbasetype, hg, ?_, ?_⟩
    · rw [Subst.apply_eq_replace, Ty.replace_replace, ← hua]
      exact congrArg (fun θ => (u.replace θ).bare) (funext hf)
    · rw [Ty.replace_replace]
      exact hub

namespace Boxes

open Build

/-- `Box { value: .. }`. -/
def lit (id : ExprId) (value : Expr) : Expr :=
  ⟨id, .dummy, .structLit (name "Box") [⟨.dummy, name "value", value⟩] none⟩

def access (id : ExprId) (base : Expr) : Expr := ⟨id, .dummy, .field base (name "value")⟩

/-- `let b = Box { value: 1 };`. -/
def bindBox : Stmt := letIdent "b" (lit 0 ⟨1, .dummy, .literal ⟨.int 1, none⟩⟩)

/-- `b.value`. -/
def throughName : Expr := access 2 ⟨3, .dummy, .ident "b"⟩

/-- `Box { value: true }.value`. -/
def direct : Expr := access 4 (lit 5 ⟨6, .dummy, .literal ⟨.bool true, none⟩⟩)

def body : Block := block [bindBox, letIdent "n" throughName, letIdent "m" direct] none

def function : FunctionDef := functionOf "f" [.body body]

/-- A struct with a parameter, and a function that reads its field in both ways. -/
def program : Program where
  items := [struct "Box" ["T"] [("value", type "T")], .function function]

def write {cx : Context} (h : cx.SameTypes (program.context .empty true)) (id : ExprId)
    (value : Expr) : FieldWrite (program.scope .empty) cx (lit id value) "value" where
  name := name "Box"
  inits := [⟨.dummy, name "value", value⟩]
  base := none
  kind_eq := rfl
  init := ⟨.dummy, name "value", value⟩
  init_mem := by simp
  init_name := rfl
  struct := ⟨.dummy, name "Box", [generic "T"], [⟨.dummy, name "value", type "T"⟩]⟩
  struct_eq := by
    have hname : cx.scope.structName "Box" = "Box" := by simp [TypeScope.structName]
    rw [h.1]
    change _ = some _
    rw [show (Build.name "Box").node = "Box" from rfl, hname]
    rfl
  decl := ⟨.dummy, name "value", type "T"⟩
  decl_eq := by rfl
  not_tuple := by
    intro _
    simp [TypeScope.structName, Ty.tupleName, name]
  definite := by
    have htype : type "T" = ⟨.dummy, .path ["T"] []⟩ := by cbv
    rw [htype]
    exact .param rfl (by simp [joinPath, generic, name])

/-- The statements of the body are checked one after the other, and the name is read where the
`let` has bound it. -/
theorem reaches_accesses : ∃ cx cy cz s r q, cx.valueConstructor? "b" = none ∧
    Reaches (program.walk .empty true) (.stmt cx bindBox, s) ∧
    Reaches (program.walk .empty true) (.expr cy throughName, r) ∧
    cy.env = ((checkStmt cx bindBox).run s).1 ∧
    Reaches (program.walk .empty true) (.expr cz direct, q) := by
  have hsome : ((program.present .empty).1.signatures.get? "f").isSome = true := by cbv
  obtain ⟨sig, hsig⟩ := Option.isSome_iff_exists.mp hsome
  have hfunction : Reaches (program.walk .empty true) (.function (program.context .empty true)
      (program.present .empty).1 function "f", (program.present .empty).2) :=
    (Relation.ReflTransGen.refl.tail (List.mem_singleton_self _)).tail List.mem_cons_self
  have hblock : Reaches (program.walk .empty true)
      (.block (bodyContext (program.context .empty true) function "f" sig) body,
        (program.present .empty).2) := by
    refine hfunction.tail ?_
    have hbody : function.body = some body := rfl
    simp only [Task.calls, hbody, hsig]
    exact List.mem_cons_of_mem _ (List.mem_singleton_self _)
  have hfirst := hblock.tail List.mem_cons_self
  have hsecond := hfirst.tail (List.mem_cons_of_mem _ (List.mem_singleton_self _))
  have hthird := hsecond.tail (List.mem_cons_of_mem _ (List.mem_singleton_self _))
  exact ⟨_, _, _, _, _, _, rfl, hfirst.tail List.mem_cons_self,
    (hsecond.tail List.mem_cons_self).tail (List.mem_singleton_self _), rfl,
    (hthird.tail List.mem_cons_self).tail (List.mem_singleton_self _)⟩

theorem nodup_ids : (program.nodes.map (·.id)).Nodup := by
  have hlist : program.nodes.map (·.id) = [0, 1, 2, 3, 4, 5, 6] := by cbv
  rw [hlist]
  decide

theorem ok_program : (checkProgram .empty true program).ok = true := by cbv

end Boxes

open Boxes in
theorem boxes_read_as_written :
    (program.nodes.map (·.id)).Nodup ∧ (checkProgram .empty true program).ok = true ∧
    (∃ a b, (checkProgram .empty true program).types.get? 6 = some a ∧
      (checkProgram .empty true program).types.get? 4 = some b ∧ a.bare = b.bare) ∧
    ∃ scheme u g a b, (checkProgram .empty true program).types.get? 1 = some a ∧
      (checkProgram .empty true program).types.get? 2 = some b ∧
      (checkProgram .empty true program).types.get? 3 = some (Ty.replace g scheme.body) ∧
      (∀ v, v ∉ Scheme.vars scheme →
        g v = (checkProgram .empty true program).subst.assignment v) ∧
      ((checkProgram .empty true program).subst.apply u).bare = a.bare ∧
      (u.replace g).bare = b.bare := by
  obtain ⟨-, hdirect, hnamed⟩ := fields_read_as_written .empty true program nodup_ids ok_program
  obtain ⟨cx, cy, cz, s, r, q, hx, hlet, hname, henv, hlast⟩ := reaches_accesses
  obtain ⟨scheme, hscheme⟩ := checkStmt_letBind_lookup hx .dummy .dummy false false none
    (lit 0 ⟨1, .dummy, .literal ⟨.int 1, none⟩⟩) false s
  have hlookup : cy.env.lookup "b" = some scheme := by
    rw [henv]
    exact hscheme
  refine ⟨nodup_ids, ok_program, ?_⟩
  generalize checkProgram .empty true program = c at hdirect hnamed ⊢
  refine ⟨?_, scheme, ?_⟩
  · exact hdirect cz q direct _ (Build.name "value") (write hlast.sameTypes 5 _) hlast rfl
  · have hbound : LetBound (program.walk .empty true) cx
        (lit 0 ⟨1, .dummy, .literal ⟨.int 1, none⟩⟩) "b" scheme :=
      ⟨s, .dummy, .dummy, false, false, none, false, hlet, hx, hscheme⟩
    exact hnamed cx cy r throughName ⟨3, .dummy, .ident "b"⟩ _ (Build.name "value") "b" scheme
      (write hlet.sameTypes 0 _) hbound hname rfl rfl hlookup

section Misreads

/-- The program is accepted, and a field of a literal in it is written as one type and read as
another. -/
structure Program.Misreads (p : Program) (written read : Ty) : Prop where
  nodup : (p.nodes.map (·.id)).Nodup
  ok : (checkProgram .empty true p).ok = true
  exists_access : ∃ access ∈ p.checked, ∃ lit field name inits base init,
    access.kind = .field lit field ∧ lit.kind = .structLit name inits base ∧ init ∈ inits ∧
    init.name.node = field.node ∧
    (checkProgram .empty true p).types.get? init.value.id = some written ∧
    (checkProgram .empty true p).types.get? access.id = some read

open Build

/-- A field whose declared type has the name of a parameter around the literal:
`struct T { v: i32 }`, `struct Holder { item: T }`, and
`fn f<T>(x: T) -> i32 { Holder { item: x }.item.v }`. -/
def capturedHolder : Program :=
  .ofItems [struct "T" [] [("v", type "i32")], struct "Holder" [] [("item", type "T")],
    .function (functionOf "f" [.generic "T", .param "x" (some (type "T")), .returns (type "i32"),
      .body (block [] (some (field (field (structLit "Holder" [("item", ident "x")]) "item")
        "v")))])]

/-- A field whose declared type leaves out an argument: `struct Holder { item: Box }`, and
`let n: Box<bool> = Holder { item: Box { value: 1 } }.item;`. -/
def looseHolder : Program :=
  .ofItems [struct "Box" ["T"] [("value", type "T")], struct "Holder" [] [("item", type "Box")],
    .function (functionOf "f" [.body (block [letPattern (patIdent "n")
      (some (pathType "Box" [type "bool"])) (field (structLit "Holder" [("item",
        structLit "Box" [("value", int 1)])]) "item")] none)])]

/-- A struct with the name of tuples: `struct Tuple<A, B> { 0: B, 1: A }`, and
`let n = Tuple { 0: 1, 1: true }.0;`. -/
def crossedTuple : Program :=
  .ofItems [struct "Tuple" ["A", "B"] [("0", type "B"), ("1", type "A")],
    .function (functionOf "f" [.body (block [letIdent "n" (field (structLit "Tuple"
      [("0", int 1), ("1", literal (.bool true))]) "0")] none)])]

theorem capturedHolder_misreads : capturedHolder.Misreads (.var 0) (.named "T") := by
  have hname := type_of_plain (s := "T") (by rfl) (by decide)
  have hrun : (fun c : TypeCheck => (c.ok, c.types.get? 1, c.types.get? 3))
      (checkProgram .empty true capturedHolder) = (true, some (.named "T"), some (.var 0)) := by
    simp only [capturedHolder, hname]
    cbv
  have hlist : capturedHolder.nodes.map (·.id) = [0, 1, 2, 3] := by
    simp only [capturedHolder, hname]
    cbv
  simp only [Prod.mk.injEq] at hrun
  obtain ⟨hok, hread, hwritten⟩ := hrun
  exact ⟨by rw [hlist]; decide, hok, _, List.mem_cons_of_mem _ List.mem_cons_self, _, _, _, _, _, _,
    rfl, rfl, List.mem_cons_self, rfl, hwritten, hread⟩

theorem looseHolder_misreads :
    looseHolder.Misreads (.app "Box" [.prim .i32]) (.app "Box" [.bool]) := by
  have hbox := type_of_plain (s := "Box") (by rfl) (by decide)
  have happlied := pathType_of_plain (s := "Box") (by decide)
  have hrun : (fun c : TypeCheck => (c.ok, c.types.get? 0, c.types.get? 2))
      (checkProgram .empty true looseHolder) =
        (true, some (.app "Box" [.bool]), some (.app "Box" [.prim .i32])) := by
    simp only [looseHolder, hbox, happlied]
    cbv
  have hlist : looseHolder.nodes.map (·.id) = [0, 1, 2, 3] := by
    simp only [looseHolder, hbox, happlied]
    cbv
  simp only [Prod.mk.injEq] at hrun
  obtain ⟨hok, hread, hwritten⟩ := hrun
  exact ⟨by rw [hlist]; decide, hok, _, List.mem_cons_self, _, _, _, _, _, _, rfl, rfl,
    List.mem_cons_self, rfl, hwritten, hread⟩

theorem crossedTuple_misreads : crossedTuple.Misreads (.prim .i32) .bool := by
  have hfirst := type_of_plain (s := "A") (by rfl) (by decide)
  have hsecond := type_of_plain (s := "B") (by rfl) (by decide)
  have hrun : (fun c : TypeCheck => (c.ok, c.types.get? 0, c.types.get? 2))
      (checkProgram .empty true crossedTuple) = (true, some .bool, some (.prim .i32)) := by
    simp only [crossedTuple, hfirst, hsecond]
    cbv
  have hlist : crossedTuple.nodes.map (·.id) = [0, 1, 2, 3] := by
    simp only [crossedTuple, hfirst, hsecond]
    cbv
  simp only [Prod.mk.injEq] at hrun
  obtain ⟨hok, hread, hwritten⟩ := hrun
  exact ⟨by rw [hlist]; decide, hok, _, List.mem_cons_self, _, _, _, _, _, _, rfl, rfl,
    List.mem_cons_self, rfl, hwritten, hread⟩

/-- What is asked of a field is needed: a parameter around the literal captures a name of the
declared type; an argument that the declaration leaves out is taken fresh at the literal and again
at the access; and an access to a struct with the name of tuples is one to an element. -/
theorem fields_misread : capturedHolder.Misreads (.var 0) (.named "T") ∧
    looseHolder.Misreads (.app "Box" [.prim .i32]) (.app "Box" [.bool]) ∧
    crossedTuple.Misreads (.prim .i32) .bool :=
  ⟨capturedHolder_misreads, looseHolder_misreads, crossedTuple_misreads⟩

end Misreads

end Sema
