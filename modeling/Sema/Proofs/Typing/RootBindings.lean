import Sema.Proofs.Ty.Substitution
import Sema.Proofs.Typing.Generalization
import Sema.Proofs.Typing.Generics
import Sema.Syntax.Build

/-!
# The schemes of the names at the root

A name at the root has the scheme that the catalog gives it, or that of the signature on file
under the name, or else a scheme that has been made with variables of its own: an imported name, a
constant or a variant. Nothing but the scheme itself ever mentions those variables, so the final
substitution neither binds them nor leads to them, and what is reported for the name is its scheme
with the substitution applied to the free variables. The variables of the other two kinds have no
such protection. Those of a signature are in use in its body, and stay variables at least; those
of the catalog are numbers that a program takes for variables of its own.
-/

namespace Sema

section Declaring

/-- Declaring collects nothing. -/
theorem Leads.declaring_eq {s t : Session} (h : Leads Event.IsDeclaring s t) :
    t.constraints = s.constraints ∧ t.deferred = s.deferred := by
  refine h.induct (R := fun s t => t.constraints = s.constraints ∧ t.deferred = s.deferred)
    (fun _ => ⟨rfl, rfl⟩) (fun _ _ _ h k => ⟨k.1.trans h.1, k.2.trans h.2⟩) fun e r he => ?_
  cases e with
  | fresh n => exact ⟨rfl, rfl⟩
  | report f => exact ⟨rfl, rfl⟩
  | _ => exact False.elim he

/-- As long as nothing but declaring has been done, every set of variables is as good as any. -/
theorem Session.confined_declaring {s : Session} (h : Leads Event.IsDeclaring {} s)
    (U : Nat → Prop) : s.Confined U {} := by
  obtain ⟨hconstraints, hdeferred⟩ := h.declaring_eq
  have hnone : s.solution = {} := by
    rw [Session.solution, hconstraints]
    rfl
  refine ⟨?_, ?_, ?_⟩
  · rw [hnone]
    exact Session.confined_empty.moves
  · rw [hdeferred]
    simp
  · exact (h.mono fun _ he => he.isNote.isQuiet).grows.solving ⟨[], [], rfl, rfl⟩

/-- The parameters that are not given are variables taken now. -/
theorem supply_taken (generics : List GenericParam) (s : Session) {name : String} {v : Nat}
    (h : (name, Ty.var v) ∈ ((supply generics []).run s).1) :
    s.nextVar ≤ v ∧ v < (after (supply generics []) s).nextVar := by
  induction generics generalizing s with
  | nil => cases h
  | cons g r ih =>
    have hrest := (supply_notes r []).growing (after fresh s)
    rcases List.mem_cons.mp h with heq | h
    · cases heq
      exact ⟨Nat.le_refl _, Nat.lt_of_lt_of_le (Nat.lt_succ_self _) hrest.nextVar⟩
    · obtain ⟨hle, hlt⟩ := ih (after fresh s) h
      exact ⟨Nat.le_trans (Nat.le_succ _) hle, hlt⟩

end Declaring

namespace Interface

/-- Where the schemes of the names at the root come from: the catalog, a signature on file, or a
declaration whose variables have the property. -/
structure Rooted (catalog : Catalog) (H : Nat → Prop) (i : Interface) : Prop where
  inner : i.env.inner = []
  entries : ∀ name s, i.env.root.get? name = some s →
    catalog.values.get? name = some s ∨
      (∃ sig, i.signatures.get? name = some sig ∧ s = sig.scheme) ∨ ∀ v ∈ s.vars, H v

namespace Rooted

variable {catalog : Catalog} {H : Nat → Prop} {i : Interface}

theorem mono {H' : Nat → Prop} (h : i.Rooted catalog H) (hH : ∀ v, H v → H' v) :
    i.Rooted catalog H' :=
  ⟨h.inner, fun name s hs => (h.entries name s hs).imp_right fun h =>
    h.imp_right fun h v hv => hH v (h v hv)⟩

theorem addFunction (h : i.Rooted catalog H) (name : String) (sig : Signature) :
    (i.addFunction name sig).Rooted catalog H := by
  refine ⟨h.inner, fun other s hs => ?_⟩
  simp only [Interface.addFunction, Env.bindGlobal, Table.get?_insert] at hs ⊢
  by_cases hname : other = name
  · rw [if_pos hname] at hs ⊢
    exact .inr (.inl ⟨sig, rfl, (Option.some.inj hs).symm⟩)
  · rw [if_neg hname] at hs ⊢
    exact h.entries other s hs

/-- A name whose scheme has variables with the property is bound. -/
theorem bindGlobal (h : i.Rooted catalog H) {j : Interface} {name : String} {s : Scheme}
    (hs : ∀ v ∈ s.vars, H v) (henv : j.env = i.env.bindGlobal name s)
    (hsignatures : j.signatures = i.signatures) : j.Rooted catalog H := by
  refine ⟨by rw [henv]; exact h.inner, fun other t ht => ?_⟩
  rw [henv, Env.bindGlobal, Table.get?_insert] at ht
  rw [hsignatures]
  split at ht
  · rw [← Option.some.inj ht]
    exact .inr (.inr hs)
  · exact h.entries other t ht

theorem withImpls (h : i.Rooted catalog H) (impls : List ImplTarget) :
    ({ i with impls } : Interface).Rooted catalog H :=
  ⟨h.inner, h.entries⟩

theorem addMethod (h : i.Rooted catalog H) (typeName method : String) (sig : Signature) :
    (i.addMethod typeName method sig).Rooted catalog H :=
  ⟨(h.addFunction _ sig).inner, (h.addFunction _ sig).entries⟩

theorem declareMethods (h : i.Rooted catalog H) (sc : TypeScope) (typeName : String)
    (outer : List (String × Ty)) (l : List FunctionDef) :
    Yields (Sema.declareMethods sc typeName outer i l) (Rooted catalog H) :=
  declareMethods_induct (fun _ method sig h => h.addMethod typeName method sig) sc outer h l

theorem declareImpl (h : i.Rooted catalog H) (sc : TypeScope) (b : ImplBlock) :
    Yields (Sema.declareImpl sc i b) (Rooted catalog H) := by
  unfold Sema.declareImpl
  refine (Yields.any _).bind fun generics _ => (Yields.any _).bind fun self _ =>
    (h.declareMethods _ _ _ _).bind fun j hj => ?_
  split
  · exact (implementTrait_induct (fun _ method sig h => h.addMethod _ method sig) _ b _ hj _).bind
      fun k hk => .pure (hk.withImpls _)
  · exact (Yields.pure hj).bind fun k hk => .pure (hk.withImpls _)

theorem declareVariants (h : i.Rooted catalog H) (sc : TypeScope) (enum : String)
    {vars : List Nat} (hvars : ∀ v ∈ vars, H v) (result : Ty) (l : List VariantDef) :
    Yields (Sema.declareVariants sc enum vars result i l) (Rooted catalog H) :=
  declareVariants_induct
    (fun _ _ body h => h.bindGlobal (s := ⟨vars, body⟩) hvars rfl rfl) sc enum result h l

/-- The second pass over an item, where the variables that an enumeration takes for its parameters
have the property. -/
theorem interfaceItem (h : i.Rooted catalog H) (sc : TypeScope) (item : Item) (s : Session)
    (henum : ∀ d, item = .enum d → ∀ name v,
      (name, Ty.var v) ∈ ((supply d.generics []).run s).1 → H v) :
    ((Sema.interfaceItem sc i item).run s).1.Rooted catalog H := by
  cases item with
  | function d =>
    have hyields : Yields (Sema.interfaceItem sc i (.function d)) (Rooted catalog H) := by
      simp only [Sema.interfaceItem]
      split
      · exact (Yields.any _).bind fun _ _ => .pure h
      · exact (Yields.any _).bind fun sig _ => .pure (h.addFunction _ sig)
    exact hyields s
  | const d =>
    have hyields : Yields (Sema.interfaceItem sc i (.const d)) (Rooted catalog H) :=
      (Yields.any _).bind fun t _ => .pure (h.bindGlobal (s := .mono t) (by simp [Scheme.mono]) rfl rfl)
    exact hyields s
  | enum d =>
    refine h.declareVariants _ _ (fun v hv => ?_) _ _ _
    obtain ⟨t, ht, hvar⟩ := List.mem_filterMap.mp hv
    obtain ⟨⟨name, u⟩, hmem, rfl⟩ := List.mem_map.mp ht
    obtain rfl := Ty.asVar_eq_some_iff.mp hvar
    exact henum d rfl name v hmem
  | impl b => exact h.declareImpl sc b s
  | trait d => exact h.declareMethods _ _ _ _ _
  | _ => exact h

end Rooted

/-- The variable has been taken, and no type in use mentions it. -/
def Hides (i : Interface) (s : Session) (v : Nat) : Prop := v < s.nextVar ∧ i.Over (· ≠ v)

/-- The state of the first two passes: nothing has been collected, all is over the variables taken
so far, and where the catalog and the signatures do not come in, the variables of a scheme at the
root are hidden. -/
structure Stands (catalog : Catalog) (i : Interface) (s : Session) : Prop where
  leads : Leads Event.IsDeclaring {} s
  below : i.Over (· < s.nextVar)
  rooted : i.Rooted catalog (i.Hides s)

end Interface

theorem Interface.Over.mono {U V : Nat → Prop} {i : Interface} (h : i.Over U)
    (hUV : ∀ v, U v → V v) : i.Over V where
  env name s hs := (h.env name s hs).mono hUV
  constructors name s hs := (h.constructors name s hs).mono hUV
  methods type method s hs := (h.methods type method s hs).mono hUV
  signatures name s hs :=
    have hover := h.signatures name s hs
    ⟨fun t ht => (hover.params t ht).mono hUV, hover.ret.mono hUV,
      fun x hx => (hover.generics x hx).mono hUV⟩
  consts name t ht := (h.consts name t ht).mono hUV
  impls target ht := (h.impls target ht).mono hUV

theorem Scheme.over_ne {s : Scheme} {v : Nat} (h : v ∈ s.vars) : s.Over (· ≠ v) := by
  rintro w hw rfl
  exact ((s.mem_freeVars w).mp hw).2 h

/-- A substitution that neither binds the quantified variables nor leads to them spares them. -/
theorem Scheme.spared_of_moves {s : Scheme} {σ : Subst}
    (h : ∀ v ∈ s.vars, Subst.Moves (· ≠ v) {} σ) : s.Spared σ.assignment := by
  refine ⟨fun v _ hv => ?_, fun w hw v hv hmem => ?_⟩
  · exact Subst.apply_var_of_unbound ((h v hv).outside v fun hne => hne rfl)
  · have hne : w ≠ v := by
      rintro rfl
      exact ((s.mem_freeVars w).mp hw).2 hmem
    exact (h v hmem).closed.apply (Ty.over_var.mpr hne) v hv rfl

section Passes

variable {catalog : Catalog} {i : Interface} {s : Session}

theorem Interface.Stands.later (h : i.Stands catalog s) {t : Session}
    (hst : Leads Event.IsDeclaring s t) : i.Stands catalog t := by
  have hnext := (hst.mono fun _ he => he.isNote.isQuiet).grows.nextVar
  exact ⟨h.leads.trans hst, h.below.mono fun w hw => Nat.lt_of_lt_of_le hw hnext,
    h.rooted.mono fun v hv => ⟨Nat.lt_of_lt_of_le hv.1 hnext, hv.2⟩⟩

/-- A step that stays over the variables it starts with and those it takes hides what has been
hidden. -/
theorem Interface.Hides.step {P : Prop} {m : Check Interface} {v : Nat} (h : i.Hides s v)
    (hs : Leads Event.IsDeclaring {} s)
    (hm : Keeps (· ≠ v) (P ∧ i.Over (· ≠ v)) m (Interface.Over · (· ≠ v))) (hP : P) :
    (m.run s).1.Hides (after m s) v := by
  have htakes : Takes (· ≠ v) s (after m s) := by
    intro w hle _
    have := h.1
    omega
  refine ⟨Nat.lt_of_lt_of_le h.1 (hm.growing s).nextVar, ?_⟩
  exact (hm.keeps ⟨hP, h.2⟩ {} s (Session.confined_declaring hs _) htakes).2

theorem declareVariants_hides {vars : List Nat} {v : Nat} (hv : v ∈ vars) (sc : TypeScope)
    (enum : String) (result : Ty) (h : i.Over (· ≠ v)) (l : List VariantDef) :
    Yields (declareVariants sc enum vars result i l) (Interface.Over · (· ≠ v)) :=
  declareVariants_induct
    (fun _ name body h => h.addConstructor name (Scheme.over_ne (s := ⟨vars, body⟩) hv))
    sc enum result h l

/-- An enumeration hides the variables it takes for its parameters. -/
theorem declareEnum_hides (sc : TypeScope) (d : EnumDef) (hbelow : i.Over (· < s.nextVar))
    {name : String} {v : Nat} (h : (name, Ty.var v) ∈ ((supply d.generics []).run s).1) :
    ((declareEnum sc i d).run s).1.Hides (after (declareEnum sc i d) s) v := by
  obtain ⟨hle, hlt⟩ := supply_taken d.generics s h
  have hrest := fun sc result => (declareVariants_declaring sc d.name.node
    ((((supply d.generics []).run s).1.map (·.2)).filterMap Ty.asVar) result i
    d.variants).notes.growing (after (supply d.generics []) s)
  have hmem : v ∈ (((supply d.generics []).run s).1.map (·.2)).filterMap Ty.asVar :=
    List.mem_filterMap.mpr ⟨_, List.mem_map_of_mem h, rfl⟩
  have hbefore : i.Over (· ≠ v) := hbelow.mono fun w hw => by omega
  exact ⟨Nat.lt_of_lt_of_le hlt (hrest _ _).nextVar,
    declareVariants_hides hmem _ _ _ hbefore d.variants _⟩

/-- The second pass over an item. -/
theorem Interface.Stands.interfaceItem (h : i.Stands catalog s) {sc : TypeScope}
    (hsc : ∀ U, sc.Over U) (item : Item) :
    ((Sema.interfaceItem sc i item).run s).1.Stands catalog
      (after (Sema.interfaceItem sc i item) s) := by
  have hgrows := (interfaceItem_notes sc i item).growing s
  refine ⟨h.leads.trans ((interfaceItem_declaring sc i item).leads s), ?_, ?_⟩
  · have hbelow := h.below.mono fun w hw => Nat.lt_of_lt_of_le hw hgrows.nextVar
    exact ((interfaceItem_keeps sc i item).keeps ⟨hsc _, hbelow⟩ {} s
      (Session.confined_declaring h.leads _) fun w _ hlt => hlt).2
  · refine (h.rooted.mono fun v hv => ?_).interfaceItem sc item s ?_
    · exact hv.step h.leads (interfaceItem_keeps sc i item) (hsc _)
    · rintro d rfl name v hmem
      exact declareEnum_hides sc d h.below hmem

/-- The interface that the second pass starts from. -/
def Catalog.interface (c : Catalog) (env : Env) : Interface :=
  { env, constructors := c.constructors, methods := c.methods }

theorem Catalog.Closed.interface_over (hcatalog : catalog.Closed) {U : Nat → Prop} {env : Env}
    (henv : env.Over U) : (catalog.interface env).Over U :=
  ⟨henv, fun name s hs => Scheme.over_of_closed (hcatalog.constructors name s hs),
    fun t n s hs => Scheme.over_of_closed (hcatalog.methods t n s hs), by simp [interface],
    by simp [interface], by simp [interface]⟩

/-- An imported name takes a variable of its own, which nothing else has seen. -/
theorem Interface.Stands.importName (hcatalog : catalog.Closed) {env : Env}
    (h : (catalog.interface env).Stands catalog s) (name : String) :
    (catalog.interface (env.bindGlobal name ⟨[s.nextVar], .var s.nextVar⟩)).Stands catalog
      (after freshVar s) := by
  have hscheme : ∀ U, (⟨[s.nextVar], .var s.nextVar⟩ : Scheme).Over U := fun U =>
    Scheme.over_of_closed (by simp [Scheme.freeVars, Ty.freeVars, Ty.vars])
  have hbind : ∀ {U}, env.Over U →
      (catalog.interface (env.bindGlobal name ⟨[s.nextVar], .var s.nextVar⟩)).Over U :=
    fun henv => hcatalog.interface_over (henv.bindGlobal name (hscheme _))
  refine ⟨h.leads.trans (freshVar_declaring.leads s), ?_, ?_⟩
  · exact (hbind h.below.env).mono fun w hw => Nat.lt_succ_of_lt hw
  · have hold : (catalog.interface env).Rooted catalog ((catalog.interface
        (env.bindGlobal name ⟨[s.nextVar], .var s.nextVar⟩)).Hides (after freshVar s)) :=
      h.rooted.mono fun w hw => ⟨Nat.lt_succ_of_lt hw.1, hbind hw.2.env⟩
    refine hold.bindGlobal (s := ⟨[s.nextVar], .var s.nextVar⟩) (fun v hv => ?_) rfl rfl
    obtain rfl := List.mem_singleton.mp hv
    exact ⟨Nat.lt_succ_self _, hbind (h.below.mono fun w hw => Nat.ne_of_lt hw).env⟩

theorem Interface.Stands.importNames (hcatalog : catalog.Closed) {env : Env}
    (h : (catalog.interface env).Stands catalog s) (names : List String) :
    (catalog.interface ((Sema.importNames env names).run s).1).Stands catalog
      (after (Sema.importNames env names) s) := by
  induction names generalizing env s with
  | nil => exact h
  | cons name r ih => exact ih (h.importName hcatalog name)

/-- The first pass over an item. -/
theorem Interface.Stands.declareItem (hcatalog : catalog.Closed) {x : Declarations × Env}
    (h : (catalog.interface x.2).Stands catalog s) (item : Item) :
    (catalog.interface ((Sema.declareItem x item).run s).1.2).Stands catalog
      (after (Sema.declareItem x item) s) := by
  obtain ⟨d, env⟩ := x
  have hdeclared : ∀ name add, (catalog.interface env).Stands catalog
      (after (d.unlessDeclared name add) s) :=
    fun name add => h.later ((unlessDeclared_declaring d name add).leads s)
  cases item with
  | imports i => exact h.importNames hcatalog i.names
  | typeAlias a => exact hdeclared a.name (d.addAlias a)
  | struct a => exact hdeclared a.name _
  | enum a => exact hdeclared a.name _
  | _ => exact h

/-- What every step keeps, a fold keeps. -/
theorem foldlM_run_induct {α β : Type} {f : β → α → Check β} {P : β → Session → Prop}
    (hf : ∀ b a s, P b s → P ((f b a).run s).1 (after (f b a) s)) (l : List α) {b : β}
    {s : Session} (h : P b s) : P ((l.foldlM f b).run s).1 (after (l.foldlM f b) s) := by
  induction l generalizing b s with
  | nil => exact h
  | cons a l ih =>
    rw [List.foldlM_cons]
    exact ih (hf b a s h)

end Passes

section Program

variable {catalog : Catalog} {checkEffects : Bool} {p : Program}

theorem Program.stands_present (hcatalog : catalog.Closed) (p : Program) :
    (p.present catalog).1.Stands catalog (p.present catalog).2 := by
  have hstart : (catalog.interface catalog.env).Stands catalog {} := by
    have henv : ∀ U, catalog.env.Over U := by
      intro U name s hs
      have hvalue : catalog.values.get? name = some s := by
        simpa [Env.lookup, Env.scopes, Catalog.env] using hs
      exact Scheme.over_of_closed (hcatalog.values name s hvalue)
    exact ⟨.refl _, hcatalog.interface_over (henv _), rfl, fun name s hs => .inl hs⟩
  have hdeclare := foldlM_run_induct
    (P := fun (x : Declarations × Env) s => (catalog.interface x.2).Stands catalog s)
    (fun x item s h => h.declareItem hcatalog item) p.items (b := ({}, catalog.env)) hstart
  exact foldlM_run_induct (P := Interface.Stands catalog)
    (fun i item s h => h.interfaceItem (fun _ => p.scope_over hcatalog) item) p.items hdeclare

/-- What is hidden when the bodies are checked stays out of the constraints. -/
theorem Program.confined_hidden (hcatalog : catalog.Closed) (checkEffects : Bool) {v : Nat}
    (h : (p.present catalog).1.Hides (p.present catalog).2 v) :
    (checkProgram catalog checkEffects p).session.Confined (· ≠ v) {} := by
  have hlater : ∀ {s t : Session}, Grows (p.present catalog).2 s → Takes (· ≠ v) s t := by
    intro s t hs w hle _
    have := h.1
    have := hs.nextVar
    omega
  have hcx : (p.context catalog checkEffects).Over (· ≠ v) :=
    ⟨p.scope_over hcatalog, h.2.env, h.2.constructors, by simp [context], by simp [context]⟩
  have hbodies := checkBodies_keeps (U := (· ≠ v)) (p.context catalog checkEffects)
    (p.present catalog).1 (p.present catalog).1.impls p.items
  obtain ⟨hvisited, -⟩ := hbodies.keeps ⟨⟨hcx, h.2⟩, h.2.impls⟩ {} (p.present catalog).2
    (Session.confined_declaring (p.stands_present hcatalog).leads _) (hlater (.refl _))
  have hfinish := finish_keeps (U := (· ≠ v)) (p.scope catalog) (p.present catalog).1.methods
    checkEffects
  obtain ⟨hend, -⟩ := hfinish.keeps ⟨p.scope_over hcatalog, h.2.methods⟩ {}
    (p.visited catalog checkEffects) hvisited (hlater (hbodies.growing _))
  rw [after, finish_visited] at hend
  exact hend

/-- The final substitution spares what is hidden. -/
theorem Program.spared_hidden (hcatalog : catalog.Closed)
    (hsolved : (checkProgram catalog checkEffects p).solved = true) {s : Scheme}
    (h : ∀ v ∈ s.vars, (p.present catalog).1.Hides (p.present catalog).2 v) :
    s.Spared (checkProgram catalog checkEffects p).subst.assignment := by
  rw [subst_eq_solution hsolved]
  exact Scheme.spared_of_moves fun v hv => (p.confined_hidden hcatalog checkEffects (h v hv)).moves

end Program

namespace TypeCheck

variable {c : TypeCheck} {name : String} {s b : Scheme}

/-- The final substitution is applied to the whole body. -/
theorem binding_of_lookup (hs : c.interface.env.lookup name = some s) :
    c.binding name = some ⟨s.vars, s.body.replace c.subst.assignment⟩ := by
  rw [binding, hs]
  rfl

theorem binding_alpha_iff (hs : c.interface.env.lookup name = some s)
    (hb : c.binding name = some b) :
    b.Alpha (s.substitute c.subst.assignment) ↔ s.Spared c.subst.assignment := by
  obtain rfl := Option.some.inj ((binding_of_lookup hs).symm.trans hb)
  exact Scheme.replace_alpha_substitute_iff

end TypeCheck

/-- In an accepted program over a closed catalog, what is reported for a name at the root is its
scheme with the final substitution applied to the free variables alone, up to the names of the
quantified ones, exactly if the substitution spares the quantified ones; and if there are no free
variables, it is the scheme itself exactly then. It is so unless the scheme is from the catalog or
that of a signature on file under the name. If the function of the signature has a body, the
quantified variables end as variables, no two of them as the same. -/
theorem root_bindings_substituted (catalog : Catalog) (hcatalog : catalog.Closed)
    (checkEffects : Bool) (p : Program) (hok : (checkProgram catalog checkEffects p).ok = true) :
    let c := checkProgram catalog checkEffects p
    let θ := c.subst.assignment
    ∀ name s, c.interface.env.lookup name = some s → ∃ b, c.binding name = some b ∧
      (b.Alpha (s.substitute θ) ↔ s.Spared θ) ∧
      (s.freeVars = [] → (b.Alpha s ↔ s.Spared θ)) ∧
      (b.Alpha (s.substitute θ) ∨ catalog.values.get? name = some s ∨
        ∃ sig, c.interface.signatures.get? name = some sig ∧ s = sig.scheme) ∧
      ∀ sig, c.interface.signatures.get? name = some sig → s = sig.scheme →
        name ∈ checkedNames c.interface.impls p.items → c.subst.Separates s.vars := by
  intro c θ name s hs
  have hflag : c.solved = true := by
    simp only [TypeCheck.ok, Bool.and_eq_true] at hok
    exact hok.1
  have hbinding := TypeCheck.binding_of_lookup hs
  have halpha := TypeCheck.binding_alpha_iff hs hbinding
  refine ⟨_, hbinding, halpha, fun hclosed => ?_, ?_, ?_⟩
  · have hself := Scheme.substitute_alpha_self (θ := θ) hclosed
    rw [← halpha]
    exact ⟨fun h => h.trans hself.symm, fun h => h.trans hself⟩
  · have hrooted := (p.stands_present hcatalog).rooted
    have hroot : (p.present catalog).1.env.root.get? name = some s := by
      have hlookup : (p.present catalog).1.env.lookup name = some s := hs
      simpa [Env.lookup, Env.scopes, hrooted.inner] using hlookup
    rcases hrooted.entries name s hroot with hvalue | hsig | hhidden
    · exact .inr (.inl hvalue)
    · exact .inr (.inr hsig)
    · exact .inl (halpha.mpr (p.spared_hidden hcatalog hflag hhidden))
  · rintro sig hsig rfl hname
    rw [TypeCheck.subst, if_pos hflag]
    refine (separates_genericVars hok).mono fun v hv => List.mem_flatMap.mpr ⟨name, hname, ?_⟩
    rw [show (checkProgram catalog checkEffects p).interface.signatures.get? name = some sig
      from hsig]
    exact hv

namespace RootNames

open Build

/-- `import net::fetch;`, `enum Shape<T> { Dot(T) }`, `fn same<T>(x: T) -> T { x }` and
`fn f() { let d = Shape::Dot(1); }`. -/
def shapes : Program :=
  .ofItems [imports ["net", "fetch"], enum "Shape" ["T"] [("Dot", [type "T"])],
    .function (functionOf "same" [.generic "T", .param "x" (some (type "T")),
      .returns (type "T"), .body (block [] (some (ident "x")))]),
    .function (functionOf "f" [.body (block [letIdent "d" (call (path ["Shape", "Dot"]) [int 1])]
      none)])]

/-- `fn f() { let x = Some(1); }`. -/
def someOne : Program :=
  .ofItems [.function (functionOf "f" [.body (block
    [letIdent "x" (call (ident "Some") [int 1])] none)])]

/-- `fn echo<T>(x: T) -> T { echo(x) }`. -/
def echo : Program :=
  .ofItems [.function (functionOf "echo" [.generic "T", .param "x" (some (type "T")),
    .returns (type "T"), .body (block [] (some (call (ident "echo") [ident "x"])))])]

end RootNames

open RootNames in
/-- The variant is reported as it is, and the parameter of `same` is a variable. -/
theorem shapes_bindings_substituted :
    Catalog.empty.Closed ∧ (checkProgram .empty true shapes).ok = true ∧
    (∃ b, (checkProgram .empty true shapes).binding "Shape::Dot" = some b ∧
      b.Alpha ⟨[1], .fn [.var 1] (.app "Shape" [.var 1]) .pure⟩) ∧
    (checkProgram .empty true shapes).subst.Separates [2] := by
  have hrun : (fun c : TypeCheck => (c.ok, c.interface.env.lookup "Shape::Dot",
      (c.interface.signatures.get? "Shape::Dot").isNone, c.interface.env.lookup "same",
      (c.interface.signatures.get? "same").map (·.scheme),
      checkedNames c.interface.impls shapes.items)) (checkProgram .empty true shapes) =
        (true, some ⟨[1], .fn [.var 1] (.app "Shape" [.var 1]) .pure⟩, true,
          some ⟨[2], .fn [.var 2] (.var 2) .pure⟩, some ⟨[2], .fn [.var 2] (.var 2) .pure⟩,
          ["same", "f"]) := by cbv
  simp only [Prod.mk.injEq, Option.isNone_iff_eq_none, Option.map_eq_some_iff] at hrun
  obtain ⟨hok, hdot, hunsigned, hsame, ⟨sig, hsig, hscheme⟩, hnames⟩ := hrun
  have hroot := root_bindings_substituted .empty Catalog.closed_empty true shapes hok
  refine ⟨Catalog.closed_empty, hok, ?_⟩
  generalize checkProgram .empty true shapes = c at hroot hdot hunsigned hsame hsig hnames ⊢
  constructor
  · obtain ⟨b, hb, -, -, hkind, -⟩ := hroot _ _ hdot
    refine ⟨b, hb, ?_⟩
    rcases hkind with hright | hvalue | ⟨sig, hsig, -⟩
    · exact hright.trans (Scheme.substitute_alpha_self (by decide))
    · simp [Catalog.empty] at hvalue
    · simp [hunsigned] at hsig
  · obtain ⟨-, -, -, -, -, hseparates⟩ := hroot _ _ hsame
    exact hseparates sig hsig hscheme.symm (by simp [hnames])

open RootNames in
/-- A number that the catalog quantifies has been taken for the variable of an instance, and so
`Some` is reported with the type of its argument; and the parameter of `echo` has been bound to the
variable of another expression, and so `echo` is reported with a free variable. -/
theorem some_and_echo_bindings_captured :
    (checkProgram .standard true someOne).ok = true ∧
    (checkProgram .empty true echo).ok = true ∧
    (∃ s b, (checkProgram .standard true someOne).interface.env.lookup "Some" = some s ∧
      (checkProgram .standard true someOne).binding "Some" = some b ∧ s.freeVars = [] ∧
      b = ⟨[0], .fn [.prim .i32] (.app Ty.optionName [.prim .i32]) .pure⟩ ∧
      ¬b.Alpha (s.substitute (checkProgram .standard true someOne).subst.assignment)) ∧
    ∃ s b, (checkProgram .empty true echo).interface.env.lookup "echo" = some s ∧
      (checkProgram .empty true echo).binding "echo" = some b ∧ s.freeVars = [] ∧
      b.freeVars = [1] ∧
      ¬b.Alpha (s.substitute (checkProgram .empty true echo).subst.assignment) := by
  have hsome : (fun c : TypeCheck => (c.ok, c.interface.env.lookup "Some", c.binding "Some",
      c.subst.assignment 0)) (checkProgram .standard true someOne) =
        (true, some ⟨[0], .fn [.var 0] (.app Ty.optionName [.var 0]) .pure⟩,
          some ⟨[0], .fn [.prim .i32] (.app Ty.optionName [.prim .i32]) .pure⟩,
          .prim .i32) := by cbv
  have hecho : (fun c : TypeCheck => (c.ok, c.interface.env.lookup "echo", c.binding "echo",
      c.subst.assignment 0)) (checkProgram .empty true echo) =
        (true, some ⟨[0], .fn [.var 0] (.var 0) .pure⟩,
          some ⟨[0], .fn [.var 1] (.var 1) .pure⟩, .var 1) := by cbv
  simp only [Prod.mk.injEq] at hsome hecho
  obtain ⟨hok, hlookup, hbinding, hbound⟩ := hsome
  obtain ⟨hok', hlookup', hbinding', hbound'⟩ := hecho
  refine ⟨hok, hok', ⟨_, _, hlookup, hbinding, by decide, rfl, fun h => ?_⟩, _, _, hlookup',
    hbinding', by decide, by decide, fun h => ?_⟩
  · have hspared := (TypeCheck.binding_alpha_iff hlookup hbinding).mp h
    have hvar := hspared.quantified 0 (by decide) (by decide)
    exact absurd (hbound.symm.trans hvar) (by simp [Ty.prim])
  · have hspared := (TypeCheck.binding_alpha_iff hlookup' hbinding').mp h
    have hvar := hspared.quantified 0 (by decide) (by decide)
    exact absurd (hbound'.symm.trans hvar) (by simp)

end Sema
