import Sema.Proofs.Typing.Accepted

/-!
# Generic parameters of accepted programs

Checking a body files the generic parameters of its signature, and the check at the end wants
every filed variable to be a variable still, different from the others. So whatever types are
chosen for the parameters of the signatures on file, the final substitution can be followed by
a choice for the variables it leaves open that satisfies every constraint of the program.

A signature is on file under the qualified name of its function. Where two methods have the
same qualified name the later one is on file for both bodies, and nothing is said of the
parameters of the earlier one.
-/

namespace Sema

theorem Ty.asVar_eq_some_iff {t : Ty} {v : Nat} : t.asVar = some v ↔ t = .var v := by
  cases t <;> simp [asVar]

section Filing

/-- The name under which a function is checked, if it has a body. -/
def FunctionDef.checkedAs (d : FunctionDef) (name : String) : List String :=
  if d.body.isSome then [name] else []

/-- The names under which the methods of a block are checked. -/
def methodNames (typeName : String) (methods : List FunctionDef) : List String :=
  methods.flatMap fun m => m.checkedAs (typeName ++ "::" ++ m.name.node)

/-- The names under which bodies are checked; `targets` are those of the `impl` blocks to
come. -/
def checkedNames : List ImplTarget → List Item → List String
  | _, [] => []
  | targets, .function d :: r => d.checkedAs d.name.node ++ checkedNames targets r
  | target :: rest, .impl b :: r => methodNames target.typeName b.methods ++ checkedNames rest r
  | [], .impl _ :: r => checkedNames [] r
  | targets, .trait d :: r => methodNames d.name.node d.methods ++ checkedNames targets r
  | targets, .const _ :: r | targets, .struct _ :: r | targets, .enum _ :: r
  | targets, .typeAlias _ :: r | targets, .imports _ :: r => checkedNames targets r

/-- The check files the generic parameters of the signatures of these names. -/
structure Files (i : Interface) (names : List String) {α : Type} (m : Check α) : Prop where
  grows : ∀ s, Grows s (m.run s).2
  filed : ∀ s, ∀ name ∈ names, ∀ sig, i.signatures.get? name = some sig →
    ∀ v ∈ sig.scheme.vars, (m.run s).2.generics.contains v = true

namespace Files

variable {i : Interface} {α β : Type}

theorem none {m : Check α} (h : ∀ s, Grows s (m.run s).2) : Files i [] m :=
  ⟨h, fun _ _ hname => by simp at hname⟩

theorem bind {names others : List String} {m : Check α} {f : α → Check β}
    (hm : Files i names m) (hf : ∀ a, Files i others (f a)) :
    Files i (names ++ others) (m >>= f) where
  grows s := (hm.grows s).trans ((hf _).grows _)
  filed s name hname sig hsig v hv := by
    rcases List.mem_append.mp hname with hname | hname
    · exact ((hf _).grows _).generics v (hm.filed s name hname sig hsig v hv)
    · exact (hf _).filed _ name hname sig hsig v hv

theorem forM {f : α → Check Unit} {g : α → List String} (l : List α)
    (hf : ∀ a ∈ l, Files i (g a) (f a)) : Files i (l.flatMap g) (l.forM f) := by
  induction l with
  | nil => exact none fun s => .refl s
  | cons a l ih =>
    exact (hf a List.mem_cons_self).bind fun _ =>
      ih fun b hb => hf b (List.mem_cons_of_mem a hb)

end Files

theorem Infers.files {v : Valuation} {l : List Expr} {α : Type} {m : Check α} {Q : α → Prop}
    {i : Interface} (h : Infers v l m Q) : Files i [] m :=
  .none h.grows

theorem recordGenerics_filed (function : String) (span : Span) (generics : List (String × Ty))
    (s : Session) {param : String} {v : Nat} (h : (param, Ty.var v) ∈ generics) :
    ((recordGenerics function span generics).run s).2.generics.contains v = true := by
  induction generics generalizing s with
  | nil => cases h
  | cons g r ih =>
    rcases List.mem_cons.mp h with rfl | hr
    · have hrest := (recordGenerics_quiet function span r).growing
        ((Event.generic v ⟨function, param, span⟩).apply s)
      refine hrest.generics v ?_
      simp [Event.apply, Table.contains_insertNew]
    · obtain ⟨other, t⟩ := g
      cases t with
      | var w => exact ih ((Event.generic w ⟨function, other, span⟩).apply s) hr
      | _ => exact ih s hr

theorem checkFunction_files (cx : Context) (i : Interface) (d : FunctionDef) (name : String)
    (h : i.signatures.contains name = true) :
    Files i (d.checkedAs name) (checkFunction cx i d name) := by
  have hgrows := (checkFunction_infers ⟨fun _ => none, .var⟩ cx i d name h).grows
  refine ⟨hgrows, fun s other hother sig hsig v hv => ?_⟩
  unfold FunctionDef.checkedAs at hother
  unfold checkFunction
  cases hbody : d.body with
  | none => simp [hbody] at hother
  | some body =>
    obtain rfl : other = name := by simpa [hbody] using hother
    rw [hsig]
    -- Filing the parameters is the last thing done to the body.
    obtain ⟨⟨param, t⟩, hmem, ht⟩ := List.mem_filterMap.mp hv
    obtain rfl := Ty.asVar_eq_some_iff.mp ht
    exact recordGenerics_filed _ _ _ _ hmem

theorem checkMethods_files (cx : Context) (i : Interface) (typeName : String) (self : Ty)
    (methods : List FunctionDef) (h : i.HasMethods typeName methods) :
    Files i (methodNames typeName methods) (checkMethods cx i typeName self methods) :=
  .forM methods fun d hd => checkFunction_files _ i d _ (h d hd)

/-- The third pass files the parameters of every body. -/
theorem checkBodies_files (cx : Context) (i : Interface) {targets : List ImplTarget}
    {items : List Item} (h : i.Declares targets items) :
    Files i (checkedNames targets items) (checkBodies cx i targets items) := by
  induction h with
  | nil => exact .none fun s => .refl s
  | @cons targets rest item items hitem _ ih =>
    cases item with
    | function d =>
      obtain ⟨rfl, hd⟩ := hitem
      exact (checkFunction_files cx i d _ hd).bind fun _ => ih
    | impl b =>
      obtain ⟨target, rfl, hb⟩ := hitem
      exact (checkMethods_files cx i _ target.selfTy _ hb).bind fun _ => ih
    | trait d =>
      obtain ⟨rfl, hd⟩ := hitem
      exact (checkMethods_files cx i _ _ _ hd).bind fun _ => ih
    | const d =>
      obtain rfl := hitem
      have hvalue := (inferExpr_infers ⟨fun _ => none, .var⟩ cx d.value).files (i := i)
      refine hvalue.bind (β := Unit) fun t => ?_
      dsimp only
      split
      · exact (Infers.quiet (v := ⟨fun _ => none, .var⟩)
          (constrain_notes _ _ _ _).quiet).files.bind fun _ => ih
      · exact (Infers.pure (v := ⟨fun _ => none, .var⟩) ()).files.bind fun _ => ih
    | _ =>
      obtain rfl := hitem
      exact ih

end Filing

section Abstract

/-- The variables end as variables, and no two of them as the same. -/
structure Subst.Separates (σ : Subst) (l : List Nat) : Prop where
  abstract : ∀ v ∈ l, ∃ w, σ.apply (.var v) = .var w
  distinct : ∀ v ∈ l, ∀ w ∈ l, σ.apply (.var v) = σ.apply (.var w) → v = w

theorem Subst.Separates.mono {σ : Subst} {l m : List Nat} (h : σ.Separates m)
    (hlm : ∀ v ∈ l, v ∈ m) : σ.Separates l :=
  ⟨fun v hv => h.abstract v (hlm v hv), fun v hv w hw => h.distinct v (hlm v hv) w (hlm w hw)⟩

/-- What passes the check at the end is separated, also from what has been seen before. -/
theorem checkGenerics_separates {σ : Subst} {seen : Table Nat GenericCheck}
    {l : List (Nat × GenericCheck)} {s : Session}
    (h : ((checkGenerics σ seen l).run s).2.faults = #[]) :
    σ.Separates (l.map (·.1)) ∧
      ∀ v ∈ l.map (·.1), ∀ w, σ.apply (.var v) = .var w → seen.get? w = none := by
  induction l generalizing seen s with
  | nil => exact ⟨⟨by simp, by simp⟩, by simp⟩
  | cons e l ih =>
    obtain ⟨v, c⟩ := e
    simp only [checkGenerics] at h
    split at h
    · exact absurd h (faults_of_report ((checkGenerics_reports _ _ _).growing _))
    · rename_i w hw
      have hv := Ty.asVar_eq_some_iff.mp hw
      split at h
      · exact absurd h (faults_of_report ((checkGenerics_reports _ _ _).growing _))
      · rename_i hfirst
        obtain ⟨hrest, hunseen⟩ := ih h
        have hother : ∀ x ∈ l.map (·.1), ∀ y, σ.apply (.var x) = .var y →
            y ≠ w ∧ seen.get? y = none := by
          intro x hx y hy
          have hfree := hunseen x hx y hy
          rw [Table.get?_insert] at hfree
          split at hfree
          · cases hfree
          · exact ⟨‹_›, hfree⟩
        have hapart : ∀ x ∈ l.map (·.1), σ.apply (.var x) ≠ σ.apply (.var v) :=
          fun x hx heq => (hother x hx w (heq.trans hv)).1 rfl
        rw [List.map_cons]
        refine ⟨⟨?_, ?_⟩, ?_⟩
        · exact List.forall_mem_cons.mpr ⟨⟨w, hv⟩, hrest.abstract⟩
        · intro x hx y hy heq
          rcases List.mem_cons.mp hx with rfl | hxl
          · rcases List.mem_cons.mp hy with rfl | hyl
            · rfl
            · exact absurd heq.symm (hapart y hyl)
          · rcases List.mem_cons.mp hy with rfl | hyl
            · exact absurd heq (hapart x hxl)
            · exact hrest.distinct x hxl y hyl heq
        · intro x hx y hy
          rcases List.mem_cons.mp hx with rfl | hx
          · rw [hv] at hy
            cases hy
            exact hfirst
          · exact (hother x hx y hy).2

/-- Reports leave the solver and the filed parameters alone. -/
theorem Leads.reports_eq {s t : Session} (h : Leads Event.IsReport s t) :
    t.solver = s.solver ∧ t.generics = s.generics := by
  refine h.induct (R := fun s t => t.solver = s.solver ∧ t.generics = s.generics)
    (fun _ => ⟨rfl, rfl⟩) (fun s t u h k => ⟨k.1.trans h.1, k.2.trans h.2⟩) fun e s he => ?_
  cases e with
  | report f => exact ⟨rfl, rfl⟩
  | _ => exact False.elim he

/-- A check that ends without a fault separates the parameters that have been filed. -/
theorem finish_separates {sc : TypeScope} {methods : Methods} {checkEffects : Bool}
    {s t : Session} (h : (finish sc methods checkEffects).run s = (true, t))
    (hfaults : t.faults = #[]) : t.solver.subst.Separates t.generics.keys := by
  have ht : ((finish sc methods checkEffects).run s).2 = t := congrArg Prod.snd h
  obtain ⟨u, -, hlast⟩ := finish_settles (congrArg Prod.fst h)
  rw [ht] at hlast
  have hchecked := (checkGenerics_reports u.solver.subst .empty u.generics.entries).leads u
  obtain ⟨hsolver, hgenerics⟩ := (hchecked.trans hlast).reports_eq
  have hseparates := (checkGenerics_separates (hlast.grows.no_faults hfaults)).1
  exact hgenerics ▸ hsolver ▸ hseparates

end Abstract

/-- The variables of the generic parameters of the bodies: those that the signatures quantify
under whose names bodies are checked. -/
def TypeCheck.genericVars (c : TypeCheck) (p : Program) : List Nat :=
  (checkedNames c.interface.impls p.items).flatMap fun name =>
    (c.interface.signatures.get? name).elim [] (·.scheme.vars)

/-- Every parameter is a key of the table that the last check goes through. -/
theorem separates_genericVars {catalog : Catalog} {checkEffects : Bool} {p : Program}
    (hok : (checkProgram catalog checkEffects p).ok = true) :
    (checkProgram catalog checkEffects p).session.solver.subst.Separates
      ((checkProgram catalog checkEffects p).genericVars p) := by
  simp only [TypeCheck.ok, Bool.and_eq_true, Array.isEmpty_iff] at hok
  obtain ⟨hflag, hfaults⟩ := hok
  have hfiles := checkBodies_files (p.context catalog checkEffects) _ (p.present_declares catalog)
  have hsolving := p.solving_visited catalog checkEffects
  have hrun := finish_visited catalog checkEffects p
  rw [hflag] at hrun
  have hfinish := (finish_solved _ _ _ hsolving (congrArg Prod.fst hrun)).2.grows
  rw [hrun] at hfinish
  refine (finish_separates hrun hfaults).mono fun g hg => ?_
  obtain ⟨name, hname, hg⟩ := List.mem_flatMap.mp hg
  cases hsig : (checkProgram catalog checkEffects p).interface.signatures.get? name with
  | none => simp [hsig] at hg
  | some sig =>
    rw [hsig] at hg
    have hcontains := hfinish.generics g (hfiles.filed _ name hname sig hsig g hg)
    exact (Table.isSome_find_iff _ g).mp hcontains

/-- The generic parameters of an accepted program are polymorphic: whatever types are chosen
for those on file, some assignment has these values and satisfies every constraint. -/
theorem generics_take_any_types (catalog : Catalog) (checkEffects : Bool) (p : Program)
    (hok : (checkProgram catalog checkEffects p).ok = true) (ρ : Nat → Ty) :
    ∃ θ : Nat → Ty,
      (∀ g ∈ (checkProgram catalog checkEffects p).genericVars p, θ g = ρ g) ∧
      ∀ c ∈ (checkProgram catalog checkEffects p).session.constraints.toList,
        (c.expected.replace θ).compatible (c.actual.replace θ) = true := by
  classical
  obtain ⟨habstract, hdistinct⟩ := separates_genericVars hok
  have hflag : (checkProgram catalog checkEffects p).solved = true := by
    simp only [TypeCheck.ok, Bool.and_eq_true] at hok
    exact hok.1
  have hsolved := (checkProgram_solved catalog checkEffects p ⟨fun _ => none, .var⟩ hflag).1
  generalize (checkProgram catalog checkEffects p).genericVars p = G at habstract hdistinct ⊢
  generalize (checkProgram catalog checkEffects p).session = s at habstract hdistinct hsolved ⊢
  -- A variable that is left open takes the type of the parameter that ended as it, if any.
  let choice : Nat → Ty := fun w =>
    if h : ∃ g ∈ G, s.solver.subst.apply (.var g) = .var w then ρ h.choose else .var w
  have hchoice : ∀ g ∈ G, (s.solver.subst.apply (.var g)).replace choice = ρ g := by
    intro g hg
    obtain ⟨w, hw⟩ := habstract g hg
    have hex : ∃ g ∈ G, s.solver.subst.apply (.var g) = .var w := ⟨g, hg, hw⟩
    have hsame : hex.choose = g :=
      hdistinct _ hex.choose_spec.1 g hg (hex.choose_spec.2.trans hw.symm)
    rw [hw]
    change choice w = ρ g
    simp only [choice, dif_pos hex, hsame]
  refine ⟨fun v => (s.solver.subst.apply (.var v)).replace choice, hchoice, fun c hc => ?_⟩
  obtain ⟨hfailure, hrun⟩ := hsolved
  have hholds := Solver.run_holds (s := {}) .empty s.constraints.toList
    (by rw [← hrun, hfailure]) c hc
  rw [← hrun] at hholds
  have hafter := Ty.compatible_replace choice _ _ hholds
  rw [Ty.replace_replace, Ty.replace_replace] at hafter
  exact hafter

open Build in
/-- A generic method of a generic type, which takes its receiver apart:
`struct Cell<T> { value: T }` and
`impl<A> Cell<A> { fn put<B>(self, other: B) -> (A, B) { let held = self.value; (held, other) } }`.
-/
def pairUp : Program :=
  .ofItems [struct "Cell" ["T"] [("value", type "T")],
    .impl ⟨.dummy, [generic "A"], pathType "Cell" [type "A"], none, [functionOf "put" [
      .generic "B", .param "self" none, .param "other" (some (type "B")),
      .returns (tupleType [type "A", type "B"]),
      .body (block [letIdent "held" (field (ident "self") "value")]
        (some (expr (.tuple [ident "held", ident "other"]))))]]⟩]

theorem pairUp_takes_bool_and_integer :
    (checkProgram .empty true pairUp).ok = true ∧
      (checkProgram .empty true pairUp).genericVars pairUp = [0, 1] ∧
      ∃ θ : Nat → Ty, θ 0 = .bool ∧ θ 1 = .prim .i32 ∧
        ∀ c ∈ (checkProgram .empty true pairUp).session.constraints.toList,
          (c.expected.replace θ).compatible (c.actual.replace θ) = true := by
  have hrun : (fun c : TypeCheck => (c.ok, c.genericVars pairUp))
      (checkProgram .empty true pairUp) = (true, [0, 1]) := by
    have hcell := Build.pathType_of_plain (s := "Cell") (by decide)
    simp only [pairUp, hcell]
    cbv
  obtain ⟨hok, hvars⟩ := Prod.mk.inj hrun
  obtain ⟨θ, hθ, hsatisfied⟩ := generics_take_any_types .empty true pairUp hok
    fun v => if v = 0 then .bool else .prim .i32
  rw [hvars] at hθ
  exact ⟨hok, hvars, θ, hθ 0 (by simp), hθ 1 (by simp), hsatisfied⟩

open Build in
/-- Two methods of one qualified name, of which the first fixes the parameter of its block:
`impl<A> Cell<A> { fn fill() { let c: Self = Cell { value: 1 }; } }` and
`impl<A> Cell<A> { fn fill() {} }`. -/
def fillTwice : Program :=
  .ofItems [struct "Cell" ["T"] [("value", type "T")],
    .impl ⟨.dummy, [generic "A"], pathType "Cell" [type "A"], none, [functionOf "fill" [
      .body (block [letPattern (patIdent "c") (some (type "Self"))
        (structLit "Cell" [("value", int 1)])] none)]]⟩,
    .impl ⟨.dummy, [generic "A"], pathType "Cell" [type "A"], none, [functionOf "fill" [
      .body (block [] none)]]⟩]

/-- The program is accepted, but the parameter of the first block can only be an integer: its
signature is not on file any more when its body is checked. -/
theorem fillTwice_fixes_parameter :
    (checkProgram .empty true fillTwice).ok = true ∧
      (checkProgram .empty true fillTwice).interface.impls.map (·.selfTy) =
        [.app "Cell" [.var 0], .app "Cell" [.var 1]] ∧
      ∀ θ : Nat → Ty, (∀ c ∈ (checkProgram .empty true fillTwice).session.constraints.toList,
        (c.expected.replace θ).compatible (c.actual.replace θ) = true) → θ 0 = .prim .i32 := by
  have hrun : (fun c : TypeCheck => (c.ok, c.interface.impls.map (·.selfTy),
      c.session.constraints.toList.map fun d => (d.expected, d.actual)))
      (checkProgram .empty true fillTwice) =
        (true, [.app "Cell" [.var 0], .app "Cell" [.var 1]], [(.var 2, .prim .i32),
          (.app "Cell" [.var 0], .app "Cell" [.var 2]), (.unit, .unit), (.unit, .unit)]) := by
    have hcell := Build.pathType_of_plain (s := "Cell") (by decide)
    have hself := Build.type_of_plain (s := "Self") (by rfl) (by decide)
    simp only [fillTwice, hcell, hself]
    cbv
  simp only [Prod.mk.injEq] at hrun
  obtain ⟨hok, hself, hconstraints⟩ := hrun
  refine ⟨hok, hself, fun θ hθ => ?_⟩
  have hpairs : ∀ x ∈ (checkProgram .empty true fillTwice).session.constraints.toList.map
      (fun d => (d.expected, d.actual)),
      (x.1.replace θ).compatible (x.2.replace θ) = true := by
    intro x hx
    obtain ⟨c, hc, rfl⟩ := List.mem_map.mp hx
    exact hθ c hc
  rw [hconstraints] at hpairs
  have hvalue : (θ 2).compatible (.prim .i32) = true := hpairs (.var 2, .prim .i32) (by simp)
  have hcell : (Ty.app "Cell" [θ 0]).compatible (.app "Cell" [θ 2]) = true :=
    hpairs (.app "Cell" [.var 0], .app "Cell" [.var 2]) (by simp)
  rw [Ty.compatible_comm] at hvalue
  rw [Ty.eq_of_compatible_atom hvalue, Ty.compatible_comm] at hcell
  obtain ⟨_, hargs, hone⟩ := Ty.app_of_compatible hcell
  cases hargs
  obtain ⟨_, _, hcons, hsame, _⟩ := Ty.cons_of_compatibleAll hone
  cases hcons
  exact Ty.eq_of_compatible_atom hsame

end Sema
