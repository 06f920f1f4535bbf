import Sema.Proofs.Typing.Accepted

/-!
# Type expressions that denote one type

A type expression is lowered each time it is used, in the scope of the use, and lowering takes
fresh variables for type arguments that are left out. A type expression is `Definite` when it
leaves none out, here and in the aliases it goes through, and when none of its names can be
taken for a generic parameter from around the use. What a definite expression denotes depends
on its own parameters only: lowered in two scopes that agree on these, without a complaint, it
gives the same tree.
-/

namespace Sema

namespace Ty

/-- The same tree, once the one type is put under `f` and the other under `g`. -/
def Alike (f g : Nat → Ty) (s t : Ty) : Prop := (s.replace f).bare = (t.replace g).bare

variable {f g : Nat → Ty}

theorem bareAll_eq_of_alike {l m : List Ty} (h : List.Forall₂ (Alike f g) l m) :
    bareAll (replaceAll f l) = bareAll (replaceAll g m) := by
  induction h with
  | nil => rfl
  | cons hs _ ih =>
    rw [replaceAll, replaceAll, bareAll, bareAll, ih]
    exact congrArg (· :: _) hs

theorem alike_app {l m : List Ty} (n : String) (h : List.Forall₂ (Alike f g) l m) :
    Alike f g (.app n l) (.app n m) := by
  rw [Alike, replace, replace, bare, bare, bareAll_eq_of_alike h]

theorem alike_nominal {l m : List Ty} (n : String) (h : List.Forall₂ (Alike f g) l m) :
    Alike f g (.nominal n l) (.nominal n m) := by
  cases h with
  | nil => rfl
  | cons hs hr => exact alike_app n (.cons hs hr)

theorem alike_tuple {l m : List Ty} (h : List.Forall₂ (Alike f g) l m) :
    Alike f g (.tuple l) (.tuple m) := by
  cases h with
  | nil => rfl
  | cons hs hr => exact alike_app tupleName (.cons hs hr)

theorem alike_fn {l m : List Ty} {s t : Ty} (e d : EffectRow)
    (h : List.Forall₂ (Alike f g) l m) (hr : Alike f g s t) :
    Alike f g (.fn l s e) (.fn m t d) := by
  rw [Alike, replace, replace, bare, bare, bareAll_eq_of_alike h, hr]

theorem alike_branded {s t : Ty} (b : String) (h : Alike f g s t) :
    Alike f g (.branded b s) (.branded b t) := by
  rw [Alike, replace, replace, bare, bare, h]

theorem alike_of_closed {t : Ty} (h : t.vars = []) : Alike f g t t := by
  have hsame : t.replace f = t.replace g := replace_congr f g t fun v hv => by simp [h] at hv
  rw [Alike, hsame]

end Ty

section Scopes

variable (f g : Nat → Ty)

/-- The same names in the same order, with types that are alike. -/
abbrev ParamsAlike : List (String × Ty) → List (String × Ty) → Prop :=
  List.Forall₂ fun a b => a.1 = b.1 ∧ Ty.Alike f g a.2 b.2

/-- In two scopes the parameters `ps` stand for types that are alike, and no parameter but
those has a name outside `around`. The second scope is the one at the root. -/
structure TypeScope.Agree (around ps : List String) (sc sd : TypeScope) : Prop where
  decls : sc.decls = sd.decls
  catalog : sc.catalog = sd.catalog
  param : ∀ name ∈ ps, ∃ s t, sc.param? name = some s ∧ sd.param? name = some t ∧
    Ty.Alike f g s t
  free : ∀ name, name ∉ ps → name ∉ around → sc.param? name = none ∧ sd.param? name = none
  root : sd.selfTy = none

variable {f g}

theorem TypeScope.param?_enter (sc : TypeScope) (params : Table String Ty) (name : String) :
    (sc.enter params).param? name = (params.get? name).or (sc.param? name) := by
  rw [param?, enter, List.findSome?_cons]
  cases params.get? name <;> rfl

theorem Table.get?_ofList {α : Type} (l : List (String × α)) (k : String) :
    (ofList l).get? k = find k l.reverse := by
  rw [← get?_ofList_reverse, List.reverse_reverse]

theorem ParamsAlike.find {l m : List (String × Ty)} (h : ParamsAlike f g l m) (name : String) :
    (Table.find name l = none ∧ Table.find name m = none) ∨
      ∃ s t, Table.find name l = some s ∧ Table.find name m = some t ∧ Ty.Alike f g s t := by
  induction h with
  | nil => exact .inl ⟨rfl, rfl⟩
  | @cons a b _ _ hab _ ih =>
    obtain ⟨i, s⟩ := a
    obtain ⟨j, t⟩ := b
    obtain ⟨rfl, hst⟩ := hab
    by_cases hname : name = i
    · exact .inr ⟨s, t, by simp [Table.find, hname], by simp [Table.find, hname], hst⟩
    · simpa [Table.find, hname] using ih

theorem ParamsAlike.names {l m : List (String × Ty)} (h : ParamsAlike f g l m) :
    l.map (·.1) = m.map (·.1) := by
  induction h with
  | nil => rfl
  | cons hab _ ih => rw [List.map_cons, List.map_cons, hab.1, ih]

/-- Entering a declaration whose parameters stand for types that are alike. -/
theorem TypeScope.Agree.enter {around ps : List String} {sc sd : TypeScope}
    (h : Agree f g around ps sc sd) {l m : List (String × Ty)} (hlm : ParamsAlike f g l m)
    (r q : List String) :
    Agree f g around (l.map (·.1) ++ ps) { sc.enter (.ofList l) with resolving := r }
      { sd.enter (.ofList m) with resolving := q } := by
  have hfind := ParamsAlike.find (List.forall₂_reverse_iff.mpr hlm)
  have hleft : ∀ name, ({ sc.enter (.ofList l) with resolving := r } : TypeScope).param? name =
      (Table.find name l.reverse).or (sc.param? name) := by
    intro name
    rw [← Table.get?_ofList, ← param?_enter]
    rfl
  have hright : ∀ name, ({ sd.enter (.ofList m) with resolving := q } : TypeScope).param? name =
      (Table.find name m.reverse).or (sd.param? name) := by
    intro name
    rw [← Table.get?_ofList, ← param?_enter]
    rfl
  refine ⟨h.decls, h.catalog, fun name hname => ?_, fun name hps haround => ?_, h.root⟩
  · rw [hleft, hright]
    rcases hfind name with ⟨hl, hm⟩ | ⟨s, t, hs, ht, hst⟩
    · have hnot : name ∉ l.map (·.1) := by
        intro hmem
        have hsome := (Table.isSome_find_iff l.reverse name).mpr (by simpa using hmem)
        simp [hl] at hsome
      rw [hl, hm]
      exact h.param name ((List.mem_append.mp hname).resolve_left hnot)
    · exact ⟨s, t, by simp [hs], by simp [ht], hst⟩
  · obtain ⟨hnot, hps⟩ := not_or.mp (mt List.mem_append.mpr hps)
    have hl : Table.find name l.reverse = none := by
      rw [← Option.not_isSome_iff_eq_none, Table.isSome_find_iff]
      simpa using hnot
    have hm : Table.find name m.reverse = none := by
      rw [← Option.not_isSome_iff_eq_none, Table.isSome_find_iff]
      simpa [← hlm.names] using hnot
    rw [hleft, hright, hl, hm]
    exact h.free name hps haround

end Scopes

section Matching

variable {α β γ δ : Type}

/-- Where neither check complains, their results are related, whatever the sessions. -/
def Matches (R : α → β → Prop) (m : Check α) (n : Check β) : Prop :=
  ∀ s t, (after m s).faults = #[] → (after n t).faults = #[] → R (m.run s).1 (n.run t).1

namespace Matches

variable {R : α → β → Prop} {m : Check α} {n : Check β}

theorem pure {a : α} {b : β} (h : R a b) : Matches R (pure a) (pure b) := fun _ _ _ _ => h

theorem bind {S : γ → δ → Prop} {k : α → Check γ} {l : β → Check δ} (h : Matches R m n)
    (hkl : ∀ a b, R a b → Matches S (k a) (l b)) (hk : ∀ a, Growing (k a))
    (hl : ∀ b, Growing (l b)) : Matches S (m >>= k) (n >>= l) := by
  intro s t hs ht
  have hm := (hk _ _).no_faults hs
  have hn := (hl _ _).no_faults ht
  exact hkl _ _ (h s t hm hn) _ _ hs ht

theorem of_left_fault (h : ∀ s, (after m s).faults ≠ #[]) : Matches R m n :=
  fun s _ hs _ => absurd hs (h s)

theorem of_right_fault (h : ∀ t, (after n t).faults ≠ #[]) : Matches R m n :=
  fun _ t _ ht => absurd ht (h t)

end Matches

theorem faults_reportFresh (fault : TypeFault) (span : Span) (s : Session) :
    (after (reportFresh fault span) s).faults ≠ #[] :=
  faults_of_report (fresh_notes.growing _)

end Matching

/-- The type that the expression gets in the scope in some run of lowering that does not
complain. -/
def TypeScope.Denotes (sc : TypeScope) (e : TypeExpr) (t : Ty) : Prop :=
  ∃ s, (after (lower sc e) s).faults = #[] ∧ ((lower sc e).run s).1 = t

/-- The type expression leaves out no type argument, and its names mean the same wherever the
generic parameters around are among `around`; `ps` are its own parameters. -/
inductive TypeExpr.Definite (sc : TypeScope) (around : List String) :
    List String → TypeExpr → Prop where
  | primitive {ps : List String} {span : Span} {p : Primitive} :
    Definite sc around ps ⟨span, .primitive p⟩
  | param {ps : List String} {span : Span} {segments : List String} {args : List TypeExpr} :
    segments.length = 1 → joinPath segments ∈ ps →
    Definite sc around ps ⟨span, .path segments args⟩
  | path {ps : List String} {span : Span} {segments : List String} {args : List TypeExpr} :
    (segments.length = 1 → joinPath segments ∉ ps ∧ joinPath segments ∉ around) →
    (∀ t ∈ args, Definite sc around ps t) →
    (∀ n, sc.arity? (joinPath segments) = some n → n ≤ args.length) →
    (∀ t, sc.catalog.aliases.get? (joinPath segments) = some t → t.vars = []) →
    (∀ a, sc.decls.aliases.get? (joinPath segments) = some a →
      a.generics.length ≤ args.length) →
    (∀ a, sc.decls.aliases.get? (joinPath segments) = some a →
      Definite sc around (a.generics.map (·.name.node) ++ ps) a.target) →
    Definite sc around ps ⟨span, .path segments args⟩
  | branded {ps : List String} {span : Span} {base : TypeExpr} {brand : String} :
    Definite sc around ps base → Definite sc around ps ⟨span, .branded base brand⟩
  | function {ps : List String} {span : Span} {params : List TypeExpr} {ret : Option TypeExpr}
      {effects : List EffectExpr} :
    (∀ t ∈ params, Definite sc around ps t) → (∀ t, ret = some t → Definite sc around ps t) →
    Definite sc around ps ⟨span, .function params ret effects⟩
  | reference {ps : List String} {span : Span} {inner : TypeExpr} {mutable : Bool}
      {lifetime : Option String} :
    Definite sc around ps inner → Definite sc around ps ⟨span, .reference inner mutable lifetime⟩
  | tuple {ps : List String} {span : Span} {elems : List TypeExpr} :
    (∀ t ∈ elems, Definite sc around ps t) → Definite sc around ps ⟨span, .tuple elems⟩
  | array {ps : List String} {span : Span} {elem : TypeExpr} {len : Option UInt64} :
    Definite sc around ps elem → Definite sc around ps ⟨span, .array elem len⟩

section Lower

variable {f g : Nat → Ty}

/-- With all arguments given, no parameter is taken fresh. -/
theorem supply_of_length_le {generics : List GenericParam} {types : List Ty}
    (h : generics.length ≤ types.length) :
    supply generics types = pure ((generics.map (·.name.node)).zip types) := by
  induction generics generalizing types with
  | nil => rfl
  | cons p r ih =>
    cases types with
    | nil => simp at h
    | cons t ts =>
      have hr : r.length ≤ ts.length := by simpa using h
      rw [supply, ih hr]
      rfl

theorem paramsAlike_zip {l m : List Ty} (h : List.Forall₂ (Ty.Alike f g) l m)
    (names : List String) : ParamsAlike f g (names.zip l) (names.zip m) := by
  induction h generalizing names with
  | nil => simp
  | cons hs _ ih =>
    cases names with
    | nil => simp
    | cons n r =>
      rw [List.zip_cons_cons, List.zip_cons_cons]
      exact .cons ⟨rfl, hs⟩ (ih r)

theorem applyNominal_of_length_eq (name : String) {arity : Nat} {args : List Ty} (span : Span)
    (h : args.length = arity) : applyNominal name arity args span = pure (.nominal name args) := by
  subst h
  cases args with
  | nil => rfl
  | cons t r => simp [applyNominal, freshMany, Ty.nominal]

/-- With at least as many arguments as there are parameters, either all is as it should be or
there is a complaint. -/
theorem applyNominal_matches (name : String) {arity : Nat} {l m : List Ty} (span : Span)
    (h : List.Forall₂ (Ty.Alike f g) l m) (harity : arity ≤ l.length) :
    Matches (Ty.Alike f g) (applyNominal name arity l span) (applyNominal name arity m span) := by
  have hlen := h.length_eq
  by_cases hexact : l.length = arity
  · rw [applyNominal_of_length_eq name span hexact,
      applyNominal_of_length_eq name span (hlen ▸ hexact)]
    exact .pure (Ty.alike_nominal name h)
  · refine .of_left_fault fun s => ?_
    have hpos : 0 < l.length := by omega
    have hnonempty : l.isEmpty = false := by
      simpa using List.ne_nil_of_length_pos hpos
    unfold applyNominal
    by_cases hzero : arity = 0
    · simp only [hzero, hnonempty, if_true, Bool.not_false]
      exact faults_of_report (Growing.pure _ _)
    · have hcond : (!l.isEmpty && l.length != arity) = true := by simp [hnonempty, hexact]
      simp only [hzero, hcond, if_true, if_false]
      exact faults_of_report (((freshMany_notes _).bind fun _ => .pure _).growing _)

theorem lowerName_matches {sc sd : TypeScope} {around ps : List String}
    (ha : sc.Agree f g around ps sd) (name : String) {l m : List Ty} (span : Span)
    (h : List.Forall₂ (Ty.Alike f g) l m)
    (harity : ∀ n, sc.arity? name = some n → n ≤ l.length)
    (hclosed : ∀ t, sc.catalog.aliases.get? name = some t → t.vars = []) :
    Matches (Ty.Alike f g) (lowerName sc name l span) (lowerName sd name m span) := by
  have hsame : sd.arity? name = sc.arity? name := by
    rw [TypeScope.arity?, TypeScope.arity?, ha.decls, ha.catalog]
  unfold lowerName
  rw [hsame, ← ha.catalog, ← ha.decls]
  cases hn : sc.arity? name with
  | some n => exact applyNominal_matches name span h (harity n hn)
  | none =>
    cases ht : sc.catalog.aliases.get? name with
    | some t => exact .pure (Ty.alike_of_closed (hclosed t ht))
    | none =>
      dsimp only
      split
      · exact .pure (Ty.alike_nominal name h)
      · cases Primitive.ofName? name with
        | some p => exact .pure rfl
        | none => exact .of_left_fault (faults_reportFresh _ _)

theorem lowerWith_growing (n : Nat) (sc : TypeScope) (t : TypeExpr) :
    Growing (lowerWith (expandAlias n) sc t) :=
  (lowerWith_declaring (expandAlias_declaring n) sc t).notes.growing

theorem lowerAll_growing (n : Nat) (sc : TypeScope) (l : List TypeExpr) :
    Growing (lowerAll (expandAlias n) sc l) :=
  (lowerAll_declaring (expandAlias_declaring n) sc l).notes.growing

theorem lowerPath_growing (n : Nat) (sc : TypeScope) (segments : List String) (args : List Ty)
    (span : Span) : Growing (lowerPath (expandAlias n) sc segments args span) :=
  (lowerPath_declaring (expandAlias_declaring n) sc segments args span).notes.growing

theorem lowerAll_matches {n k : Nat} {sc sd : TypeScope} (l : List TypeExpr)
    (h : ∀ t ∈ l, Matches (Ty.Alike f g) (lowerWith (expandAlias n) sc t)
      (lowerWith (expandAlias k) sd t)) :
    Matches (fun a b => a.length = l.length ∧ List.Forall₂ (Ty.Alike f g) a b)
      (lowerAll (expandAlias n) sc l) (lowerAll (expandAlias k) sd l) := by
  induction l with
  | nil =>
    rw [lowerAll, lowerAll]
    exact .pure ⟨rfl, .nil⟩
  | cons t r ih =>
    have hrest := ih fun u hu => h u (List.mem_cons_of_mem t hu)
    rw [lowerAll, lowerAll]
    refine (h t List.mem_cons_self).bind (fun a b hab => ?_) (fun _ => ?_) (fun _ => ?_)
    · exact hrest.bind (fun _ _ hr => .pure ⟨by simp [hr.1], .cons hab hr.2⟩) (fun _ => .pure _)
        fun _ => .pure _
    · exact (lowerAll_growing n sc r).bind fun _ => .pure _
    · exact (lowerAll_growing k sd r).bind fun _ => .pure _

/-- An alias whose arguments are all given denotes what its target does, or there is a
complaint. -/
theorem expandAlias_cases (n : Nat) (sc : TypeScope) (a : TypeAlias) {args : List Ty}
    (span : Span) (hlen : a.generics.length ≤ args.length) :
    (∀ s, (after (expandAlias n sc a args span) s).faults ≠ #[]) ∨
      ∃ k, expandAlias n sc a args span = lowerWith (expandAlias k)
        { sc.enter (.ofList ((a.generics.map (·.name.node)).zip args)) with
          resolving := a.name.node :: sc.resolving } a.target := by
  cases n with
  | zero => exact .inl (faults_reportFresh _ _)
  | succ n =>
    unfold expandAlias
    rw [supply_of_length_le hlen]
    dsimp only
    split
    · exact .inl (faults_reportFresh _ _)
    · split
      · exact .inl fun s => faults_of_report (lowerWith_growing n _ a.target _)
      · exact .inr ⟨n, rfl⟩

theorem expandAlias_matches {around ps : List String} {sc sd : TypeScope}
    (ha : sc.Agree f g around ps sd) (a : TypeAlias) {l m : List Ty}
    (h : List.Forall₂ (Ty.Alike f g) l m) (hlen : a.generics.length ≤ l.length)
    (htarget : ∀ (n k : Nat) (sc' sd' : TypeScope), sc'.decls = sc.decls →
      sc'.catalog = sc.catalog → sc'.Agree f g around (a.generics.map (·.name.node) ++ ps) sd' →
      Matches (Ty.Alike f g) (lowerWith (expandAlias n) sc' a.target)
        (lowerWith (expandAlias k) sd' a.target)) (n k : Nat) (span : Span) :
    Matches (Ty.Alike f g) (expandAlias n sc a l span) (expandAlias k sd a m span) := by
  rcases expandAlias_cases n sc a span hlen with hfault | ⟨n', hleft⟩
  · exact .of_left_fault hfault
  · rcases expandAlias_cases k sd a span (h.length_eq ▸ hlen) with hfault | ⟨k', hright⟩
    · exact .of_right_fault hfault
    · have hnames : ((a.generics.map (·.name.node)).zip l).map (·.1) =
          a.generics.map (·.name.node) := by
        rw [List.map_fst_zip]
        simpa using hlen
      have hinside := ha.enter (paramsAlike_zip h (a.generics.map (·.name.node)))
        (a.name.node :: sc.resolving) (a.name.node :: sd.resolving)
      rw [hnames] at hinside
      rw [hleft, hright]
      exact htarget n' k' _ _ rfl rfl hinside

/-- A name that is no parameter in either scope. -/
theorem lowerPath_matches {around ps : List String} {sc sd : TypeScope}
    (ha : sc.Agree f g around ps sd) {segments : List String} {l m : List Ty} {n k : Nat}
    (span : Span)
    (hfree : segments.length = 1 → joinPath segments ∉ ps ∧ joinPath segments ∉ around)
    (halias : ∀ a, sc.decls.aliases.get? (joinPath segments) = some a →
      Matches (Ty.Alike f g) (expandAlias n sc a l span) (expandAlias k sd a m span))
    (hname : Matches (Ty.Alike f g) (lowerName sc (joinPath segments) l span)
      (lowerName sd (joinPath segments) m span)) :
    Matches (Ty.Alike f g) (lowerPath (expandAlias n) sc segments l span)
      (lowerPath (expandAlias k) sd segments m span) := by
  have hnone : (if segments.length == 1 then sc.param? (joinPath segments) else none) = none ∧
      (if segments.length == 1 then sd.param? (joinPath segments) else none) = none := by
    by_cases hsingle : segments.length = 1
    · obtain ⟨hps, haround⟩ := hfree hsingle
      simpa [hsingle] using ha.free _ hps haround
    · simp [hsingle]
  unfold lowerPath
  dsimp only
  rw [hnone.1, hnone.2]
  by_cases hself : (segments.length == 1 && joinPath segments == "Self") = true
  · refine .of_right_fault fun t => ?_
    simp only [hself, ha.root, if_true]
    exact faults_reportFresh _ _ t
  · simp only [hself, ← ha.decls]
    cases hget : sc.decls.aliases.get? (joinPath segments) with
    | none => exact hname
    | some a => exact halias a hget

/-- A definite type expression denotes the same in scopes that agree on its parameters. By
induction on why it is definite, since that is what goes through aliases. -/
theorem TypeExpr.Definite.lowerWith_matches {root : TypeScope} {around ps : List String}
    {t : TypeExpr} (h : t.Definite root around ps) : ∀ (n k : Nat) (sc sd : TypeScope),
      sc.decls = root.decls → sc.catalog = root.catalog → sc.Agree f g around ps sd →
      Matches (Ty.Alike f g) (lowerWith (expandAlias n) sc t)
        (lowerWith (expandAlias k) sd t) := by
  induction h with
  | primitive =>
    intro n k sc sd _ _ _
    rw [lowerWith, lowerWith, lowerKind, lowerKind]
    exact .pure rfl
  | @param ps span segments args hsingle hmem =>
    intro n k sc sd _ _ ha
    obtain ⟨s, t, hs, ht, hst⟩ := ha.param _ hmem
    rw [lowerWith, lowerWith, lowerKind, lowerKind]
    refine Matches.bind (R := fun _ _ => True) (fun _ _ _ _ => trivial) (fun l m _ => ?_)
      (fun _ => lowerPath_growing _ _ _ _ _) (fun _ => lowerPath_growing _ _ _ _ _)
    simp only [lowerPath, hsingle, beq_self_eq_true, if_true, hs, ht]
    exact .pure hst
  | @path ps span segments args hfree _ harity hclosed hlen _ ihargs ihtarget =>
    intro n k sc sd hdecls hcatalog ha
    have hargs := lowerAll_matches args fun u hu => ihargs u hu n k sc sd hdecls hcatalog ha
    have hsame : sc.arity? (joinPath segments) = root.arity? (joinPath segments) := by
      rw [TypeScope.arity?, TypeScope.arity?, hdecls, hcatalog]
    rw [lowerWith, lowerWith, lowerKind, lowerKind]
    refine hargs.bind (fun l m hlm => lowerPath_matches ha span hfree ?_ ?_)
      (fun _ => lowerPath_growing _ _ _ _ _) (fun _ => lowerPath_growing _ _ _ _ _)
    · intro a hget
      rw [hdecls] at hget
      refine expandAlias_matches ha a hlm.2 (hlm.1 ▸ hlen a hget) (fun n k sc' sd' hd hc ha' => ?_)
        n k span
      exact ihtarget a hget n k sc' sd' (hd.trans hdecls) (hc.trans hcatalog) ha'
    · refine lowerName_matches ha _ span hlm.2 (fun n hn => ?_) fun u hu => ?_
      · exact hlm.1 ▸ harity n (hsame ▸ hn)
      · exact hclosed u (hcatalog ▸ hu)
  | branded _ ih =>
    intro n k sc sd hdecls hcatalog ha
    rw [lowerWith, lowerWith, lowerKind, lowerKind]
    exact (ih n k sc sd hdecls hcatalog ha).bind (fun _ _ hab => .pure (Ty.alike_branded _ hab))
      (fun _ => .pure _) (fun _ => .pure _)
  | @function ps span params ret effects _ _ ihparams ihret =>
    intro n k sc sd hdecls hcatalog ha
    have hparams := lowerAll_matches params fun u hu => ihparams u hu n k sc sd hdecls hcatalog ha
    rw [lowerWith, lowerWith]
    cases ret with
    | none =>
      rw [lowerKind, lowerKind]
      exact hparams.bind (fun _ _ hab => .pure (Ty.alike_fn _ _ hab.2 rfl)) (fun _ => .pure _)
        (fun _ => .pure _)
    | some r =>
      rw [lowerKind, lowerKind]
      refine hparams.bind (fun _ _ hab => ?_) (fun _ => ?_) (fun _ => ?_)
      · exact (ihret r rfl n k sc sd hdecls hcatalog ha).bind
          (fun _ _ hr => .pure (Ty.alike_fn _ _ hab.2 hr)) (fun _ => .pure _) (fun _ => .pure _)
      · exact (lowerWith_growing n sc r).bind fun _ => .pure _
      · exact (lowerWith_growing k sd r).bind fun _ => .pure _
  | reference _ ih =>
    intro n k sc sd hdecls hcatalog ha
    rw [lowerWith, lowerWith, lowerKind, lowerKind]
    exact ih n k sc sd hdecls hcatalog ha
  | @tuple ps span elems _ ih =>
    intro n k sc sd hdecls hcatalog ha
    rw [lowerWith, lowerWith, lowerKind, lowerKind]
    exact (lowerAll_matches elems fun u hu => ih u hu n k sc sd hdecls hcatalog ha).bind
      (fun _ _ hab => .pure (Ty.alike_tuple hab.2)) (fun _ => .pure _) (fun _ => .pure _)
  | array _ ih =>
    intro n k sc sd hdecls hcatalog ha
    rw [lowerWith, lowerWith, lowerKind, lowerKind]
    exact (ih n k sc sd hdecls hcatalog ha).bind
      (fun _ _ hab => .pure (Ty.alike_app _ (.cons hab .nil))) (fun _ => .pure _) (fun _ => .pure _)

theorem TypeExpr.Definite.alike {root : TypeScope} {around ps : List String} {e : TypeExpr}
    (h : e.Definite root around ps) {sc sd : TypeScope} (hdecls : sc.decls = root.decls)
    (hcatalog : sc.catalog = root.catalog) (ha : sc.Agree f g around ps sd) {t u : Ty}
    (ht : sc.Denotes e t) (hu : sd.Denotes e u) : Ty.Alike f g t u := by
  obtain ⟨r, hr, rfl⟩ := ht
  obtain ⟨s, hs, rfl⟩ := hu
  exact h.lowerWith_matches _ _ sc sd hdecls hcatalog ha r s hr hs

end Lower

end Sema
