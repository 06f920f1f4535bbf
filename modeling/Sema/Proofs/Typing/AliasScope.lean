import Sema.Proofs.Typing.Fields
import Sema.Proofs.Typing.Lowering

/-!
# What an alias takes from the place of its use

The target of an alias is lowered in the scope of the use, under the alias's own parameters. A
name in the target is therefore looked up among the generic parameters around the use before it
can mean a declared type: the names that an alias `Reads` are scoped dynamically. Nothing else
is. In two scopes that agree on the names it reads, an alias applied to the same arguments
denotes the same type, up to the choice of fresh variables, with the same complaints.

The two expansions are run side by side. `Lockstep` is that relation between two checks, under
a renaming of the variables that the one takes to those that the other takes.
-/

namespace Sema

/-- The expression looks the name up in the scope around it, itself or through the aliases it
names; `own` are the parameters of the aliases gone through so far. -/
inductive TypeExpr.Reads (d : Declarations) : List String → TypeExpr → String → Prop where
  | name {own : List String} {span : Span} {segments : List String} {args : List TypeExpr}
      (hsingle : segments.length = 1) (hown : joinPath segments ∉ own) :
    Reads d own ⟨span, .path segments args⟩ (joinPath segments)
  | arg {own : List String} {span : Span} {segments : List String} {args : List TypeExpr}
      {t : TypeExpr} {x : String} (ht : t ∈ args) (h : Reads d own t x) :
    Reads d own ⟨span, .path segments args⟩ x
  | through {own : List String} {span : Span} {segments : List String} {args : List TypeExpr}
      {a : TypeAlias} {x : String} (hown : segments.length = 1 → joinPath segments ∉ own)
      (ha : d.aliases.get? (joinPath segments) = some a)
      (h : Reads d (a.generics.map (·.name.node) ++ own) a.target x) :
    Reads d own ⟨span, .path segments args⟩ x
  | branded {own : List String} {span : Span} {base : TypeExpr} {brand x : String}
      (h : Reads d own base x) : Reads d own ⟨span, .branded base brand⟩ x
  | param {own : List String} {span : Span} {params : List TypeExpr} {ret : Option TypeExpr}
      {effects : List EffectExpr} {t : TypeExpr} {x : String} (ht : t ∈ params)
      (h : Reads d own t x) : Reads d own ⟨span, .function params ret effects⟩ x
  | ret {own : List String} {span : Span} {params : List TypeExpr} {t : TypeExpr}
      {effects : List EffectExpr} {x : String} (h : Reads d own t x) :
    Reads d own ⟨span, .function params (some t) effects⟩ x
  | reference {own : List String} {span : Span} {inner : TypeExpr} {mutable : Bool}
      {lifetime : Option String} {x : String} (h : Reads d own inner x) :
    Reads d own ⟨span, .reference inner mutable lifetime⟩ x
  | elem {own : List String} {span : Span} {elems : List TypeExpr} {t : TypeExpr} {x : String}
      (ht : t ∈ elems) (h : Reads d own t x) : Reads d own ⟨span, .tuple elems⟩ x
  | array {own : List String} {span : Span} {elem : TypeExpr} {len : Option UInt64} {x : String}
      (h : Reads d own elem x) : Reads d own ⟨span, .array elem len⟩ x

/-- The name is read in the target of the alias and is none of its parameters. -/
def TypeAlias.Reads (a : TypeAlias) (d : Declarations) (name : String) : Prop :=
  a.target.Reads d (a.generics.map (·.name.node)) name

section Lockstep

variable {α β γ δ : Type} {ρ : Nat → Ty}

/-- Under the renaming the variables that the one session has yet to give out are those of the
other. -/
def Session.Meets (ρ : Nat → Ty) (s t : Session) : Prop :=
  ∀ i, ρ (s.nextVar + i) = .var (t.nextVar + i)

/-- From sessions that meet, the two checks emit the same events, with results that are
related. -/
def Lockstep (ρ : Nat → Ty) (R : α → β → Prop) (m : Check α) (n : Check β) : Prop :=
  ∀ s t, Session.Meets ρ s t → R (m.run s).1 (n.run t).1 ∧
    ∃ l, after m s = replay l s ∧ after n t = replay l t

/-- From any session some events take the same number of variables and report the same. -/
theorem exists_growth_replay (l : List Event) : ∃ k faults, ∀ s,
    (replay l s).nextVar = s.nextVar + k ∧ (replay l s).faults = s.faults ++ faults := by
  induction l with
  | nil => exact ⟨0, #[], fun s => ⟨rfl, by simp [replay]⟩⟩
  | cons e l ih =>
    obtain ⟨k, faults, hrest⟩ := ih
    cases e with
    | fresh n =>
      refine ⟨n + k, faults, fun s => ⟨?_, (hrest _).2⟩⟩
      rw [← Nat.add_assoc]
      exact (hrest _).1
    | report f =>
      refine ⟨k, #[f] ++ faults, fun s => ⟨(hrest _).1, ?_⟩⟩
      rw [← Array.append_assoc, Array.append_singleton]
      exact (hrest _).2
    | _ => exact ⟨k, faults, fun s => hrest _⟩

theorem Session.Meets.replay {s t : Session} (h : Meets ρ s t) (l : List Event) :
    Meets ρ (replay l s) (replay l t) := by
  obtain ⟨k, _, hk⟩ := exists_growth_replay l
  intro i
  rw [(hk s).1, (hk t).1, Nat.add_assoc, Nat.add_assoc]
  exact h (k + i)

namespace Lockstep

variable {R : α → β → Prop} {S : γ → δ → Prop}

theorem pure {a : α} {b : β} (h : R a b) : Lockstep ρ R (pure a) (pure b) :=
  fun _ _ _ => ⟨h, [], rfl, rfl⟩

theorem bind {m : Check α} {n : Check β} {f : α → Check γ} {g : β → Check δ}
    (h : Lockstep ρ R m n) (hfg : ∀ a b, R a b → Lockstep ρ S (f a) (g b)) :
    Lockstep ρ S (m >>= f) (n >>= g) := by
  intro s t hst
  obtain ⟨hab, l, hs, ht⟩ := h s t hst
  have hmeets : Session.Meets ρ (after m s) (after n t) := by
    rw [hs, ht]
    exact hst.replay l
  obtain ⟨hcd, k, hs', ht'⟩ := hfg _ _ hab _ _ hmeets
  refine ⟨hcd, l ++ k, ?_, ?_⟩
  · rw [replay_append, ← hs]
    exact hs'
  · rw [replay_append, ← ht]
    exact ht'

/-- A single event that does not depend on the session. -/
theorem event (e : Event) {m : Check α} {n : Check β}
    (hm : ∀ s t, Session.Meets ρ s t → R (m.run s).1 (n.run t).1)
    (hleft : ∀ s, after m s = e.apply s) (hright : ∀ t, after n t = e.apply t) :
    Lockstep ρ R m n :=
  fun s t hst => ⟨hm s t hst, [e], hleft s, hright t⟩

end Lockstep

/-- The second type is the first one renamed. -/
abbrev Renamed (ρ : Nat → Ty) (t u : Ty) : Prop := u = t.replace ρ

abbrev RenamedAll (ρ : Nat → Ty) (l m : List Ty) : Prop := m = l.map (Ty.replace ρ)

theorem fresh_lockstep : Lockstep ρ (Renamed ρ) fresh fresh :=
  .event (.fresh 1) (fun _ _ hst => (hst 0).symm) (fun _ => rfl) fun _ => rfl

theorem report_lockstep (fault : TypeFault) (span : Span) :
    Lockstep ρ (fun _ _ => True) (report fault span) (report fault span) :=
  .event (.report ⟨span, fault⟩) (fun _ _ _ => trivial) (fun _ => rfl) fun _ => rfl

theorem reportFresh_lockstep (fault : TypeFault) (span : Span) :
    Lockstep ρ (Renamed ρ) (reportFresh fault span) (reportFresh fault span) :=
  (report_lockstep fault span).bind fun _ _ _ => fresh_lockstep

theorem freshMany_lockstep : (n : Nat) →
    Lockstep ρ (RenamedAll ρ) (freshMany n) (freshMany n)
  | 0 => .pure rfl
  | n + 1 => fresh_lockstep.bind fun _ _ ht =>
      (freshMany_lockstep n).bind fun _ _ hl => .pure (by simp [RenamedAll, ht, hl])

/-- The parameters of a declaration stand for renamed types. -/
abbrev RenamedParams (ρ : Nat → Ty) (l m : List (String × Ty)) : Prop :=
  m = l.map fun p => (p.1, p.2.replace ρ)

theorem supply_lockstep : (generics : List GenericParam) → (args : List Ty) →
    Lockstep ρ (fun l m => l.map (·.1) = generics.map (·.name.node) ∧ RenamedParams ρ l m)
      (supply generics args) (supply generics (args.map (Ty.replace ρ)))
  | [], _ => by
    rw [supply, supply]
    exact .pure ⟨rfl, rfl⟩
  | g :: r, t :: ts => by
    simp only [List.map_cons, supply]
    exact (supply_lockstep r ts).bind fun _ _ h =>
      .pure ⟨by simp [h.1], by simp [RenamedParams, h.2]⟩
  | g :: r, [] => by
    simp only [List.map_cons, List.map_nil, supply]
    exact fresh_lockstep.bind fun _ _ ht =>
      (supply_lockstep r []).bind fun _ _ h =>
        .pure ⟨by simp [h.1], by simp [RenamedParams, h.2, ht]⟩

end Lockstep

section Scopes

variable {ρ : Nat → Ty}

/-- In the second scope the parameters `own` and the names that are read stand for what they
stand for in the first, renamed. -/
structure TypeScope.Tracks (ρ : Nat → Ty) (own : List String) (reads : String → Prop)
    (sc sd : TypeScope) : Prop where
  catalog : sd.catalog = sc.catalog
  decls : sd.decls = sc.decls
  resolving : sd.resolving = sc.resolving
  own : ∀ x ∈ own, ∃ t, sc.param? x = some t ∧ sd.param? x = some (t.replace ρ)
  param : ∀ x, reads x → sd.param? x = (sc.param? x).map (Ty.replace ρ)
  self : reads "Self" → sd.selfTy = sc.selfTy.map (Ty.replace ρ)
  fixed : ∀ x t, sc.catalog.aliases.get? x = some t → t.replace ρ = t

namespace TypeScope.Tracks

variable {own : List String} {P Q : String → Prop} {sc sd : TypeScope}

theorem mono (h : Tracks ρ own P sc sd) (hPQ : ∀ x, Q x → P x) : Tracks ρ own Q sc sd :=
  ⟨h.catalog, h.decls, h.resolving, h.own, fun x hx => h.param x (hPQ x hx),
    fun hx => h.self (hPQ _ hx), h.fixed⟩

theorem arity? (h : Tracks ρ own P sc sd) (name : String) : sd.arity? name = sc.arity? name := by
  rw [TypeScope.arity?, TypeScope.arity?, h.decls, h.catalog]

theorem find_renamed (l : List (String × Ty)) (x : String) :
    Table.find x (l.map fun p => (p.1, p.2.replace ρ)) = (Table.find x l).map (Ty.replace ρ) :=
  Table.get?_map (Ty.replace ρ) ⟨l⟩ x

/-- Into the target of an alias. -/
theorem enter (h : Tracks ρ own P sc sd) (l : List (String × Ty)) (name : String) :
    Tracks ρ (l.map (·.1) ++ own) P
      { sc.enter (.ofList l) with resolving := name :: sc.resolving }
      { sd.enter (.ofList (l.map fun p => (p.1, p.2.replace ρ))) with
        resolving := name :: sd.resolving } := by
  have hleft : ∀ x, ({ sc.enter (.ofList l) with resolving := name :: sc.resolving } :
      TypeScope).param? x = (Table.find x l.reverse).or (sc.param? x) := by
    intro x
    rw [← Table.get?_ofList, ← param?_enter]
    rfl
  have hright : ∀ x, ({ sd.enter (.ofList (l.map fun p => (p.1, p.2.replace ρ))) with
      resolving := name :: sd.resolving } : TypeScope).param? x =
        ((Table.find x l.reverse).map (Ty.replace ρ)).or (sd.param? x) := by
    intro x
    rw [← find_renamed, List.map_reverse, ← Table.get?_ofList, ← param?_enter]
    rfl
  refine ⟨h.catalog, h.decls, by simp [h.resolving], fun x hx => ?_, fun x hx => ?_, h.self,
    h.fixed⟩
  · rw [hleft, hright]
    cases hfind : Table.find x l.reverse with
    | some t => exact ⟨t, rfl, rfl⟩
    | none =>
      have hnot : x ∉ l.map (·.1) := by
        rw [← Option.not_isSome_iff_eq_none, Table.isSome_find_iff] at hfind
        simpa using hfind
      exact h.own x ((List.mem_append.mp hx).resolve_left hnot)
  · rw [hleft, hright, h.param x hx]
    cases Table.find x l.reverse <;> rfl

end TypeScope.Tracks

theorem applyNominal_lockstep (name : String) (arity : Nat) (args : List Ty) (span : Span) :
    Lockstep ρ (Renamed ρ) (applyNominal name arity args span)
      (applyNominal name arity (args.map (Ty.replace ρ)) span) := by
  have hrest : Lockstep ρ (Renamed ρ)
      (do return Ty.app name (args.take arity ++ (← freshMany (arity - (args.take arity).length))))
      (do return Ty.app name ((args.map (Ty.replace ρ)).take arity ++
        (← freshMany (arity - ((args.map (Ty.replace ρ)).take arity).length)))) := by
    simp only [List.length_take, List.length_map]
    refine (freshMany_lockstep _).bind fun _ _ hl => .pure ?_
    simp [Renamed, Ty.replace, Ty.replaceAll_eq_map, hl, List.map_take]
  unfold applyNominal
  by_cases hzero : arity = 0
  · by_cases hargs : args.isEmpty = true
    · simp only [hzero, hargs, if_true, List.isEmpty_map, Bool.not_true, Bool.false_eq_true,
        if_false]
      exact .pure rfl
    · simp only [hzero, hargs, if_true, List.isEmpty_map, Bool.not_false]
      exact (report_lockstep _ _).bind fun _ _ _ => .pure rfl
  · simp only [hzero, if_false, List.isEmpty_map, List.length_map]
    split
    · exact (report_lockstep _ _).bind fun _ _ _ => hrest
    · exact hrest

theorem lowerName_lockstep {own : List String} {P : String → Prop} {sc sd : TypeScope}
    (h : sc.Tracks ρ own P sd) (name : String) (args : List Ty) (span : Span) :
    Lockstep ρ (Renamed ρ) (lowerName sc name args span)
      (lowerName sd name (args.map (Ty.replace ρ)) span) := by
  unfold lowerName
  rw [h.arity?, h.catalog, h.decls]
  cases sc.arity? name with
  | some arity => exact applyNominal_lockstep name arity args span
  | none =>
    cases ht : sc.catalog.aliases.get? name with
    | some t => exact .pure (h.fixed name t ht).symm
    | none =>
      dsimp only
      split
      · exact .pure (Ty.replace_nominal ρ name args).symm
      · cases Primitive.ofName? name with
        | some p => exact .pure rfl
        | none => exact reportFresh_lockstep _ _

/-- Expanding an alias goes in lockstep in scopes that agree on what it reads. -/
def Expander.Lockstep (ρ : Nat → Ty) (expand : Expander) : Prop :=
  ∀ (own : List String) (sc sd : TypeScope) (a : TypeAlias) (args : List Ty) (span : Span),
    sc.Tracks ρ own (a.target.Reads sc.decls (a.generics.map (·.name.node) ++ own)) sd →
    Sema.Lockstep ρ (Renamed ρ) (expand sc a args span) (expand sd a (args.map (Ty.replace ρ)) span)

theorem lowerPath_lockstep {expand : Expander} (hexpand : expand.Lockstep ρ)
    {own : List String} {sc sd : TypeScope} {span : Span} {segments : List String}
    {exprs : List TypeExpr}
    (h : sc.Tracks ρ own (TypeExpr.Reads sc.decls own ⟨span, .path segments exprs⟩) sd)
    (args : List Ty) :
    Lockstep ρ (Renamed ρ) (lowerPath expand sc segments args span)
      (lowerPath expand sd segments (args.map (Ty.replace ρ)) span) := by
  unfold lowerPath
  dsimp only
  by_cases hown : segments.length = 1 ∧ joinPath segments ∈ own
  · obtain ⟨t, ht, hu⟩ := h.own _ hown.2
    simp only [hown.1, beq_self_eq_true, if_true, ht, hu]
    exact .pure rfl
  · have hread : segments.length = 1 → TypeExpr.Reads sc.decls own ⟨span, .path segments exprs⟩
        (joinPath segments) := fun hsingle => .name hsingle fun hmem => hown ⟨hsingle, hmem⟩
    have hparam : (if segments.length == 1 then sd.param? (joinPath segments) else none) =
        (if segments.length == 1 then sc.param? (joinPath segments) else none).map
          (Ty.replace ρ) := by
      by_cases hsingle : segments.length = 1
      · simpa [hsingle] using h.param _ (hread hsingle)
      · simp [hsingle]
    rw [hparam]
    cases (if segments.length == 1 then sc.param? (joinPath segments) else none) with
    | some t => exact .pure rfl
    | none =>
      dsimp only [Option.map_none]
      by_cases hself : segments.length = 1 ∧ joinPath segments = "Self"
      · have hselfTy : sd.selfTy = sc.selfTy.map (Ty.replace ρ) :=
          h.self (hself.2 ▸ hread hself.1)
        simp only [hself.1, hself.2, beq_self_eq_true, Bool.and_self, if_true, hselfTy]
        cases sc.selfTy with
        | some t => exact .pure rfl
        | none => exact reportFresh_lockstep _ _
      · have hfalse : (segments.length == 1 && joinPath segments == "Self") = false := by
          simpa using hself
        simp only [hfalse, Bool.false_eq_true, if_false, h.decls]
        cases hget : sc.decls.aliases.get? (joinPath segments) with
        | none => exact lowerName_lockstep h _ args span
        | some a =>
          refine hexpand own sc sd a args span (h.mono fun x hx => ?_)
          exact .through (fun hsingle hmem => hown ⟨hsingle, hmem⟩) hget hx

mutual

/-- By induction on the expression; what a part reads, the whole reads. -/
theorem lowerWith_lockstep {expand : Expander} (hexpand : expand.Lockstep ρ) {own : List String}
    {sc sd : TypeScope} : (e : TypeExpr) → sc.Tracks ρ own (e.Reads sc.decls own) sd →
      Lockstep ρ (Renamed ρ) (lowerWith expand sc e) (lowerWith expand sd e)
  | ⟨span, kind⟩, h => by
    rw [lowerWith, lowerWith]
    exact lowerKind_lockstep hexpand span kind h

theorem lowerKind_lockstep {expand : Expander} (hexpand : expand.Lockstep ρ) {own : List String}
    {sc sd : TypeScope} (span : Span) : (k : TypeExprKind) →
      sc.Tracks ρ own (TypeExpr.Reads sc.decls own ⟨span, k⟩) sd →
      Lockstep ρ (Renamed ρ) (lowerKind expand sc span k) (lowerKind expand sd span k)
  | .primitive _, _ => .pure rfl
  | .path segments args, h => by
    rw [lowerKind, lowerKind]
    refine (lowerAll_lockstep hexpand args (h.mono fun x hx => ?_)).bind fun l m hlm => ?_
    · obtain ⟨t, ht, hx⟩ := hx
      exact .arg ht hx
    · rw [hlm]
      exact lowerPath_lockstep hexpand h l
  | .branded base _, h => by
    rw [lowerKind, lowerKind]
    exact (lowerWith_lockstep hexpand base (h.mono fun _ => .branded)).bind fun _ _ ht =>
      .pure (by rw [Renamed, ht, Ty.replace])
  | .function params none _, h => by
    rw [lowerKind, lowerKind]
    refine (lowerAll_lockstep hexpand params (h.mono fun x hx => ?_)).bind fun l m hlm => .pure ?_
    · obtain ⟨t, ht, hx⟩ := hx
      exact .param ht hx
    · rw [Renamed, Ty.replace, Ty.replaceAll_eq_map, hlm]
      rfl
  | .function params (some ret) _, h => by
    rw [lowerKind, lowerKind]
    refine (lowerAll_lockstep hexpand params (h.mono fun x hx => ?_)).bind fun l m hlm =>
      (lowerWith_lockstep hexpand ret (h.mono fun _ => .ret)).bind fun s t hst => .pure ?_
    · obtain ⟨t, ht, hx⟩ := hx
      exact .param ht hx
    · rw [Renamed, Ty.replace, Ty.replaceAll_eq_map, hlm, hst]
  | .reference inner _ _, h => by
    rw [lowerKind, lowerKind]
    exact lowerWith_lockstep hexpand inner (h.mono fun _ => .reference)
  | .tuple elems, h => by
    rw [lowerKind, lowerKind]
    refine (lowerAll_lockstep hexpand elems (h.mono fun x hx => ?_)).bind fun l m hlm => .pure ?_
    · obtain ⟨t, ht, hx⟩ := hx
      exact .elem ht hx
    · rw [Renamed, hlm, Ty.replace_tuple]
  | .array elem _, h => by
    rw [lowerKind, lowerKind]
    exact (lowerWith_lockstep hexpand elem (h.mono fun _ => .array)).bind fun _ _ ht =>
      .pure (by simp [Renamed, ht, Ty.array, Ty.replace, Ty.replaceAll])

theorem lowerAll_lockstep {expand : Expander} (hexpand : expand.Lockstep ρ) {own : List String}
    {sc sd : TypeScope} : (l : List TypeExpr) →
      sc.Tracks ρ own (fun x => ∃ t ∈ l, t.Reads sc.decls own x) sd →
      Lockstep ρ (RenamedAll ρ) (lowerAll expand sc l) (lowerAll expand sd l)
  | [], _ => by
    rw [lowerAll, lowerAll]
    exact .pure rfl
  | t :: r, h => by
    rw [lowerAll, lowerAll]
    have hhead := lowerWith_lockstep hexpand t (h.mono fun x hx => ⟨t, List.mem_cons_self, hx⟩)
    have htail := lowerAll_lockstep hexpand r (h.mono fun x ⟨u, hu, hx⟩ =>
      ⟨u, List.mem_cons_of_mem t hu, hx⟩)
    exact hhead.bind fun _ _ ht => htail.bind fun _ _ hr => .pure (by simp [RenamedAll, ht, hr])

end

/-- By induction on how deep aliases may still nest. -/
theorem expandAlias_lockstep : (n : Nat) → Expander.Lockstep ρ (expandAlias n)
  | 0 => fun _ _ _ _ _ _ _ => reportFresh_lockstep _ _
  | n + 1 => by
    intro own sc sd a args span h
    unfold expandAlias
    dsimp only
    rw [h.resolving]
    split
    · exact reportFresh_lockstep _ _
    · rw [List.length_map]
      have htarget : Lockstep ρ (Renamed ρ)
          (do
            let params ← supply a.generics args
            lowerWith (expandAlias n)
              { sc.enter (.ofList params) with resolving := a.name.node :: sc.resolving } a.target)
          (do
            let params ← supply a.generics (args.map (Ty.replace ρ))
            lowerWith (expandAlias n)
              { sd.enter (.ofList params) with resolving := a.name.node :: sd.resolving }
              a.target) := by
        refine (supply_lockstep a.generics args).bind fun l m hlm => ?_
        obtain ⟨hnames, rfl⟩ := hlm
        have hinside := h.enter l a.name.node
        rw [hnames] at hinside
        exact lowerWith_lockstep (expandAlias_lockstep n) a.target hinside
      rw [h.resolving] at htarget
      split
      · exact (report_lockstep _ _).bind fun _ _ _ => htarget
      · exact htarget

end Scopes

/-- Two scopes of one program in which the names that are read mean the same. -/
structure TypeScope.AgreesOn (reads : String → Prop) (sc sd : TypeScope) : Prop where
  catalog : sd.catalog = sc.catalog
  decls : sd.decls = sc.decls
  resolving : sd.resolving = sc.resolving
  param : ∀ x, reads x → sd.param? x = sc.param? x
  self : reads "Self" → sd.selfTy = sc.selfTy

/-- The types that can go into an expansion besides its fresh variables: the arguments, what the
names that are read stand for, and the types of the catalog. -/
def TypeScope.Supplies (sc : TypeScope) (reads : String → Prop) (args : List Ty) (t : Ty) : Prop :=
  t ∈ args ∨ (∃ x, reads x ∧ sc.param? x = some t) ∨ (reads "Self" ∧ sc.selfTy = some t) ∨
    ∃ x, sc.catalog.aliases.get? x = some t

theorem TypeScope.AgreesOn.tracks {ρ : Nat → Ty} {reads : String → Prop} {sc sd : TypeScope}
    (h : sc.AgreesOn reads sd) {args : List Ty}
    (hρ : ∀ t, sc.Supplies reads args t → t.replace ρ = t) : sc.Tracks ρ [] reads sd := by
  refine ⟨h.catalog, h.decls, h.resolving, fun x hx => by simp at hx, fun x hx => ?_,
    fun hx => ?_, fun x t ht => hρ t (.inr (.inr (.inr ⟨x, ht⟩)))⟩
  · rw [h.param x hx]
    cases ht : sc.param? x with
    | none => rfl
    | some t => rw [Option.map_some, hρ t (.inr (.inl ⟨x, hx, ht⟩))]
  · rw [h.self hx]
    cases ht : sc.selfTy with
    | none => rfl
    | some t => rw [Option.map_some, hρ t (.inr (.inr (.inl ⟨hx, ht⟩)))]

/-- The renaming that takes the variables from `a` on to those from `b` on. -/
def renumbering (a b v : Nat) : Ty := .var (if v < a then v else b + (v - a))

/-- In scopes that agree on what an alias reads, the two expansions go in lockstep. -/
theorem TypeScope.AgreesOn.lockstep {ρ : Nat → Ty} {sc sd : TypeScope} {a : TypeAlias}
    (h : sc.AgreesOn (a.Reads sc.decls) sd) (args : List Ty)
    (hρ : ∀ t, sc.Supplies (a.Reads sc.decls) args t → t.replace ρ = t) (n : Nat) (span : Span) :
    Lockstep ρ (Renamed ρ) (expandAlias n sc a args span) (expandAlias n sd a args span) := by
  have hargs : args.map (Ty.replace ρ) = args := by
    rw [List.map_congr_left fun t ht => hρ t (.inl ht), List.map_id']
  have htracks := h.tracks hρ
  have hlock := expandAlias_lockstep n [] sc sd a args span (by rwa [List.append_nil])
  rwa [hargs] at hlock

/-- An alias takes nothing from the place of its use but the names that it reads. In two scopes
that agree on these, the expansion with the same arguments is the same check; and run at any two
points of a program, it gives the same type up to a renumbering of its fresh variables, with as
many of them and the same complaints. -/
theorem alias_depends_on_reads (n : Nat) (sc sd : TypeScope) (a : TypeAlias) (args : List Ty)
    (span : Span) (h : sc.AgreesOn (a.Reads sc.decls) sd) :
    expandAlias n sc a args span = expandAlias n sd a args span ∧
    ∀ s t : Session, (∀ u, sc.Supplies (a.Reads sc.decls) args u → ∀ v ∈ u.vars, v < s.nextVar) →
      let first := (expandAlias n sc a args span).run s
      let second := (expandAlias n sd a args span).run t
      second.1 = first.1.replace (renumbering s.nextVar t.nextVar) ∧
      ∃ k faults,
        first.2.nextVar = s.nextVar + k ∧ first.2.faults = s.faults ++ faults ∧
        second.2.nextVar = t.nextVar + k ∧ second.2.faults = t.faults ++ faults := by
  constructor
  · have hlock := h.lockstep args (fun t _ => Ty.replace_var t) n span
    funext s
    obtain ⟨htype, l, hleft, hright⟩ := hlock s s fun _ => rfl
    rw [Renamed, Ty.replace_var] at htype
    exact Prod.ext htype.symm (hleft.trans hright.symm)
  · intro s t hsupplied
    have hfixed : ∀ u, sc.Supplies (a.Reads sc.decls) args u →
        u.replace (renumbering s.nextVar t.nextVar) = u := by
      intro u hu
      refine (Ty.replace_congr _ _ u fun v hv => ?_).trans (Ty.replace_var u)
      rw [renumbering, if_pos (hsupplied u hu v hv)]
    have hmeets : Session.Meets (renumbering s.nextVar t.nextVar) s t := by
      intro i
      simp [renumbering]
    obtain ⟨htype, l, hleft, hright⟩ := h.lockstep args hfixed n span s t hmeets
    obtain ⟨k, faults, hgrowth⟩ := exists_growth_replay l
    have hfirst := hgrowth s
    have hsecond := hgrowth t
    rw [← hleft] at hfirst
    rw [← hright] at hsecond
    exact ⟨htype, k, faults, hfirst.1, hfirst.2, hsecond.1, hsecond.2⟩

namespace SlotAlias

open Build

/-- `type Slot<X, Y> = (X, Y, T)`. -/
def slot : TypeAlias :=
  ⟨.dummy, name "Slot", [generic "X", generic "Y"], tupleType [type "X", type "Y", type "T"]⟩

/-- In a program with the alias and a struct `T`, inside a declaration with one parameter. -/
def scope (param : String) (t : Ty) : TypeScope :=
  { catalog := .empty
    decls :=
      { aliases := .ofList [("Slot", slot)]
        structs := .ofList [("T", ⟨.dummy, name "T", [], []⟩)] }
    params := [.ofList [(param, t)]] }

/-- A bare name reads itself, unless it is a parameter of the alias. -/
theorem reads_name {d : Declarations} {own : List String} {n x : String}
    (h : TypeExpr.Reads d own ⟨.dummy, .path [n] []⟩ x)
    (hn : n ∈ own ∨ d.aliases.get? n = none) : x = n ∧ n ∉ own := by
  have hjoin : joinPath [n] = n := by simp [joinPath]
  cases h with
  | name _ hown => exact ⟨hjoin, hjoin ▸ hown⟩
  | arg ht => simp at ht
  | through hown ha =>
    rw [hjoin] at hown ha
    simp [hown rfl, ha] at hn

/-- The alias reads the name `T` and no other. -/
theorem reads {param : String} {t : Ty} {x : String} (h : slot.Reads (scope param t).decls x) :
    x = "T" := by
  have htarget : slot.target = ⟨.dummy, .tuple [⟨.dummy, .path ["X"] []⟩,
    ⟨.dummy, .path ["Y"] []⟩, ⟨.dummy, .path ["T"] []⟩]⟩ := by cbv
  have hnone : (scope param t).decls.aliases.get? "T" = none := by cbv
  have hown : slot.generics.map (·.name.node) = ["X", "Y"] := by cbv
  rw [TypeAlias.Reads, htarget, hown] at h
  cases h with
  | elem ht h =>
    simp only [List.mem_cons, List.not_mem_nil, or_false] at ht
    rcases ht with rfl | rfl | rfl
    · exact absurd (by simp) (reads_name h (.inl (by simp))).2
    · exact absurd (by simp) (reads_name h (.inl (by simp))).2
    · exact (reads_name h (.inr hnone)).1

end SlotAlias

/-- Neither a parameter of another name nor one that has the name of the alias's own parameter
changes the expansion; the argument left out is a fresh variable in both. -/
theorem slot_same_for_two_parameters :
    let inside := SlotAlias.scope "U" (.var 0)
    let shadowed := SlotAlias.scope "X" (.var 1)
    expandAlias 1 inside SlotAlias.slot [.bool] .dummy =
      expandAlias 1 shadowed SlotAlias.slot [.bool] .dummy ∧
    ((expandAlias 1 inside SlotAlias.slot [.bool] .dummy).run { nextVar := 2 }).1 =
      .tuple [.bool, .var 2, .named "T"] ∧
    ((expandAlias 1 shadowed SlotAlias.slot [.bool] .dummy).run { nextVar := 7 }).1 =
      (Ty.tuple [.bool, .var 2, .named "T"]).replace (renumbering 2 7) := by
  intro inside shadowed
  have hagree : inside.AgreesOn (SlotAlias.slot.Reads inside.decls) shadowed := by
    refine ⟨rfl, rfl, rfl, fun x hx => ?_, fun _ => rfl⟩
    rw [SlotAlias.reads hx]
    cbv
  have hsupplied : ∀ u, inside.Supplies (SlotAlias.slot.Reads inside.decls) [.bool] u →
      ∀ v ∈ u.vars, v < 2 := by
    rintro u (hu | ⟨x, hx, hu⟩ | ⟨_, hu⟩ | ⟨x, hu⟩)
    · rw [List.mem_singleton.mp hu]
      simp [Ty.bool, Ty.prim, Ty.vars]
    · have hnone : inside.param? "T" = none := by cbv
      rw [SlotAlias.reads hx, hnone] at hu
      cases hu
    · cases hu
    · cases hu
  have hslot := alias_depends_on_reads 1 inside shadowed SlotAlias.slot [.bool] .dummy hagree
  have hfirst : ((expandAlias 1 inside SlotAlias.slot [.bool] .dummy).run { nextVar := 2 }).1 =
      .tuple [.bool, .var 2, .named "T"] := by cbv
  refine ⟨hslot.1, hfirst, ?_⟩
  rw [(hslot.2 { nextVar := 2 } { nextVar := 7 } hsupplied).1, hfirst]

open Build in
/-- `struct T {}`, `type A = T;`, `fn make() -> A { T {} }` and a function with one parameter
`param` that says `let a: A = make();`. -/
def aliasUnder (param : String) : Program :=
  .ofItems [struct "T" [] [], typeAlias "A" (type "T"),
    .function (functionOf "make" [.returns (type "A"), .body (block [] (some (structLit "T" [])))]),
    .function (functionOf "use" [.generic param, .param "x" (some (type param)),
      .body (block [letPattern (patIdent "a") (some (type "A")) (call (ident "make") [])] none)])]

/-- The name of the generic parameter decides what the alias means in the body. -/
theorem alias_captured_by_parameter :
    (checkProgram .empty true (aliasUnder "U")).ok = true ∧
    (checkProgram .empty true (aliasUnder "T")).session.faults =
      #[⟨.dummy, .constrainedGeneric "T" "use" (.named "T")⟩] := by
  constructor <;> cbv

end Sema
