import Sema.Proofs.Typing.Ambiguity
import Sema.Proofs.Typing.Lowering
import Sema.Proofs.Typing.PatternChecks
import Sema.Proofs.Typing.Restoration
import Sema.Syntax.Build

/-!
# The alternatives of an or-pattern

The alternatives of an or-pattern are checked in turn and compared with the first, one by one;
what is collected there is solved only at the end. In a program that is accepted all of them have
bound the same names, with types that differ in effect rows at most. What an or-pattern shows to
the code after it are the names of its first alternative.
-/

namespace Sema

namespace Table

variable {α β : Type}

/-- The keys come in ascending order. -/
def Ordered (l : List (String × α)) : Prop := (l.map (·.1)).Pairwise (· < ·)

theorem ordered_place {l : List (String × α)} (h : Ordered l) (k : String) (a : α) :
    Ordered (place k a l) := by
  induction l with
  | nil => simp [place, Ordered]
  | cons e r ih =>
    obtain ⟨j, b⟩ := e
    obtain ⟨hj, hr⟩ := List.pairwise_cons.mp h
    unfold place
    split
    · next hkj =>
      subst hkj
      exact List.pairwise_cons.mpr ⟨hj, hr⟩
    · next hkj =>
      split
      · next hlt =>
        refine List.pairwise_cons.mpr ⟨fun i hi => ?_, h⟩
        rcases List.mem_cons.mp hi with rfl | hi
        · exact hlt
        · exact lt_trans hlt (hj i hi)
      · next hlt =>
        refine List.pairwise_cons.mpr ⟨fun i hi => ?_, ih hr⟩
        rcases (mem_keys_place k i a r).mp hi with rfl | hi
        · exact lt_of_le_of_ne (not_lt.mp hlt) (Ne.symm hkj)
        · exact hj i hi

theorem ordered_ofList (l : List (String × α)) : Ordered (ofList l).entries := by
  have hall : ∀ t : Table String α, Ordered t.entries → Ordered (t.insertAll l).entries := by
    induction l with
    | nil => exact fun _ h => h
    | cons e r ih => exact fun t h => ih (t.insert e.1 e.2) (ordered_place h e.1 e.2)
  exact hall .empty (by simp [empty, Ordered])

theorem Ordered.nodup {l : List (String × α)} (h : Ordered l) : (l.map (·.1)).Nodup :=
  h.imp fun hlt => ne_of_lt hlt

theorem find_reverse {l : List (String × α)} (h : (l.map (·.1)).Nodup) (k : String) :
    find k l.reverse = find k l := by
  have hrev : (l.reverse.map (·.1)).Nodup := by
    rw [List.map_reverse]
    exact List.nodup_reverse.mpr h
  cases hfind : find k l with
  | some a =>
    have hmem : (k, a) ∈ l := mem_of_get? (t := ⟨l⟩) hfind
    exact find_of_mem hrev (List.mem_reverse.mpr hmem)
  | none =>
    rw [← Option.not_isSome_iff_eq_none, isSome_find_iff] at hfind ⊢
    simpa using hfind

/-- A table made anew from the entries of another says the same. -/
theorem get?_ofList_entries (l : List (String × α)) (k : String) :
    (ofList (ofList l).entries).get? k = (ofList l).get? k := by
  rw [get?_ofList, find_reverse (ordered_ofList l).nodup]
  rfl

/-- In two lists with the same keys, the entries for a key stand in the same place. -/
theorem mem_zip_of_find {l : List (String × α)} {m : List (String × β)}
    (hkeys : l.map (·.1) = m.map (·.1)) {k : String} {a : α} {b : β} (ha : find k l = some a)
    (hb : find k m = some b) : ((k, a), (k, b)) ∈ l.zip m := by
  induction l generalizing m with
  | nil => cases ha
  | cons e l ih =>
    obtain ⟨j, a'⟩ := e
    cases m with
    | nil => cases hb
    | cons d m =>
      obtain ⟨i, b'⟩ := d
      obtain ⟨rfl, hrest⟩ := List.cons.inj hkeys
      by_cases hk : k = j
      · simp_all [find]
      · simp only [find, hk, if_false] at ha hb
        exact List.mem_cons_of_mem _ (ih hrest ha hb)

end Table

section Agreement

variable {cx : Context}

/-- The two types have been compared. -/
def Session.Compares (s : Session) (a b : Ty) : Prop :=
  ∃ c ∈ s.constraints.toList, c.expected = a ∧ c.actual = b

theorem Session.Compares.of_grows {s t : Session} {a b : Ty} (h : s.Compares a b)
    (hst : Grows s t) : t.Compares a b := by
  obtain ⟨c, hc, hab⟩ := h
  exact ⟨c, hst.mem_constraints hc, hab⟩

theorem compares_constrain (a b : Ty) (span : Span) (origin : Origin) (s : Session) :
    (after (constrain a b span origin) s).Compares a b :=
  ⟨_, Array.mem_toList_iff.mpr Array.mem_push_self, rfl, rfl⟩

/-- Types that have been compared are the same in the end, up to effect rows. -/
theorem Session.Compares.bare_eq {s : Session} {a b : Ty} (h : s.Compares a b) (hs : s.Solved) :
    (s.solver.apply a).bare = (s.solver.apply b).bare := by
  obtain ⟨c, hc, rfl, rfl⟩ := h
  exact Ty.bare_eq_of_compatible _ _ (hs.compatible hc)

theorem compares_forM {l : List ((String × Ty) × (String × Ty))} {span : Span}
    {x : (String × Ty) × (String × Ty)} (hx : x ∈ l) (s : Session) :
    (after (l.forM fun (a, b) => constrain a.2 b.2 span .pattern) s).Compares x.1.2 x.2.2 := by
  induction l generalizing s with
  | nil => cases hx
  | cons y l ih =>
    have hrest : Growing (l.forM fun (a, b) => constrain a.2 b.2 span .pattern) :=
      (Emits.forM (fun _ => constrain_notes _ _ _ _) l).growing
    rcases List.mem_cons.mp hx with rfl | hx
    · exact (compares_constrain x.1.2 x.2.2 span .pattern s).of_grows (hrest _)
    · exact ih hx _

/-- Without a complaint, an alternative has the names of the first, and its types have been
compared. -/
theorem agree_of_no_faults {first second : Table String Ty} {span other : Span} {s : Session}
    (h : (after (agree first span (other, second)) s).faults = #[]) :
    first.keys = second.keys ∧ ∀ x ∈ first.entries.zip second.entries,
      (after (agree first span (other, second)) s).Compares x.1.2 x.2.2 := by
  unfold agree at h ⊢
  dsimp only at h ⊢
  split at h
  · next hkeys =>
    rw [if_pos hkeys]
    exact ⟨hkeys, fun x hx => compares_forM hx s⟩
  · exact absurd h (faults_of_report (.refl _))

theorem alternativeChecks_agree {t : Ty} {span : Span} {first : Table String Ty}
    {l : List Pattern} {s : Session}
    (h : (after (checkAlternatives cx l t span first) s).faults = #[]) :
    ∀ d ∈ alternativeChecks cx t span first l s, first.keys = d.names.keys ∧
      ∀ x ∈ first.entries.zip d.names.entries,
        (after (checkAlternatives cx l t span first) s).Compares x.1.2 x.2.2 := by
  induction l generalizing s with
  | nil => simp [alternativeChecks]
  | cons p r ih =>
    let c : PatternCheck := ⟨cx, p, t, s⟩
    have hrest := (checkAlternatives_notes cx r t span first).growing
    have hrun : after (checkAlternatives cx (p :: r) t span first) s =
        after (checkAlternatives cx r t span first)
          (after (agree first span (p.span, c.names)) c.after) := by
      rw [checkAlternatives]
      rfl
    rw [hrun] at h ⊢
    obtain ⟨hkeys, hcompared⟩ := agree_of_no_faults ((hrest _).no_faults h)
    exact List.forall_mem_cons.mpr
      ⟨⟨hkeys, fun x hx => (hcompared x hx).of_grows (hrest _)⟩, ih h⟩
end Agreement

/-- All alternatives of an or-pattern have bound the same names, with types that have been
compared with those of the first. -/
theorem PatternCheck.alternatives_agree_first (c : PatternCheck) {span : Span} {p : Pattern}
    {rest : List Pattern} (hor : c.pattern = .or span (p :: rest)) (h : c.after.faults = #[]) :
    let first : PatternCheck := ⟨c.cx, p, c.type, c.start⟩
    c.bound = first.names.entries ∧
    ∃ others, c.parts = first :: others ∧ ∀ d ∈ others, first.names.keys = d.names.keys ∧
      ∀ x ∈ first.names.entries.zip d.names.entries, c.after.Compares x.1.2 x.2.2 := by
  obtain ⟨cx, pattern, type, s⟩ := c
  subst hor
  intro first
  let check := checkAlternatives cx rest type span first.names
  have hrun : (checkPattern cx (.or span (p :: rest)) type).run s =
      (first.names.entries, Sema.after check first.after) := by
    rw [checkPattern]
    rfl
  have hafter : after ⟨cx, .or span (p :: rest), type, s⟩ = Sema.after check first.after :=
    congrArg Prod.snd hrun
  rw [hafter] at h ⊢
  exact ⟨congrArg Prod.fst hrun, _, rfl, alternativeChecks_agree h⟩

/-- The alternatives of an or-pattern that is checked in an accepted program bind the same names,
with types that differ in effect rows at most. -/
theorem PatternCheck.On.alternatives_alike {catalog : Catalog} {checkEffects : Bool} {p : Program}
    (hok : (checkProgram catalog checkEffects p).ok = true) {c : PatternCheck}
    (hc : c.On (p.walk catalog checkEffects)) {span : Span} {alternatives : List Pattern}
    (hor : c.pattern = .or span alternatives) {a b : PatternCheck} (ha : a ∈ c.parts)
    (hb : b ∈ c.parts) :
    a.names.keys = b.names.keys ∧ ∀ name t u, a.names.get? name = some t →
      b.names.get? name = some u →
        ((checkProgram catalog checkEffects p).subst.apply t).bare =
          ((checkProgram catalog checkEffects p).subst.apply u).bare := by
  obtain ⟨hsolved, hfaults, hsubst, hvisited⟩ := p.settled hok
  have hgrows := hc.grows.trans hvisited
  cases alternatives with
  | nil => simp [parts, hor] at ha
  | cons q rest =>
    let first : PatternCheck := ⟨c.cx, q, c.type, c.start⟩
    obtain ⟨-, others, hparts, hothers⟩ :=
      c.alternatives_agree_first hor (hgrows.no_faults hfaults)
    -- Both are compared with the first alternative, and so with each other.
    have hfirst : ∀ d ∈ c.parts, first.names.keys = d.names.keys ∧
        ∀ name t u, first.names.get? name = some t → d.names.get? name = some u →
          ((checkProgram catalog checkEffects p).subst.apply t).bare =
            ((checkProgram catalog checkEffects p).subst.apply u).bare := by
      intro d hd
      rw [hparts] at hd
      rcases List.mem_cons.mp hd with rfl | hd
      · refine ⟨rfl, fun name t u ht hu => ?_⟩
        rw [Option.some.inj (ht.symm.trans hu)]
      · obtain ⟨hkeys, hcompared⟩ := hothers d hd
        refine ⟨hkeys, fun name t u ht hu => ?_⟩
        have hmem := Table.mem_zip_of_find hkeys ht hu
        rw [hsubst]
        exact ((hcompared _ hmem).of_grows hgrows).bare_eq hsolved
    obtain ⟨hkeysa, hsamea⟩ := hfirst a ha
    obtain ⟨hkeysb, hsameb⟩ := hfirst b hb
    refine ⟨hkeysa.symm.trans hkeysb, fun name t u ht hu => ?_⟩
    have hmem : name ∈ first.names.keys := by
      rw [hkeysa]
      exact (Table.isSome_find_iff _ name).mp (Option.isSome_iff_exists.mpr ⟨t, ht⟩)
    obtain ⟨v, hv⟩ := Option.isSome_iff_exists.mp ((Table.isSome_find_iff _ name).mpr hmem)
    exact (hsamea name v t hv ht).symm.trans (hsameb name v u hv hu)

/-- An or-pattern shows the names of its first alternative, with their types. -/
theorem PatternCheck.get?_names_or {c : PatternCheck} {span : Span} {alternatives : List Pattern}
    (hor : c.pattern = .or span alternatives) (h : c.after.faults = #[]) (name : String) :
    c.names.get? name = c.parts.head?.bind (·.names.get? name) := by
  cases alternatives with
  | nil =>
    obtain ⟨cx, pattern, type, s⟩ := c
    subst hor
    rw [names, bound, checkPattern]
    rfl
  | cons q rest =>
    obtain ⟨hbound, others, hparts, -⟩ := c.alternatives_agree_first hor h
    rw [hparts, names, hbound]
    exact Table.get?_ofList_entries _ name

theorem PatternCheck.parts_or_same {c : PatternCheck} {span : Span} {alternatives : List Pattern}
    (hor : c.pattern = .or span alternatives) : ∀ a ∈ c.parts, a.cx = c.cx ∧ a.type = c.type := by
  cases alternatives with
  | nil => simp [parts, hor]
  | cons q rest =>
    simp only [parts, hor]
    exact List.forall_mem_cons.mpr ⟨⟨rfl, rfl⟩, alternativeChecks_same _ _ _ _ _⟩

section Scopes

variable (env : Env) (i : Interface)

/-- The work of the check. -/
def PatternCheck.work (c : PatternCheck) : Work Unit := .checkPattern c.pattern c.type

/-- The checker at the start of the check, where names mean what `env` says. -/
def PatternCheck.checker (c : PatternCheck) : TypeChecker := ⟨⟨c.cx.withEnv env, i⟩, c.start⟩

/-- Whatever names mean, the work finds what the check finds and binds what that gives. -/
theorem PatternCheck.run_work (c : PatternCheck) : c.work.run (c.checker env i) =
    ((), ⟨⟨c.cx.withEnv (env.bindAll c.bound), i⟩, c.after⟩) :=
  congrFun (Work.exec_checkPattern_withEnv c.cx.env c.pattern c.type) (c.checker env i)

theorem PatternCheck.moments_aside (c : PatternCheck) : c.work.moments (c.checker env.push i) <:+:
    (Work.aside c.work).moments (c.checker env i) := by
  simp only [Work.aside, Work.moments_bind]
  exact List.infix_append' ..

/-- In a scope of its own the work on the pattern gives its names, and leaves what can be seen. -/
theorem PatternCheck.run_aside (c : PatternCheck) : (Work.aside c.work).run (c.checker env i) =
    (c.names, ⟨⟨c.cx.withEnv env, i⟩, c.after⟩) :=
  congrFun (Work.exec_aside (Work.exec_checkPattern_withEnv c.cx.env c.pattern c.type))
    (c.checker env i)

/-- The work on each alternative, in a scope of its own, is a stretch of the work on all. -/
theorem moments_alternativeChecks {cx : Context} {t : Ty} {span : Span} {first : Table String Ty}
    (l : List Pattern) (s : Session) : ∀ a ∈ alternativeChecks cx t span first l s,
      a.work.moments (a.checker env.push i) <:+:
        (Work.checkAlternatives l t span first).moments ⟨⟨cx.withEnv env, i⟩, s⟩ := by
  induction l generalizing s with
  | nil => simp [alternativeChecks]
  | cons p r ih =>
    let c : PatternCheck := ⟨cx, p, t, s⟩
    have hwork : Work.checkAlternatives (p :: r) t span first = (do
        let bound ← Work.aside c.work
        agree first span (p.span, bound)
        Work.checkAlternatives r t span first) := by
      rw [Work.checkAlternatives]
      rfl
    change ∀ a ∈ alternativeChecks cx t span first (p :: r) s,
      _ <:+: (Work.checkAlternatives (p :: r) t span first).moments (c.checker env i)
    rw [hwork, Work.moments_bind, c.run_aside, Work.moments_bind]
    refine List.forall_mem_cons.mpr ⟨?_, fun a ha => ?_⟩
    · exact (c.moments_aside env i).trans (List.prefix_append _ _).isInfix
    · refine (ih _ a ha).trans (List.IsSuffix.isInfix ?_)
      exact (List.suffix_append _ _).trans (List.suffix_append _ _)

theorem PatternCheck.moments_parts {c : PatternCheck} {span : Span} {alternatives : List Pattern}
    (hor : c.pattern = .or span alternatives) :
    ∀ a ∈ c.parts, a.work.moments (a.checker env.push i) <:+: c.work.moments (c.checker env i) := by
  obtain ⟨cx, pattern, type, s⟩ := c
  subst hor
  cases alternatives with
  | nil => simp [parts]
  | cons p rest =>
    let first : PatternCheck := ⟨cx, p, type, s⟩
    have hwork : Work.checkPattern (.or span (p :: rest)) type = (do
        let bound ← Work.aside first.work
        Work.checkAlternatives rest type span bound
        Work.bindEach bound.entries) := by
      rw [Work.checkPattern]
      rfl
    change ∀ a ∈ first :: alternativeChecks cx type span first.names rest first.after,
      _ <:+: (Work.checkPattern (.or span (p :: rest)) type).moments (first.checker env i)
    rw [hwork, Work.moments_bind, first.run_aside, Work.moments_bind]
    refine List.forall_mem_cons.mpr ⟨?_, fun a ha => ?_⟩
    · exact (first.moments_aside env i).trans (List.prefix_append _ _).isInfix
    · exact (moments_alternativeChecks env i rest _ a ha).trans (List.infix_append' ..)

end Scopes

/-- In an accepted program the alternatives of every or-pattern agree. Every or-pattern in the
code that is checked, at any depth in other patterns, has been checked; and so have all its
alternatives, in the same context and against the same type. They have bound the same names, and
under the final substitution a name has the same type in all of them, whatever the effect rows.

Whatever names mean where the pattern is, the work on each alternative is a stretch of the work on
the pattern. It begins in a scope that has been pushed and binds its names there, and without that
scope the context is the one around the pattern. After the pattern the context differs in the
environment alone, there in the innermost scope alone, and in that scope in the names of the first
alternative. -/
theorem or_alternatives_agree (catalog : Catalog) (checkEffects : Bool) (p : Program)
    (hok : (checkProgram catalog checkEffects p).ok = true) :
    let walk := p.walk catalog checkEffects
    let σ := (checkProgram catalog checkEffects p).subst
    (∀ q ∈ p.patterns, ∀ span alternatives, q.Holds (.or span alternatives) →
      ∃ c : PatternCheck, c.On walk ∧ c.pattern = .or span alternatives) ∧
    ∀ c : PatternCheck, c.On walk → ∀ span alternatives, c.pattern = .or span alternatives →
      c.parts.map (·.pattern) = alternatives ∧
      (∀ a ∈ c.parts, a.cx = c.cx ∧ a.type = c.type) ∧
      (∀ a ∈ c.parts, ∀ b ∈ c.parts, a.names.keys = b.names.keys ∧
        ∀ name t u, a.names.get? name = some t → b.names.get? name = some u →
          (σ.apply t).bare = (σ.apply u).bare) ∧
      ∀ (env : Env) (i : Interface),
        (∀ a ∈ c.parts,
          a.work.moments (a.checker env.push i) <:+: c.work.moments (c.checker env i) ∧
          ∃ inside, a.work.run (a.checker env.push i) = ((), ⟨⟨inside, i⟩, a.after⟩) ∧
            inside.popScope = c.cx.withEnv env ∧
            ∀ name, inside.innermost.get? name = (a.names.get? name).map .mono) ∧
        ∃ after, c.work.run (c.checker env i) = ((), ⟨⟨c.cx.withEnv after, i⟩, c.after⟩) ∧
          after.scopes.tail = env.scopes.tail ∧
          ∀ name, after.top? name =
            ((c.parts.head?.bind (·.names.get? name)).map .mono).or (env.top? name) := by
  intro walk σ
  obtain ⟨-, hfaults, -, hvisited⟩ := p.settled hok
  refine ⟨fun q hq span alternatives hor => ?_, fun c hc span alternatives hor => ?_⟩
  · obtain ⟨x, hx, hqx⟩ := p.comes catalog checkEffects hq
    obtain ⟨c, hcheck, rfl⟩ := Task.exists_check hqx hor x.2
    exact (PatternCheck.On.task hx hcheck).exists_holds (hvisited.no_faults hfaults) hor
  · have hsilent := (hc.grows.trans hvisited).no_faults hfaults
    have hsame := c.parts_or_same hor
    refine ⟨?_, hsame, fun a ha b hb => hc.alternatives_alike hok hor ha hb, fun env i =>
      ⟨fun a ha => ⟨PatternCheck.moments_parts env i hor a ha, _, a.run_work env.push i, ?_,
        fun name => ?_⟩, _, c.run_work env i, (env.bindAll_frame c.bound).1, fun name => ?_⟩⟩
    · rw [c.map_parts hsilent, hor]
      rfl
    · rw [(hsame a ha).1]
      exact (c.cx.withEnv env).popScope_bindAll a.bound
    · have hscope := (a.cx.withEnv env).innermost_bindAll a.bound
      exact (congrArg (·.get? name) hscope).trans (Env.get?_monos a.bound name)
    · rw [(env.bindAll_frame c.bound).2 name, ← PatternCheck.get?_names_or hor hsilent]
      rfl

namespace Crossed

open Build

/-- `(x, 3) | (3, x)`. -/
def either : Pattern :=
  .or .dummy [.tuple .dummy [patIdent "x", patLiteral (.int 3)],
    .tuple .dummy [patLiteral (.int 3), patIdent "x"]]

/-- `((x, 3) | (3, x), y)`. -/
def pattern : Pattern := .tuple .dummy [either, patIdent "y"]

/-- `fn f() { match ((1, 2), true) { ((x, 3) | (3, x), y) => x }; }`. -/
def program : Program where
  items := [.function (functionOf "f" [.body (block
    [.expr (matchOn (expr (.tuple [expr (.tuple [int 1, int 2]), literal (.bool true)]))
      [arm pattern none (ident "x")])] none)])]

end Crossed

set_option maxRecDepth 4000 in
/-- One alternative binds `x` to the first component, the other to the second. -/
theorem crossed_alternatives_agree :
    (checkProgram .empty true Crossed.program).ok = true ∧
    ∃ c : PatternCheck, c.On (Crossed.program.walk .empty true) ∧ c.pattern = Crossed.either ∧
      c.parts.length = 2 ∧ ∀ a ∈ c.parts, ∀ b ∈ c.parts, a.names.keys = b.names.keys := by
  have hok : (checkProgram .empty true Crossed.program).ok = true := by cbv
  have hwritten : Crossed.pattern ∈ Crossed.program.patterns := by
    have hpatterns : Crossed.program.patterns = [Crossed.pattern] := by cbv
    simp [hpatterns]
  have hholds : Crossed.pattern.Holds Crossed.either := .single List.mem_cons_self
  obtain ⟨hchecked, hagree⟩ := or_alternatives_agree .empty true Crossed.program hok
  obtain ⟨c, hc, hor⟩ := hchecked _ hwritten _ _ hholds
  obtain ⟨hparts, -, hsame, -⟩ := hagree c hc _ _ hor
  refine ⟨hok, c, hc, hor, ?_, fun a ha b hb => (hsame a ha b hb).1⟩
  rw [← List.length_map (f := (·.pattern)), hparts]
  rfl

end Sema
