import Mathlib.Data.List.Permutation
import Sema.LiveRange
import Sema.Syntax.Build

/-!
# Live ranges against the text

Ranges are found in two sweeps. The first gathers the bindings, those of a block's own statements
apart from those that an expression introduces, and sorts them; the second goes over the mentions
in the order of the walk and moves the end of one range at a time. `Block.sites` reads a body once,
from left to right, and lists every place that binds or mentions a name.

Main statement: there is one range for each parameter and each binding site of the body, in the
order of definition. A mention belongs to the last range of its name that is defined at or before
it, and a range ends at the latest of the mentions that belong to it.
-/

namespace Sema

/-- A place in the text that has a name. -/
inductive Site where
  | binds (name : String) (span : Span)
  | mentions (name : String) (span : Span)

def Site.binding? : Site → Option (String × Span)
  | binds name span => some (name, span)
  | mentions .. => none

def Site.mention? : Site → Option (String × Span)
  | binds .. => none
  | mentions name span => some (name, span)

def binderSites (l : List (String × Span)) : List Site := l.map fun d => .binds d.1 d.2

mutual

/-- The places of an expression that bind or mention a name, from left to right. -/
def Expr.sites : Expr → List Site
  | ⟨_, span, kind⟩ => kind.sites span

def ExprKind.sites (span : Span) : ExprKind → List Site
  | .literal _ | .path _ => []
  | .ident name => [.mentions name span]
  | .binary _ left right => left.sites ++ right.sites
  | .unary _ operand => operand.sites
  | .call callee args => callee.sites ++ sitesAll args
  | .methodCall receiver _ args => receiver.sites ++ sitesAll args
  | .field base _ => base.sites
  | .index base index => base.sites ++ index.sites
  | .ifThen cond thenBranch elseBranch =>
    cond.sites ++ thenBranch.sites ++ sitesOption elseBranch
  | .matchOn scrutinee arms => scrutinee.sites ++ sitesArms arms
  | .block body => body.sites
  | .lambda params _ body _ => binderSites (params.map Param.binding) ++ body.sites
  | .tuple elems => sitesAll elems
  | .array elems => sitesAll elems
  | .structLit _ fields base => sitesInits fields ++ sitesOption base
  | .cast e _ => e.sites
  | .tryOp e => e.sites
  | .await e => e.sites
  | .whileLoop cond body => cond.sites ++ body.sites
  | .loop body => body.sites
  | .forLoop pattern iterable body =>
    binderSites pattern.bindings ++ (iterable.sites ++ body.sites)
  | .range start stop _ => sitesOption start ++ sitesOption stop

def sitesOption : Option Expr → List Site
  | some e => e.sites
  | none => []

def sitesAll : List Expr → List Site
  | [] => []
  | e :: r => e.sites ++ sitesAll r

def sitesArms : List MatchArm → List Site
  | [] => []
  | ⟨_, pattern, guard, body⟩ :: r =>
    binderSites pattern.bindings ++ (sitesOption guard ++ body.sites) ++ sitesArms r

def sitesInits : List FieldInit → List Site
  | [] => []
  | ⟨_, _, value⟩ :: r => value.sites ++ sitesInits r

def Block.sites : Block → List Site
  | ⟨_, stmts, tail⟩ => sitesStmts stmts ++ sitesOption tail

def Stmt.sites : Stmt → List Site
  | .letBind _ pattern _ value _ => binderSites pattern.bindings ++ sitesOption value
  | .assign _ target value => target.sites ++ value.sites
  | .expr e => e.sites
  | .ret _ value => sitesOption value
  | .brk _ value => sitesOption value
  | .cont _ => []

def sitesStmts : List Stmt → List Site
  | [] => []
  | s :: r => s.sites ++ sitesStmts r

end

/-- The names that a body binds, each with its place. -/
def Block.binders (b : Block) : List (String × Span) := b.sites.filterMap Site.binding?

/-- The names that a body mentions, each with its place, in the order of the walk. -/
def Block.mentions (b : Block) : List (String × Span) := b.sites.filterMap Site.mention?

/-- The sites are those of some nodes, and of the bindings `own` that belong to none of the
nodes. -/
structure Covers (sites : List Site) (own : List (String × Span)) (nodes : List Expr) : Prop where
  mentions : sites.filterMap Site.mention? = nodes.filterMap Expr.mention?
  bindings : (sites.filterMap Site.binding?).Perm (own ++ nodes.flatMap Expr.bindings)

namespace Covers

variable {sites sites' : List Site} {own own' : List (String × Span)} {nodes nodes' : List Expr}

theorem nil : Covers [] [] [] := ⟨rfl, .nil⟩

theorem append (h : Covers sites own nodes) (h' : Covers sites' own' nodes') :
    Covers (sites ++ sites') (own ++ own') (nodes ++ nodes') where
  mentions := by rw [List.filterMap_append, List.filterMap_append, h.mentions, h'.mentions]
  bindings := by
    rw [List.filterMap_append, List.flatMap_append]
    refine (h.bindings.append h'.bindings).trans ?_
    rw [List.append_assoc, List.append_assoc]
    refine List.Perm.append_left own ?_
    rw [← List.append_assoc, ← List.append_assoc]
    exact List.perm_append_comm.append_right _

/-- What comes after binds nothing of its own. -/
theorem andThen (h : Covers sites own nodes) (h' : Covers sites' [] nodes') :
    Covers (sites ++ sites') own (nodes ++ nodes') := by
  have hall := h.append h'
  rwa [List.append_nil] at hall

theorem binders (l : List (String × Span)) : Covers (binderSites l) l [] where
  mentions := by simp [binderSites, Site.mention?]
  bindings := by simp [binderSites, Site.binding?, Function.comp_def]

/-- A node that is no identifier takes over the bindings that it introduces. -/
theorem node {e : Expr} (he : e.mention? = none) (h : Covers sites e.bindings nodes) :
    Covers sites [] (e :: nodes) where
  mentions := by rw [List.filterMap_cons_none he, h.mentions]
  bindings := h.bindings

end Covers

mutual

theorem Expr.covers : (e : Expr) → Covers e.sites [] e.nodes
  | ⟨id, span, kind⟩ => ExprKind.covers id span kind

theorem ExprKind.covers (id : ExprId) (span : Span) :
    (kind : ExprKind) → Covers (kind.sites span) [] (⟨id, span, kind⟩ :: kind.nodes)
  | .ident _ => ⟨rfl, .nil⟩
  | .literal _ | .path _ => .node rfl .nil
  | .binary _ left right => .node rfl (left.covers.append right.covers)
  | .unary _ operand => .node rfl operand.covers
  | .call callee args => .node rfl (callee.covers.append (coversAll args))
  | .methodCall receiver _ args => .node rfl (receiver.covers.append (coversAll args))
  | .field base _ => .node rfl base.covers
  | .index base index => .node rfl (base.covers.append index.covers)
  | .ifThen cond thenBranch elseBranch => by
    have hall := (cond.covers.append thenBranch.covers).andThen (coversOption elseBranch)
    cases elseBranch <;> exact .node rfl hall
  | .matchOn scrutinee arms => .node rfl (scrutinee.covers.append (coversArms arms))
  | .block body => .node rfl body.covers
  | .lambda params _ body _ => .node rfl ((Covers.binders _).andThen body.covers)
  | .tuple elems => .node rfl (coversAll elems)
  | .array elems => .node rfl (coversAll elems)
  | .structLit _ fields base => by
    have hall := (coversInits fields).append (coversOption base)
    cases base <;> exact .node rfl hall
  | .cast e _ => .node rfl e.covers
  | .tryOp e => .node rfl e.covers
  | .await e => .node rfl e.covers
  | .whileLoop cond body => .node rfl (cond.covers.append body.covers)
  | .loop body => .node rfl body.covers
  | .forLoop pattern iterable body =>
    .node rfl ((Covers.binders pattern.bindings).append (iterable.covers.append body.covers))
  | .range start stop _ => by
    have hall := (coversOption start).append (coversOption stop)
    cases start <;> cases stop <;> exact .node rfl hall

theorem coversOption : (o : Option Expr) →
    Covers (sitesOption o) [] (match o with | some e => e.nodes | none => [])
  | none => .nil
  | some e => e.covers

theorem coversAll : (l : List Expr) → Covers (sitesAll l) [] (nodesAll l)
  | [] => .nil
  | e :: r => e.covers.append (coversAll r)

theorem coversArms : (l : List MatchArm) →
    Covers (sitesArms l) (l.flatMap (·.pattern.bindings)) (nodesArms l)
  | [] => .nil
  | ⟨_, pattern, guard, body⟩ :: r => by
    have harm := (Covers.binders pattern.bindings).andThen ((coversOption guard).append body.covers)
    have hall := harm.append (coversArms r)
    cases guard <;> exact hall

theorem coversInits : (l : List FieldInit) → Covers (sitesInits l) [] (nodesInits l)
  | [] => .nil
  | ⟨_, _, value⟩ :: r => value.covers.append (coversInits r)

/-- The bindings of a block's own statements belong to none of its nodes. -/
theorem Block.covers (b : Block) : Covers b.sites b.bindings b.nodes := by
  obtain ⟨_, stmts, tail⟩ := b
  have hall := (coversStmts stmts).andThen (coversOption tail)
  cases tail <;> exact hall

theorem Stmt.covers : (s : Stmt) → Covers s.sites s.bindings s.nodes
  | .letBind _ pattern _ value _ => by
    have hall := (Covers.binders pattern.bindings).andThen (coversOption value)
    cases value <;> exact hall
  | .assign _ target value => target.covers.append value.covers
  | .expr e => e.covers
  | .ret _ value => by
    have hvalue := coversOption value
    cases value <;> exact hvalue
  | .brk _ value => by
    have hvalue := coversOption value
    cases value <;> exact hvalue
  | .cont _ => .nil

theorem coversStmts : (l : List Stmt) →
    Covers (sitesStmts l) (l.flatMap Stmt.bindings) (nodesStmts l)
  | [] => .nil
  | s :: r => s.covers.append (coversStmts r)

end

theorem Span.precedes_trans {s t u : Span} (h : s.precedes t = true) (k : t.precedes u = true) :
    s.precedes u = true := Position.atOrBefore_trans h k

theorem Span.precedes_total (s t : Span) : s.precedes t = true ∨ t.precedes s = true :=
  Position.atOrBefore_total s.start t.start

/-- The place of the latest of the mentions with a property, of several at one position the last
in the list; and `default` if there is none. -/
inductive Latest (p : String × Span → Prop) (mentions : List (String × Span)) (default : Span) :
    Span → Prop
  | absent (none : ∀ m ∈ mentions, ¬ p m) : Latest p mentions default default
  | found {before behind : List (String × Span)} {m : String × Span}
      (split : mentions = before ++ m :: behind) (has : p m)
      (earlier : ∀ b ∈ before, p b → b.2.precedes m.2 = true)
      (later : ∀ a ∈ behind, p a → m.2.precedes a.2 = false) : Latest p mentions default m.2

namespace Latest

variable {p q : String × Span → Prop} {mentions : List (String × Span)} {m : String × Span}
  {default span : Span}

theorem congr (h : Latest p mentions default span) (hpq : ∀ m, p m ↔ q m) :
    Latest q mentions default span := by
  obtain rfl : p = q := funext fun m => propext (hpq m)
  exact h

/-- No mention with the property comes after the latest. -/
theorem precedes (h : Latest p mentions default span) {a : String × Span} (ha : a ∈ mentions)
    (hp : p a) : a.2.precedes span = true := by
  cases h with
  | absent none => exact absurd hp (none a ha)
  | found split has earlier later =>
    subst split
    rcases List.mem_append.mp ha with ha | ha
    · exact earlier a ha hp
    · rcases List.mem_cons.mp ha with rfl | ha
      · exact Position.atOrBefore_refl _
      · have hlate := later a ha hp
        exact (Span.precedes_total a.2 _).resolve_right (by simp [hlate])

/-- A mention without the property, or one before the latest, changes nothing. -/
theorem stay (h : Latest p mentions default span)
    (hm : p m → default.precedes m.2 = true ∧ span.precedes m.2 = false) :
    Latest p (mentions ++ [m]) default span := by
  cases h with
  | absent none =>
    refine .absent fun a ha hp => ?_
    rcases List.mem_append.mp ha with ha | ha
    · exact none a ha hp
    · obtain ⟨hbefore, hafter⟩ := hm (List.mem_singleton.mp ha ▸ hp)
      simp [hbefore] at hafter
  | @found before behind l split has earlier later =>
    have hsplit : mentions ++ [m] = before ++ l :: (behind ++ [m]) := by simp [split]
    refine .found hsplit has earlier fun a ha hp => ?_
    rcases List.mem_append.mp ha with ha | ha
    · exact later a ha hp
    · obtain rfl := List.mem_singleton.mp ha
      exact (hm hp).2

/-- A mention that does not come before the latest takes its place. -/
theorem replace (h : Latest p mentions default span) (hm : p m)
    (hspan : span.precedes m.2 = true) : Latest p (mentions ++ [m]) default m.2 :=
  .found rfl hm (fun _ ha hp => Span.precedes_trans (h.precedes ha hp) hspan) (by simp)

end Latest

namespace LiveRange

variable {ranges ranges' : List LiveRange} {m : String × Span} {i j : Nat} {r : LiveRange}

/-- What a range is of: the name and the place of its definition. -/
def definition (r : LiveRange) : String × Span := (r.name, r.defined)

/-- The mention may be one of the binding: it has the name, and does not come before. -/
def Admits (r : LiveRange) (m : String × Span) : Prop :=
  r.name = m.1 ∧ r.defined.precedes m.2 = true

instance (r : LiveRange) (m : String × Span) : Decidable (r.Admits m) :=
  inferInstanceAs (Decidable (_ ∧ _))

/-- The mention belongs to the range at `i`, the last of those that admit it. -/
def Attributed (ranges : List LiveRange) (m : String × Span) (i : Nat) : Prop :=
  (∃ r, ranges[i]? = some r ∧ r.Admits m) ∧
    ∀ j s, i < j → ranges[j]? = some s → ¬ s.Admits m

theorem Attributed.unique (h : Attributed ranges m i) (k : Attributed ranges m j) : i = j := by
  obtain ⟨⟨r, hr, hadmits⟩, hlast⟩ := h
  obtain ⟨⟨s, hs, hadmits'⟩, hlast'⟩ := k
  rcases Nat.lt_trichotomy i j with hlt | heq | hgt
  · exact absurd hadmits' (hlast j s hlt hs)
  · exact heq
  · exact absurd hadmits (hlast' i r hgt hr)

theorem Attributed.admits (h : Attributed ranges m i) (hr : ranges[i]? = some r) : r.Admits m := by
  obtain ⟨⟨s, hs, hadmits⟩, -⟩ := h
  cases Option.some.inj (hr.symm.trans hs)
  exact hadmits

/-- Whether a range admits a mention is a matter of its definition. -/
theorem admits_congr {s : LiveRange} (h : r.definition = s.definition) :
    r.Admits m ↔ s.Admits m := by
  obtain ⟨hname, hdefined⟩ := Prod.mk.inj h
  rw [Admits, Admits, hname, hdefined]

theorem attributed_of_definition (h : ranges.map definition = ranges'.map definition)
    (hm : Attributed ranges m i) : Attributed ranges' m i := by
  have hget : ∀ j : Nat, ranges[j]?.map definition = ranges'[j]?.map definition := by
    intro j
    rw [← List.getElem?_map, ← List.getElem?_map, h]
  obtain ⟨⟨r, hr, hadmits⟩, hlast⟩ := hm
  constructor
  · have hi := hget i
    rw [hr] at hi
    obtain ⟨s, hs, hdef⟩ := Option.map_eq_some_iff.mp hi.symm
    exact ⟨s, hs, (admits_congr hdef).mpr hadmits⟩
  · intro j s hlt hs hno
    have hj := hget j
    rw [hs] at hj
    obtain ⟨t, ht, hdef⟩ := Option.map_eq_some_iff.mp hj
    exact hlast j t hlt ht ((admits_congr hdef).mpr hno)

theorem attributed_congr (h : ranges.map definition = ranges'.map definition) :
    Attributed ranges m i ↔ Attributed ranges' m i :=
  ⟨attributed_of_definition h, attributed_of_definition h.symm⟩

@[simp] theorem definition_extend (r : LiveRange) (span : Span) :
    (r.extend span).definition = r.definition := by
  unfold extend
  split <;> rfl

/-- Attribute a mention, with the ranges in order of definition. -/
def mentionLast (ranges : List LiveRange) (m : String × Span) : List LiveRange :=
  (mention ranges.reverse m).reverse

theorem mentionLast_append (ranges : List LiveRange) (r : LiveRange) (m : String × Span) :
    mentionLast (ranges ++ [r]) m =
      if r.Admits m then ranges ++ [r.extend m.2] else mentionLast ranges m ++ [r] := by
  by_cases h : r.Admits m
  · simp [mentionLast, mention, h, h.1, h.2]
  · have hcond : (decide (r.name = m.1) && r.defined.precedes m.2) = false := by
      simpa [Admits, Bool.and_eq_false_iff] using h
    simp [mentionLast, mention, h, hcond]

/-- One mention moves the end of one range, the one that it is attributed to, if there is any. -/
theorem mentionLast_cases (ranges : List LiveRange) (m : String × Span) :
    ((∀ r ∈ ranges, ¬ r.Admits m) ∧ mentionLast ranges m = ranges) ∨
      ∃ k r, ranges[k]? = some r ∧ Attributed ranges m k ∧
        mentionLast ranges m = ranges.set k (r.extend m.2) := by
  induction ranges using List.reverseRecOn with
  | nil => exact .inl ⟨by simp, rfl⟩
  | append_singleton ranges r ih =>
    rw [mentionLast_append]
    by_cases h : r.Admits m
    · refine .inr ⟨ranges.length, r, by simp, ⟨⟨r, by simp, h⟩, ?_⟩, by simp [h]⟩
      intro j s hlt hs
      have hlen := (List.getElem?_eq_some_iff.mp hs).1
      simp only [List.length_append, List.length_singleton] at hlen
      omega
    · rw [if_neg h]
      rcases ih with ⟨hnone, heq⟩ | ⟨k, s, hs, hattr, heq⟩
      · refine .inl ⟨fun t ht => ?_, by rw [heq]⟩
        rcases List.mem_append.mp ht with ht | ht
        · exact hnone t ht
        · rwa [List.mem_singleton.mp ht]
      · have hlt : k < ranges.length := (List.getElem?_eq_some_iff.mp hs).1
        refine .inr ⟨k, s, by rw [List.getElem?_append_left hlt, hs], ⟨?_, ?_⟩, ?_⟩
        · exact ⟨s, by rw [List.getElem?_append_left hlt, hs], hattr.admits hs⟩
        · intro j t hkj ht
          rcases Nat.lt_or_ge j ranges.length with hj | hj
          · rw [List.getElem?_append_left hj] at ht
            exact hattr.2 j t hkj ht
          · rw [List.getElem?_append_right hj] at ht
            have hmem := List.mem_of_getElem? ht
            rwa [List.mem_singleton.mp hmem]
        · rw [heq, List.set_append_left _ _ hlt]

theorem definitions_mentionLast (ranges : List LiveRange) (m : String × Span) :
    (mentionLast ranges m).map definition = ranges.map definition := by
  rcases mentionLast_cases ranges m with ⟨-, heq⟩ | ⟨k, r, hr, -, heq⟩
  · rw [heq]
  · obtain ⟨hlt, rfl⟩ := List.getElem?_eq_some_iff.mp hr
    have hk : k < (ranges.map definition).length := by simpa using hlt
    have hself : ranges[k].definition = (ranges.map definition)[k] :=
      (List.getElem_map definition).symm
    rw [heq, List.map_set, definition_extend, hself, List.set_getElem_self]

/-- Every range ends at the latest of the mentions so far that belong to it. -/
def Ends (mentions : List (String × Span)) (ranges : List LiveRange) : Prop :=
  ∀ i r, ranges[i]? = some r → Latest (Attributed ranges · i) mentions r.defined r.lastUse

/-- One mention more. -/
theorem Ends.step {mentions : List (String × Span)} (h : Ends mentions ranges)
    (m : String × Span) : Ends (mentions ++ [m]) (mentionLast ranges m) := by
  intro i r hr
  have hsame : ∀ a, Attributed ranges a i ↔ Attributed (mentionLast ranges m) a i :=
    fun a => attributed_congr (definitions_mentionLast ranges m).symm
  refine Latest.congr ?_ hsame
  rcases mentionLast_cases ranges m with ⟨hnone, heq⟩ | ⟨k, s, hs, hattr, heq⟩
  · rw [heq] at hr
    refine (h i r hr).stay fun hm => ?_
    exact absurd (hm.admits hr) (hnone r (List.mem_of_getElem? hr))
  · rw [heq, List.getElem?_set] at hr
    by_cases hki : k = i
    · subst hki
      rw [if_pos rfl, if_pos (List.getElem?_eq_some_iff.mp hs).1] at hr
      cases hr
      have hadmits := hattr.admits hs
      have hs' := h k s hs
      unfold extend
      split
      · exact hs'.replace hattr ‹_›
      · exact hs'.stay fun _ => ⟨hadmits.2, Bool.eq_false_iff.mpr ‹_›⟩
    · rw [if_neg hki] at hr
      exact (h i r hr).stay fun hm => absurd (hattr.unique hm) hki

theorem Ends.foldl {done : List (String × Span)} (h : Ends done ranges)
    (mentions : List (String × Span)) :
    Ends (done ++ mentions) (mentions.foldl mentionLast ranges) := by
  induction mentions generalizing done ranges with
  | nil => rwa [List.append_nil]
  | cons m mentions ih =>
    have hrest := ih (h.step m)
    rwa [List.append_assoc] at hrest

theorem definitions_foldl (ranges : List LiveRange) (mentions : List (String × Span)) :
    (mentions.foldl mentionLast ranges).map definition = ranges.map definition := by
  induction mentions generalizing ranges with
  | nil => rfl
  | cons m mentions ih => rw [List.foldl_cons, ih, definitions_mentionLast]

theorem reverse_foldl_mention (ranges : List LiveRange) (mentions : List (String × Span)) :
    (mentions.foldl mention ranges.reverse).reverse = mentions.foldl mentionLast ranges := by
  induction mentions generalizing ranges with
  | nil => simp
  | cons m mentions ih =>
    rw [List.foldl_cons, List.foldl_cons, ← ih, mentionLast, List.reverse_reverse]

/-- Ranges of which nothing has been mentioned. -/
theorem ends_of_definitions {ranges : List LiveRange} (h : ∀ r ∈ ranges, r.lastUse = r.defined) :
    Ends [] ranges := by
  intro i r hr
  rw [h r (List.mem_of_getElem? hr)]
  exact .absent (by simp)

end LiveRange

/-- The ranges of all bindings before any mention, in order of definition. -/
def FunctionDef.definitions (d : FunctionDef) (body : Block) : List LiveRange :=
  ((d.params.map Param.binding ++ body.bindings ++ body.nodes.flatMap Expr.bindings).map
    LiveRange.ofDefinition).mergeSort fun r s => r.start.atOrBefore s.start

theorem FunctionDef.liveRanges_eq {d : FunctionDef} {body : Block} (h : d.body = some body) :
    d.liveRanges = body.mentions.foldl LiveRange.mentionLast (d.definitions body) := by
  have hmentions : body.mentions = body.nodes.filterMap Expr.mention? := body.covers.mentions
  rw [liveRanges, h, hmentions, ← LiveRange.reverse_foldl_mention]
  rfl

theorem FunctionDef.definitions_perm (d : FunctionDef) (body : Block) :
    ((d.definitions body).map LiveRange.definition).Perm
      (d.params.map Param.binding ++ body.binders) := by
  refine ((List.mergeSort_perm _ _).map _).trans ?_
  rw [List.map_map]
  have hid : LiveRange.definition ∘ LiveRange.ofDefinition = id := rfl
  rw [hid, List.map_id, List.append_assoc]
  exact (body.covers.bindings.symm).append_left _

theorem FunctionDef.definitions_sorted (d : FunctionDef) (body : Block) :
    (d.definitions body).Pairwise fun r s => r.start.atOrBefore s.start = true := by
  refine List.pairwise_mergeSort (fun r s t hrs hst => ?_) (fun r s => ?_) _
  · exact Position.atOrBefore_trans hrs hst
  · rw [Bool.or_eq_true]
    exact Position.atOrBefore_total r.start s.start

theorem FunctionDef.definitions_unused (d : FunctionDef) (body : Block) :
    ∀ r ∈ d.definitions body, r.lastUse = r.defined := by
  intro r hr
  obtain ⟨x, -, rfl⟩ := List.mem_map.mp ((List.mergeSort_perm _ _).mem_iff.mp hr)
  rfl

/-- The ranges of a function with a body are complete, one for each parameter and each binding
site of the body, and stand in the order of definition. The mentions are the identifiers that the
walk comes to, in its order; each belongs to one range at most, and a range ends at the latest
mention that belongs to it, or else with its definition. -/
theorem liveRanges_complete (d : FunctionDef) (body : Block) (h : d.body = some body) :
    let ranges := d.liveRanges
    (ranges.map LiveRange.definition).Perm (d.params.map Param.binding ++ body.binders) ∧
      (ranges.Pairwise fun r s => r.start.atOrBefore s.start = true) ∧
      body.mentions = body.nodes.filterMap Expr.mention? ∧
      (∀ m i j, LiveRange.Attributed ranges m i → LiveRange.Attributed ranges m j → i = j) ∧
      ∀ i r, ranges[i]? = some r →
        Latest (LiveRange.Attributed ranges · i) body.mentions r.defined r.lastUse := by
  intro ranges
  have hranges : ranges = body.mentions.foldl LiveRange.mentionLast (d.definitions body) :=
    FunctionDef.liveRanges_eq h
  have hdefs : ranges.map LiveRange.definition =
      (d.definitions body).map LiveRange.definition := by
    rw [hranges, LiveRange.definitions_foldl]
  refine ⟨?_, ?_, body.covers.mentions, fun m i j => LiveRange.Attributed.unique, ?_⟩
  · rw [hdefs]
    exact d.definitions_perm body
  · -- Where a range starts is part of its definition.
    have hstart : ∀ l : List LiveRange, (l.Pairwise fun r s => r.start.atOrBefore s.start = true) ↔
        (l.map LiveRange.definition).Pairwise fun a b => a.2.precedes b.2 = true := by
      intro l
      rw [List.pairwise_map]
      rfl
    rw [hstart, hdefs, ← hstart]
    exact d.definitions_sorted body
  · have hends := (LiveRange.ends_of_definitions (d.definitions_unused body)).foldl body.mentions
    rw [List.nil_append, ← hranges] at hends
    exact hends

namespace Shadowing

open Build

def place (line column : UInt32) : Span := .onLine line column 1

def mention (x : String) (line column : UInt32) : Expr := (ident x).placed line column

/-- `let b = a;`. -/
def first : Stmt := letPattern (.ident (place 2 5) "b" false false) none (mention "a" 2 9)

/-- `let a = |b| b;`. -/
def second : Stmt :=
  letPattern (.ident (place 3 5) "a" false false) none
    (expr (.lambda [⟨.dummy, ⟨place 3 10, "b"⟩, none, false⟩] none (mention "b" 3 13) false))

/-- The two, a line each, and `a(b)` on a line of its own. -/
def body : Block := block [first, second] (some (call (mention "a" 4 1) [mention "b" 4 3]))

/-- A function of `a` with this body. -/
def function : FunctionDef :=
  { Build.function "f" with params := [⟨.dummy, ⟨place 1 6, "a"⟩, none, false⟩], body := some body }

def ranges : List LiveRange :=
  [⟨"a", place 1 6, place 2 9⟩, ⟨"b", place 2 5, place 2 5⟩, ⟨"a", place 3 5, place 4 1⟩,
    ⟨"b", place 3 10, place 4 3⟩]

end Shadowing

/-- The last mention of `b` goes to the parameter of the lambda, which is the last `b` defined
before it in the text; the `b` of the first `let` has none. -/
theorem shadowing_ranges_complete :
    Shadowing.function.body = some Shadowing.body ∧
      Shadowing.function.liveRanges = Shadowing.ranges ∧
      (Shadowing.ranges.map LiveRange.definition).Perm
        (("a", Shadowing.place 1 6) :: Shadowing.body.binders) ∧
      Latest (LiveRange.Attributed Shadowing.ranges · 3) Shadowing.body.mentions
        (Shadowing.place 3 10) (Shadowing.place 4 3) := by
  have hranges : Shadowing.function.liveRanges = Shadowing.ranges := by cbv
  have hall := liveRanges_complete Shadowing.function Shadowing.body rfl
  rw [hranges] at hall
  obtain ⟨hperm, -, -, -, hends⟩ := hall
  exact ⟨rfl, hranges, hperm, hends 3 _ rfl⟩

end Sema
