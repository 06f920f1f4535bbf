import Mathlib.Data.Finset.Insert
import Sema.Proofs.Ownership.Merging

/-!
# The shape of the state

The shape of a state is its frames with the names declared in each, whatever is known of their
bindings. A join goes by the shape of one of its two states and takes a name that the other does
not have for one that is not moved; so it means what it should only if both have one shape. Frames
are pushed and popped, and states put aside and fetched again, by separate jobs: `Agrees` says what
an agenda asks of the shape it starts from, so that they come out even.

Main statement: working off an expression or a block leaves the shape and the holder as they were,
and wherever a run joins two states, they have the same frames with the same names.
-/

namespace Sema

open Checking (Reaches)

/-- The names declared in each frame, the innermost first. -/
abbrev Shape := List (Finset String)

/-- One more name in the innermost frame. -/
def Shape.declare (name : String) : Shape → Shape
  | f :: n => insert name f :: n
  | [] => []

theorem Shape.declare_ne_nil {n : Shape} (h : n ≠ []) (name : String) : n.declare name ≠ [] := by
  cases n with
  | nil => exact absurd rfl h
  | cons f n => exact List.cons_ne_nil _ _

def Shape.declareAll (n : Shape) (names : List String) : Shape :=
  names.foldl (fun n name => n.declare name) n

/-- Names change the innermost frame only. -/
theorem Shape.declareAll_cons (f : Finset String) (n : Shape) (names : List String) :
    ∃ g, declareAll (f :: n) names = g :: n := by
  induction names generalizing f with
  | nil => exact ⟨f, rfl⟩
  | cons name names ih => exact ih (insert name f)

def Bindings.names (f : Bindings) : Finset String := f.keys.toFinset

theorem Table.mem_keys {α : Type} (t : Table String α) (k : String) :
    k ∈ t.keys ↔ (t.get? k).isSome = true := by
  obtain ⟨l⟩ := t
  unfold keys get?
  induction l with
  | nil => simp [find]
  | cons e l ih =>
    obtain ⟨j, a⟩ := e
    by_cases h : k = j
    · simp [find, h]
    · simpa [find, h] using ih

namespace Flow

variable {s t : Flow} {name : String}

def shape (s : Flow) : Shape := s.frames.map Bindings.names

@[simp] theorem length_shape (s : Flow) : s.shape.length = s.depth := List.length_map _

theorem shape_mapBindings (g : Binding → Binding) (s : Flow) :
    (s.mapBindings g).shape = s.shape := by
  have hframe : Bindings.names ∘ (Table.map g) = Bindings.names := by
    funext f
    exact congrArg List.toFinset (f.keys_map g)
  simp [shape, mapBindings, hframe]

theorem shape_keepBorrows (keep : Borrow → Bool) (s : Flow) :
    (s.keepBorrows keep).shape = s.shape := shape_mapBindings _ s

theorem shape_pop (h : 1 < s.shape.length) : s.pop.shape = s.shape.tail := by
  obtain ⟨frames⟩ := s
  match frames, h with
  | _ :: f :: r, _ => exact shape_keepBorrows _ ⟨f :: r⟩

theorem shape_declare (s : Flow) (name : String) :
    (s.declare name).shape = s.shape.declare name := by
  obtain ⟨frames⟩ := s
  cases frames with
  | nil => rfl
  | cons f r =>
    have hnames : Bindings.names (f.insert name {}) = insert name (Bindings.names f) := by
      ext x
      simp [Bindings.names]
    simp [declare, shape, Shape.declare, hnames]

theorem shape_modify (s : Flow) (name : String) (g : Binding → Binding) :
    (s.modify name g).shape = s.shape := by
  have hframe : ∀ f : Bindings, (f.modify g name).names = f.names := by
    intro f
    simp [Bindings.names, Bindings.modify, Table.keys, Function.comp_def]
  obtain ⟨frames⟩ := s
  unfold modify shape
  induction frames with
  | nil => rfl
  | cons f r ih =>
    unfold modifyIn
    split
    · simp [hframe]
    · simpa using ih

theorem names_joinFrame (f other : Bindings) : (joinFrame f other).names = f.names := by
  simp [Bindings.names, joinFrame, Table.keys, Function.comp_def]

theorem shape_joinOuter (l m : List Bindings) :
    (joinOuter l m).map Bindings.names = l.map Bindings.names := by
  induction l generalizing m with
  | nil => rfl
  | cons f l ih =>
    cases m with
    | nil => rfl
    | cons g m => simp [joinOuter, names_joinFrame, ih]

/-- A join has the shape of its first state. -/
theorem shape_join (s t : Flow) : (s.join t).shape = s.shape := by
  unfold join clearBorrows
  rw [shape_keepBorrows]
  simp [shape, shape_joinOuter]

/-- States of one shape have bindings in the same places. -/
theorem isSome_binding?_of_shape (h : s.shape = t.shape) (d : Nat) (name : String) :
    (s.binding? d name).isSome = (t.binding? d name).isSome := by
  obtain ⟨l⟩ := s
  obtain ⟨m⟩ := t
  unfold shape at h
  unfold binding?
  induction l generalizing m with
  | nil =>
    cases m with
    | nil => rfl
    | cons g m => cases h
  | cons f l ih =>
    cases m with
    | nil => cases h
    | cons g m =>
      obtain ⟨hnames, hrest⟩ := List.cons.inj h
      have hlen : l.length = m.length := by simpa using congrArg List.length hrest
      have hframe : (f.get? name).isSome = (g.get? name).isSome := by
        rw [Bool.eq_iff_iff, ← Table.mem_keys, ← Table.mem_keys, ← List.mem_toFinset,
          ← List.mem_toFinset]
        exact Finset.ext_iff.mp hnames name
      unfold bindingIn
      rw [hlen]
      split
      · exact hframe
      · exact ih m hrest

theorem bindingIn_zipWith_join {l m : List Bindings} (h : l.length = m.length) (d : Nat)
    (name : String) :
    bindingIn d name (List.zipWith joinFrame l m) = (bindingIn d name l).map fun a =>
      if (bindingIn d name m).any (·.moved) then a else a.renew := by
  induction l generalizing m with
  | nil => rfl
  | cons f l ih =>
    cases m with
    | nil => cases h
    | cons g m =>
      have hlen : l.length = m.length := by simpa using h
      have hzip : (List.zipWith joinFrame l m).length = m.length := by simp [hlen]
      rw [List.zipWith_cons_cons]
      unfold bindingIn
      rw [hzip, hlen]
      split
      · exact get?_joinFrame f g name
      · exact ih hlen

/-- What a join makes of a binding, by the bindings in its place on both sides. -/
theorem binding?_join (h : s.depth = t.depth) (d : Nat) (name : String) :
    (s.join t).binding? d name = (s.binding? d name).map fun a =>
      { if (t.binding? d name).any (·.moved) then a else a.renew with borrows := [] } := by
  rw [join_eq_zipWith h, clearBorrows, keepBorrows, binding?_mapBindings]
  unfold binding?
  rw [bindingIn_zipWith_join h, Option.map_map]
  congr 1
  funext a
  rw [Function.comp_apply, Binding.keepBorrows, List.filter_false]

end Flow

namespace Job

/-- The shapes that a job may lead to. Functions and items start from a shape of their own. -/
def Leads (n : Shape) : Job → Shape → Prop
  | change .push, m => m = ∅ :: n
  | change .pop, m => m = n.tail
  | change (.declare name), m => m = n.declare name
  | restart, m => m = [∅]
  | restore s, m => m = s.shape
  | stmt (.letBind _ pattern _ _ _), m => m = n.declareAll pattern.names
  | function .. , m | item _, m => m ≠ []
  | _, m => m = n

/-- What a job asks of the shape that it starts from. -/
def Expects (n : Shape) : Job → Prop
  | change .pop => 1 < n.length
  | restore s => s.shape ≠ []
  | merge s => s.shape = n
  | otherwise _ before _ => before.shape = n
  | arms _ before exits _ | exit _ before exits _ => before.shape = n ∧ ∀ s ∈ exits, s.shape = n
  | _ => True

/-- The job asks nothing and leaves the shape as it is. -/
def Keeps : Job → Prop
  | change .push | change .pop | change (.declare _) | restart | restore _ | merge _ => False
  | otherwise .. | arms .. | exit .. | stmt _ | function .. | item _ => False
  | _ => True

theorem Keeps.expects {j : Job} (h : j.Keeps) (n : Shape) : j.Expects n := by
  cases j with
  | change x => cases x <;> trivial
  | _ => trivial

theorem Keeps.eq_of_leads {j : Job} (h : j.Keeps) {n m : Shape} (hm : j.Leads n m) : m = n := by
  cases j with
  | change x => cases x <;> simp_all [Keeps, Leads]
  | _ => simp_all [Keeps, Leads]

end Job

/-- What an agenda asks of the shape it starts from, for its jobs to get what they ask and for its
end to be as `P` says. -/
def Agrees (P : Shape → Prop) : List Job → Shape → Prop
  | [], n => P n
  | j :: l, n => j.Expects n ∧ ∀ m, j.Leads n m → Agrees P l m

namespace Agrees

variable {P : Shape → Prop} {l : List Job} {n : Shape}

theorem keep {j : Job} (hj : j.Keeps) (h : Agrees P l n) : Agrees P (j :: l) n := by
  refine ⟨hj.expects n, fun m hm => ?_⟩
  rwa [hj.eq_of_leads hm]

theorem keeps {k : List Job} (hk : ∀ j ∈ k, j.Keeps) (h : Agrees P l n) : Agrees P (k ++ l) n := by
  induction k with
  | nil => exact h
  | cons j k ih =>
    obtain ⟨hj, hk⟩ := List.forall_mem_cons.mp hk
    exact keep hj (ih hk)

theorem push (h : Agrees P l (∅ :: n)) : Agrees P (.change .push :: l) n := by
  refine ⟨trivial, ?_⟩
  rintro _ rfl
  exact h

theorem pop {f : Finset String} (hn : n ≠ []) (h : Agrees P l n) :
    Agrees P (.change .pop :: l) (f :: n) := by
  refine ⟨Nat.succ_lt_succ (List.length_pos_iff.mpr hn), ?_⟩
  rintro _ rfl
  exact h

theorem declares (names : List String) (h : Agrees P l (n.declareAll names)) :
    Agrees P (declareJobs names ++ l) n := by
  induction names generalizing n with
  | nil => exact h
  | cons name names ih =>
    refine ⟨trivial, ?_⟩
    rintro _ rfl
    exact ih h

theorem present (mode : Mode) (e : Option Expr) (h : Agrees P l n) :
    Agrees P (ifPresent mode e ++ l) n := by
  cases e with
  | none => exact h
  | some e => exact keep trivial h

/-- Statements declare names in the innermost frame only. -/
theorem stmts (stmts : List Stmt) (f : Finset String) (h : ∀ g, Agrees P l (g :: n)) :
    Agrees P (stmts.map .stmt ++ l) (f :: n) := by
  induction stmts generalizing f with
  | nil => exact h f
  | cons s stmts ih =>
    refine ⟨trivial, fun m hm => ?_⟩
    cases s with
    | letBind span pattern ty value isMut =>
      obtain ⟨g, hg⟩ := Shape.declareAll_cons f n pattern.names
      cases (hm.trans hg : m = g :: n)
      exact ih g
    | _ =>
      cases (hm : m = f :: n)
      exact ih f

/-- The state put aside has the shape that is there when it is met. -/
theorem merge {s : Flow} (hs : s.shape = n) (h : Agrees P l n) : Agrees P (.merge s :: l) n := by
  refine ⟨hs, ?_⟩
  rintro _ rfl
  exact h

end Agrees

section Jobs

variable {P : Shape → Prop} {l : List Job} {n : Shape} {c : Checker}

theorem MatchArm.jobs_agree (mode : Mode) (arm : MatchArm) (hn : n ≠ []) (h : Agrees P l n) :
    Agrees P (arm.jobs mode ++ l) n := by
  obtain ⟨span, pattern, guard, body⟩ := arm
  obtain ⟨g, hg⟩ := Shape.declareAll_cons ∅ n pattern.names
  simp only [MatchArm.jobs, List.cons_append, List.append_assoc]
  refine .push (.declares pattern.names ?_)
  rw [hg]
  exact .present .use guard (.keep trivial (.pop hn h))

theorem ExprKind.jobs_agree (mode : Mode) (span : Span) (k : ExprKind) (hc : c.flow.shape ≠ [])
    (h : Agrees P l c.flow.shape) : Agrees P (k.jobs mode span c ++ l) c.flow.shape := by
  cases k with
  | unary op operand =>
    have huse : Agrees P (.expr .use operand :: l) c.flow.shape := .keep trivial h
    simp only [ExprKind.jobs]
    cases op.borrowKind? with
    | none => exact huse
    | some kind =>
      cases operand.root? with
      | none => exact huse
      | some name => exact .keeps (by simp [Job.Keeps]) h
  | structLit name fields base =>
    simp only [ExprKind.jobs, List.append_assoc]
    exact .keeps (by simp [Job.Keeps]) (.present .move base h)
  | range start stop _ =>
    simp only [ExprKind.jobs, List.append_assoc]
    exact .present .use start (.present .use stop h)
  | lambda params ret body isMove =>
    simp only [ExprKind.jobs, List.cons_append, List.append_assoc]
    -- The frames of the lambda are dropped with the state that has them.
    refine .keep trivial (.push (.declares _ (.keep trivial ?_)))
    refine ⟨hc, ?_⟩
    rintro _ rfl
    exact .keep trivial (.keeps (List.forall_mem_map.mpr fun _ _ => trivial) h)
  | whileLoop cond body =>
    exact .keep trivial (.keep trivial (.merge rfl h))
  | _ => exact .keeps (by simp [ExprKind.jobs, Job.Keeps]) h

theorem ExprKind.indexJobs_agree (k : ExprKind) (h : Agrees P l n) :
    Agrees P (k.indexJobs ++ l) n := by
  cases k <;> exact .keeps (by simp [ExprKind.indexJobs, Job.Keeps]) h

theorem Block.jobs_agree (mode : Mode) (b : Block) (hn : n ≠ []) (h : Agrees P l n) :
    Agrees P (b.jobs mode c ++ l) n := by
  simp only [Block.jobs, List.cons_append, List.append_assoc]
  refine .keep trivial (.push (.stmts b.stmts ∅ fun g => ?_))
  exact .keep trivial (.present mode b.tail (.pop hn h))

theorem Stmt.jobs_agree (s : Stmt) (h : Agrees P (.stmt s :: l) n) :
    Agrees P (s.jobs c ++ l) n := by
  have hrelease : ∀ {n}, Agrees P l n → Agrees P ([.change .release] ++ l) n :=
    fun h => .keep trivial h
  cases s with
  | letBind span pattern ty value isMut =>
    have hrest : Agrees P (declareJobs pattern.names ++ ([.change .release] ++ l)) n :=
      .declares pattern.names (hrelease (h.2 _ rfl))
    simp only [Stmt.jobs, List.append_assoc]
    cases value with
    | none => exact hrest
    | some e => exact .keeps (by simp [Job.Keeps]) hrest
  | assign span target value =>
    simp only [Stmt.jobs]
    cases target.asIdent <;>
      exact .keeps (by simp [Job.Keeps]) (h.2 n rfl)
  | expr e => exact .keep trivial (hrelease (h.2 n rfl))
  | ret span value =>
    simp only [Stmt.jobs, List.append_assoc]
    exact .present .move value (hrelease (h.2 n rfl))
  | brk span value =>
    simp only [Stmt.jobs, List.append_assoc]
    exact .present .move value (hrelease (h.2 n rfl))
  | cont span => exact hrelease (h.2 n rfl)

theorem FunctionDef.jobs_agree (name : String) (d : FunctionDef) (hn : n ≠ [])
    (h : ∀ m, m ≠ [] → Agrees P l m) : Agrees P (d.jobs name ++ l) n := by
  unfold FunctionDef.jobs
  split
  · exact h n hn
  · obtain ⟨g, hg⟩ := Shape.declareAll_cons ∅ [] (d.params.map (·.name.node))
    simp only [List.cons_append, List.append_assoc]
    refine ⟨trivial, ?_⟩
    rintro _ rfl
    refine .keep trivial (.declares _ ?_)
    rw [hg]
    have hcontracts : ∀ j ∈ contractJobs d.contracts, j.Keeps := by
      intro j hj
      obtain ⟨x, -, hx⟩ := List.mem_flatMap.mp hj
      rcases List.mem_pair.mp hx with rfl | rfl <;> trivial
    exact .keeps hcontracts (.keep trivial
      (.keep trivial (h _ (List.cons_ne_nil _ _))))

/-- Each of them may start from what another has left. -/
theorem Agrees.functions (fs : List (String × FunctionDef)) (hn : n ≠ [])
    (h : ∀ m, m ≠ [] → Agrees P l m) :
    Agrees P (fs.map (fun f => .function f.1 f.2) ++ l) n := by
  induction fs generalizing n with
  | nil => exact h n hn
  | cons f fs ih => exact ⟨trivial, fun m hm => ih hm⟩

theorem Agrees.items (items : List Item) (hn : n ≠ []) :
    Agrees (fun _ => True) (items.map .item) n := by
  induction items generalizing n with
  | nil => trivial
  | cons i items ih => exact ⟨trivial, fun m hm => ih hm⟩

theorem Item.jobs_agree (i : Item) (hn : n ≠ []) (h : ∀ m, m ≠ [] → Agrees P l m) :
    Agrees P (i.jobs ++ l) n := by
  cases i with
  | const d =>
    refine ⟨trivial, ?_⟩
    rintro _ rfl
    exact .keep trivial (h _ (List.cons_ne_nil _ _))
  | _ => exact .functions _ hn h

end Jobs

/-- One change of the state leads where the agenda expects. -/
theorem Change.apply_leads (x : Change) (holder : Option Holder) (w : Walk) (hw : w.flow.shape ≠ [])
    (hasks : (Job.change x).Expects w.flow.shape) :
    (x.apply holder w).flow.shape ≠ [] ∧
      (Job.change x).Leads w.flow.shape (x.apply holder w).flow.shape := by
  -- Where the shape is as it was.
  have hkeep : ∀ s : Flow, s.shape = w.flow.shape → s.shape ≠ [] ∧ s.shape = w.flow.shape :=
    fun s hs => ⟨hs ▸ hw, hs⟩
  cases x with
  | push => exact ⟨List.cons_ne_nil _ _, rfl⟩
  | pop =>
    have hpop := Flow.shape_pop hasks
    refine ⟨?_, hpop⟩
    change w.flow.pop.shape ≠ []
    rw [hpop, ← List.length_pos_iff, List.length_tail]
    exact Nat.sub_pos_of_lt hasks
  | declare name =>
    have hdeclare := w.flow.shape_declare name
    refine ⟨?_, hdeclare⟩
    change (w.flow.declare name).shape ≠ []
    rw [hdeclare]
    exact Shape.declare_ne_nil hw name
  | use name span => exact hkeep _ (congrArg Flow.shape (w.flow_use name span))
  | move name span => exact hkeep _ (Flow.shape_modify _ _ _)
  | renew name => exact hkeep _ (Flow.shape_modify _ _ _)
  | borrow name kind span =>
    refine hkeep _ ?_
    simp only [Change.apply, Walk.borrow]
    split
    · rfl
    · split
      · rfl
      · exact Flow.shape_modify _ _ _
  | release => exact hkeep _ (Flow.shape_keepBorrows _ _)
  | clear => exact hkeep _ (Flow.shape_keepBorrows _ _)

namespace Flow

/-- The pairs of states that are joined where several paths meet. -/
def meetings : Flow → List Flow → List (Flow × Flow)
  | _, [] => []
  | s, t :: r => (s, t) :: (s.join t).meetings r

theorem shape_foldl_join (s : Flow) (l : List Flow) : (l.foldl join s).shape = s.shape := by
  induction l generalizing s with
  | nil => rfl
  | cons t l ih => exact (ih _).trans (shape_join s t)

theorem shape_of_meetings {s a b : Flow} {l : List Flow} (hl : ∀ t ∈ l, t.shape = s.shape)
    (h : (a, b) ∈ s.meetings l) : a.shape = b.shape := by
  induction l generalizing s with
  | nil => cases h
  | cons t l ih =>
    obtain ⟨ht, hl⟩ := List.forall_mem_cons.mp hl
    rcases List.mem_cons.mp h with heq | hrest
    · cases heq
      exact ht.symm
    · exact ih (fun u hu => (hl u hu).trans (shape_join s t).symm) hrest

end Flow

/-- The pairs of states that a step joins. -/
def Job.joins : Job → Checker → List (Flow × Flow)
  | merge s, c => [(s, c.flow)]
  | arms _ _ (s :: exits) [], _ => s.meetings exits
  | _, _ => []

/-- States that a step joins have one shape. -/
theorem Job.Expects.joins {j : Job} {c : Checker} (h : j.Expects c.flow.shape) {s t : Flow}
    (hst : (s, t) ∈ j.joins c) : s.shape = t.shape := by
  cases j with
  | merge s =>
    cases List.mem_singleton.mp hst
    exact h
  | arms mode before exits l =>
    cases l with
    | cons arm l => cases exits <;> cases hst
    | nil =>
      cases exits with
      | nil => cases hst
      | cons s exits =>
        obtain ⟨hs, hexits⟩ := List.forall_mem_cons.mp h.2
        exact Flow.shape_of_meetings (fun t ht => (hexits t ht).trans hs.symm) hst
  | _ => cases hst

/-- A step puts jobs in the place of one that agree with the rest of the agenda. -/
theorem Job.step_agrees {P : Shape → Prop} {j : Job} {l : List Job} {c : Checker}
    (hc : c.flow.shape ≠ []) (h : Agrees P (j :: l) c.flow.shape) :
    (j.step c).2.flow.shape ≠ [] ∧ Agrees P ((j.step c).1 ++ l) (j.step c).2.flow.shape := by
  obtain ⟨hasks, hrest⟩ := h
  -- A state that takes the place of this one, at the end of a job that keeps the shape.
  have hsame : ∀ s : Flow, s.shape = c.flow.shape → j.Leads c.flow.shape c.flow.shape →
      s.shape ≠ [] ∧ Agrees P l s.shape := by
    intro s hs hj
    rw [hs]
    exact ⟨hc, hrest _ hj⟩
  cases j with
  | change x =>
    obtain ⟨hne, hleads⟩ := x.apply_leads c.holder c.toWalk hc hasks
    exact ⟨hne, hrest _ hleads⟩
  | hold k => exact ⟨hc, hrest _ rfl⟩
  | restart => exact ⟨List.cons_ne_nil _ _, hrest _ rfl⟩
  | restore s => exact ⟨hasks, hrest _ rfl⟩
  | merge s => exact hsame _ ((Flow.shape_join s c.flow).trans hasks) rfl
  | expr mode e =>
    obtain ⟨id, span, kind⟩ := e
    exact ⟨hc, kind.jobs_agree mode span hc (hrest _ rfl)⟩
  | indices e =>
    obtain ⟨id, span, kind⟩ := e
    exact ⟨hc, kind.indexJobs_agree (hrest _ rfl)⟩
  | branches mode thenBranch elseBranch =>
    refine ⟨hc, .keep trivial ⟨rfl, ?_⟩⟩
    rintro _ rfl
    exact hrest _ rfl
  | otherwise mode before elseBranch =>
    change before.shape ≠ [] ∧ Agrees P ((ifPresent mode elseBranch ++ [.merge c.flow]) ++ l)
      before.shape
    rw [hasks, List.append_assoc]
    exact ⟨hc, .present mode elseBranch (.merge rfl (hrest _ rfl))⟩
  | select mode l =>
    refine ⟨hc, ⟨rfl, by simp⟩, ?_⟩
    rintro _ rfl
    exact hrest _ rfl
  | arms mode before exits arms =>
    cases arms with
    | nil =>
      refine hsame _ ?_ rfl
      cases exits with
      | nil => exact (Flow.shape_keepBorrows _ _).trans hasks.1
      | cons s exits => exact (Flow.shape_foldl_join s exits).trans (hasks.2 s (by simp))
    | cons arm arms =>
      change before.shape ≠ [] ∧ Agrees P ((arm.jobs mode ++ [.exit mode before exits arms]) ++ l)
        before.shape
      rw [hasks.1, List.append_assoc]
      refine ⟨hc, arm.jobs_agree mode hc ⟨hasks, ?_⟩⟩
      rintro _ rfl
      exact hrest _ rfl
  | exit mode before exits arms =>
    have hexits : ∀ s ∈ exits ++ [c.flow], s.shape = c.flow.shape := by
      simpa [or_imp, forall_and] using hasks.2
    refine ⟨hc, ⟨hasks.1, hexits⟩, ?_⟩
    rintro _ rfl
    exact hrest _ rfl
  | iterate pattern body =>
    obtain ⟨g, hg⟩ := Shape.declareAll_cons ∅ c.flow.shape pattern.names
    simp only [Job.step, List.cons_append, List.append_assoc]
    refine ⟨hc, .push (.declares pattern.names ?_)⟩
    rw [hg]
    exact .keep trivial (.pop hc (.merge rfl (hrest _ rfl)))
  | block mode b => exact ⟨hc, b.jobs_agree mode hc (hrest _ rfl)⟩
  | stmt s => exact ⟨hc, s.jobs_agree ⟨hasks, hrest⟩⟩
  | function name d => exact ⟨hc, d.jobs_agree name hc hrest⟩
  | ranges name d =>
    simp only [Job.step]
    split <;> exact ⟨hc, hrest _ rfl⟩
  | item i => exact ⟨hc, i.jobs_agree hc hrest⟩

/-- A checker at work with an agenda that agrees with the shape of its state. -/
structure Checking.Shaped (P : Shape → Prop) (x : Checking) : Prop where
  nonempty : x.checker.flow.shape ≠ []
  agrees : Agrees P x.agenda x.checker.flow.shape

namespace Checking.Shaped

variable {P : Shape → Prop} {x y : Checking}

theorem step (h : x.Shaped P) (hstep : x.step = some y) : y.Shaped P := by
  obtain ⟨_ | ⟨j, l⟩, c⟩ := x
  · cases hstep
  · cases hstep
    obtain ⟨hne, hagrees⟩ := Job.step_agrees h.nonempty h.agrees
    exact ⟨hne, hagrees⟩

theorem reaches (h : x.Shaped P) (hrun : Reaches x y) : y.Shaped P := by
  induction hrun with
  | refl => exact h
  | tail _ hstep ih => exact ih.step hstep

end Checking.Shaped

/-- Working off a job that keeps the shape ends with the shape that it began with. -/
theorem Runs.shape_eq {j : Job} {c d : Checker} (h : Runs [j] c d) (hj : j.Keeps)
    (hc : c.flow.shape ≠ []) : d.flow.shape = c.flow.shape := by
  have hstart : Checking.Shaped (· = c.flow.shape) ⟨[j], c⟩ := ⟨hc, .keep hj rfl⟩
  exact (hstart.reaches (h [])).agrees

theorem Checker.Used.start_shaped {track : Bool} {history : List Program} {c : Checker}
    (used : Used track history c) (p : Program) :
    Checking.Shaped (fun _ => True) ⟨p.items.map .item, c.clear⟩ := by
  have hne : c.flow.shape ≠ [] := by
    induction used with
    | new => exact List.cons_ne_nil _ _
    | check q _ checks ih =>
      have hstart : Checking.Shaped (fun _ => True) ⟨q.items.map .item, Checker.clear _⟩ :=
        ⟨ih, .items q.items ih⟩
      exact (hstart.reaches checks).nonempty
  exact ⟨hne, .items p.items hne⟩

/-- Two states are joined without a difference in their frames: both bind the same names at each
depth, and so does the join, where a name is moved if it is moved on both sides. -/
structure Flow.JoinsEvenly (s t : Flow) : Prop where
  shape : s.shape = t.shape
  join_shape : (s.join t).shape = s.shape
  left : ∀ d name a, s.binding? d name = some a → ∃ b, t.binding? d name = some b ∧
    (s.join t).binding? d name =
      some ⟨a.moved && b.moved, if b.moved then a.movedAt else none, []⟩
  right : ∀ d name b, t.binding? d name = some b → ∃ a, s.binding? d name = some a

theorem Flow.joinsEvenly_of_shape {s t : Flow} (h : s.shape = t.shape) : s.JoinsEvenly t := by
  have hdepth : s.depth = t.depth := by
    rw [← length_shape, ← length_shape, h]
  refine ⟨h, shape_join s t, fun d name a ha => ?_, fun d name b hb => ?_⟩
  · have hsome : (t.binding? d name).isSome = true := by
      rw [← isSome_binding?_of_shape h, ha]
      rfl
    obtain ⟨b, hb⟩ := Option.isSome_iff_exists.mp hsome
    refine ⟨b, hb, ?_⟩
    rw [binding?_join hdepth, ha, hb]
    cases hmoved : b.moved <;> simp [hmoved, Binding.renew]
  · refine Option.isSome_iff_exists.mp ?_
    rw [isSome_binding?_of_shape h, hb]
    rfl

/-- Whatever a checker has checked before, at every state on the way through a program: checking
any expression or block from there ends with the frames, their names and the holder as they were;
and states that the next step joins have the same frames with the same names. -/
theorem Checker.frames_kept {track : Bool} {history : List Program} {c : Checker}
    (used : Used track history c) (p : Program) {x : Checking}
    (reached : Reaches ⟨p.items.map .item, c.clear⟩ x) :
    (∀ mode e, ∃ d, Runs [.expr mode e] x.checker d ∧
      d.toWalk = ownExpr x.checker.holder mode e x.checker.toWalk ∧
      d.flow.shape = x.checker.flow.shape ∧ d.holder = x.checker.holder) ∧
    (∀ mode b, ∃ d, Runs [.block mode b] x.checker d ∧
      d.toWalk = ownBlock x.checker.holder mode b x.checker.toWalk ∧
      d.flow.shape = x.checker.flow.shape ∧ d.holder = x.checker.holder) ∧
    ∀ j r, x.agenda = j :: r → ∀ s t, (s, t) ∈ j.joins x.checker → s.JoinsEvenly t := by
  have hx : x.Shaped (fun _ => True) := (used.start_shaped p).reaches reached
  refine ⟨fun mode e => ?_, fun mode b => ?_, fun j r hagenda s t hst => ?_⟩
  · have hrun := expr_runs mode e x.checker
    exact ⟨_, hrun, rfl, hrun.shape_eq trivial hx.nonempty, rfl⟩
  · have hrun := block_runs mode b x.checker
    exact ⟨_, hrun, rfl, hrun.shape_eq trivial hx.nonempty, rfl⟩
  · have hagrees := hx.agrees
    rw [hagenda] at hagrees
    exact Flow.joinsEvenly_of_shape (hagrees.1.joins hst)

namespace Branches

open Build

/-- `if y { take(x, y) } else { let x = y; }`. -/
def conditional : Expr :=
  ifThen (ident "y") (block [.expr (call (ident "take") [ident "x", ident "y"])] none)
    (some (expr (.block (block [letIdent "x" (ident "y")] none))))

def program : Program where
  items := [.function (functionOf "f"
    [.param "x" none, .param "y" none, .body (block [letIdent "z" (int 1)] (some conditional))])]

def start : Checking := ⟨program.items.map .item, Checker.clear { trackLifetimes := false }⟩

end Branches

/-- Where the branches meet, one has moved `x` and `y`, and the other `y` and an `x` of its own. -/
theorem branches_join_evenly :
    let x := Branches.start.after 51
    Reaches Branches.start x ∧ ∃ s r, x.agenda = .merge s :: r ∧
      s.shape = [{"z"}, {"x", "y"}] ∧ s.JoinsEvenly x.checker.flow ∧
      ((s.binding? 0 "x").map Binding.moved = some true ∧
        ((s.join x.checker.flow).binding? 0 "x").map Binding.moved = some false) ∧
      ((s.join x.checker.flow).binding? 0 "y").map Binding.moved = some true := by
  intro x
  have hreached : Reaches Branches.start x := Checking.reaches_after 51 _
  obtain ⟨-, -, hjoins⟩ := Checker.frames_kept .new Branches.program hreached
  refine ⟨hreached, _, _, rfl, by decide, ?_, by decide, by decide⟩
  exact hjoins _ _ rfl _ _ (List.mem_singleton.mpr rfl)

end Sema
