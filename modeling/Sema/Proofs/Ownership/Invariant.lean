import Sema.Proofs.Ownership.Independence
import Sema.Syntax.Build

/-!
# What holds of the state at every step

A mutable borrow is the only borrow of its binding, and whatever holds a borrow is in a frame
that is still open. A holder is chosen at one depth and used at greater ones, and states are put
aside and fetched again; so what holds of the state depends on what the agenda will do to it.
`Fits` says what an agenda asks of the depth and the holder it starts from, and which it ends
with. A step keeps the state sound and its agenda fitting; so does every run.
-/

namespace Sema

open Checking (Reaches)

/-- What is asked of a binding while `depth` frames are open. -/
structure Binding.Sound (depth : Nat) (b : Binding) : Prop where
  moved_iff : b.moved = true ↔ ∃ span, b.movedAt = some span
  alone : ∀ r ∈ b.borrows, r.kind = .mutable → b.borrows = [r]
  held : ∀ r ∈ b.borrows, ∀ h, r.holder = some h → h.depth < depth

namespace Binding

variable {m n : Nat} {b c : Binding}

theorem sound_new : Binding.Sound n {} := ⟨by simp, by simp, by simp⟩

/-- What does not stand in the way of a borrow. -/
theorem conflict?_eq_none {name : String} {kind : BorrowKind} (h : b.conflict? name kind = none) :
    (kind = .shared → ∀ r ∈ b.borrows, r.kind ≠ .mutable) ∧ (kind = .mutable → b.borrows = []) := by
  unfold conflict? at h
  cases hmoved : b.moved with
  | true => simp [hmoved] at h
  | false =>
    cases kind with
    | shared => simpa [hmoved, hasMutable] using h
    | mutable => simpa [hmoved] using h

namespace Sound

theorem mono (hb : b.Sound m) (hmn : m ≤ n) : b.Sound n :=
  ⟨hb.moved_iff, hb.alone, fun r hr h hh => Nat.lt_of_lt_of_le (hb.held r hr h hh) hmn⟩

/-- The mark and the place of the move are set together, by the first move. -/
theorem move (hb : b.Sound n) (span : Span) : (b.move span).Sound n := by
  unfold Binding.move
  split
  · exact hb
  · exact ⟨⟨fun _ => ⟨span, rfl⟩, fun _ => rfl⟩, hb.alone, hb.held⟩

/-- They are cleared together. -/
theorem renew (hb : b.Sound n) : b.renew.Sound n := ⟨by simp [Binding.renew], hb.alone, hb.held⟩

theorem keepBorrows {keep : Borrow → Bool} (hb : b.Sound m)
    (hkeep : ∀ r ∈ b.borrows, keep r = true → ∀ h, r.holder = some h → h.depth < n) :
    (b.keepBorrows keep).Sound n := by
  refine ⟨hb.moved_iff, fun r hr hkind => ?_, fun r hr => ?_⟩
  · obtain ⟨hmem, hk⟩ := List.mem_filter.mp hr
    simp [Binding.keepBorrows, hb.alone r hmem hkind, hk]
  · obtain ⟨hmem, hk⟩ := List.mem_filter.mp hr
    exact hkeep r hmem hk

/-- What stands in no other borrow's way may be added. -/
theorem addBorrow {r : Borrow} {name : String} (hb : b.Sound n)
    (hfree : b.conflict? name r.kind = none) (hheld : ∀ h, r.holder = some h → h.depth < n) :
    (b.addBorrow r).Sound n := by
  have hmem : ∀ q ∈ (b.addBorrow r).borrows, q ∈ b.borrows ∨ q = r := by
    simp [Binding.addBorrow]
  refine ⟨hb.moved_iff, fun q hq hkind => ?_, fun q hq => ?_⟩
  · obtain ⟨kind, span, holder⟩ := r
    have hfree := conflict?_eq_none hfree
    cases kind with
    | shared =>
      -- There is no mutable borrow yet, and this is none.
      rcases hmem q hq with hold | rfl
      · exact absurd hkind (hfree.1 rfl q hold)
      · cases hkind
    | mutable =>
      have hnone : b.borrows = [] := hfree.2 rfl
      rcases hmem q hq with hold | rfl
      · simp [hnone] at hold
      · simp [Binding.addBorrow, hnone]
  · rcases hmem q hq with hold | rfl
    · exact hb.held q hold
    · exact hheld

end Sound

end Binding

/-- What is asked of every binding of these frames. -/
def FramesSound (n : Nat) (frames : List Bindings) : Prop :=
  ∀ f ∈ frames, ∀ name b, f.get? name = some b → b.Sound n

def Flow.Sound (s : Flow) : Prop := FramesSound s.depth s.frames

namespace FramesSound

variable {m n : Nat} {l : List Bindings}

theorem map (h : FramesSound m l) {g : Binding → Binding}
    (hg : ∀ b, b.Sound m → (g b).Sound n) : FramesSound n (l.map (·.map g)) := by
  intro f hf name b hb
  obtain ⟨f, hmem, rfl⟩ := List.mem_map.mp hf
  rw [Table.get?_map] at hb
  obtain ⟨b, hget, rfl⟩ := Option.map_eq_some_iff.mp hb
  exact hg b (h f hmem name b hget)

theorem cons {f : Bindings} (hf : ∀ name b, f.get? name = some b → b.Sound n)
    (hl : FramesSound n l) : FramesSound n (f :: l) :=
  List.forall_mem_cons.mpr ⟨hf, hl⟩

/-- The binding that a name means is in the innermost frame that has one. -/
theorem modifyIn (h : FramesSound n l) {name : String} {g : Binding → Binding}
    (hg : ∀ b, l.findSome? (·.get? name) = some b → b.Sound n → (g b).Sound n) :
    FramesSound n (Flow.modifyIn g name l) := by
  induction l with
  | nil => exact h
  | cons f l ih =>
    obtain ⟨hf, hl⟩ := List.forall_mem_cons.mp h
    unfold Flow.modifyIn
    split
    · refine cons (fun key b hb => ?_) hl
      rw [get?_modify] at hb
      split at hb
      · obtain ⟨b, hget, rfl⟩ := Option.map_eq_some_iff.mp hb
        subst key
        exact hg b (by simp [hget]) (hf name b hget)
      · exact hf key b hb
    · have hnone : f.get? name = none := by simpa [Table.contains] using ‹¬ f.contains name = true›
      exact cons hf (ih hl fun b hb => hg b (by simpa [hnone] using hb))

/-- A join renews a binding or leaves it alone. -/
theorem joinOuter (h : FramesSound n l) (k : List Bindings) :
    FramesSound n (Flow.joinOuter l k) := by
  induction l generalizing k with
  | nil => simpa [Flow.joinOuter] using h
  | cons f l ih =>
    cases k with
    | nil => exact h
    | cons g k =>
      obtain ⟨hf, hl⟩ := List.forall_mem_cons.mp h
      refine cons (fun name b hb => ?_) (ih hl k)
      rw [Flow.get?_joinFrame] at hb
      obtain ⟨b, hget, rfl⟩ := Option.map_eq_some_iff.mp hb
      split
      · exact hf name b hget
      · exact (hf name b hget).renew

end FramesSound

namespace Flow

variable {s t : Flow} {name : String}

theorem depth_modify (s : Flow) (name : String) (g : Binding → Binding) :
    (s.modify name g).depth = s.depth := by
  obtain ⟨frames⟩ := s
  simp only [modify, depth]
  induction frames with
  | nil => rfl
  | cons f r ih =>
    unfold modifyIn
    split <;> simp [ih]

/-- The frame of a binding is one of those that are open. -/
theorem depthOf_lt {d : Nat} (h : s.depthOf name = some d) : d < s.depth := by
  obtain ⟨frames⟩ := s
  simp only [depthOf, depth] at h ⊢
  induction frames with
  | nil => cases h
  | cons f r ih =>
    unfold depthIn at h
    split at h
    · cases h
      exact Nat.lt_succ_self _
    · exact Nat.lt_succ_of_lt (ih h)

theorem depth_pop (h : 1 < s.depth) : s.pop.depth = s.depth - 1 := by
  obtain ⟨frames⟩ := s
  match frames, h with
  | _ :: f :: r, _ => exact depth_keepBorrows _ ⟨f :: r⟩

theorem sound_initial : initial.Sound := by
  intro f hf name b hb
  cases List.mem_singleton.mp hf
  simp at hb

/-- No borrow is left, so that the number of frames is of no account. -/
theorem sound_clearBorrows {n : Nat} (h : FramesSound n s.frames) : s.clearBorrows.Sound :=
  FramesSound.map h fun b hb => hb.keepBorrows (by simp)

namespace Sound

theorem push (h : s.Sound) : s.push.Sound := by
  refine FramesSound.cons (by simp) fun f hf name b hb => ?_
  exact (h f hf name b hb).mono (Nat.le_succ _)

/-- The borrows that the bindings of the innermost frame hold end with it. -/
theorem pop (h : s.Sound) : s.pop.Sound := by
  obtain ⟨frames⟩ := s
  match frames, h with
  | [], h => exact h
  | [_], h => exact h
  | _ :: f :: r, h =>
    obtain ⟨-, hrest⟩ := List.forall_mem_cons.mp h
    unfold Sound
    rw [depth_pop (by simp [depth])]
    refine FramesSound.map hrest fun b hb => hb.keepBorrows fun q _ hkeep k hk => ?_
    simpa [Borrow.outlives, hk, depth] using hkeep

theorem declare (h : s.Sound) (name : String) : (s.declare name).Sound := by
  unfold Sound
  rw [depth_declare]
  obtain ⟨frames⟩ := s
  cases frames with
  | nil => exact h
  | cons f r =>
    obtain ⟨hf, hr⟩ := List.forall_mem_cons.mp h
    refine FramesSound.cons (fun key b hb => ?_) hr
    rw [Table.get?_insert] at hb
    split at hb
    · cases hb
      exact Binding.sound_new
    · exact hf key b hb

theorem modify (h : s.Sound) {g : Binding → Binding}
    (hg : ∀ b, s.lookup name = some b → b.Sound s.depth → (g b).Sound s.depth) :
    (s.modify name g).Sound := by
  unfold Sound
  rw [depth_modify]
  exact FramesSound.modifyIn h hg

theorem move (h : s.Sound) (name : String) (span : Span) : (s.move name span).Sound :=
  h.modify fun _ _ hb => hb.move span

theorem renew (h : s.Sound) (name : String) : (s.renew name).Sound :=
  h.modify fun _ _ hb => hb.renew

theorem releaseTemporaries (h : s.Sound) : s.releaseTemporaries.Sound := by
  unfold Sound Flow.releaseTemporaries
  rw [depth_keepBorrows]
  exact FramesSound.map h fun b hb => hb.keepBorrows fun q hq _ => hb.held q hq

theorem join (h : s.Sound) (t : Flow) : (s.join t).Sound := by
  have hreverse : FramesSound s.depth s.frames.reverse :=
    fun f hf => h f (List.mem_reverse.mp hf)
  have hjoined := hreverse.joinOuter t.frames.reverse
  exact sound_clearBorrows (s := ⟨_⟩) fun f hf => hjoined f (List.mem_reverse.mp hf)

end Sound

/-- Where paths of one depth meet. -/
theorem sound_joinAll {l : List Flow} {n : Nat} (hl : ∀ s ∈ l, s.Sound ∧ s.depth = n)
    {s : Flow} (h : joinAll l = some s) : s.Sound ∧ s.depth = n := by
  cases l with
  | nil => cases h
  | cons s l =>
    cases h
    induction l generalizing s with
    | nil => exact hl s (by simp)
    | cons t l ih =>
      obtain ⟨hs, ht, hl⟩ := by simpa using hl
      refine ih (s.join t) (List.forall_mem_cons.mpr ⟨?_, hl⟩)
      exact ⟨hs.1.join t, (depth_join (hs.2.trans ht.2.symm)).trans hs.2⟩

end Flow

/-- A value is held in the frame that is open where it is bound. -/
theorem letHolder_lt {s : Flow} {pattern : Pattern} {value : Expr} {h : Holder}
    (hs : 0 < s.depth) (hh : letHolder s pattern value = some h) : h.depth < s.depth := by
  unfold letHolder at hh
  split at hh
  · obtain ⟨name, -, rfl⟩ := Option.map_eq_some_iff.mp hh
    exact Nat.sub_lt hs Nat.one_pos
  · cases hh

theorem assignHolder_lt {s : Flow} {target : String} {value : Expr} {h : Holder}
    (hh : assignHolder s target value = some h) : h.depth < s.depth := by
  unfold assignHolder at hh
  split at hh
  · obtain ⟨d, hd, rfl⟩ := Option.map_eq_some_iff.mp hh
    exact Flow.depthOf_lt hd
  · cases hh

/-- Where an agenda stands: the holder, and the number of open frames. -/
structure Level where
  holder : Option Holder
  depth : Nat

/-- The holder is in one of the open frames. -/
def Level.Ok (x : Level) : Prop := 0 < x.depth ∧ ∀ h, x.holder = some h → h.depth < x.depth

theorem Level.ok_none {n : Nat} (hn : 0 < n) : Level.Ok ⟨none, n⟩ := ⟨hn, by simp⟩

theorem Level.Ok.push {x : Level} (hx : x.Ok) : Level.Ok ⟨x.holder, x.depth + 1⟩ :=
  ⟨Nat.succ_pos _, fun k hk => Nat.lt_succ_of_lt (hx.2 k hk)⟩

def Checker.level (c : Checker) : Level := ⟨c.holder, c.flow.depth⟩

/-- States put aside at this level. -/
def Flow.At (x : Level) (s : Flow) : Prop := s.Sound ∧ s.depth = x.depth

namespace Job

/-- The level that a job ends at. -/
def leaves (x : Level) : Job → Level
  | change .push => { x with depth := x.depth + 1 }
  | change .pop => { x with depth := x.depth - 1 }
  | hold h => { x with holder := h }
  | restart => { x with depth := 1 }
  | restore s => { x with depth := s.depth }
  | _ => x

/-- What a job asks of the level that it starts from. -/
def Asks (x : Level) : Job → Prop
  | change .pop => 1 < x.depth
  | restore s => s.Sound
  | merge s => s.At x
  | otherwise _ before _ => before.At x
  | arms _ before exits _ | exit _ before exits _ => before.At x ∧ ∀ s ∈ exits, s.At x
  | stmt _ => x.holder = none
  | function .. | item _ => x = ⟨none, 1⟩
  | _ => True

end Job

/-- The agenda, one job after the other, leads from a level to another. -/
inductive Fits : Level → List Job → Level → Prop
  | nil (x : Level) : Fits x [] x
  | cons {x y : Level} {j : Job} {l : List Job} (asks : j.Asks x) (ok : (j.leaves x).Ok)
      (rest : Fits (j.leaves x) l y) : Fits x (j :: l) y

namespace Fits

variable {x y z : Level} {j : Job} {l m : List Job}

theorem eq_of_nil (h : Fits x [] y) : x = y := by
  cases h
  rfl

theorem of_cons (h : Fits x (j :: l) y) :
    j.Asks x ∧ (j.leaves x).Ok ∧ Fits (j.leaves x) l y := by
  cases h with
  | cons asks ok rest => exact ⟨asks, ok, rest⟩

theorem append (h : Fits x l y) (k : Fits y m z) : Fits x (l ++ m) z := by
  induction h with
  | nil => exact k
  | cons asks ok _ ih => exact .cons asks ok (ih k)

/-- Jobs that end at the level they start from. -/
theorem same (hx : x.Ok) (h : ∀ j ∈ l, j.Asks x ∧ j.leaves x = x) : Fits x l x := by
  induction l with
  | nil => exact .nil x
  | cons j l ih =>
    obtain ⟨⟨hasks, hleaves⟩, hl⟩ := List.forall_mem_cons.mp h
    have hrest : Fits (j.leaves x) l x := by
      rw [hleaves]
      exact ih hl
    exact .cons hasks (by rwa [hleaves]) hrest

theorem single (hx : x.Ok) (hasks : j.Asks x) (hleaves : j.leaves x = x) : Fits x [j] x :=
  same hx (by simp [hasks, hleaves])

theorem map {α : Type} (hx : x.Ok) {f : α → Job} (h : ∀ a, (f a).Asks x ∧ (f a).leaves x = x)
    (l : List α) : Fits x (l.map f) x :=
  same hx (List.forall_mem_map.mpr fun a _ => h a)

theorem declares (hx : x.Ok) (names : List String) : Fits x (declareJobs names) x :=
  map hx (fun _ => by exact ⟨trivial, rfl⟩) names

theorem moves (hx : x.Ok) (names : List String) (span : Span) :
    Fits x (names.map fun name => .change (.move name span)) x :=
  map hx (fun _ => by exact ⟨trivial, rfl⟩) names

theorem present (hx : x.Ok) (mode : Mode) (e : Option Expr) : Fits x (ifPresent mode e) x :=
  same hx (by cases e <;> simp [ifPresent, Job.Asks, Job.leaves])

/-- Jobs in a frame of their own. -/
theorem frame (hx : x.Ok) (h : ∀ y : Level, y.Ok → Fits y l y) :
    Fits x (.change .push :: (l ++ [.change .pop])) x := by
  refine .cons trivial hx.push ((h _ hx.push).append (.cons ?_ hx (.nil x)))
  exact Nat.succ_lt_succ hx.1

end Fits

theorem MatchArm.jobs_fit {x : Level} (hx : x.Ok) (mode : Mode) (arm : MatchArm) :
    Fits x (arm.jobs mode) x := by
  obtain ⟨span, pattern, guard, body⟩ := arm
  have hframe : Fits x (.change .push :: ((declareJobs pattern.names ++
      (ifPresent .use guard ++ [.expr mode body])) ++ [.change .pop])) x :=
    .frame hx fun _ hy => (Fits.declares hy _).append
      ((Fits.present hy .use guard).append (.single hy trivial rfl))
  simpa [MatchArm.jobs] using hframe

/-- A checker whose state is sound, and whose holder is in an open frame. -/
structure Checker.Sound (c : Checker) : Prop where
  flow : c.flow.Sound
  ok : c.level.Ok

section Jobs

variable {c : Checker} (h : c.Sound)

include h

theorem Checker.Sound.at_level : c.flow.At c.level := ⟨h.flow, rfl⟩

theorem Checker.Sound.again {s : Flow} (hs : s.At c.level) :
    (c.withFlow s).Sound ∧ (c.withFlow s).level = c.level := by
  have hlevel : (c.withFlow s).level = c.level := congrArg (Level.mk c.holder) hs.2
  exact ⟨⟨hs.1, hlevel ▸ h.ok⟩, hlevel⟩

theorem ExprKind.jobs_fit (mode : Mode) (span : Span) (k : ExprKind) :
    Fits c.level (k.jobs mode span c) c.level := by
  cases k with
  | unary op operand =>
    have hborrow : ∀ name kind, Fits c.level
        [.change (.borrow name kind span), .indices operand] c.level :=
      fun _ _ => .same h.ok (by simp [Job.Asks, Job.leaves])
    have huse : Fits c.level [.expr .use operand] c.level := .single h.ok trivial rfl
    simp only [ExprKind.jobs]
    cases op.borrowKind? with
    | none => exact huse
    | some kind =>
      cases operand.root? with
      | none => exact huse
      | some name => exact hborrow name kind
  | structLit name fields base =>
    exact (Fits.map h.ok (fun _ => by exact ⟨trivial, rfl⟩) fields).append
      (.present h.ok .move base)
  | range start stop _ => exact (Fits.present h.ok .use start).append (.present h.ok .use stop)
  | lambda params ret body isMove =>
    have hok : Level.Ok ⟨none, c.flow.depth⟩ := Level.ok_none h.ok.1
    have hinside : Level.Ok ⟨none, c.flow.depth + 1⟩ := Level.ok_none (Nat.succ_pos _)
    refine .cons trivial hok (.cons trivial hinside ((Fits.declares hinside _).append ?_))
    exact .cons trivial hinside (.cons h.flow hok (.cons trivial h.ok (.moves h.ok _ span)))
  | whileLoop cond body =>
    exact .same h.ok (by simp [ExprKind.jobs, Job.Asks, Job.leaves, h.at_level])
  | _ => exact .same h.ok (by simp [ExprKind.jobs, Job.Asks, Job.leaves])

theorem ExprKind.indexJobs_fit (k : ExprKind) : Fits c.level k.indexJobs c.level := by
  cases k <;> exact .same h.ok (by simp [ExprKind.indexJobs, Job.Asks, Job.leaves])

theorem Block.jobs_fit (mode : Mode) (b : Block) : Fits c.level (b.jobs mode c) c.level := by
  have hinside : Level.Ok ⟨none, c.flow.depth + 1⟩ := Level.ok_none (Nat.succ_pos _)
  have htail : Level.Ok ⟨c.holder, c.flow.depth + 1⟩ := h.ok.push
  have hstmts : Fits ⟨none, c.flow.depth + 1⟩ (b.stmts.map .stmt) ⟨none, c.flow.depth + 1⟩ :=
    .map hinside (fun _ => by exact ⟨rfl, rfl⟩) _
  refine .cons trivial (Level.ok_none h.ok.1) (.cons trivial hinside (hstmts.append
    (.cons trivial htail ((Fits.present htail mode b.tail).append ?_))))
  exact .cons (Nat.succ_lt_succ h.ok.1) h.ok (.nil _)

theorem Stmt.jobs_fit (s : Stmt) : Fits c.level (s.jobs c) c.level := by
  have hrelease : Fits c.level [.change .release] c.level := .single h.ok trivial rfl
  -- A value is taken while its holder is set, and the holder is put back.
  have hheld : ∀ (k : Option Holder) (e : Expr), (∀ i, k = some i → i.depth < c.flow.depth) →
      Fits c.level [.hold k, .expr .move e, .hold c.holder] c.level := by
    intro k e hk
    exact .cons trivial ⟨h.ok.1, hk⟩ (.cons trivial ⟨h.ok.1, hk⟩ (.cons trivial h.ok (.nil _)))
  cases s with
  | letBind span pattern ty value isMut =>
    cases value with
    | none => exact (Fits.declares h.ok _).append hrelease
    | some e =>
      exact (hheld _ e fun _ => letHolder_lt h.ok.1).append
        ((Fits.declares h.ok _).append hrelease)
  | assign span target value =>
    simp only [Stmt.jobs]
    cases target.asIdent with
    | none => exact .same h.ok (by simp [Job.Asks, Job.leaves])
    | some name =>
      exact (hheld _ value fun _ => assignHolder_lt).append
        (.same h.ok (by simp [Job.Asks, Job.leaves]))
  | expr e => exact .same h.ok (by simp [Stmt.jobs, Job.Asks, Job.leaves])
  | ret span value => exact (Fits.present h.ok .move value).append hrelease
  | brk span value => exact (Fits.present h.ok .move value).append hrelease
  | cont span => exact hrelease

end Jobs

/-- The body of a function begins with a state of its own. -/
theorem FunctionDef.jobs_fit (name : String) (d : FunctionDef) :
    Fits ⟨none, 1⟩ (d.jobs name) ⟨none, 1⟩ := by
  have hok : Level.Ok ⟨none, 1⟩ := Level.ok_none Nat.one_pos
  unfold FunctionDef.jobs
  split
  · exact .nil _
  · refine .cons trivial hok (.cons trivial hok ((Fits.declares hok _).append ?_))
    have hcontracts : Fits ⟨none, 1⟩ (contractJobs d.contracts) ⟨none, 1⟩ := by
      refine .same hok fun j hj => ?_
      obtain ⟨x, -, hx⟩ := List.mem_flatMap.mp hj
      rcases List.mem_pair.mp hx with rfl | rfl <;> exact ⟨trivial, rfl⟩
    exact hcontracts.append (.same hok (by simp [Job.Asks, Job.leaves]))

theorem Item.jobs_fit (i : Item) : Fits ⟨none, 1⟩ i.jobs ⟨none, 1⟩ := by
  have hok : Level.Ok ⟨none, 1⟩ := Level.ok_none Nat.one_pos
  cases i with
  | const d => exact .same hok (by simp [Item.jobs, Job.Asks, Job.leaves])
  | _ => exact .map hok (fun _ => by exact ⟨rfl, rfl⟩) _

/-- One change of the state keeps it sound, and ends at the level that the agenda expects. -/
theorem Change.apply_sound {c : Checker} (h : c.Sound) (x : Change)
    (hasks : (Job.change x).Asks c.level) :
    (x.apply c.holder c.toWalk).flow.Sound ∧
      (x.apply c.holder c.toWalk).flow.depth = ((Job.change x).leaves c.level).depth := by
  cases x with
  | push => exact ⟨h.flow.push, rfl⟩
  | pop => exact ⟨h.flow.pop, Flow.depth_pop hasks⟩
  | declare name => exact ⟨h.flow.declare name, Flow.depth_declare _ _⟩
  | use name span =>
    rw [show (Change.use name span).apply c.holder c.toWalk = c.toWalk.use name span from rfl,
      Walk.flow_use]
    exact ⟨h.flow, rfl⟩
  | move name span => exact ⟨h.flow.move name span, Flow.depth_modify _ _ _⟩
  | renew name => exact ⟨h.flow.renew name, Flow.depth_modify _ _ _⟩
  | borrow name kind span =>
    simp only [Change.apply, Walk.borrow]
    cases hfound : c.flow.lookup name with
    | none => exact ⟨h.flow, rfl⟩
    | some b =>
      cases hfree : b.conflict? name kind with
      | some fault => simpa [hfree] using ⟨h.flow, rfl⟩
      | none =>
        simp only [hfree]
        refine ⟨h.flow.modify fun b' hb' hsound => ?_, Flow.depth_modify _ _ _⟩
        cases Option.some.inj (hfound.symm.trans hb')
        exact hsound.addBorrow hfree h.ok.2
  | release => exact ⟨h.flow.releaseTemporaries, Flow.depth_keepBorrows _ _⟩
  | clear => exact ⟨Flow.sound_clearBorrows h.flow, Flow.depth_keepBorrows _ _⟩

theorem Change.level_apply {c : Checker} (h : c.Sound) (x : Change)
    (hasks : (Job.change x).Asks c.level) :
    (c.on (x.apply c.holder c.toWalk)).level = (Job.change x).leaves c.level := by
  have hdepth := congrArg (Level.mk c.holder) (x.apply_sound h hasks).2
  cases x <;> exact hdepth

/-- A step keeps the checker sound, and puts jobs in the place of one that lead to the level
where that one was to end. -/
theorem Job.step_sound {j : Job} {c : Checker} (h : c.Sound) (hasks : j.Asks c.level)
    (hok : (j.leaves c.level).Ok) :
    (j.step c).2.Sound ∧ Fits (j.step c).2.level (j.step c).1 (j.leaves c.level) := by
  -- A job that is done in one step, at the level where it is to end.
  have hdone : ∀ d : Checker, d.flow.Sound → d.level = j.leaves c.level →
      d.Sound ∧ Fits d.level [] (j.leaves c.level) := by
    intro d hd hlevel
    exact ⟨⟨hd, hlevel ▸ hok⟩, hlevel ▸ .nil _⟩
  cases j with
  | change x => exact hdone _ (x.apply_sound h hasks).1 (x.level_apply h hasks)
  | hold k => exact hdone _ h.flow rfl
  | restart => exact hdone _ Flow.sound_initial rfl
  | restore s => exact hdone _ hasks rfl
  | merge s =>
    have hmet : (s.join c.flow).At c.level :=
      ⟨hasks.1.join _, (Flow.depth_join hasks.2).trans hasks.2⟩
    exact hdone _ hmet.1 (h.again hmet).2
  | expr mode e =>
    obtain ⟨id, span, kind⟩ := e
    exact ⟨h, kind.jobs_fit h mode span⟩
  | indices e =>
    obtain ⟨id, span, kind⟩ := e
    exact ⟨h, kind.indexJobs_fit h⟩
  | branches mode thenBranch elseBranch =>
    exact ⟨h, .cons trivial h.ok (.single h.ok h.at_level rfl)⟩
  | otherwise mode before elseBranch =>
    obtain ⟨hsound, hlevel⟩ := h.again hasks
    refine ⟨hsound, ?_⟩
    change Fits (c.withFlow before).level _ _
    rw [hlevel]
    exact (Fits.present h.ok mode elseBranch).append (.single h.ok h.at_level rfl)
  | select mode l => exact ⟨h, .single h.ok ⟨h.at_level, by simp⟩ rfl⟩
  | arms mode before exits l =>
    cases l with
    | nil =>
      have hend : ((Flow.joinAll exits).getD before.clearBorrows).At c.level := by
        cases hjoin : Flow.joinAll exits with
        | none =>
          exact ⟨Flow.sound_clearBorrows hasks.1.1, (Flow.depth_keepBorrows _ _).trans hasks.1.2⟩
        | some s => exact Flow.sound_joinAll hasks.2 hjoin
      exact hdone _ hend.1 (h.again hend).2
    | cons arm l =>
      obtain ⟨hsound, hlevel⟩ := h.again hasks.1
      refine ⟨hsound, ?_⟩
      change Fits (c.withFlow before).level _ _
      rw [hlevel]
      exact (MatchArm.jobs_fit h.ok mode arm).append (.single h.ok hasks rfl)
  | exit mode before exits l =>
    refine ⟨h, .single h.ok ⟨hasks.1, fun s hs => ?_⟩ rfl⟩
    rcases List.mem_append.mp hs with hold | hnew
    · exact hasks.2 s hold
    · cases List.mem_singleton.mp hnew
      exact h.at_level
  | iterate pattern body =>
    have hloop : Fits c.level (.change .push :: ((declareJobs pattern.names ++
        [.block .use body]) ++ [.change .pop])) c.level :=
      .frame h.ok fun _ hy => (Fits.declares hy _).append (.single hy trivial rfl)
    have hmerge : Fits c.level [.merge c.flow] c.level := .single h.ok h.at_level rfl
    refine ⟨h, ?_⟩
    simpa [Job.step, Job.leaves] using hloop.append hmerge
  | block mode b => exact ⟨h, b.jobs_fit h mode⟩
  | stmt s => exact ⟨h, s.jobs_fit h⟩
  | function name d => exact ⟨h, hasks ▸ d.jobs_fit name⟩
  | ranges name d =>
    simp only [Job.step]
    split
    · exact hdone _ h.flow rfl
    · exact hdone _ h.flow rfl
  | item i => exact ⟨h, hasks ▸ i.jobs_fit⟩

/-- A checker at work that is sound, with an agenda that ends outside every function. -/
structure Checking.Sound (x : Checking) : Prop where
  checker : x.checker.Sound
  fits : Fits x.checker.level x.agenda ⟨none, 1⟩

namespace Checking.Sound

variable {x y : Checking}

theorem step (h : x.Sound) (hstep : x.step = some y) : y.Sound := by
  obtain ⟨_ | ⟨j, l⟩, c⟩ := x
  · cases hstep
  · cases hstep
    obtain ⟨hasks, hok, hrest⟩ := h.fits.of_cons
    obtain ⟨hsound, hjobs⟩ := Job.step_sound h.checker hasks hok
    exact ⟨hsound, hjobs.append hrest⟩

theorem reaches (h : x.Sound) (hrun : Reaches x y) : y.Sound := by
  induction hrun with
  | refl => exact h
  | tail _ hstep ih => exact ih.step hstep

end Checking.Sound

/-- A program is checked from the outermost level. -/
theorem Checker.outermost_sound {c : Checker} (hflow : c.flow.Sound)
    (hlevel : c.level = ⟨none, 1⟩) (p : Program) :
    Checking.Sound ⟨p.items.map .item, c.clear⟩ := by
  have hok : Level.Ok ⟨none, 1⟩ := Level.ok_none Nat.one_pos
  have hclear : c.clear.level = ⟨none, 1⟩ := hlevel
  refine ⟨⟨hflow, hclear ▸ hok⟩, ?_⟩
  rw [hclear]
  exact .map hok (fun _ => by exact ⟨rfl, rfl⟩) _

/-- Every program leaves the checker at the level where it found it. -/
theorem Checker.Used.start_sound {track : Bool} {history : List Program} {c : Checker}
    (used : Used track history c) (p : Program) :
    Checking.Sound ⟨p.items.map .item, c.clear⟩ := by
  induction used generalizing p with
  | new => exact outermost_sound Flow.sound_initial rfl p
  | check q _ checks ih =>
    have hdone := (ih q).reaches checks
    exact outermost_sound hdone.checker.flow hdone.fits.eq_of_nil p

/-- No temporary is left. -/
def Flow.AllHeld (s : Flow) : Prop :=
  ∀ f ∈ s.frames, ∀ name b, f.get? name = some b → ∀ r ∈ b.borrows, r.holder ≠ none

theorem Flow.allHeld_releaseTemporaries (s : Flow) : s.releaseTemporaries.AllHeld := by
  intro f hf name b hb r hr
  obtain ⟨f, -, rfl⟩ := List.mem_map.mp hf
  rw [Table.get?_map] at hb
  obtain ⟨b, -, rfl⟩ := Option.map_eq_some_iff.mp hb
  simpa [Option.isSome_iff_ne_none] using (List.mem_filter.mp hr).2

/-- A statement that a run comes to is done with, and then no temporary is left. -/
theorem Checking.Sound.stmt {s : Stmt} {r : List Job} {c : Checker}
    (h : Checking.Sound ⟨.stmt s :: r, c⟩) :
    (∃ d, Runs [.stmt s] c d) ∧ ∀ d, Runs [.stmt s] c d → d.flow.AllHeld := by
  obtain ⟨hasks, -, -⟩ := h.fits.of_cons
  have hrun := stmt_runs s c hasks
  refine ⟨⟨_, hrun⟩, fun d hd => ?_⟩
  rw [hd.unique hrun]
  exact Flow.allHeld_releaseTemporaries _

/-- Whatever a checker has checked before: every state on the way through a program is sound,
every statement on the way is done with and leaves no temporary, and the way leads to the
findings of the program. -/
theorem Checker.states_sound {track : Bool} {history : List Program} {c : Checker}
    (used : Used track history c) (p : Program) {x : Checking}
    (reached : Reaches ⟨p.items.map .item, c.clear⟩ x) :
    x.checker.flow.Sound ∧
      (∀ s r, x.agenda = .stmt s :: r →
        (∃ d, Runs [.stmt s] x.checker d) ∧ ∀ d, Runs [.stmt s] x.checker d → d.flow.AllHeld) ∧
      ∃ d, Reaches x ⟨[], d⟩ ∧ d.result = checkOwnership track p := by
  have hx : x.Sound := (used.start_sound p).reaches reached
  refine ⟨hx.checker.flow, ?_, ?_⟩
  · obtain ⟨l, e⟩ := x
    rintro s r rfl
    exact hx.stmt
  · obtain ⟨hholder, htrack⟩ := used.holds_nothing
    obtain ⟨d, hd, -, -, hresult⟩ := checks_program p hholder
    exact ⟨d, Checking.reaches_done reached hd, htrack ▸ hresult⟩

namespace HeldBorrow

open Build

/-- `let r = &mut x;`. -/
def borrow : Stmt := letIdent "r" (unary .refMut (ident "x"))

/-- `let s = &x;`, which `r` stands in the way of. -/
def again : Stmt := letIdent "s" (unary .ref (ident "x"))

def program : Program where
  items := [.function (functionOf "f" [.param "x" none, .body (block [borrow, again] none)])]

def start : Checking := ⟨program.items.map .item, Checker.clear { trackLifetimes := true }⟩

end HeldBorrow

/-- Where the second statement begins, a mutable borrow is held. -/
theorem heldBorrow_states_sound :
    let x := HeldBorrow.start.after 16
    Reaches HeldBorrow.start x ∧ (∃ r, x.agenda = .stmt HeldBorrow.again :: r) ∧
      ((x.checker.flow.lookup "x").map fun b => b.borrows.map (·.holder)) = some [some ⟨"r", 1⟩] ∧
      x.checker.flow.Sound ∧ ∀ d, Runs [.stmt HeldBorrow.again] x.checker d → d.flow.AllHeld := by
  intro x
  have hreached : Reaches HeldBorrow.start x := Checking.reaches_after 16 _
  have hnext : ∃ r, x.agenda = .stmt HeldBorrow.again :: r := ⟨_, rfl⟩
  obtain ⟨hsound, hstmt, -⟩ := Checker.states_sound .new HeldBorrow.program hreached
  obtain ⟨r, hr⟩ := hnext
  exact ⟨hreached, ⟨r, hr⟩, rfl, hsound, (hstmt HeldBorrow.again r hr).2⟩

end Sema
