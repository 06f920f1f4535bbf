import Mathlib.Data.List.Nodup
import Sema.Span

/-!
# Paths through a body, and their meet

A `Plan` is what matters of a body for ownership: the mentions of names, the marks set and
cleared, the scopes, and the choices between ways to go on. A `Path` resolves every choice of
a plan, and running it changes the marks step by step, as no branch is ever joined on a path.

`Meet F m` says that the marks `m` are the meet of a family `F` of marks: all have the same
frames and names, and a name is moved in `m` just when it is moved everywhere in `F`. Each step
of a path changes marks name by name, so it takes the meet of a family to the meet of its
image. That is why an analysis that joins where paths come together loses nothing.
-/

namespace Sema

/-- For each frame, the innermost first: which names it binds, and whether the value of each
has been moved away. -/
abbrev Marks := List (String → Option Bool)

namespace Marks

/-- What frame `d` says of a name; frames are counted from the innermost. -/
def flag (m : Marks) (d : Nat) (name : String) : Option Bool := m[d]?.bind (· name)

/-- What the innermost frame that binds the name says of it. -/
def lookup (m : Marks) (name : String) : Option Bool := m.findSome? (· name)

def put (f : String → Option Bool) (name : String) (moved : Bool) : String → Option Bool :=
  fun n => if n = name then some moved else f n

/-- Set or clear the mark of the binding that the name means. -/
def set (m : Marks) (name : String) (moved : Bool) : Marks :=
  match m with
  | [] => []
  | f :: r => if (f name).isSome then put f name moved :: r else f :: set r name moved

/-- Bind a name, unmarked, in the innermost frame. -/
def declare (m : Marks) (name : String) : Marks :=
  match m with
  | [] => []
  | f :: r => put f name false :: r

def push (m : Marks) : Marks := (fun _ => none) :: m

/-- The number of the frame with the binding that the name means. -/
def resolve (m : Marks) (name : String) : Option Nat :=
  match m with
  | [] => none
  | f :: r => if (f name).isSome then some 0 else (resolve r name).map (· + 1)

@[simp] theorem flag_nil (d : Nat) (name : String) : flag [] d name = none := rfl

@[simp] theorem flag_cons_zero (f : String → Option Bool) (r : Marks) (name : String) :
    flag (f :: r) 0 name = f name := rfl

@[simp] theorem flag_cons_succ (f : String → Option Bool) (r : Marks) (d : Nat) (name : String) :
    flag (f :: r) (d + 1) name = flag r d name := by
  simp [flag]

theorem flag_set (m : Marks) (name : String) (moved : Bool) (d : Nat) (n : String) :
    (m.set name moved).flag d n =
      if m.resolve name = some d ∧ n = name then some moved else m.flag d n := by
  induction m generalizing d with
  | nil => simp [set, resolve]
  | cons f r ih =>
    by_cases hf : (f name).isSome = true
    · cases d with
      | zero => simp [set, resolve, hf, put]
      | succ d => simp [set, resolve, hf]
    · cases d with
      | zero => simp [set, resolve, hf]
      | succ d => simp [set, resolve, hf, ih]

theorem flag_declare (m : Marks) (name : String) (d : Nat) (n : String) :
    (m.declare name).flag d n =
      if (d = 0 ∧ 0 < m.length) ∧ n = name then some false else m.flag d n := by
  cases m with
  | nil => simp [declare]
  | cons f r => cases d <;> simp [declare, put]

theorem lookup_eq_flag (m : Marks) (name : String) :
    m.lookup name = (m.resolve name).bind fun d => m.flag d name := by
  induction m with
  | nil => rfl
  | cons f r ih =>
    cases hf : f name with
    | some b => simp [lookup, resolve, hf]
    | none =>
      have hr : lookup (f :: r) name = lookup r name := by simp [lookup, hf]
      rw [hr, ih]
      cases h : resolve r name <;> simp [resolve, hf, h]

@[simp] theorem length_set (m : Marks) (name : String) (moved : Bool) :
    (m.set name moved).length = m.length := by
  induction m with
  | nil => rfl
  | cons f r ih =>
    unfold set
    split
    · rfl
    · simp [ih]

@[simp] theorem length_declare (m : Marks) (name : String) :
    (m.declare name).length = m.length := by
  cases m <;> rfl

/-- The same names in the same frames. -/
structure SameShape (x m : Marks) : Prop where
  length : x.length = m.length
  bound : ∀ d name, (x.flag d name).isSome = (m.flag d name).isSome

namespace SameShape

theorem refl (m : Marks) : SameShape m m := ⟨rfl, fun _ _ => rfl⟩

theorem symm {x m : Marks} (h : SameShape x m) : SameShape m x :=
  ⟨h.length.symm, fun d name => (h.bound d name).symm⟩

theorem trans {x y z : Marks} (h : SameShape x y) (k : SameShape y z) : SameShape x z :=
  ⟨h.length.trans k.length, fun d name => (h.bound d name).trans (k.bound d name)⟩

theorem cons_iff {f g : String → Option Bool} {r q : Marks} :
    SameShape (f :: r) (g :: q) ↔ (∀ name, (f name).isSome = (g name).isSome) ∧ SameShape r q := by
  constructor
  · intro h
    exact ⟨fun name => h.bound 0 name, by simpa using h.length,
      fun d name => by simpa using h.bound (d + 1) name⟩
  · rintro ⟨hfg, hrq⟩
    refine ⟨by simp [hrq.length], fun d name => ?_⟩
    cases d with
    | zero => exact hfg name
    | succ d => simpa using hrq.bound d name

/-- Where a name leads depends on the shape alone. -/
theorem resolve_eq {x m : Marks} (h : SameShape x m) (name : String) :
    x.resolve name = m.resolve name := by
  induction x generalizing m with
  | nil =>
    have hm : m = [] := List.length_eq_zero_iff.mp h.length.symm
    rw [hm]
  | cons f r ih =>
    cases m with
    | nil => cases h.length
    | cons g q =>
      obtain ⟨hfg, hrq⟩ := cons_iff.mp h
      simp only [resolve, hfg name, ih hrq]

end SameShape

end Marks

/-- A change of the marks that treats every name by itself: what a frame says of a name
afterwards is fixed by the shape, or is what some frame said of it before. -/
structure Pointwise (t : Marks → Marks) : Prop where
  length : ∀ {x m : Marks}, x.SameShape m → (t x).length = (t m).length
  flag : ∀ (m : Marks) (d : Nat) (name : String),
    (∃ c, ∀ x : Marks, x.SameShape m → (t x).flag d name = c) ∨
      ∃ c, ∀ x : Marks, x.SameShape m → (t x).flag d name = x.flag c name

namespace Pointwise

theorem sameShape {t : Marks → Marks} (ht : Pointwise t) {x m : Marks} (h : x.SameShape m) :
    (t x).SameShape (t m) := by
  refine ⟨ht.length h, fun d name => ?_⟩
  rcases ht.flag m d name with ⟨c, hc⟩ | ⟨c, hc⟩
  · rw [hc x h, hc m (.refl m)]
  · rw [hc x h, hc m (.refl m), h.bound]

theorem set (name : String) (moved : Bool) : Pointwise (·.set name moved) := by
  refine ⟨fun h => by simp [h.length], fun m d n => ?_⟩
  by_cases hd : m.resolve name = some d ∧ n = name
  · left
    refine ⟨some moved, fun x hx => ?_⟩
    rw [Marks.flag_set, hx.resolve_eq, if_pos hd]
  · right
    refine ⟨d, fun x hx => ?_⟩
    rw [Marks.flag_set, hx.resolve_eq, if_neg hd]

theorem declare (name : String) : Pointwise (·.declare name) := by
  refine ⟨fun h => by simp [h.length], fun m d n => ?_⟩
  by_cases hd : (d = 0 ∧ 0 < m.length) ∧ n = name
  · left
    refine ⟨some false, fun x hx => ?_⟩
    rw [Marks.flag_declare, hx.length, if_pos hd]
  · right
    refine ⟨d, fun x hx => ?_⟩
    rw [Marks.flag_declare, hx.length, if_neg hd]

theorem push : Pointwise Marks.push := by
  refine ⟨fun h => by simp [Marks.push, h.length], fun m d n => ?_⟩
  cases d with
  | zero => exact .inl ⟨none, fun x _ => rfl⟩
  | succ d => exact .inr ⟨d, fun x _ => by simp [Marks.push]⟩

theorem tail : Pointwise List.tail := by
  refine ⟨fun h => by simp [h.length], fun m d n => .inr ⟨d + 1, fun x _ => ?_⟩⟩
  cases x <;> simp

end Pointwise

/-- The marks `m` are the meet of the family `F`. -/
structure Meet (F : Marks → Prop) (m : Marks) : Prop where
  inhabited : ∃ x, F x
  shape : ∀ x, F x → x.SameShape m
  moved : ∀ d name, m.flag d name = some true ↔ ∀ x, F x → x.flag d name = some true

/-- What becomes of a family under a change. -/
def imageOf (t : Marks → Marks) (F : Marks → Prop) : Marks → Prop := fun y => ∃ x, F x ∧ t x = y

namespace Meet

variable {F G : Marks → Prop} {m n : Marks}

theorem single (m : Marks) : Meet (· = m) m where
  inhabited := ⟨m, rfl⟩
  shape x hx := by rw [hx]; exact .refl m
  moved d name := by simp

/-- A pointwise change takes a meet to the meet of the images. -/
theorem image (h : Meet F m) {t : Marks → Marks} (ht : Pointwise t) :
    Meet (imageOf t F) (t m) where
  inhabited := by
    obtain ⟨x, hx⟩ := h.inhabited
    exact ⟨t x, x, hx, rfl⟩
  shape := by
    rintro y ⟨x, hx, rfl⟩
    exact ht.sameShape (h.shape x hx)
  moved d name := by
    rcases ht.flag m d name with ⟨c, hc⟩ | ⟨c, hc⟩
    · -- The new mark is the same for the whole family.
      rw [hc m (.refl m)]
      constructor
      · rintro hmoved y ⟨x, hx, rfl⟩
        rw [hc x (h.shape x hx), hmoved]
      · intro hall
        obtain ⟨x, hx⟩ := h.inhabited
        rw [← hc x (h.shape x hx)]
        exact hall (t x) ⟨x, hx, rfl⟩
    · rw [hc m (.refl m), h.moved c name]
      constructor
      · rintro hall y ⟨x, hx, rfl⟩
        rw [hc x (h.shape x hx), hall x hx]
      · intro hall x hx
        rw [← hc x (h.shape x hx)]
        exact hall (t x) ⟨x, hx, rfl⟩

theorem lookup (h : Meet F m) (name : String) :
    m.lookup name = some true ↔ ∀ x, F x → x.lookup name = some true := by
  have heq : ∀ x, F x → x.lookup name = (m.resolve name).bind fun d => x.flag d name := by
    intro x hx
    rw [Marks.lookup_eq_flag, (h.shape x hx).resolve_eq]
  rw [Marks.lookup_eq_flag]
  cases hd : m.resolve name with
  | none =>
    obtain ⟨x, hx⟩ := h.inhabited
    simp only [Option.bind_none, reduceCtorEq, false_iff]
    intro hall
    have hnone := heq x hx
    rw [hall x hx, hd] at hnone
    cases hnone
  | some d =>
    rw [Option.bind_some, h.moved d name]
    constructor
    · intro hall x hx
      rw [heq x hx, hd]
      exact hall x hx
    · intro hall x hx
      have hx' := heq x hx
      rw [hd] at hx'
      rw [← hall x hx, hx']
      rfl

/-- Where two families of the same shape come together, a name is moved if it is in both. -/
theorem union (hF : Meet F m) (hG : Meet G n) {j : Marks} (hmn : m.SameShape n)
    (hj : j.SameShape m)
    (hmoved : ∀ d name, j.flag d name = some true ↔
      m.flag d name = some true ∧ n.flag d name = some true) :
    Meet (fun x => F x ∨ G x) j where
  inhabited := by
    obtain ⟨x, hx⟩ := hF.inhabited
    exact ⟨x, .inl hx⟩
  shape x hx := by
    rcases hx with hx | hx
    · exact (hF.shape x hx).trans hj.symm
    · exact (hG.shape x hx).trans (hmn.symm.trans hj.symm)
  moved d name := by
    rw [hmoved, hF.moved, hG.moved]
    constructor
    · rintro ⟨h, k⟩ x (hx | hx)
      · exact h x hx
      · exact k x hx
    · intro hall
      exact ⟨fun x hx => hall x (.inl hx), fun x hx => hall x (.inr hx)⟩

end Meet

/-- The steps of a body, with the choices between them left open. -/
inductive Plan where
  | skip
  /-- Mention a name at some place. -/
  | use (name : String) (span : Span)
  /-- Set or clear the marks of names, in turn. -/
  | mark (names : List String) (moved : Bool)
  /-- Bind names in the innermost frame, in turn. -/
  | declare (names : List String)
  | seq (first second : Plan)
  | choice (left right : Plan)
  /-- In a frame of its own. -/
  | scope (body : Plan)
  /-- On a copy of the marks that is thrown away. -/
  | aside (body : Plan)

namespace Plan

/-- A way through a plan: every choice is resolved. -/
inductive Path : Plan → Type where
  | skip : Path .skip
  | use (name : String) (span : Span) : Path (.use name span)
  | mark (names : List String) (moved : Bool) : Path (.mark names moved)
  | declare (names : List String) : Path (.declare names)
  | seq {p q : Plan} : Path p → Path q → Path (.seq p q)
  | left {p q : Plan} : Path p → Path (.choice p q)
  | right {p q : Plan} : Path q → Path (.choice p q)
  | scope {p : Plan} : Path p → Path (.scope p)
  | aside {p : Plan} : Path p → Path (.aside p)

/-- The marks at the end of a path. -/
def Path.run : {p : Plan} → Path p → Marks → Marks
  | _, .skip, m => m
  | _, .use _ _, m => m
  | _, .mark names moved, m => names.foldl (fun m name => m.set name moved) m
  | _, .declare names, m => names.foldl Marks.declare m
  | _, .seq π ρ, m => ρ.run (π.run m)
  | _, .left π, m => π.run m
  | _, .right π, m => π.run m
  | _, .scope π, m => (π.run m.push).tail
  | _, .aside _, m => m

/-- A place of a plan where a name is mentioned. -/
inductive Occurrence : Plan → Type where
  | here (name : String) (span : Span) : Occurrence (.use name span)
  | first {p q : Plan} : Occurrence p → Occurrence (.seq p q)
  | second {p q : Plan} : Occurrence q → Occurrence (.seq p q)
  | left {p q : Plan} : Occurrence p → Occurrence (.choice p q)
  | right {p q : Plan} : Occurrence q → Occurrence (.choice p q)
  | scope {p : Plan} : Occurrence p → Occurrence (.scope p)
  | aside {p : Plan} : Occurrence p → Occurrence (.aside p)

/-- The name and the place of a mention. -/
def Occurrence.label : {p : Plan} → Occurrence p → String × Span
  | _, .here name span => (name, span)
  | _, .first o | _, .second o | _, .left o | _, .right o | _, .scope o | _, .aside o => o.label

/-- Is the binding that the name means moved when a path reaches its mention? Nothing if the
path does not. -/
def Occurrence.seen : {p : Plan} → Occurrence p → Path p → Marks → Option Bool
  | _, .here name _, .use _ _, m => some (m.lookup name == some true)
  | _, .first o, .seq π _, m => o.seen π m
  | _, .second o, .seq π ρ, m => o.seen ρ (π.run m)
  | _, .left o, .left π, m => o.seen π m
  | _, .left _, .right _, _ => none
  | _, .right _, .left _, _ => none
  | _, .right o, .right π, m => o.seen π m
  | _, .scope o, .scope π, m => o.seen π m.push
  | _, .aside o, .aside π, m => o.seen π m

/-- Some path, the first of every choice. -/
def somePath : (p : Plan) → Path p
  | .skip => .skip
  | .use name span => .use name span
  | .mark names moved => .mark names moved
  | .declare names => .declare names
  | .seq p q => .seq p.somePath q.somePath
  | .choice p _ => .left p.somePath
  | .scope p => .scope p.somePath
  | .aside p => .aside p.somePath

/-- A path that reaches the mention. -/
def Occurrence.reaching : {p : Plan} → Occurrence p → Path p
  | _, .here name span => .use name span
  | .seq _ q, .first o => .seq o.reaching q.somePath
  | .seq p _, .second o => .seq p.somePath o.reaching
  | _, .left o => .left o.reaching
  | _, .right o => .right o.reaching
  | _, .scope o => .scope o.reaching
  | _, .aside o => .aside o.reaching

theorem Occurrence.seen_reaching {p : Plan} (o : Occurrence p) (m : Marks) :
    (o.seen o.reaching m).isSome = true := by
  induction o generalizing m with
  | here name span => rfl
  | first o ih => exact ih m
  | second o ih => exact ih _
  | left o ih => exact ih m
  | right o ih => exact ih m
  | scope o ih => exact ih _
  | aside o ih => exact ih m

end Plan

end Sema
