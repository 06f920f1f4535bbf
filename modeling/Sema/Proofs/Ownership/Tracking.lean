import Sema.Proofs.Ownership.Path

/-!
# Following all paths at once

An analysis sees one state where the paths of a plan see many. `Tracks p v after` says that an
analysis that goes from the view `v` to the view `after` follows every path of `p`: if it
starts from the meet of a family of marks it ends in the meet of what the paths make of that
family, and the mentions it complains about are those where the name is moved on every path
that gets there. Tracking composes along the forms of a plan; only at a choice are two results
joined.
-/

namespace Sema

namespace Marks

theorem isSome_flag_of_resolve {m : Marks} {name : String} {d : Nat}
    (h : m.resolve name = some d) : (m.flag d name).isSome = true := by
  induction m generalizing d with
  | nil => cases h
  | cons f r ih =>
    by_cases hf : (f name).isSome = true
    · simp only [resolve, hf, if_true, Option.some.injEq] at h
      rw [← h]
      exact hf
    · simp only [resolve, hf] at h
      obtain ⟨c, hc, rfl⟩ := Option.map_eq_some_iff.mp h
      simpa using ih hc

theorem isSome_lookup (m : Marks) (name : String) :
    (m.lookup name).isSome = (m.resolve name).isSome := by
  rw [lookup_eq_flag]
  cases h : m.resolve name with
  | none => rfl
  | some d => exact isSome_flag_of_resolve h

/-- The same names are visible. -/
theorem SameShape.isSome_lookup {x m : Marks} (h : x.SameShape m) (name : String) :
    (x.lookup name).isSome = (m.lookup name).isSome := by
  rw [Marks.isSome_lookup, Marks.isSome_lookup, h.resolve_eq]

theorem sameShape_set (m : Marks) (name : String) (moved : Bool) :
    (m.set name moved).SameShape m := by
  refine ⟨m.length_set name moved, fun d n => ?_⟩
  rw [flag_set]
  split
  · rename_i h
    rw [h.2, isSome_flag_of_resolve h.1]
    rfl
  · rfl

theorem sameShape_marks (names : List String) (moved : Bool) (m : Marks) :
    (names.foldl (fun m name => m.set name moved) m).SameShape m := by
  induction names generalizing m with
  | nil => exact .refl m
  | cons name names ih => exact (ih _).trans (m.sameShape_set name moved)

theorem tail_declares (names : List String) (m : Marks) :
    (names.foldl declare m).tail = m.tail := by
  induction names generalizing m with
  | nil => rfl
  | cons name names ih =>
    rw [List.foldl_cons, ih]
    cases m <;> rfl

theorem length_declares (names : List String) (m : Marks) :
    (names.foldl declare m).length = m.length := by
  induction names generalizing m with
  | nil => rfl
  | cons name names ih => rw [List.foldl_cons, ih, length_declare]

end Marks

namespace Pointwise

theorem comp {t u : Marks → Marks} (hu : Pointwise u) (ht : Pointwise t) :
    Pointwise fun m => u (t m) := by
  refine ⟨fun h => hu.length (ht.sameShape h), fun m d name => ?_⟩
  rcases hu.flag (t m) d name with ⟨c, hc⟩ | ⟨c, hc⟩
  · exact .inl ⟨c, fun x hx => hc _ (ht.sameShape hx)⟩
  · rcases ht.flag m c name with ⟨b, hb⟩ | ⟨b, hb⟩
    · exact .inl ⟨b, fun x hx => by rw [hc _ (ht.sameShape hx), hb x hx]⟩
    · exact .inr ⟨b, fun x hx => by rw [hc _ (ht.sameShape hx), hb x hx]⟩

theorem foldl {t : Marks → String → Marks} (ht : ∀ name, Pointwise fun m => t m name)
    (names : List String) : Pointwise fun m => names.foldl t m := by
  induction names with
  | nil => exact ⟨fun h => h.length, fun m d name => .inr ⟨d, fun x _ => rfl⟩⟩
  | cons name names ih => exact ih.comp (ht name)

end Pointwise

namespace Plan

/-- Names are bound only in scopes. -/
def closed : Plan → Bool
  | .declare _ => false
  | .seq p q => p.closed && q.closed
  | .choice p q => p.closed && q.closed
  | .skip | .use .. | .mark .. | .scope _ | .aside _ => true

namespace Path

theorem length_run {p : Plan} (π : Path p) (m : Marks) : (π.run m).length = m.length := by
  induction π generalizing m with
  | mark names moved => exact (Marks.sameShape_marks names moved m).length
  | declare names => exact Marks.length_declares names m
  | seq π ρ ihp ihq => exact (ihq _).trans (ihp m)
  | left π ih => exact ih m
  | right π ih => exact ih m
  | scope π ih => simp [run, ih, Marks.push]
  | _ => rfl

/-- A path binds names in the innermost frame only. -/
theorem tail_run {p : Plan} (π : Path p) (m : Marks) :
    Marks.SameShape (π.run m).tail m.tail := by
  induction π generalizing m with
  | mark names moved => exact Pointwise.tail.sameShape (Marks.sameShape_marks names moved m)
  | declare names =>
    change Marks.SameShape (names.foldl Marks.declare m).tail m.tail
    rw [Marks.tail_declares]
    exact .refl _
  | seq π ρ ihp ihq => exact (ihq _).trans (ihp m)
  | left π ih => exact ih m
  | right π ih => exact ih m
  | scope π ih => exact Pointwise.tail.sameShape (ih m.push)
  | _ => exact .refl _

theorem sameShape_run {p : Plan} (hp : p.closed = true) (π : Path p) (m : Marks) :
    (π.run m).SameShape m := by
  induction π generalizing m with
  | mark names moved => exact Marks.sameShape_marks names moved m
  | declare names => cases hp
  | seq π ρ ihp ihq =>
    simp only [closed, Bool.and_eq_true] at hp
    exact (ihq hp.2 _).trans (ihp hp.1 m)
  | left π ih =>
    simp only [closed, Bool.and_eq_true] at hp
    exact ih hp.1 m
  | right π ih =>
    simp only [closed, Bool.and_eq_true] at hp
    exact ih hp.2 m
  | scope π _ => exact π.tail_run m.push
  | _ => exact .refl _

end Path

/-- What the paths of a plan make of a family of marks. -/
def image (p : Plan) (F : Marks → Prop) : Marks → Prop :=
  fun y => ∃ x, F x ∧ ∃ π : Path p, π.run x = y

section Image

variable (F : Marks → Prop) (p q : Plan)

theorem image_skip : image .skip F = F := by
  funext y
  refine propext ⟨?_, fun hy => ⟨y, hy, .skip, rfl⟩⟩
  rintro ⟨x, hx, π, rfl⟩
  cases π
  exact hx

theorem image_use (name : String) (span : Span) : image (.use name span) F = F := by
  funext y
  refine propext ⟨?_, fun hy => ⟨y, hy, .use name span, rfl⟩⟩
  rintro ⟨x, hx, π, rfl⟩
  cases π
  exact hx

theorem image_mark (names : List String) (moved : Bool) : image (.mark names moved) F =
    imageOf (fun m => names.foldl (fun m name => m.set name moved) m) F := by
  funext y
  refine propext ⟨?_, fun ⟨x, hx, hy⟩ => ⟨x, hx, .mark names moved, hy⟩⟩
  rintro ⟨x, hx, π, rfl⟩
  cases π
  exact ⟨x, hx, rfl⟩

theorem image_declare (names : List String) : image (.declare names) F =
    imageOf (fun m => names.foldl Marks.declare m) F := by
  funext y
  refine propext ⟨?_, fun ⟨x, hx, hy⟩ => ⟨x, hx, .declare names, hy⟩⟩
  rintro ⟨x, hx, π, rfl⟩
  cases π
  exact ⟨x, hx, rfl⟩

theorem image_seq : image (.seq p q) F = q.image (p.image F) := by
  funext y
  refine propext ⟨?_, ?_⟩
  · rintro ⟨x, hx, π, rfl⟩
    cases π with
    | seq π ρ => exact ⟨π.run x, ⟨x, hx, π, rfl⟩, ρ, rfl⟩
  · rintro ⟨_, ⟨x, hx, π, rfl⟩, ρ, rfl⟩
    exact ⟨x, hx, .seq π ρ, rfl⟩

theorem image_choice : image (.choice p q) F = fun y => p.image F y ∨ q.image F y := by
  funext y
  refine propext ⟨?_, ?_⟩
  · rintro ⟨x, hx, π, rfl⟩
    cases π with
    | left π => exact .inl ⟨x, hx, π, rfl⟩
    | right π => exact .inr ⟨x, hx, π, rfl⟩
  · rintro (⟨x, hx, π, rfl⟩ | ⟨x, hx, π, rfl⟩)
    · exact ⟨x, hx, .left π, rfl⟩
    · exact ⟨x, hx, .right π, rfl⟩

theorem image_scope :
    image (.scope p) F = imageOf List.tail (p.image (imageOf Marks.push F)) := by
  funext y
  refine propext ⟨?_, ?_⟩
  · rintro ⟨x, hx, π, rfl⟩
    cases π with
    | scope π => exact ⟨_, ⟨x.push, ⟨x, hx, rfl⟩, π, rfl⟩, rfl⟩
  · rintro ⟨_, ⟨_, ⟨x, hx, rfl⟩, π, rfl⟩, rfl⟩
    exact ⟨x, hx, .scope π, rfl⟩

theorem image_aside : image (.aside p) F = F := by
  funext y
  refine propext ⟨?_, fun hy => ⟨y, hy, .aside p.somePath, rfl⟩⟩
  rintro ⟨x, hx, π, rfl⟩
  cases π
  exact hx

end Image

/-- On every path from the family that gets to the mention, the name is moved there. -/
def Doomed (F : Marks → Prop) {p : Plan} (o : Occurrence p) : Prop :=
  ∀ x, F x → ∀ (π : Path p) (b : Bool), o.seen π x = some b → b = true

section Doomed

variable {F : Marks → Prop} {p q : Plan}

theorem doomed_first (o : Occurrence p) :
    Doomed F (.first o : Occurrence (.seq p q)) ↔ Doomed F o := by
  constructor
  · intro h x hx π b hb
    exact h x hx (.seq π q.somePath) b hb
  · intro h x hx π b hb
    cases π with
    | seq π ρ => exact h x hx π b hb

theorem doomed_second (o : Occurrence q) :
    Doomed F (.second o : Occurrence (.seq p q)) ↔ Doomed (p.image F) o := by
  constructor
  · rintro h _ ⟨x, hx, π, rfl⟩ ρ b hb
    exact h x hx (.seq π ρ) b hb
  · intro h x hx π b hb
    cases π with
    | seq π ρ => exact h (π.run x) ⟨x, hx, π, rfl⟩ ρ b hb

theorem doomed_left (o : Occurrence p) :
    Doomed F (.left o : Occurrence (.choice p q)) ↔ Doomed F o := by
  constructor
  · intro h x hx π b hb
    exact h x hx (.left π) b hb
  · intro h x hx π b hb
    cases π with
    | left π => exact h x hx π b hb
    | right π => cases hb

theorem doomed_right (o : Occurrence q) :
    Doomed F (.right o : Occurrence (.choice p q)) ↔ Doomed F o := by
  constructor
  · intro h x hx π b hb
    exact h x hx (.right π) b hb
  · intro h x hx π b hb
    cases π with
    | left π => cases hb
    | right π => exact h x hx π b hb

theorem doomed_scope (o : Occurrence p) :
    Doomed F (.scope o : Occurrence (.scope p)) ↔ Doomed (imageOf Marks.push F) o := by
  constructor
  · rintro h _ ⟨x, hx, rfl⟩ π b hb
    exact h x hx (.scope π) b hb
  · intro h x hx π b hb
    cases π with
    | scope π => exact h x.push ⟨x, hx, rfl⟩ π b hb

theorem doomed_aside (o : Occurrence p) :
    Doomed F (.aside o : Occurrence (.aside p)) ↔ Doomed F o := by
  constructor
  · intro h x hx π b hb
    exact h x hx (.aside π) b hb
  · intro h x hx π b hb
    cases π with
    | aside π => exact h x hx π b hb

end Doomed

end Plan

/-- What is seen of an analysis: its marks, and its complaints about moved names so far. -/
structure View where
  marks : Marks
  errors : List (String × Span)

/-- From `v` to `after` the analysis follows every path of the plan. -/
structure Tracks (p : Plan) (v after : View) : Prop where
  exits : ∀ F, Meet F v.marks → Meet (p.image F) after.marks
  /-- The complaints that are added are those about the doomed mentions, one for each. -/
  complaints : ∀ F, Meet F v.marks → ∃ bad : List p.Occurrence, bad.Nodup ∧
    (∀ o, o ∈ bad ↔ Plan.Doomed F o) ∧ after.errors = v.errors ++ bad.map (·.label)

namespace Tracks

open Plan

variable {p q : Plan} {v u w : View}

theorem length (h : Tracks p v u) : u.marks.length = v.marks.length := by
  have hmeet := h.exits (· = v.marks) (.single v.marks)
  obtain ⟨y, hy⟩ := hmeet.inhabited
  have hlen := (hmeet.shape y hy).length
  obtain ⟨x, rfl, π, rfl⟩ := hy
  rw [← hlen, π.length_run]

/-- A closed plan leaves the names as they are. -/
theorem sameShape (h : Tracks p v u) (hp : p.closed = true) : u.marks.SameShape v.marks := by
  have hmeet := h.exits (· = v.marks) (.single v.marks)
  obtain ⟨y, hy⟩ := hmeet.inhabited
  have hshape := (hmeet.shape y hy).symm
  obtain ⟨x, rfl, π, rfl⟩ := hy
  exact hshape.trans (π.sameShape_run hp v.marks)

/-- A step without a mention or a choice. -/
theorem step {t : Marks → Marks} (ht : Pointwise t) (himage : ∀ F, p.image F = imageOf t F)
    (hnone : p.Occurrence → False) : Tracks p v ⟨t v.marks, v.errors⟩ where
  exits F hF := by
    rw [himage]
    exact hF.image ht
  complaints F _ := ⟨[], .nil, fun o => (hnone o).elim, by simp⟩

theorem skip (v : View) : Tracks .skip v v where
  exits F hF := by rwa [image_skip]
  complaints F _ := ⟨[], .nil, nofun, by simp⟩

theorem mark (names : List String) (moved : Bool) (v : View) :
    Tracks (.mark names moved) v
      ⟨names.foldl (fun m name => m.set name moved) v.marks, v.errors⟩ :=
  step (t := fun m => names.foldl (fun m name => m.set name moved) m)
    (.foldl (fun name => .set name moved) names) (fun F => image_mark F names moved)
    (fun o => by cases o)

theorem declare (names : List String) (v : View) :
    Tracks (.declare names) v ⟨names.foldl Marks.declare v.marks, v.errors⟩ :=
  step (t := fun m => names.foldl Marks.declare m) (.foldl .declare names)
    (fun F => image_declare F names) (fun o => by cases o)

/-- A mention is complained about if the name is moved. -/
theorem use (name : String) (span : Span) (v : View) :
    Tracks (.use name span) v
      ⟨v.marks, v.errors ++ if v.marks.lookup name = some true then [(name, span)] else []⟩ where
  exits F hF := by rwa [image_use]
  complaints F hF := by
    have hdoomed : Doomed F (.here name span) ↔ v.marks.lookup name = some true := by
      rw [hF.lookup name]
      constructor
      · intro h x hx
        have hb := h x hx (.use name span) _ rfl
        simpa using hb
      · intro h x hx π b hb
        cases π
        simp only [Occurrence.seen, h x hx, Option.some.injEq] at hb
        rw [← hb]
        rfl
    by_cases hmoved : v.marks.lookup name = some true
    · refine ⟨[.here name span], by simp, fun o => ?_, by simp [hmoved, Occurrence.label]⟩
      cases o
      simp [hdoomed, hmoved]
    · refine ⟨[], .nil, fun o => ?_, by simp [hmoved]⟩
      cases o
      simp [hdoomed, hmoved]

theorem seq (h : Tracks p v u) (k : Tracks q u w) : Tracks (.seq p q) v w where
  exits F hF := by
    rw [image_seq]
    exact k.exits _ (h.exits F hF)
  complaints F hF := by
    obtain ⟨bad, hnodup, hbad, herrors⟩ := h.complaints F hF
    obtain ⟨worse, knodup, hworse, kerrors⟩ := k.complaints _ (h.exits F hF)
    refine ⟨bad.map .first ++ worse.map .second, ?_, fun o => ?_, ?_⟩
    · refine (hnodup.map fun _ _ h => by cases h; rfl).append
        (knodup.map fun _ _ h => by cases h; rfl) ?_
      simp [List.disjoint_left]
    · cases o with
      | first o => simp [doomed_first, hbad]
      | second o => simp [doomed_second, hworse]
    · simp [kerrors, herrors, Occurrence.label, Function.comp_def]

/-- Two ways from the same marks, joined at their ends. -/
theorem choice (h : Tracks p v u) (k : Tracks q ⟨v.marks, u.errors⟩ w) (hp : p.closed = true)
    (hq : q.closed = true) {j : Marks} (hj : j.SameShape u.marks)
    (hmoved : ∀ d name, j.flag d name = some true ↔
      u.marks.flag d name = some true ∧ w.marks.flag d name = some true) :
    Tracks (.choice p q) v ⟨j, w.errors⟩ where
  exits F hF := by
    rw [image_choice]
    have hshape := (h.sameShape hp).trans (k.sameShape hq).symm
    exact (h.exits F hF).union (k.exits F hF) hshape hj hmoved
  complaints F hF := by
    obtain ⟨bad, hnodup, hbad, herrors⟩ := h.complaints F hF
    obtain ⟨worse, knodup, hworse, kerrors⟩ := k.complaints F hF
    refine ⟨bad.map .left ++ worse.map .right, ?_, fun o => ?_, ?_⟩
    · refine (hnodup.map fun _ _ h => by cases h; rfl).append
        (knodup.map fun _ _ h => by cases h; rfl) ?_
      simp [List.disjoint_left]
    · cases o with
      | left o => simp [doomed_left, hbad]
      | right o => simp [doomed_right, hworse]
    · simp [kerrors, herrors, Occurrence.label, Function.comp_def]

theorem scope (h : Tracks p ⟨v.marks.push, v.errors⟩ u) :
    Tracks (.scope p) v ⟨u.marks.tail, u.errors⟩ where
  exits F hF := by
    rw [image_scope]
    exact (h.exits _ (hF.image .push)).image .tail
  complaints F hF := by
    obtain ⟨bad, hnodup, hbad, herrors⟩ := h.complaints (imageOf Marks.push F) (hF.image .push)
    refine ⟨bad.map .scope, hnodup.map fun _ _ h => by cases h; rfl, fun o => ?_, ?_⟩
    · cases o with
      | scope o => simp [doomed_scope, hbad]
    · simp [herrors, Occurrence.label, Function.comp_def]

theorem aside (h : Tracks p v u) : Tracks (.aside p) v ⟨v.marks, u.errors⟩ where
  exits F hF := by rwa [image_aside]
  complaints F hF := by
    obtain ⟨bad, hnodup, hbad, herrors⟩ := h.complaints F hF
    refine ⟨bad.map .aside, hnodup.map fun _ _ h => by cases h; rfl, fun o => ?_, ?_⟩
    · cases o with
      | aside o => simp [doomed_aside, hbad]
    · simp [herrors, Occurrence.label, Function.comp_def]

end Tracks

end Sema
