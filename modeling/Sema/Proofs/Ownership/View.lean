import Sema.Ownership.Check
import Sema.Proofs.Ownership.Tracking

/-!
# What a walk shows of moves

The state of the ownership check holds more than the marks that paths are about: where a value
was moved, and which borrows are active. This module reads the marks off a state, and says what
every operation of the check does to them: borrows never show, and where two states of the same
depth are joined, a name stays marked if it is marked in both.
-/

namespace Sema

section Marks

/-- What a frame binds, and what has been moved. -/
def frameMarks (f : Bindings) : String → Option Bool :=
  fun name => (f.get? name).map Binding.moved

def Flow.marks (s : Flow) : Marks := s.frames.map frameMarks

theorem Table.find_mapEntries {κ α β : Type} [DecidableEq κ] (g : κ → α → β) (k : κ)
    (l : List (κ × α)) :
    Table.find k (l.map fun (j, a) => (j, g j a)) = (Table.find k l).map (g k) := by
  induction l with
  | nil => rfl
  | cons e l ih =>
    obtain ⟨j, a⟩ := e
    by_cases h : k = j
    · simp [Table.find, h]
    · simp [Table.find, h, ih]

theorem frameMarks_insert (f : Bindings) (name : String) :
    frameMarks (f.insert name {}) = Marks.put (frameMarks f) name false := by
  funext n
  by_cases h : n = name <;> simp [frameMarks, Marks.put, Table.get?_insert, h]

theorem frameMarks_map {g : Binding → Binding} (hg : ∀ b, (g b).moved = b.moved) (f : Bindings) :
    frameMarks (f.map g) = frameMarks f := by
  funext n
  have hcomp : Binding.moved ∘ g = Binding.moved := funext hg
  simp [frameMarks, Table.get?_map, hcomp]

theorem get?_modify (g : Binding → Binding) (name : String) (f : Bindings) (n : String) :
    (Bindings.modify g name f).get? n =
      if n = name then (f.get? n).map g else f.get? n := by
  have hfind := Table.find_mapEntries (fun j b => if j = name then g b else b) n f.entries
  by_cases h : n = name
  · simp only [h, if_true] at hfind ⊢
    exact hfind
  · simp only [h, if_false, Option.map_id_fun'] at hfind ⊢
    exact hfind

theorem frameMarks_modify {g : Binding → Binding} {moved : Bool} (hg : ∀ b, (g b).moved = moved)
    (name : String) {f : Bindings} (hf : f.contains name = true) :
    frameMarks (f.modify g name) = Marks.put (frameMarks f) name moved := by
  funext n
  unfold frameMarks Marks.put
  rw [get?_modify]
  by_cases h : n = name
  · obtain ⟨b, hb⟩ := Option.isSome_iff_exists.mp hf
    simp [h, hb, hg]
  · simp [h]

theorem frameMarks_modify_same {g : Binding → Binding} (hg : ∀ b, (g b).moved = b.moved)
    (name : String) (f : Bindings) : frameMarks (f.modify g name) = frameMarks f := by
  funext n
  unfold frameMarks
  rw [get?_modify]
  split
  · have hcomp : Binding.moved ∘ g = Binding.moved := funext hg
    simp [hcomp]
  · rfl

end Marks

namespace Flow

@[simp] theorem length_marks (s : Flow) : s.marks.length = s.depth := by simp [marks, depth]

theorem marks_keepBorrows (keep : Borrow → Bool) (s : Flow) :
    (s.keepBorrows keep).marks = s.marks := by
  have hframe : frameMarks ∘ (·.map (Binding.keepBorrows keep)) = frameMarks :=
    funext fun f => frameMarks_map (g := .keepBorrows keep) (fun _ => rfl) f
  simp [marks, keepBorrows, mapBindings, hframe]

theorem marks_pop {s : Flow} (h : 2 ≤ s.depth) : s.pop.marks = s.marks.tail := by
  obtain ⟨frames⟩ := s
  match frames, h with
  | _ :: f :: r, _ => exact marks_keepBorrows _ ⟨f :: r⟩

theorem marks_declare (s : Flow) (name : String) :
    (s.declare name).marks = s.marks.declare name := by
  obtain ⟨frames⟩ := s
  cases frames with
  | nil => rfl
  | cons f r => simp [declare, marks, Marks.declare, frameMarks_insert]

theorem marks_declareAll (s : Flow) (names : List String) :
    (s.declareAll names).marks = names.foldl Marks.declare s.marks := by
  unfold declareAll
  induction names generalizing s with
  | nil => rfl
  | cons name names ih => rw [List.foldl_cons, List.foldl_cons, ih, marks_declare]

theorem marks_modify {g : Binding → Binding} {moved : Bool} (hg : ∀ b, (g b).moved = moved)
    (s : Flow) (name : String) : (s.modify name g).marks = s.marks.set name moved := by
  obtain ⟨frames⟩ := s
  unfold modify marks
  induction frames with
  | nil => rfl
  | cons f r ih =>
    have hbound : ((frameMarks f) name).isSome = f.contains name := by
      simp [frameMarks, Table.contains]
    by_cases hf : f.contains name = true
    · simp [modifyIn, Marks.set, hbound, hf, frameMarks_modify hg name hf]
    · simpa [modifyIn, Marks.set, hbound, hf] using ih

theorem marks_modify_same {g : Binding → Binding} (hg : ∀ b, (g b).moved = b.moved)
    (s : Flow) (name : String) : (s.modify name g).marks = s.marks := by
  obtain ⟨frames⟩ := s
  unfold modify marks
  induction frames with
  | nil => rfl
  | cons f r ih =>
    by_cases hf : f.contains name = true
    · simp [modifyIn, hf, frameMarks_modify_same hg]
    · simpa [modifyIn, hf] using ih

theorem marks_move (s : Flow) (name : String) (span : Span) :
    (s.move name span).marks = s.marks.set name true :=
  marks_modify (g := (·.move span)) (fun b => b.moved_move span) s name

theorem marks_renew (s : Flow) (name : String) : (s.renew name).marks = s.marks.set name false :=
  marks_modify (g := (·.renew)) (fun _ => rfl) s name

theorem marks_addBorrow (s : Flow) (name : String) (b : Borrow) :
    (s.addBorrow name b).marks = s.marks :=
  marks_modify_same (g := (·.addBorrow b)) (fun _ => rfl) s name

theorem marks_moveAll (s : Flow) (names : List String) (span : Span) :
    (s.moveAll names span).marks = names.foldl (fun m name => m.set name true) s.marks := by
  unfold moveAll
  induction names generalizing s with
  | nil => rfl
  | cons name names ih => rw [List.foldl_cons, List.foldl_cons, ih, marks_move]

theorem lookup_marks (s : Flow) (name : String) :
    s.marks.lookup name = (s.lookup name).map Binding.moved := by
  obtain ⟨frames⟩ := s
  unfold lookup marks Marks.lookup
  induction frames with
  | nil => rfl
  | cons f r ih =>
    cases hf : f.get? name with
    | some b => simp [frameMarks, hf]
    | none => simpa [frameMarks, hf] using ih

theorem get?_joinFrame (f other : Bindings) (name : String) :
    (joinFrame f other).get? name = (f.get? name).map
      fun b => if (other.get? name).any (·.moved) then b else b.renew := by
  have hfind := Table.find_mapEntries
    (fun n b => if (other.get? n).any (·.moved) then b else b.renew) name f.entries
  exact hfind

/-- Two frames, joined: what is moved in both. -/
theorem frameMarks_joinFrame (f other : Bindings) (name : String) :
    frameMarks (joinFrame f other) name =
      (frameMarks f name).map fun moved => moved && frameMarks other name == some true := by
  unfold frameMarks
  rw [get?_joinFrame]
  cases f.get? name with
  | none => rfl
  | some b =>
    have hrenew : b.renew.moved = false := rfl
    cases other.get? name with
    | none => simp [hrenew]
    | some c => cases hc : c.moved <;> simp [hc, hrenew]

theorem joinOuter_eq_zipWith {l m : List Bindings} (h : l.length = m.length) :
    joinOuter l m = List.zipWith joinFrame l m := by
  induction l generalizing m with
  | nil => simp [joinOuter]
  | cons f l ih =>
    cases m with
    | nil => cases h
    | cons g m => simp [joinOuter, ih (by simpa using h)]

theorem flag_zipWith_join {l m : List Bindings} (h : l.length = m.length) (d : Nat)
    (name : String) :
    Marks.flag ((List.zipWith joinFrame l m).map frameMarks) d name =
      (Marks.flag (l.map frameMarks) d name).map
        fun moved => moved && Marks.flag (m.map frameMarks) d name == some true := by
  induction l generalizing m d with
  | nil => simp
  | cons f l ih =>
    cases m with
    | nil => cases h
    | cons g m =>
      cases d with
      | zero => exact frameMarks_joinFrame f g name
      | succ d => simpa using ih (by simpa using h) d

/-- States of one depth are joined frame by frame. -/
theorem join_eq_zipWith {s t : Flow} (h : s.depth = t.depth) :
    s.join t = clearBorrows ⟨List.zipWith joinFrame s.frames t.frames⟩ := by
  unfold join
  rw [joinOuter_eq_zipWith (by simpa [depth] using h), ← List.reverse_zipWith h,
    List.reverse_reverse]

theorem flag_join {s t : Flow} (h : s.depth = t.depth) (d : Nat) (name : String) :
    (s.join t).marks.flag d name =
      (s.marks.flag d name).map fun moved => moved && t.marks.flag d name == some true := by
  rw [join_eq_zipWith h, clearBorrows, marks_keepBorrows]
  exact flag_zipWith_join h d name

theorem depth_join {s t : Flow} (h : s.depth = t.depth) : (s.join t).depth = s.depth := by
  rw [join_eq_zipWith h, clearBorrows, depth_keepBorrows]
  unfold depth
  rw [List.length_zipWith]
  exact Nat.min_eq_left (Nat.le_of_eq h)

theorem sameShape_join {s t : Flow} (h : s.depth = t.depth) :
    (s.join t).marks.SameShape s.marks := by
  refine ⟨by simp [depth_join h], fun d name => ?_⟩
  rw [flag_join h, Option.isSome_map]

/-- A name is marked after a join if it was marked on both sides. -/
theorem flag_join_eq_true {s t : Flow} (h : s.depth = t.depth) (d : Nat) (name : String) :
    (s.join t).marks.flag d name = some true ↔
      s.marks.flag d name = some true ∧ t.marks.flag d name = some true := by
  rw [flag_join h]
  cases s.marks.flag d name with
  | none => simp
  | some b => cases b <;> simp

end Flow

/-- The complaint that a moved value is used: the name and the place. -/
def OwnershipFault.movedUse? (f : Spanned OwnershipFault) : Option (String × Span) :=
  match f.node with
  | .useMoved name _ => some (name, f.span)
  | _ => none

namespace Walk

/-- The uses of moved values complained about so far, in order. -/
def movedUses (w : Walk) : List (String × Span) :=
  w.faults.toList.filterMap OwnershipFault.movedUse?

def view (w : Walk) : View := ⟨w.flow.marks, w.movedUses⟩

theorem view_onFlow {g : Flow → Flow} (w : Walk) (hg : (g w.flow).marks = w.flow.marks) :
    (w.onFlow g).view = w.view := by
  simp [view, onFlow, movedUses, hg]

theorem view_report (w : Walk) {fault : OwnershipFault} (span : Span)
    (hf : OwnershipFault.movedUse? ⟨span, fault⟩ = none) : (w.report fault span).view = w.view := by
  simp [view, report, movedUses, hf]

/-- A borrow moves nothing, and what stands in its way is not a use. -/
theorem view_borrow (w : Walk) (name : String) (b : Borrow) : (w.borrow name b).view = w.view := by
  unfold borrow
  split
  · rfl
  · rename_i c _
    split
    · rename_i fault hfault
      refine w.view_report b.span ?_
      unfold Binding.conflict? at hfault
      split at hfault <;> (try split at hfault) <;> cases hfault <;> rfl
    · exact w.view_onFlow (w.flow.marks_addBorrow name b)

theorem view_use (w : Walk) (name : String) (span : Span) : (w.use name span).view =
    ⟨w.flow.marks,
      w.movedUses ++ if w.flow.marks.lookup name = some true then [(name, span)] else []⟩ := by
  unfold use
  rw [Flow.lookup_marks]
  cases hb : w.flow.lookup name with
  | none => simp [view]
  | some b =>
    cases hm : b.moved with
    | false => simp [view, hm]
    | true => simp [view, hm, report, movedUses, OwnershipFault.movedUse?]

end Walk

end Sema
