import Sema.Typing.Program

/-!
# What a check does to its session

Everything that happens to a session is one of a few events: a variable is taken, a constraint
collected, a fault reported, a type recorded, and so on. A check emits a list of events, and
the session after it is the session before it with the events replayed. Which events a check
can emit is said once for each function of the checker; what holds of every session between
two points then follows from what one event does.

A check complains and never looks at the complaints: neither its events nor its result depend
on the faults reported before.
-/

namespace Sema

/-- A fault of one place of the program: neither one that only the check of effects finds, nor
the verdict of the solver on all constraints. -/
def TypeFault.isRoutine : TypeFault → Bool
  | awaitOutside | undeclaredEffect .. | unsolved _ => false
  | _ => true

/-- The fault of a member access whose receiver stays unknown. -/
def TypeFault.isAmbiguous : TypeFault → Bool
  | ambiguousField _ | ambiguousMethod _ => true
  | _ => false

/-- The session with other faults. -/
def Session.withFaults (s : Session) (faults : Array (Spanned TypeFault)) : Session :=
  { s with faults }

/-- One change of a session. -/
inductive Event where
  | fresh (n : Nat)
  | constrain (c : Constraint)
  | report (f : Spanned TypeFault)
  | record (id : ExprId) (t : Ty)
  | defer (d : Deferred)
  | site (x : EffectSite)
  | generic (v : Nat) (c : GenericCheck)
  | solve

namespace Event

def apply : Event → Session → Session
  | fresh n, s => { s with nextVar := s.nextVar + n }
  | constrain c, s => { s with constraints := s.constraints.push c }
  | report f, s => { s with faults := s.faults.push f }
  | record id t, s => { s with typed := (id, t) :: s.typed }
  | defer d, s => { s with deferred := s.deferred.push d }
  | site x, s => { s with sites := s.sites.push x }
  | generic v c, s => { s with generics := s.generics.insertNew v c }
  | solve, s => { s with solver := s.solver.solve s.constraints }

/-- What the lowering of types and declarations does: no more than take variables and complain,
and that not about the receivers of member accesses. -/
def IsDeclaring : Event → Prop
  | fresh _ => True
  | report f => f.node.isRoutine = true ∧ f.node.isAmbiguous = false
  | _ => False

/-- What the check of patterns does, which may constrain as well. -/
def IsNote : Event → Prop
  | fresh _ | constrain _ => True
  | report f => f.node.isRoutine = true ∧ f.node.isAmbiguous = false
  | _ => False

/-- Whatever does not record the type of an expression and is routine. -/
def IsQuiet : Event → Prop
  | record .. => False
  | report f => f.node.isRoutine = true
  | _ => True

/-- Whatever does not record the type of an expression. -/
def IsUntyped : Event → Prop
  | record .. => False
  | _ => True

theorem IsDeclaring.isNote {e : Event} (h : e.IsDeclaring) : e.IsNote := by
  cases e <;> simp_all [IsDeclaring, IsNote]

theorem IsNote.isQuiet {e : Event} (h : e.IsNote) : e.IsQuiet := by
  cases e <;> simp_all [IsNote, IsQuiet]

theorem IsQuiet.isUntyped {e : Event} (h : e.IsQuiet) : e.IsUntyped := by
  cases e <;> simp_all [IsQuiet, IsUntyped]

theorem apply_withFaults (e : Event) (s : Session) (fs : Array (Spanned TypeFault)) :
    e.apply (s.withFaults fs) = (e.apply s).withFaults (e.apply (s.withFaults fs)).faults := by
  cases e <;> rfl

end Event

/-- The session after some events. -/
def replay (l : List Event) (s : Session) : Session := l.foldl (fun s e => e.apply s) s

@[simp] theorem replay_append (l m : List Event) (s : Session) :
    replay (l ++ m) s = replay m (replay l s) := by
  simp [replay, List.foldl_append]

/-- Events do the same whatever has been reported before. -/
theorem replay_withFaults (l : List Event) (s : Session) (fs : Array (Spanned TypeFault)) :
    replay l (s.withFaults fs) = (replay l s).withFaults (replay l (s.withFaults fs)).faults := by
  induction l generalizing s fs with
  | nil => rfl
  | cons e l ih =>
    have hstep := e.apply_withFaults s fs
    have hrest := ih (e.apply s) (e.apply (s.withFaults fs)).faults
    rw [← hstep] at hrest
    exact hrest

/-- Some events of the kind `K` lead from one session to the other. -/
def Leads (K : Event → Prop) (s t : Session) : Prop := ∃ l, (∀ e ∈ l, K e) ∧ t = replay l s

namespace Leads

variable {K : Event → Prop}

theorem refl (s : Session) : Leads K s s := ⟨[], by simp, rfl⟩

theorem trans {s t u : Session} (h : Leads K s t) (k : Leads K t u) : Leads K s u := by
  obtain ⟨l, hl, rfl⟩ := h
  obtain ⟨m, hm, rfl⟩ := k
  refine ⟨l ++ m, fun e he => ?_, by simp⟩
  rcases List.mem_append.mp he with he | he
  · exact hl e he
  · exact hm e he

theorem event {e : Event} (h : K e) (s : Session) : Leads K s (e.apply s) :=
  ⟨[e], by simpa using h, rfl⟩

theorem mono {L : Event → Prop} {s t : Session} (h : Leads K s t) (hKL : ∀ e, K e → L e) :
    Leads L s t := by
  obtain ⟨l, hl, rfl⟩ := h
  exact ⟨l, fun e he => hKL e (hl e he), rfl⟩

/-- A relation that holds across every single event holds across all of them. -/
theorem induct {R : Session → Session → Prop} (hrefl : ∀ s, R s s)
    (htrans : ∀ s t u, R s t → R t u → R s u) (hstep : ∀ e s, K e → R s (e.apply s))
    {s t : Session} (h : Leads K s t) : R s t := by
  obtain ⟨l, hl, rfl⟩ := h
  induction l generalizing s with
  | nil => exact hrefl s
  | cons e l ih =>
    exact htrans _ _ _ (hstep e s (hl e (by simp))) (ih fun d hd => hl d (by simp [hd]))

end Leads

/-- The check emits no events but those of the kind `K`, and neither they nor its result depend
on what has been reported before. -/
def Emits (K : Event → Prop) {α : Type} (m : Check α) : Prop :=
  ∀ s, ∃ l, (∀ e ∈ l, K e) ∧
    ∀ fs, m.run (s.withFaults fs) = ((m.run s).1, replay l (s.withFaults fs))

namespace Emits

variable {K : Event → Prop} {α β : Type}

theorem leads {m : Check α} (hm : Emits K m) (s : Session) : Leads K s (m.run s).2 := by
  obtain ⟨l, hl, hrun⟩ := hm s
  exact ⟨l, hl, congrArg Prod.snd (hrun s.faults)⟩

/-- A check that changes nothing. -/
theorem read {m : Check α} (hm : ∀ s fs, m.run (s.withFaults fs) = ((m.run s).1, s.withFaults fs)) :
    Emits K m :=
  fun s => ⟨[], by simp, hm s⟩

theorem pure (a : α) : Emits K (pure a : Check α) := .read fun _ _ => rfl

theorem event {e : Event} (he : K e) {m : Check α}
    (hm : ∀ s fs, m.run (s.withFaults fs) = ((m.run s).1, e.apply (s.withFaults fs))) :
    Emits K m :=
  fun s => ⟨[e], by simpa using he, hm s⟩

theorem bind {m : Check α} {f : α → Check β} (hm : Emits K m) (hf : ∀ a, Emits K (f a)) :
    Emits K (m >>= f) := by
  intro s
  obtain ⟨l, hl, hfirst⟩ := hm s
  obtain ⟨k, hk, hsecond⟩ := hf (m.run s).1 (m.run s).2
  have hafter : (m.run s).2 = replay l s := congrArg Prod.snd (hfirst s.faults)
  refine ⟨l ++ k, fun e he => ?_, fun fs => ?_⟩
  · rcases List.mem_append.mp he with he | he
    · exact hl e he
    · exact hk e he
  · have hreplay := replay_withFaults l s fs
    rw [← hafter] at hreplay
    have hrun := hsecond (replay l (s.withFaults fs)).faults
    rw [← hreplay, ← replay_append] at hrun
    rw [StateT.run_bind, hfirst fs]
    exact hrun

theorem mono {L : Event → Prop} {m : Check α} (hm : Emits K m) (hKL : ∀ e, K e → L e) :
    Emits L m := by
  intro s
  obtain ⟨l, hl, hrun⟩ := hm s
  exact ⟨l, fun e he => hKL e (hl e he), hrun⟩

theorem forM {f : α → Check Unit} (hf : ∀ a, Emits K (f a)) (l : List α) :
    Emits K (l.forM f) := by
  induction l with
  | nil => exact .pure _
  | cons a l ih => exact (hf a).bind fun _ => ih

theorem forIn {f : α → Check Unit} (hf : ∀ a, Emits K (f a)) (l : List α) :
    Emits K (forIn l PUnit.unit fun a _ => do
      f a
      Pure.pure (ForInStep.yield PUnit.unit) : Check PUnit) := by
  induction l with
  | nil => exact .pure _
  | cons a l ih =>
    rw [List.forIn_cons]
    exact ((hf a).bind fun _ => .pure _).bind fun r => by
      cases r with
      | done _ => exact .pure _
      | yield _ => exact ih

theorem mapM {f : α → Check β} (hf : ∀ a, Emits K (f a)) (l : List α) :
    Emits K (l.mapM f) := by
  induction l with
  | nil =>
    rw [List.mapM_nil]
    exact .pure _
  | cons a l ih =>
    rw [List.mapM_cons]
    exact (hf a).bind fun _ => ih.bind fun _ => .pure _

theorem foldlM {f : β → α → Check β} (hf : ∀ b a, Emits K (f b a)) (l : List α) (b : β) :
    Emits K (l.foldlM f b) := by
  induction l generalizing b with
  | nil => exact .pure b
  | cons a l ih =>
    rw [List.foldlM_cons]
    exact (hf b a).bind fun c => ih c

end Emits

/-- Taking variables and complaining only. -/
abbrev Declaring {α : Type} (m : Check α) : Prop := Emits Event.IsDeclaring m

/-- Taking variables, constraining and complaining only. -/
abbrev Notes {α : Type} (m : Check α) : Prop := Emits Event.IsNote m

/-- Anything routine but recording types. -/
abbrev Quiet {α : Type} (m : Check α) : Prop := Emits Event.IsQuiet m

theorem Emits.notes {α : Type} {m : Check α} (h : Declaring m) : Notes m :=
  h.mono fun _ => Event.IsDeclaring.isNote

theorem Emits.quiet {α : Type} {m : Check α} (h : Notes m) : Quiet m :=
  h.mono fun _ => Event.IsNote.isQuiet

theorem freshVar_declaring : Declaring freshVar := .event (e := .fresh 1) trivial fun _ _ => rfl

theorem fresh_declaring : Declaring fresh := freshVar_declaring.bind fun _ => .pure _

theorem freshMany_declaring : (n : Nat) → Declaring (freshMany n)
  | 0 => .pure _
  | n + 1 => fresh_declaring.bind fun _ => (freshMany_declaring n).bind fun _ => .pure _

theorem freshVar_notes : Notes freshVar := freshVar_declaring.notes

theorem fresh_notes : Notes fresh := fresh_declaring.notes

theorem freshMany_notes (n : Nat) : Notes (freshMany n) := (freshMany_declaring n).notes

theorem instantiate_notes (scheme : Scheme) : Notes (instantiate scheme) :=
  .event (e := .fresh scheme.vars.length) trivial fun _ _ => rfl

theorem constrain_notes (expected actual : Ty) (span : Span) (origin : Origin) :
    Notes (constrain expected actual span origin) :=
  .event (e := .constrain { expected, actual, span, origin }) trivial fun _ _ => rfl

theorem report_emits {K : Event → Prop} (fault : TypeFault) (span : Span)
    (h : K (.report ⟨span, fault⟩)) : Emits K (report fault span) :=
  .event h fun _ _ => rfl

theorem report_declaring (fault : TypeFault) (span : Span) (h : fault.isRoutine = true)
    (h' : fault.isAmbiguous = false) : Declaring (report fault span) :=
  report_emits fault span ⟨h, h'⟩

theorem report_notes (fault : TypeFault) (span : Span) (h : fault.isRoutine = true)
    (h' : fault.isAmbiguous = false) : Notes (report fault span) :=
  (report_declaring fault span h h').notes

theorem reportFresh_declaring (fault : TypeFault) (span : Span) (h : fault.isRoutine = true)
    (h' : fault.isAmbiguous = false) : Declaring (reportFresh fault span) :=
  (report_declaring fault span h h').bind fun _ => fresh_declaring

theorem reportFresh_notes (fault : TypeFault) (span : Span) (h : fault.isRoutine = true)
    (h' : fault.isAmbiguous = false) : Notes (reportFresh fault span) :=
  (reportFresh_declaring fault span h h').notes

theorem supply_declaring : (generics : List GenericParam) → (types : List Ty) →
    Declaring (supply generics types)
  | [], _ => .pure _
  | _ :: r, _ :: ts => (supply_declaring r ts).bind fun _ => .pure _
  | _ :: r, [] => fresh_declaring.bind fun _ => (supply_declaring r []).bind fun _ => .pure _

theorem supply_notes (generics : List GenericParam) (types : List Ty) :
    Notes (supply generics types) :=
  (supply_declaring generics types).notes

theorem instantiateNominal_notes (name : String) (generics : List GenericParam) :
    Notes (instantiateNominal name generics) :=
  (supply_notes generics []).bind fun _ => .pure _

end Sema
