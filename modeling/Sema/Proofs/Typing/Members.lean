import Sema.Proofs.Typing.Settling

/-!
# Member accesses that have been settled

A round of settling resolves every access whose receiver has become known and keeps the others
waiting; when a round makes no progress, what waits is ambiguous. So where settling ends, every
access that was open at the start has been resolved at some point on the way, in a session with
all its constraints solved and with a receiver known there, or has been found ambiguous.
-/

namespace Sema

/-- From a session with `P` the computation gives a result and a session with `Q`, unless it
fails, and it only adds. -/
def Settles {α : Type} (P : Session → Prop) (m : Settle α) (Q : α → Session → Prop) : Prop :=
  ∀ s, P s → ∀ a t, m.run.run s = (.ok a, t) → Grows s t ∧ Q a t

namespace Settles

variable {α β : Type} {P : Session → Prop} {Q : α → Session → Prop} {R : β → Session → Prop}

theorem pure {a : α} (h : ∀ s, P s → Q a s) : Settles P (pure a : Settle α) Q := by
  intro s hs b t hrun
  cases hrun
  exact ⟨.refl s, h s hs⟩

theorem bind {m : Settle α} {f : α → Settle β} (hm : Settles P m Q)
    (hf : ∀ a, Settles (Q a) (f a) R) : Settles P (m >>= f) R := by
  intro s hs b t hrun
  rw [ExceptT.run_bind, StateT.run_bind] at hrun
  rcases hmrun : m.run.run s with ⟨e | a, r⟩
  · rw [hmrun] at hrun
    cases congrArg Prod.fst hrun
  · rw [hmrun] at hrun
    obtain ⟨hsr, hr⟩ := hm s hs a r hmrun
    obtain ⟨hrt, ht⟩ := hf a r hr b t hrun
    exact ⟨hsr.trans hrt, ht⟩

/-- What lasts while a session grows is kept. -/
theorem frame {m : Settle α} {F : Session → Prop} (hm : Settles P m Q)
    (hF : ∀ s t, Grows s t → F s → F t) :
    Settles (fun s => P s ∧ F s) m fun a t => Q a t ∧ F t := by
  rintro s ⟨hs, hf⟩ a t hrun
  obtain ⟨hgrows, hq⟩ := hm s hs a t hrun
  exact ⟨hgrows, hq, hF s t hgrows hf⟩

theorem get : Settles P (get : Settle Session) fun s t => t = s ∧ P t := by
  intro s hs a t hrun
  cases hrun
  exact ⟨.refl s, rfl, hs⟩

theorem mono {m : Settle α} {P' : Session → Prop} {Q' : α → Session → Prop}
    (hm : Settles P m Q) (hP : ∀ s, P' s → P s) (hQ : ∀ a t, Q a t → Q' a t) :
    Settles P' m Q' := by
  intro s hs a t hrun
  obtain ⟨hgrows, hq⟩ := hm s (hP s hs) a t hrun
  exact ⟨hgrows, hQ a t hq⟩

end Settles

theorem Brings.settles {α : Type} {P Q : Session → Prop} {m : Settle α} (h : Brings P Q m) :
    Settles P m fun _ t => Q t := by
  intro s hs a t hrun
  obtain ⟨hleads, hok, -⟩ := h s hs
  rw [hrun] at hleads hok
  exact ⟨hleads.grows, hok a rfl⟩

theorem Grows.mem_deferred {s t : Session} (h : Grows s t) {d : Deferred}
    (hd : d ∈ s.deferred.toList) : d ∈ t.deferred.toList := by
  obtain ⟨l, hl⟩ := h.deferred
  rw [hl]
  exact List.mem_append_left l hd

namespace Deferred

/-- On the way to `t` the access has been resolved, with a receiver known by then. -/
def Resolved (sc : TypeScope) (methods : Methods) (t : Session) (d : Deferred) : Prop :=
  ∃ r, r.Solved ∧ (r.solver.apply d.receiver).asVar = none ∧
    Grows (after (resolveMember sc methods (r.solver.apply d.receiver) d) r) t

/-- On the way to `t` the access has been found ambiguous. -/
def Ambiguous (t : Session) (d : Deferred) : Prop :=
  ∃ r, Grows ((settleAmbiguous d).run.run r).2 t

variable {sc : TypeScope} {methods : Methods} {d : Deferred} {s t : Session}

theorem Resolved.of_grows (h : d.Resolved sc methods s) (hst : Grows s t) :
    d.Resolved sc methods t := by
  obtain ⟨r, hr, hknown, hgrows⟩ := h
  exact ⟨r, hr, hknown, hgrows.trans hst⟩

theorem Ambiguous.of_grows (h : d.Ambiguous s) (hst : Grows s t) : d.Ambiguous t := by
  obtain ⟨r, hgrows⟩ := h
  exact ⟨r, hgrows.trans hst⟩

/-- A field of an unknown type is a fault. -/
theorem Ambiguous.faults {base result : Ty} {name : String} {span : Span}
    (h : (Deferred.field base name result span).Ambiguous t) : t.faults ≠ #[] := by
  obtain ⟨r, hgrows⟩ := h
  exact faults_of_report hgrows

/-- So is a method of one. -/
theorem Ambiguous.faults_method {call : MemberCall} (h : (Deferred.method call).Ambiguous t) :
    t.faults ≠ #[] := by
  obtain ⟨r, hgrows⟩ := h
  exact faults_of_report hgrows

end Deferred

section Rounds

variable (sc : TypeScope) (methods : Methods)

/-- An access resolved now counts as resolved from here on. -/
theorem resolveMember_resolves (d : Deferred) (s : Session)
    (hknown : (s.solver.apply d.receiver).asVar = none) :
    Settles (fun t => t = s ∧ t.Solved)
      (liftM (resolveMember sc methods (s.solver.apply d.receiver) d) : Settle Unit)
      fun _ t => t.Solving ∧ d.Resolved sc methods t := by
  rintro r ⟨rfl, hr⟩ _ t hrun
  have hgrows := (resolveMember_quiet sc methods (r.solver.apply d.receiver) d).growing r
  have ht : after (resolveMember sc methods (r.solver.apply d.receiver) d) r = t :=
    congrArg Prod.snd hrun
  rw [← ht]
  exact ⟨hgrows, hgrows.solving hr.solving, r, hr, hknown, .refl _⟩

theorem settleRound_resolves (pending : List Deferred) :
    Settles Session.Solving (settleRound sc methods pending) fun waiting t =>
      t.Solved ∧ ∀ d ∈ pending, d ∈ waiting ∨ d.Resolved sc methods t := by
  induction pending with
  | nil => exact solveAll_brings.settles.bind fun _ => .pure fun s hs => ⟨hs, by simp⟩
  | cons d r ih =>
    refine solveAll_brings.settles.bind fun _ => Settles.get.bind fun s => ?_
    dsimp only
    split
    · have hrest := ih.mono (fun t (ht : t = s ∧ t.Solved) => ht.2.solving) fun _ _ => id
      refine hrest.bind fun waiting => .pure fun t ⟨ht, hmem⟩ => ⟨ht, ?_⟩
      intro e he
      rcases List.mem_cons.mp he with rfl | he
      · exact .inl List.mem_cons_self
      · exact (hmem e he).imp_left (List.mem_cons_of_mem _)
    · rename_i hknown
      have hnow := resolveMember_resolves sc methods d s (by simpa using hknown)
      have hrest := ih.frame (F := d.Resolved sc methods) fun _ _ hst h => h.of_grows hst
      refine (hnow.bind fun _ => hrest).mono (fun _ => id) ?_
      rintro waiting t ⟨⟨ht, hmem⟩, hd⟩
      refine ⟨ht, fun e he => ?_⟩
      rcases List.mem_cons.mp he with rfl | he
      · exact .inr hd
      · exact hmem e he

theorem settleAmbiguous_all (l : List Deferred) :
    Settles Session.Solved (l.forM settleAmbiguous) fun _ t =>
      t.Solved ∧ ∀ d ∈ l, d.Ambiguous t := by
  induction l with
  | nil => exact .pure fun s hs => ⟨hs, by simp⟩
  | cons d r ih =>
    have hnow : Settles Session.Solved (settleAmbiguous d) fun _ t =>
        t.Solved ∧ d.Ambiguous t := by
      intro s hs a t hrun
      obtain ⟨hgrows, ht⟩ := (settleAmbiguous_brings d).settles s hs a t hrun
      have hd : d.Ambiguous t := ⟨s, by rw [hrun]; exact .refl t⟩
      exact ⟨hgrows, ht, hd⟩
    have hrest := ih.frame (F := d.Ambiguous) fun _ _ hst h => h.of_grows hst
    refine (hnow.bind fun _ => hrest).mono (fun _ => id) ?_
    rintro _ t ⟨⟨ht, hmem⟩, hd⟩
    refine ⟨ht, fun e he => ?_⟩
    rcases List.mem_cons.mp he with rfl | he
    · exact hd
    · exact hmem e he

/-- Settling misses no access. -/
theorem settle_resolves (pending : List Deferred) :
    Settles Session.Solved (settle sc methods pending) fun _ t =>
      t.Solved ∧ ∀ d ∈ pending, d.Resolved sc methods t ∨ d.Ambiguous t := by
  induction hn : pending.length using Nat.strongRecOn generalizing pending with
  | ind n ih =>
    rw [settle]
    split
    · rename_i hempty
      have hnil : pending = [] := by simpa using hempty
      exact .pure fun s hs => ⟨hs, by simp [hnil]⟩
    · have hround := (settleRound_resolves sc methods pending).mono
        (fun _ => Session.Solved.solving) fun _ _ => id
      refine hround.bind fun waiting => ?_
      have hframe : ∀ s t, Grows s t →
          (∀ d ∈ pending, d ∈ waiting ∨ d.Resolved sc methods s) →
          ∀ d ∈ pending, d ∈ waiting ∨ d.Resolved sc methods t :=
        fun s t hst h d hd => (h d hd).imp_right (·.of_grows hst)
      split
      · rename_i hlt
        refine ((ih waiting.length (hn ▸ hlt) waiting rfl).frame hframe).mono (fun _ => id) ?_
        rintro _ t ⟨⟨ht, hwaiting⟩, hmem⟩
        refine ⟨ht, fun d hd => ?_⟩
        rcases hmem d hd with h | h
        · exact hwaiting d h
        · exact .inl h
      · refine ((settleAmbiguous_all waiting).frame hframe).mono (fun _ => id) ?_
        rintro _ t ⟨⟨ht, hwaiting⟩, hmem⟩
        refine ⟨ht, fun d hd => ?_⟩
        rcases hmem d hd with h | h
        · exact .inr (hwaiting d h)
        · exact .inl h

theorem solveProgram_resolves (d : Deferred) :
    Settles (fun s => s.Solving ∧ d ∈ s.deferred.toList) (solveProgram sc methods) fun _ t =>
      d.Resolved sc methods t ∨ d.Ambiguous t := by
  have hsolve := solveAll_brings.settles.frame (F := fun s => d ∈ s.deferred.toList)
    fun _ _ hst => hst.mem_deferred
  refine hsolve.bind fun _ => Settles.get.bind fun s => ?_
  intro r ⟨hr, hsolved, hmem⟩ a t hrun
  obtain ⟨hgrows, -, hall⟩ := settle_resolves sc methods s.deferred.toList r hsolved a t hrun
  exact ⟨hgrows, hall d (hr ▸ hmem)⟩

/-- A check that ends solved has found out about every access. -/
theorem finish_accesses (checkEffects : Bool) {s : Session} (hs : s.Solving)
    (hok : ((finish sc methods checkEffects).run s).1 = true) {d : Deferred}
    (hmem : d ∈ s.deferred.toList) :
    d.Resolved sc methods ((finish sc methods checkEffects).run s).2 ∨
      d.Ambiguous ((finish sc methods checkEffects).run s).2 := by
  obtain ⟨t, hrun, htail⟩ := finish_reports hok
  obtain ⟨-, hd⟩ := solveProgram_resolves sc methods d s ⟨hs, hmem⟩ () t hrun
  exact hd.imp (·.of_grows htail.grows) (·.of_grows htail.grows)

/-- A check that ends solved and without a fault has resolved every field access. -/
theorem finish_resolves (checkEffects : Bool) {s : Session} (hs : s.Solving)
    (hok : ((finish sc methods checkEffects).run s).1 = true)
    (hfaults : ((finish sc methods checkEffects).run s).2.faults = #[])
    {base result : Ty} {name : String} {span : Span}
    (hmem : Deferred.field base name result span ∈ s.deferred.toList) :
    (Deferred.field base name result span).Resolved sc methods
      ((finish sc methods checkEffects).run s).2 :=
  (finish_accesses sc methods checkEffects hs hok hmem).resolve_right fun hd => hd.faults hfaults

end Rounds

end Sema
