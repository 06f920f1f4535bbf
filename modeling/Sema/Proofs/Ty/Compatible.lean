import Sema.Ty.Basic

/-!
# Types up to effect rows

Two types are compatible when they are the same tree, except that the rows of corresponding
function nodes may differ where one of the two is open. The relation is reflexive, symmetric
and stable under replacement of variables, but it is not transitive: an open row is compatible
with any two rows. On types without open rows it is equality. Types that a chain of compatible
ones connects are the same once their rows are left out, which is what `bare` does.
-/

namespace Sema

namespace Ty

mutual

/-- The same tree up to the rows of function nodes. -/
def compatible : Ty → Ty → Bool
  | .var v, .var w => v == w
  | .atom a, .atom b => a == b
  | .fn ps r e, .fn qs s f => compatibleAll ps qs && r.compatible s && e.compatible f
  | .app n as, .app m bs => n == m && compatibleAll as bs
  | .branded b s, .branded c t => b == c && s.compatible t
  | _, _ => false

def compatibleAll : List Ty → List Ty → Bool
  | [], [] => true
  | s :: r, t :: q => s.compatible t && compatibleAll r q
  | _, _ => false

end

mutual

/-- No function node of the type has an open row. -/
def closedRows : Ty → Bool
  | .var _ => true
  | .atom _ => true
  | .fn ps r e => closedRowsAll ps && r.closedRows && e != .openRow
  | .app _ args => closedRowsAll args
  | .branded _ base => base.closedRows

def closedRowsAll : List Ty → Bool
  | [] => true
  | t :: r => t.closedRows && closedRowsAll r

end

mutual

@[simp] theorem compatible_refl : (t : Ty) → t.compatible t = true
  | .var _ => by simp [compatible]
  | .atom _ => by simp [compatible]
  | .fn ps r _ => by simp [compatible, compatibleAll_refl ps, compatible_refl r]
  | .app _ args => by simp [compatible, compatibleAll_refl args]
  | .branded _ base => by simp [compatible, compatible_refl base]

@[simp] theorem compatibleAll_refl : (l : List Ty) → compatibleAll l l = true
  | [] => rfl
  | t :: r => by simp [compatibleAll, compatible_refl t, compatibleAll_refl r]

end

mutual

theorem compatible_comm : (s t : Ty) → s.compatible t = t.compatible s
  | .var _, t => by cases t <;> simp [compatible, Bool.beq_comm]
  | .atom _, t => by cases t <;> simp [compatible, Bool.beq_comm]
  | .fn ps r e, t => by
    cases t with
    | fn qs s f =>
      simp [compatible, compatibleAll_comm ps qs, compatible_comm r s, e.compatible_comm f]
    | _ => simp [compatible]
  | .app _ as, t => by
    cases t with
    | app _ bs => simp [compatible, compatibleAll_comm as bs, Bool.beq_comm]
    | _ => simp [compatible]
  | .branded _ s, t => by
    cases t with
    | branded _ u => simp [compatible, compatible_comm s u, Bool.beq_comm]
    | _ => simp [compatible]

theorem compatibleAll_comm : (l m : List Ty) → compatibleAll l m = compatibleAll m l
  | [], m => by cases m <;> simp [compatibleAll]
  | s :: r, m => by
    cases m with
    | nil => simp [compatibleAll]
    | cons t q => simp [compatibleAll, compatible_comm s t, compatibleAll_comm r q]

end

section Inversion

/-! What is compatible with a type has the same constructor at its root. -/

theorem eq_of_compatible_var {v : Nat} {t : Ty} (h : (Ty.var v).compatible t = true) :
    t = .var v := by
  cases t with
  | var w => rw [eq_of_beq h]
  | _ => simp [compatible] at h

theorem eq_of_compatible_atom {a : Atom} {t : Ty} (h : (Ty.atom a).compatible t = true) :
    t = .atom a := by
  cases t with
  | atom b => rw [eq_of_beq h]
  | _ => simp [compatible] at h

theorem fn_of_compatible {ps : List Ty} {r : Ty} {e : EffectRow} {t : Ty}
    (h : (Ty.fn ps r e).compatible t = true) : ∃ qs s f, t = .fn qs s f ∧
      compatibleAll ps qs = true ∧ r.compatible s = true ∧ e.compatible f = true := by
  cases t with
  | fn qs s f =>
    simp only [compatible, Bool.and_eq_true] at h
    exact ⟨qs, s, f, rfl, h.1.1, h.1.2, h.2⟩
  | _ => simp [compatible] at h

theorem app_of_compatible {n : String} {as : List Ty} {t : Ty}
    (h : (Ty.app n as).compatible t = true) :
    ∃ bs, t = .app n bs ∧ compatibleAll as bs = true := by
  cases t with
  | app m bs =>
    simp only [compatible, Bool.and_eq_true] at h
    rw [eq_of_beq h.1]
    exact ⟨bs, rfl, h.2⟩
  | _ => simp [compatible] at h

theorem branded_of_compatible {b : String} {s t : Ty}
    (h : (Ty.branded b s).compatible t = true) :
    ∃ u, t = .branded b u ∧ s.compatible u = true := by
  cases t with
  | branded c u =>
    simp only [compatible, Bool.and_eq_true] at h
    rw [eq_of_beq h.1]
    exact ⟨u, rfl, h.2⟩
  | _ => simp [compatible] at h

theorem nil_of_compatibleAll {l : List Ty} (h : compatibleAll [] l = true) : l = [] := by
  cases l with
  | nil => rfl
  | cons t q => simp [compatibleAll] at h

theorem cons_of_compatibleAll {s : Ty} {r l : List Ty} (h : compatibleAll (s :: r) l = true) :
    ∃ t q, l = t :: q ∧ s.compatible t = true ∧ compatibleAll r q = true := by
  cases l with
  | nil => simp [compatibleAll] at h
  | cons t q =>
    simp only [compatibleAll, Bool.and_eq_true] at h
    exact ⟨t, q, rfl, h⟩

end Inversion

mutual

/-- The same replacement on both sides keeps types compatible: where they are variables they
are the same variable. -/
theorem compatible_replace (f : Nat → Ty) : (s t : Ty) → s.compatible t = true →
    (s.replace f).compatible (t.replace f) = true
  | .var _, t, h => by
    rw [eq_of_compatible_var h]
    exact compatible_refl _
  | .atom _, t, h => by
    rw [eq_of_compatible_atom h]
    exact compatible_refl _
  | .fn ps r _, t, h => by
    obtain ⟨qs, s, _, rfl, hps, hr, he⟩ := fn_of_compatible h
    simp [replace, compatible, compatibleAll_replaceAll f ps qs hps,
      compatible_replace f r s hr, he]
  | .app _ as, t, h => by
    obtain ⟨bs, rfl, has⟩ := app_of_compatible h
    simp [replace, compatible, compatibleAll_replaceAll f as bs has]
  | .branded _ s, t, h => by
    obtain ⟨u, rfl, hs⟩ := branded_of_compatible h
    simp [replace, compatible, compatible_replace f s u hs]

theorem compatibleAll_replaceAll (f : Nat → Ty) : (l m : List Ty) → compatibleAll l m = true →
    compatibleAll (replaceAll f l) (replaceAll f m) = true
  | [], m, h => by
    rw [nil_of_compatibleAll h]
    rfl
  | s :: r, m, h => by
    obtain ⟨t, q, rfl, hs, hr⟩ := cons_of_compatibleAll h
    simp [replaceAll, compatibleAll, compatible_replace f s t hs,
      compatibleAll_replaceAll f r q hr]

end

mutual

/-- Compatible types have the same number of nodes. -/
theorem size_eq_of_compatible : (s t : Ty) → s.compatible t = true → s.size = t.size
  | .var _, t, h => by rw [eq_of_compatible_var h]
  | .atom _, t, h => by rw [eq_of_compatible_atom h]
  | .fn ps r _, t, h => by
    obtain ⟨qs, s, _, rfl, hps, hr, _⟩ := fn_of_compatible h
    simp [size, sizeAll_eq_of_compatibleAll ps qs hps, size_eq_of_compatible r s hr]
  | .app _ as, t, h => by
    obtain ⟨bs, rfl, has⟩ := app_of_compatible h
    simp [size, sizeAll_eq_of_compatibleAll as bs has]
  | .branded _ s, t, h => by
    obtain ⟨u, rfl, hs⟩ := branded_of_compatible h
    simp [size, size_eq_of_compatible s u hs]

theorem sizeAll_eq_of_compatibleAll : (l m : List Ty) → compatibleAll l m = true →
    sizeAll l = sizeAll m
  | [], m, h => by rw [nil_of_compatibleAll h]
  | s :: r, m, h => by
    obtain ⟨t, q, rfl, hs, hr⟩ := cons_of_compatibleAll h
    simp [sizeAll, size_eq_of_compatible s t hs, sizeAll_eq_of_compatibleAll r q hr]

end

theorem length_eq_of_compatibleAll : {l m : List Ty} → compatibleAll l m = true →
    l.length = m.length
  | [], m, h => by rw [nil_of_compatibleAll h]
  | _ :: r, m, h => by
    obtain ⟨_, q, rfl, _, hr⟩ := cons_of_compatibleAll h
    rw [List.length_cons, List.length_cons, length_eq_of_compatibleAll hr]

mutual

/-- Without open rows compatibility is equality. -/
theorem eq_of_compatible : (s t : Ty) → s.closedRows = true → t.closedRows = true →
    s.compatible t = true → s = t
  | .var _, t, _, _, h => (eq_of_compatible_var h).symm
  | .atom _, t, _, _, h => (eq_of_compatible_atom h).symm
  | .fn ps r e, t, hs, ht, h => by
    obtain ⟨qs, s, f, rfl, hps, hr, hrows⟩ := fn_of_compatible h
    simp only [closedRows, Bool.and_eq_true] at hs ht
    have he : e = f := by
      cases e <;> cases f <;> simp_all [EffectRow.compatible]
    rw [allEq_of_compatibleAll ps qs hs.1.1 ht.1.1 hps, eq_of_compatible r s hs.1.2 ht.1.2 hr, he]
  | .app _ as, t, hs, ht, h => by
    obtain ⟨bs, rfl, has⟩ := app_of_compatible h
    rw [allEq_of_compatibleAll as bs hs ht has]
  | .branded _ s, t, hs, ht, h => by
    obtain ⟨u, rfl, hsu⟩ := branded_of_compatible h
    rw [eq_of_compatible s u hs ht hsu]

theorem allEq_of_compatibleAll : (l m : List Ty) → closedRowsAll l = true →
    closedRowsAll m = true → compatibleAll l m = true → l = m
  | [], m, _, _, h => (nil_of_compatibleAll h).symm
  | s :: r, m, hl, hm, h => by
    obtain ⟨t, q, rfl, hs, hr⟩ := cons_of_compatibleAll h
    simp only [closedRowsAll, Bool.and_eq_true] at hl hm
    rw [eq_of_compatible s t hl.1 hm.1 hs, allEq_of_compatibleAll r q hl.2 hm.2 hr]

end

mutual

theorem closedRows_replace (f : Nat → Ty) (hf : ∀ v, (f v).closedRows = true) :
    (t : Ty) → t.closedRows = true → (t.replace f).closedRows = true
  | .var v, _ => hf v
  | .atom _, h => h
  | .fn ps r _, h => by
    simp only [closedRows, Bool.and_eq_true] at h
    simp [replace, closedRows, closedRowsAll_replaceAll f hf ps h.1.1,
      closedRows_replace f hf r h.1.2, h.2]
  | .app _ args, h => closedRowsAll_replaceAll f hf args h
  | .branded _ base, h => closedRows_replace f hf base h

theorem closedRowsAll_replaceAll (f : Nat → Ty) (hf : ∀ v, (f v).closedRows = true) :
    (l : List Ty) → closedRowsAll l = true → closedRowsAll (replaceAll f l) = true
  | [], _ => rfl
  | t :: r, h => by
    simp only [closedRowsAll, Bool.and_eq_true] at h
    simp [replaceAll, closedRowsAll, closedRows_replace f hf t h.1,
      closedRowsAll_replaceAll f hf r h.2]

end

mutual

/-- The tree of the type, with every row open. -/
def bare : Ty → Ty
  | .var v => .var v
  | .atom a => .atom a
  | .fn ps r _ => .fn (bareAll ps) r.bare .openRow
  | .app n as => .app n (bareAll as)
  | .branded b t => .branded b t.bare

def bareAll : List Ty → List Ty
  | [] => []
  | t :: r => t.bare :: bareAll r

end

theorem bareAll_eq_map (l : List Ty) : bareAll l = l.map bare := by
  induction l with
  | nil => rfl
  | cons t r ih => rw [bareAll, ih, List.map_cons]

mutual

theorem bare_eq_of_compatible : (s t : Ty) → s.compatible t = true → s.bare = t.bare
  | .var _, t, h => by rw [eq_of_compatible_var h]
  | .atom _, t, h => by rw [eq_of_compatible_atom h]
  | .fn ps r _, t, h => by
    obtain ⟨qs, s, _, rfl, hps, hr, _⟩ := fn_of_compatible h
    rw [bare, bare, bareAll_eq_of_compatibleAll ps qs hps, bare_eq_of_compatible r s hr]
  | .app _ as, t, h => by
    obtain ⟨bs, rfl, has⟩ := app_of_compatible h
    rw [bare, bare, bareAll_eq_of_compatibleAll as bs has]
  | .branded _ s, t, h => by
    obtain ⟨u, rfl, hs⟩ := branded_of_compatible h
    rw [bare, bare, bare_eq_of_compatible s u hs]

theorem bareAll_eq_of_compatibleAll : (l m : List Ty) → compatibleAll l m = true →
    bareAll l = bareAll m
  | [], m, h => by rw [nil_of_compatibleAll h]
  | s :: r, m, h => by
    obtain ⟨t, q, rfl, hs, hr⟩ := cons_of_compatibleAll h
    rw [bareAll, bareAll, bare_eq_of_compatible s t hs, bareAll_eq_of_compatibleAll r q hr]

end

end Ty

end Sema
