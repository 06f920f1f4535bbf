import Mathlib.Data.List.Range
import Sema.Ty.Scheme

/-!
# Substitution under quantifiers

Two schemes are the same but for the names of their quantified variables if they have the same
instances whenever the fresh variables are beyond all others. To substitute in a scheme is to
replace its free variables and to keep the others quantified, under names that no replacement
mentions. Replacing all variables of the body in place comes to the same thing exactly if it
leaves the quantified ones alone and brings none of them in.
-/

namespace Sema

namespace Ty

mutual

theorem eq_of_replace_eq {f g : Nat → Ty} : (t : Ty) → t.replace f = t.replace g →
    ∀ v ∈ t.vars, f v = g v
  | .var w, h, v, hv => by
    obtain rfl := List.mem_singleton.mp hv
    exact h
  | .atom _, _, v, hv => by simp [vars] at hv
  | .fn params ret _, h, v, hv => by
    obtain ⟨hparams, hret, -⟩ := fn.inj h
    rcases List.mem_append.mp hv with hv | hv
    · exact eq_of_replaceAll_eq params hparams v hv
    · exact eq_of_replace_eq ret hret v hv
  | .app _ args, h, v, hv => eq_of_replaceAll_eq args (app.inj h).2 v hv
  | .branded _ base, h, v, hv => eq_of_replace_eq base (branded.inj h).2 v hv

theorem eq_of_replaceAll_eq {f g : Nat → Ty} : (l : List Ty) → replaceAll f l = replaceAll g l →
    ∀ v ∈ varsAll l, f v = g v
  | [], _, v, hv => by simp [varsAll] at hv
  | t :: r, h, v, hv => by
    obtain ⟨ht, hr⟩ := List.cons.inj h
    rcases List.mem_append.mp hv with hv | hv
    · exact eq_of_replace_eq t ht v hv
    · exact eq_of_replaceAll_eq r hr v hv

end

theorem replace_eq_iff {f g : Nat → Ty} {t : Ty} :
    t.replace f = t.replace g ↔ ∀ v ∈ t.vars, f v = g v :=
  ⟨eq_of_replace_eq t, replace_congr f g t⟩

theorem replace_eq_self_iff {f : Nat → Ty} {t : Ty} :
    t.replace f = t ↔ ∀ v ∈ t.vars, f v = .var v := by
  have h := replace_eq_iff (f := f) (g := .var) (t := t)
  rwa [replace_var] at h

end Ty

/-- A number greater than all of the list. -/
def beyond (l : List Nat) : Nat := l.foldr (fun v n => max (v + 1) n) 0

theorem lt_beyond {l : List Nat} {v : Nat} (h : v ∈ l) : v < beyond l := by
  induction l with
  | nil => cases h
  | cons w r ih =>
    have hmax : beyond (w :: r) = max (w + 1) (beyond r) := rfl
    rcases List.mem_cons.mp h with rfl | h
    · omega
    · have := ih h
      omega

/-- The variables that a replacement brings in for those of the list. -/
def broughtIn (θ : Nat → Ty) (l : List Nat) : List Nat := l.flatMap fun v => (θ v).vars

theorem mem_broughtIn {θ : Nat → Ty} {l : List Nat} {v w : Nat} (hv : v ∈ l)
    (hw : w ∈ (θ v).vars) : w ∈ broughtIn θ l :=
  List.mem_flatMap.mpr ⟨v, hv, hw⟩

namespace Scheme

section Fresh

/-- The number that an instance gives to a quantified variable goes by its place. -/
theorem exists_fresh_eq {l : List Nat} {v : Nat} (h : v ∈ l) :
    ∃ i, l[i]? = some v ∧ ∀ next, fresh l next v = .var (next + i) := by
  induction l with
  | nil => cases h
  | cons w r ih =>
    by_cases hr : v ∈ r
    · obtain ⟨i, hi, hfresh⟩ := ih hr
      refine ⟨i + 1, by simpa using hi, fun next => ?_⟩
      simp [fresh, hr, hfresh, Nat.add_comm, Nat.add_left_comm]
    · have hw : v = w := (List.mem_cons.mp h).resolve_right hr
      exact ⟨0, by simp [hw], fun next => by simp [fresh, hw, hw ▸ hr]⟩

/-- An instance tells quantified variables apart. -/
theorem fresh_inj {l : List Nat} {v w : Nat} (hv : v ∈ l) (hw : w ∈ l) {next : Nat}
    (h : fresh l next v = fresh l next w) : v = w := by
  obtain ⟨i, hi, hv⟩ := exists_fresh_eq hv
  obtain ⟨j, hj, hw⟩ := exists_fresh_eq hw
  rw [hv, hw, Ty.var.injEq, Nat.add_left_cancel_iff] at h
  rw [h, hj] at hi
  exact (Option.some.inj hi).symm

theorem fresh_range' (m k next : Nat) {i : Nat} (h : i < k) :
    fresh (List.range' m k) next (m + i) = .var (next + i) := by
  induction k generalizing m next i with
  | zero => omega
  | succ k ih =>
    rw [List.range'_succ, fresh]
    cases i with
    | zero => simp
    | succ i =>
      have hrest := ih (m + 1) (next + 1) (i := i) (by omega)
      rw [Nat.add_right_comm] at hrest
      simpa [Nat.add_assoc, Nat.add_comm 1] using hrest

/-- Renaming the quantified variables first makes no difference to an instance. -/
theorem replace_fresh {l : List Nat} {v : Nat} (h : v ∈ l) (m n : Nat) :
    (fresh l m v).replace (fresh (List.range' m l.length) n) = fresh l n v := by
  obtain ⟨i, hi, hfresh⟩ := exists_fresh_eq h
  have hlt : i < l.length := (List.getElem?_eq_some_iff.mp hi).1
  rw [hfresh m, hfresh n, Ty.replace, fresh_range' m l.length n hlt]

end Fresh

/-- The schemes have the same instances, from some number of the fresh variables on. -/
def Alpha (s t : Scheme) : Prop := ∃ m, ∀ n, m ≤ n → s.instantiate n = t.instantiate n

namespace Alpha

variable {s t u : Scheme}

theorem refl (s : Scheme) : s.Alpha s := ⟨0, fun _ _ => rfl⟩

theorem symm (h : s.Alpha t) : t.Alpha s := by
  obtain ⟨m, hm⟩ := h
  exact ⟨m, fun n hn => (hm n hn).symm⟩

theorem trans (h : s.Alpha t) (k : t.Alpha u) : s.Alpha u := by
  obtain ⟨m, hm⟩ := h
  obtain ⟨l, hl⟩ := k
  exact ⟨max m l, fun n hn => (hm n (by omega)).trans (hl n (by omega))⟩

end Alpha

/-- Replace the free variables. The quantified ones get numbers beyond all that is brought in. -/
def substitute (s : Scheme) (θ : Nat → Ty) : Scheme :=
  let m := beyond (broughtIn θ s.freeVars)
  ⟨List.range' m s.vars.length,
    s.body.replace fun v => if v ∈ s.vars then fresh s.vars m v else θ v⟩

variable {s : Scheme} {θ : Nat → Ty}

/-- An instance of the result is the body with fresh variables for the quantified ones and the
replacements for the others. -/
theorem instantiate_substitute (s : Scheme) (θ : Nat → Ty) (n : Nat) :
    (s.substitute θ).instantiate n =
      (s.body.replace fun v => if v ∈ s.vars then fresh s.vars n v else θ v,
        n + s.vars.length) := by
  rw [instantiate, substitute, List.length_range', Ty.replace_replace]
  refine Prod.ext (Ty.replace_congr _ _ _ fun v hv => ?_) rfl
  dsimp only
  split
  · rename_i hmem
    exact replace_fresh hmem _ n
  · rename_i hmem
    refine Ty.replace_eq_self_iff.mpr fun w hw => fresh_of_not_mem n ?_
    have hfree : v ∈ s.freeVars := (s.mem_freeVars v).mpr ⟨hv, hmem⟩
    have hlt := lt_beyond (mem_broughtIn hfree hw)
    rw [List.mem_range'_1]
    omega

/-- Nothing is captured and nothing set free. -/
theorem mem_freeVars_substitute {w : Nat} :
    w ∈ (s.substitute θ).freeVars ↔ ∃ v ∈ s.freeVars, w ∈ (θ v).vars := by
  rw [mem_freeVars, substitute, Ty.vars_replace, List.mem_flatMap]
  constructor
  · rintro ⟨⟨v, hv, hw⟩, hnot⟩
    split at hw
    · rename_i hmem
      obtain ⟨i, hi, hfresh⟩ := exists_fresh_eq hmem
      have hlt : i < s.vars.length := (List.getElem?_eq_some_iff.mp hi).1
      rw [hfresh, Ty.vars, List.mem_singleton] at hw
      exact absurd (List.mem_range'_1.mpr ⟨by omega, by omega⟩) hnot
    · rename_i hmem
      exact ⟨v, (s.mem_freeVars v).mpr ⟨hv, hmem⟩, hw⟩
  · rintro ⟨v, hv, hw⟩
    have hlt := lt_beyond (mem_broughtIn hv hw)
    obtain ⟨hbody, hmem⟩ := (s.mem_freeVars v).mp hv
    refine ⟨⟨v, hbody, by rwa [if_neg hmem]⟩, fun hrange => ?_⟩
    have := (List.mem_range'_1.mp hrange).1
    omega

/-- Where nothing is free there is nothing to substitute. -/
theorem substitute_alpha_self (h : s.freeVars = []) : (s.substitute θ).Alpha s := by
  refine ⟨0, fun n _ => ?_⟩
  rw [instantiate_substitute, instantiate]
  refine Prod.ext (Ty.replace_congr _ _ _ fun v hv => ?_) rfl
  have hmem : v ∈ s.vars := by
    by_contra hnot
    have hfree := (s.mem_freeVars v).mpr ⟨hv, hnot⟩
    simp [h] at hfree
  exact if_pos hmem

/-- The replacement leaves the quantified variables of the body alone, and what it puts in the
place of the others mentions none of them. -/
structure Spared (s : Scheme) (θ : Nat → Ty) : Prop where
  quantified : ∀ v ∈ s.body.vars, v ∈ s.vars → θ v = .var v
  free : ∀ v ∈ s.freeVars, ∀ w ∈ (θ v).vars, w ∉ s.vars

/-- The body of an instance, variable by variable. -/
theorem instantiate_replace_eq_iff {n : Nat} :
    (⟨s.vars, s.body.replace θ⟩ : Scheme).instantiate n = (s.substitute θ).instantiate n ↔
      ∀ v ∈ s.body.vars, (θ v).replace (fresh s.vars n) =
        if v ∈ s.vars then fresh s.vars n v else θ v := by
  rw [instantiate_substitute, instantiate, Ty.replace_replace, Prod.ext_iff, Ty.replace_eq_iff]
  exact and_iff_left rfl

/-- A type that becomes a fresh variable is the variable that it stands for. -/
theorem eq_var_of_replace_fresh {l : List Nat} {t : Ty} {v n : Nat} (hv : v ∈ l)
    (ht : ∀ w ∈ t.vars, w < n) (h : t.replace (fresh l n) = fresh l n v) : t = .var v := by
  obtain ⟨i, -, hfresh⟩ := exists_fresh_eq hv
  cases t with
  | var w =>
    by_cases hw : w ∈ l
    · rw [fresh_inj hw hv h]
    · have hlt := ht w (List.mem_singleton_self w)
      have heq : fresh l n w = .var (n + i) := h.trans (hfresh n)
      rw [fresh_of_not_mem n hw, Ty.var.injEq] at heq
      omega
  | _ =>
    rw [hfresh n] at h
    cases h

/-- Replacing all variables in place is substitution exactly if the quantified ones are
spared. -/
theorem replace_alpha_substitute_iff :
    (⟨s.vars, s.body.replace θ⟩ : Scheme).Alpha (s.substitute θ) ↔ s.Spared θ := by
  constructor
  · rintro ⟨m, hm⟩
    obtain ⟨n, hn⟩ : ∃ n, n = max m (beyond (broughtIn θ s.body.vars)) := ⟨_, rfl⟩
    have hinstance := instantiate_replace_eq_iff.mp (hm n (by omega))
    have hlt : ∀ v ∈ s.body.vars, ∀ w ∈ (θ v).vars, w < n := by
      intro v hv w hw
      have := lt_beyond (mem_broughtIn hv hw)
      omega
    refine ⟨fun v hv hmem => ?_, fun v hv w hw hmem => ?_⟩
    · have hreplace := hinstance v hv
      rw [if_pos hmem] at hreplace
      exact eq_var_of_replace_fresh hmem (hlt v hv) hreplace
    · obtain ⟨hbody, hnot⟩ := (s.mem_freeVars v).mp hv
      have hreplace := hinstance v hbody
      rw [if_neg hnot] at hreplace
      -- A quantified variable brought in would have become fresh.
      obtain ⟨i, -, hfresh⟩ := exists_fresh_eq hmem
      have hself := Ty.replace_eq_self_iff.mp hreplace w hw
      rw [hfresh, Ty.var.injEq] at hself
      have := hlt v hbody w hw
      omega
  · intro h
    refine ⟨0, fun n _ => instantiate_replace_eq_iff.mpr fun v hv => ?_⟩
    split
    · rename_i hmem
      rw [h.quantified v hv hmem, Ty.replace]
    · rename_i hmem
      have hfree : v ∈ s.freeVars := (s.mem_freeVars v).mpr ⟨hv, hmem⟩
      exact Ty.replace_eq_self_iff.mpr fun w hw => fresh_of_not_mem n (h.free v hfree w hw)

end Scheme

end Sema
