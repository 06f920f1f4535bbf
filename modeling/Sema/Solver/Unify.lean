import Sema.Ty.Subst

/-!
# Unification

Equations between types, and between effect rows, are solved from the left. A variable that
meets a type without it is bound, and replaced in the equations that are left, so each
variable is bound once and never seen again. An equation between two composite types gives
way to the equations between their parts, the rows of function types last.
-/

namespace Sema

/-- The substitution that sends `v` to `t` and leaves every other variable alone. -/
def single (v : Nat) (t : Ty) (w : Nat) : Ty := if w = v then t else .var w

inductive Equation where
  | types (expected actual : Ty)
  | rows (expected actual : EffectRow)

inductive UnifyFault where
  | mismatch (expected found : Ty)
  | brand (expected found : String)
  | occurs (v : Nat) (t : Ty)
  | arity (expected found : Nat)
  | typeArity (name : String) (expected found : Nat)
  | effects (expected found : EffectRow)

namespace UnifyFault

/-- The name of the case in reports. -/
def name : UnifyFault → String
  | mismatch .. => "Mismatch"
  | brand .. => "BrandMismatch"
  | occurs .. => "Occurs"
  | arity .. => "Arity"
  | typeArity .. => "GenericArity"
  | effects .. => "EffectMismatch"

def text : UnifyFault → String
  | mismatch expected found => s!"expected `{expected.text}`, found `{found.text}`"
  | brand expected found => s!"expected brand `{expected}`, found `{found}`"
  | occurs v t => s!"infinite type: `{Ty.varText v}` occurs in `{t.text}`"
  | arity expected found => s!"expected {expected} parameters, found {found}"
  | typeArity name expected found =>
    s!"`{name}` expects {expected} type arguments, found {found}"
  | effects expected found => s!"expected effects `{expected.label}`, found `{found.label}`"

end UnifyFault

namespace Equation

def vars : Equation → List Nat
  | types a b => a.vars ++ b.vars
  | rows .. => []

def size : Equation → Nat
  | types a b => a.size + b.size
  | rows .. => 1

/-- Put `t` in the place of `v`. -/
def assign (v : Nat) (t : Ty) : Equation → Equation
  | types a b => types (a.replace (single v t)) (b.replace (single v t))
  | rows a b => rows a b

end Equation

def equationVars (l : List Equation) : List Nat := l.flatMap Equation.vars

def equationSize : List Equation → Nat
  | [] => 0
  | e :: r => e.size + equationSize r

def assignAll (v : Nat) (t : Ty) (l : List Equation) : List Equation := l.map (Equation.assign v t)

/-- How many different variables a list holds. -/
def distinct (l : List Nat) : Nat := (ascending l).length

theorem nodup_insertVar {v : Nat} {l : List Nat} (h : l.Pairwise (· < ·)) :
    (insertVar v l).Pairwise (· < ·) := by
  induction l with
  | nil => simp [insertVar]
  | cons w r ih =>
    rw [List.pairwise_cons] at h
    unfold insertVar
    split
    · rename_i hv
      refine List.pairwise_cons.2 ⟨fun u hu => ?_, List.pairwise_cons.2 h⟩
      rcases List.mem_cons.1 hu with rfl | hu
      · exact hv
      · exact Nat.lt_trans hv (h.1 u hu)
    · split
      · exact List.pairwise_cons.2 h
      · refine List.pairwise_cons.2 ⟨fun u hu => ?_, ih h.2⟩
        rcases (mem_insertVar v u r).1 hu with rfl | hu
        · omega
        · exact h.1 u hu

theorem pairwise_ascending (l : List Nat) : (ascending l).Pairwise (· < ·) := by
  induction l with
  | nil => simp [ascending]
  | cons v r ih => exact nodup_insertVar ih

theorem length_le_of_subset {l m : List Nat} (hl : l.Nodup) (h : ∀ x ∈ l, x ∈ m) :
    l.length ≤ m.length := by
  induction l generalizing m with
  | nil => simp
  | cons x r ih =>
    rw [List.nodup_cons] at hl
    have hx : x ∈ m := h x (by simp)
    have := ih (m := m.erase x) hl.2 fun y hy =>
      (List.mem_erase_of_ne fun e : y = x => hl.1 (e ▸ hy)).2 (h y (by simp [hy]))
    have hp : 0 < m.length := List.length_pos_of_mem hx
    rw [List.length_erase_of_mem hx] at this
    simp only [List.length_cons]
    omega

theorem nodup_ascending (l : List Nat) : (ascending l).Nodup :=
  (pairwise_ascending l).imp fun h => Nat.ne_of_lt h

theorem distinct_le {l m : List Nat} (h : ∀ x ∈ l, x ∈ m) : distinct l ≤ distinct m :=
  length_le_of_subset (nodup_ascending l) fun x hx => by
    simpa using h x (by simpa using hx)

theorem distinct_lt {l m : List Nat} (h : ∀ x ∈ l, x ∈ m) {y : Nat} (hm : y ∈ m) (hl : y ∉ l) :
    distinct l < distinct m := by
  have hn : (y :: ascending l).Nodup :=
    List.nodup_cons.2 ⟨by simpa using hl, nodup_ascending l⟩
  have := length_le_of_subset (m := ascending m) hn fun x hx => by
    rcases List.mem_cons.1 hx with rfl | hx
    · simpa using hm
    · simpa using h x (by simpa using hx)
  simp only [List.length_cons] at this
  simp only [distinct]
  omega

theorem mem_vars_single {v w : Nat} {t s : Ty} :
    w ∈ (s.replace (single v t)).vars ↔ (v ∈ s.vars ∧ w ∈ t.vars) ∨ (w ∈ s.vars ∧ w ≠ v) := by
  rw [Ty.vars_replace, List.mem_flatMap]
  constructor
  · rintro ⟨u, hu, hw⟩
    by_cases h : u = v
    · subst h
      exact Or.inl ⟨hu, by simpa [single] using hw⟩
    · have : w = u := by simpa [single, h, Ty.vars] using hw
      subst this
      exact Or.inr ⟨hu, h⟩
  · rintro (⟨hv, hw⟩ | ⟨hw, h⟩)
    · exact ⟨v, hv, by simpa [single] using hw⟩
    · exact ⟨w, hw, by simp [single, h, Ty.vars]⟩

theorem mem_vars_assign {v w : Nat} {t : Ty} {e : Equation} :
    w ∈ (e.assign v t).vars ↔ (v ∈ e.vars ∧ w ∈ t.vars) ∨ (w ∈ e.vars ∧ w ≠ v) := by
  cases e with
  | rows => simp [Equation.assign, Equation.vars]
  | types a b =>
    have ha := mem_vars_single (v := v) (w := w) (t := t) (s := a)
    have hb := mem_vars_single (v := v) (w := w) (t := t) (s := b)
    simp only [Equation.assign, Equation.vars, List.mem_append, ha, hb]
    exact ⟨fun h => by rcases h with (h | h) | (h | h) <;> simp [h],
      fun h => by rcases h with ⟨h | h, k⟩ | ⟨h | h, k⟩ <;> simp [h, k]⟩

/-- Binding a variable leaves fewer variables to bind. -/
theorem distinct_assign_lt {v : Nat} {t : Ty} (h : v ∉ t.vars) {rest : List Equation}
    {l : List Nat} (hv : v ∈ l) (ht : ∀ w ∈ t.vars, w ∈ l)
    (hr : ∀ w ∈ equationVars rest, w ∈ l) :
    distinct (equationVars (assignAll v t rest)) < distinct l := by
  have key : ∀ w ∈ equationVars (assignAll v t rest), w ∈ l ∧ w ≠ v := by
    intro w hw
    simp only [equationVars, assignAll, List.mem_flatMap, List.mem_map] at hw
    obtain ⟨e, ⟨e', he, rfl⟩, hw⟩ := hw
    rcases mem_vars_assign.1 hw with ⟨_, hw⟩ | ⟨hw, hne⟩
    · exact ⟨ht w hw, fun e => h (e ▸ hw)⟩
    · exact ⟨hr w (List.mem_flatMap.2 ⟨e', he, hw⟩), hne⟩
  exact distinct_lt (fun w hw => (key w hw).1) hv fun hw => (key v hw).2 rfl

theorem equationVars_zip (l m : List Ty) :
    ∀ w ∈ equationVars (List.zipWith Equation.types l m), w ∈ Ty.varsAll l ++ Ty.varsAll m := by
  induction l generalizing m with
  | nil => simp [equationVars]
  | cons t r ih =>
    cases m with
    | nil => simp [equationVars]
    | cons s q =>
      intro w hw
      have := ih q w
      simp only [equationVars, List.zipWith_cons_cons, List.flatMap_cons, Equation.vars,
        List.mem_append, Ty.varsAll] at hw this ⊢
      rcases hw with (hw | hw) | hw
      · simp [hw]
      · simp [hw]
      · rcases this hw with h | h <;> simp [h]

theorem equationSize_zip_le (l m : List Ty) :
    equationSize (List.zipWith Equation.types l m) ≤ Ty.sizeAll l + Ty.sizeAll m := by
  induction l generalizing m with
  | nil => simp [equationSize]
  | cons t r ih =>
    cases m with
    | nil => simp [equationSize]
    | cons s q =>
      have := ih q
      simp only [equationSize, List.zipWith_cons_cons, Equation.size, Ty.sizeAll] at this ⊢
      omega

@[simp] theorem equationVars_cons (e : Equation) (l : List Equation) :
    equationVars (e :: l) = e.vars ++ equationVars l := rfl

@[simp] theorem equationVars_append (l m : List Equation) :
    equationVars (l ++ m) = equationVars l ++ equationVars m := by
  simp [equationVars]

@[simp] theorem equationSize_cons (e : Equation) (l : List Equation) :
    equationSize (e :: l) = e.size + equationSize l := rfl

@[simp] theorem equationSize_append (l m : List Equation) :
    equationSize (l ++ m) = equationSize l + equationSize m := by
  induction l with
  | nil => simp [equationSize]
  | cons e r ih => simp [ih, Nat.add_assoc]

theorem lex_step {a b c d : Nat} (h : a ≤ c) (k : b < d) :
    Prod.Lex (· < ·) (· < ·) (a, b) (c, d) := by
  rcases Nat.lt_or_eq_of_le h with h | rfl
  · exact .left _ _ h
  · exact .right _ k

/-- Solve the equations from the left, adding to `σ`. The bindings made before a fault
stay. -/
def unify (σ : Subst) : List Equation → Subst × Option UnifyFault
  | [] => (σ, none)
  | .rows e f :: rest =>
    if e.compatible f then unify σ rest else (σ, some (.effects e f))
  | .types (.var x) (.var y) :: rest =>
    if x = y then unify σ rest
    else unify (σ.insert x (.var y)) (assignAll x (.var y) rest)
  | .types (.var x) t :: rest =>
    if t.occurs x then (σ, some (.occurs x t))
    else unify (σ.insert x t) (assignAll x t rest)
  | .types t (.var x) :: rest =>
    if t.occurs x then (σ, some (.occurs x t))
    else unify (σ.insert x t) (assignAll x t rest)
  | .types (.atom a) (.atom b) :: rest =>
    if a = b then unify σ rest else (σ, some (.mismatch (.atom a) (.atom b)))
  | .types (.fn ps r e) (.fn qs s f) :: rest =>
    if ps.length ≠ qs.length then (σ, some (.arity ps.length qs.length))
    else unify σ (List.zipWith .types ps qs ++ .types r s :: .rows e f :: rest)
  | .types (.app n as) (.app m bs) :: rest =>
    if n ≠ m then (σ, some (.mismatch (.app n as) (.app m bs)))
    else if as.length ≠ bs.length then (σ, some (.typeArity n as.length bs.length))
    else unify σ (List.zipWith .types as bs ++ rest)
  | .types (.branded b s) (.branded c t) :: rest =>
    if b ≠ c then (σ, some (.brand b c)) else unify σ (.types s t :: rest)
  | .types s t :: _ => (σ, some (.mismatch s t))
termination_by eqs => (distinct (equationVars eqs), equationSize eqs)
decreasing_by
  · refine lex_step ?_ ?_
    · exact distinct_le fun w hw => by simp [hw]
    · simp [Equation.size]
  · refine lex_step ?_ ?_
    · exact distinct_le fun w hw => by simp [hw]
    · simp [Equation.size, Ty.size]
  · rename_i h
    refine Prod.Lex.left _ _ (distinct_assign_lt (by simpa [Ty.vars] using h) ?_ ?_ ?_) <;>
      simp +contextual [Equation.vars, Ty.vars]
  · rename_i h
    refine Prod.Lex.left _ _ (distinct_assign_lt (by simpa using h) ?_ ?_ ?_) <;>
      simp +contextual [Equation.vars, Ty.vars]
  · rename_i h
    refine Prod.Lex.left _ _ (distinct_assign_lt (by simpa using h) ?_ ?_ ?_) <;>
      simp +contextual [Equation.vars, Ty.vars]
  · refine lex_step ?_ ?_
    · exact distinct_le fun w hw => by simp [hw]
    · simp [Equation.size, Ty.size]
  · refine lex_step ?_ ?_
    · refine distinct_le fun w hw => ?_
      have := equationVars_zip ps qs w
      simp only [equationVars_append, equationVars_cons, Equation.vars, Ty.vars,
        List.mem_append] at hw this ⊢
      rcases hw with hw | (hw | hw) | hw | hw
      · rcases this hw with h | h <;> simp [h]
      all_goals simp_all
    · have := equationSize_zip_le ps qs
      simp only [equationSize_append, equationSize_cons, Equation.size, Ty.size]
      omega
  · refine lex_step ?_ ?_
    · refine distinct_le fun w hw => ?_
      have := equationVars_zip as bs w
      simp only [equationVars_append, equationVars_cons, Equation.vars, Ty.vars,
        List.mem_append] at hw this ⊢
      rcases hw with hw | hw
      · rcases this hw with h | h <;> simp [h]
      · simp [hw]
    · have := equationSize_zip_le as bs
      simp only [equationSize_append, equationSize_cons, Equation.size, Ty.size]
      omega
  · refine lex_step ?_ ?_
    · exact distinct_le fun w hw => by simpa [Equation.vars, Ty.vars] using hw
    · simp only [equationSize_cons, Equation.size, Ty.size]
      omega

end Sema
