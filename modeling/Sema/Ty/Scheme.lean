import Sema.Ty.Basic

/-!
# Type schemes

A type under quantified variables. An instance puts fresh variables in their place and leaves
the others alone; generalising quantifies what the environment does not mention.
-/

namespace Sema

structure Scheme where
  vars : List Nat
  body : Ty
  deriving Inhabited

namespace Scheme

/-- The scheme that quantifies nothing. -/
def mono (body : Ty) : Scheme := ⟨[], body⟩

def isMono (s : Scheme) : Bool := s.vars.isEmpty

/-- The variables of the body that are not quantified, ascending. -/
def freeVars (s : Scheme) : List Nat := s.body.freeVars.filter fun v => !s.vars.contains v

/-- Where an instance sends a variable when the quantified ones are numbered from `next`; of
a variable quantified twice the last number counts. -/
def fresh : List Nat → Nat → Nat → Ty
  | [], _, v => .var v
  | w :: r, next, v => if v = w && !r.contains v then .var next else fresh r (next + 1) v

/-- An instance whose fresh variables are numbered from `next`, and the next number after. -/
def instantiate (s : Scheme) (next : Nat) : Ty × Nat :=
  (s.body.replace (fresh s.vars next), next + s.vars.length)

/-- Quantify the variables of `t` that are not in `env`. -/
def generalize (env : List Nat) (t : Ty) : Scheme :=
  ⟨t.freeVars.filter fun v => !env.contains v, t⟩

def text (s : Scheme) : String :=
  if s.isMono then s.body.text
  else "forall " ++ " ".intercalate (s.vars.map Ty.varText) ++ ". " ++ s.body.text

@[simp] theorem mem_freeVars (s : Scheme) (v : Nat) :
    v ∈ s.freeVars ↔ v ∈ s.body.vars ∧ v ∉ s.vars := by
  simp [freeVars]

theorem fresh_of_not_mem {l : List Nat} {v : Nat} (next : Nat) (h : v ∉ l) :
    fresh l next v = .var v := by
  induction l generalizing next with
  | nil => rfl
  | cons w r ih =>
    simp only [List.mem_cons, not_or] at h
    simp [fresh, h.1, ih (next + 1) h.2]

theorem fresh_of_mem {l : List Nat} {v : Nat} (next : Nat) (h : v ∈ l) :
    ∃ n, next ≤ n ∧ n < next + l.length ∧ fresh l next v = .var n := by
  induction l generalizing next with
  | nil => simp at h
  | cons w r ih =>
    by_cases hr : v ∈ r
    · obtain ⟨n, h₁, h₂, h₃⟩ := ih (next + 1) hr
      refine ⟨n, by omega, by simp only [List.length_cons]; omega, ?_⟩
      simp [fresh, hr, h₃]
    · have hw : v = w := (List.mem_cons.1 h).resolve_right hr
      exact ⟨next, Nat.le_refl _, by simp, by simp [fresh, hw, hw ▸ hr]⟩

end Scheme

end Sema
