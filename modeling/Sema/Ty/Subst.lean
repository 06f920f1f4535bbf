import Sema.Table
import Sema.Ty.Basic

/-!
# Substitutions

Bindings of variables to types, the newest first. A bound type may mention bound variables in
its turn, so `apply` follows them. A chain of bindings without a cycle is no longer than the
number of bindings, which is how many steps are followed.
-/

namespace Sema

structure Subst where
  bindings : List (Nat × Ty) := []
  deriving Inhabited

namespace Subst

def empty : Subst := {}

def size (σ : Subst) : Nat := σ.bindings.length

def get? (σ : Subst) (v : Nat) : Option Ty := Table.find v σ.bindings

/-- Bind `v` to `t`, forgetting what it was bound to. -/
def insert (σ : Subst) (v : Nat) (t : Ty) : Subst :=
  ⟨(v, t) :: σ.bindings.filter fun b => b.1 != v⟩

/-- Follow bindings from `v`, at most `n` in a row. -/
def chase (σ : Subst) : Nat → Nat → Ty
  | 0, v => .var v
  | n + 1, v =>
    match σ.get? v with
    | some t => t.replace (σ.chase n)
    | none => .var v

/-- Put in the place of every variable what it is bound to, in the end. -/
def apply (σ : Subst) (t : Ty) : Ty := t.replace (σ.chase σ.size)

/-- The bindings by ascending variable. -/
def toList (σ : Subst) : List (Nat × Ty) := (Table.ofList σ.bindings).entries

theorem get?_insert (σ : Subst) (v w : Nat) (t : Ty) :
    (σ.insert v t).get? w = if w = v then some t else σ.get? w := by
  by_cases h : w = v
  · simp [insert, get?, Table.find, h]
  · simp [insert, get?, Table.find, h, Table.find_filter_ne h]

@[simp] theorem apply_empty (t : Ty) : empty.apply t = t := by
  have : empty.chase empty.size = Ty.var := by
    funext v
    rfl
  simp [apply, this]

end Subst

end Sema
