import Sema.Ty.Scheme
import Sema.Ty.Subst

/-!
# Environments

Bindings of names to schemes in nested scopes: `root` is the scope of the items, and `inner`
holds the scopes inside it, the innermost first.
-/

namespace Sema

abbrev Scope := Table String Scheme

structure Env where
  root : Scope := .empty
  inner : List Scope := []
  deriving Inhabited

namespace Env

/-- The scopes, from the innermost to the root. -/
def scopes (e : Env) : List Scope := e.inner ++ [e.root]

def depth (e : Env) : Nat := e.inner.length + 1

def push (e : Env) : Env := { e with inner := .empty :: e.inner }

/-- The innermost scope and the environment without it; the root stays. -/
def pop? (e : Env) : Option (Scope × Env) :=
  match e.inner with
  | [] => none
  | s :: r => some (s, { e with inner := r })

/-- Bind in the root scope. -/
def bindGlobal (e : Env) (name : String) (s : Scheme) : Env :=
  { e with root := e.root.insert name s }

/-- Bind in the innermost scope. -/
def bind (e : Env) (name : String) (s : Scheme) : Env :=
  match e.inner with
  | [] => e.bindGlobal name s
  | t :: r => { e with inner := t.insert name s :: r }

/-- Bind without quantifying, in list order. -/
def bindAll (e : Env) (l : List (String × Ty)) : Env :=
  l.foldl (fun e (name, t) => e.bind name (.mono t)) e

def lookup (e : Env) (name : String) : Option Scheme := e.scopes.findSome? (·.get? name)

def contains (e : Env) (name : String) : Bool := (e.lookup name).isSome

/-- The variables free in a binding once `σ` is applied, ascending. -/
def freeVars (e : Env) (σ : Subst) : List Nat :=
  ascending <| e.scopes.flatMap fun scope => scope.entries.flatMap fun (_, s) =>
    s.freeVars.flatMap fun v => (σ.apply (.var v)).vars

theorem lookup_bind (e : Env) (name other : String) (s : Scheme) :
    (e.bind name s).lookup other = if other = name then some s else e.lookup other := by
  obtain ⟨root, inner⟩ := e
  cases inner with
  | nil => by_cases h : other = name <;> simp [bind, bindGlobal, lookup, scopes, h]
  | cons t r => by_cases h : other = name <;> simp [bind, lookup, scopes, List.findSome?_cons, h]

end Env

end Sema
