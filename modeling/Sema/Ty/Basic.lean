import Sema.Effect
import Sema.Syntax.Type

/-!
# Inferred types

What the type checker assigns to expressions: variables, atoms, function types with an
effect row, named constructors applied to arguments, and brands. Functions over a type come
in pairs, one for types and one for lists of them.
-/

namespace Sema

inductive Atom where
  | primitive (p : Primitive)
  | unit
  /-- A nominal type without type arguments. -/
  | named (name : String)
  deriving DecidableEq, Inhabited

def Atom.text : Atom → String
  | primitive p => p.name
  | unit => "()"
  | named n => n

inductive Ty where
  /-- A type still to be found; variables are numbered. -/
  | var (v : Nat)
  | atom (a : Atom)
  | fn (params : List Ty) (ret : Ty) (effects : EffectRow)
  /-- A type constructor applied to arguments; a tuple is `Tuple` applied to its elements. -/
  | app (name : String) (args : List Ty)
  /-- A nominal wrapper, the same only as itself. -/
  | branded (brand : String) (base : Ty)
  deriving Inhabited

namespace Ty

def varText (v : Nat) : String := "?" ++ toString v

def prim (p : Primitive) : Ty := .atom (.primitive p)

def unit : Ty := .atom .unit

def bool : Ty := prim .bool

def named (name : String) : Ty := .atom (.named name)

def tupleName : String := "Tuple"

def arrayName : String := "Array"

def rangeName : String := "Range"

def optionName : String := "Option"

def resultName : String := "Result"

def array (t : Ty) : Ty := .app arrayName [t]

/-- The unit type for no elements. -/
def tuple : List Ty → Ty
  | [] => unit
  | elems => .app tupleName elems

/-- A nominal type with as many arguments as given. -/
def nominal (name : String) : List Ty → Ty
  | [] => named name
  | args => .app name args

def asVar : Ty → Option Nat
  | .var v => some v
  | _ => none

def isFn : Ty → Bool
  | .fn .. => true
  | _ => false

/-- The name under which fields and methods of the type are declared. -/
def nominalName? : Ty → Option String
  | .atom (.named n) => some n
  | .atom (.primitive p) => some p.name
  | .app name _ => some name
  | .branded brand _ => some brand
  | _ => none

mutual

def text : Ty → String
  | .var v => varText v
  | .atom a => a.text
  | .fn params ret effects =>
    "fn(" ++ ", ".intercalate (texts params) ++ ") -> " ++ ret.text ++ effects.suffix
  | .app name args =>
    if name = tupleName then "(" ++ ", ".intercalate (texts args) ++ ")"
    else name ++ "<" ++ ", ".intercalate (texts args) ++ ">"
  | .branded brand base => base.text ++ " as " ++ brand

def texts : List Ty → List String
  | [] => []
  | t :: r => t.text :: texts r

end

mutual

/-- The variables of the type, one entry for each occurrence. -/
def vars : Ty → List Nat
  | .var v => [v]
  | .atom _ => []
  | .fn params ret _ => varsAll params ++ ret.vars
  | .app _ args => varsAll args
  | .branded _ base => base.vars

def varsAll : List Ty → List Nat
  | [] => []
  | t :: r => t.vars ++ varsAll r

end

mutual

/-- Put `f v` in the place of every variable `v`. -/
def replace (f : Nat → Ty) : Ty → Ty
  | .var v => f v
  | .atom a => .atom a
  | .fn params ret effects => .fn (replaceAll f params) (ret.replace f) effects
  | .app name args => .app name (replaceAll f args)
  | .branded brand base => .branded brand (base.replace f)

def replaceAll (f : Nat → Ty) : List Ty → List Ty
  | [] => []
  | t :: r => t.replace f :: replaceAll f r

end

mutual

/-- The number of nodes. -/
def size : Ty → Nat
  | .var _ => 1
  | .atom _ => 1
  | .fn params ret _ => sizeAll params + ret.size + 1
  | .app _ args => sizeAll args + 1
  | .branded _ base => base.size + 1

def sizeAll : List Ty → Nat
  | [] => 0
  | t :: r => t.size + sizeAll r

end

/-- Does `v` occur in the type? -/
def occurs (t : Ty) (v : Nat) : Bool := t.vars.contains v

theorem replaceAll_eq_map (f : Nat → Ty) (l : List Ty) : replaceAll f l = l.map (replace f) := by
  induction l with
  | nil => rfl
  | cons t r ih => simp [replaceAll, ih]

theorem length_replaceAll (f : Nat → Ty) (l : List Ty) :
    (replaceAll f l).length = l.length := by
  simp [replaceAll_eq_map]

@[simp] theorem occurs_iff (t : Ty) (v : Nat) : t.occurs v = true ↔ v ∈ t.vars := by
  simp [occurs]

mutual

theorem replace_congr (f g : Nat → Ty) : (t : Ty) → (∀ v ∈ t.vars, f v = g v) →
    t.replace f = t.replace g
  | .var v, h => h v (by simp [vars])
  | .atom _, _ => rfl
  | .fn params ret _, h => by
    simp only [vars, List.mem_append] at h
    simp [replace, replaceAll_congr f g params fun v hv => h v (Or.inl hv),
      replace_congr f g ret fun v hv => h v (Or.inr hv)]
  | .app _ args, h => by
    simp only [vars] at h
    simp [replace, replaceAll_congr f g args h]
  | .branded _ base, h => by
    simp only [vars] at h
    simp [replace, replace_congr f g base h]

theorem replaceAll_congr (f g : Nat → Ty) : (l : List Ty) → (∀ v ∈ varsAll l, f v = g v) →
    replaceAll f l = replaceAll g l
  | [], _ => rfl
  | t :: r, h => by
    simp only [varsAll, List.mem_append] at h
    simp [replaceAll, replace_congr f g t fun v hv => h v (Or.inl hv),
      replaceAll_congr f g r fun v hv => h v (Or.inr hv)]

end

mutual

@[simp] theorem replace_var : (t : Ty) → t.replace .var = t
  | .var _ => rfl
  | .atom _ => rfl
  | .fn params ret _ => by simp [replace, replaceAll_var params, replace_var ret]
  | .app _ args => by simp [replace, replaceAll_var args]
  | .branded _ base => by simp [replace, replace_var base]

@[simp] theorem replaceAll_var : (l : List Ty) → replaceAll .var l = l
  | [] => rfl
  | t :: r => by simp [replaceAll, replace_var t, replaceAll_var r]

end

mutual

theorem replace_replace (f g : Nat → Ty) : (t : Ty) →
    (t.replace f).replace g = t.replace fun v => (f v).replace g
  | .var _ => rfl
  | .atom _ => rfl
  | .fn params ret _ => by
    simp [replace, replaceAll_replaceAll f g params, replace_replace f g ret]
  | .app _ args => by simp [replace, replaceAll_replaceAll f g args]
  | .branded _ base => by simp [replace, replace_replace f g base]

theorem replaceAll_replaceAll (f g : Nat → Ty) : (l : List Ty) →
    replaceAll g (replaceAll f l) = replaceAll (fun v => (f v).replace g) l
  | [] => rfl
  | t :: r => by simp [replaceAll, replace_replace f g t, replaceAll_replaceAll f g r]

end

mutual

theorem vars_replace (f : Nat → Ty) : (t : Ty) →
    (t.replace f).vars = t.vars.flatMap fun v => (f v).vars
  | .var _ => by simp [replace, vars]
  | .atom _ => rfl
  | .fn params ret _ => by simp [replace, vars, varsAll_replaceAll f params, vars_replace f ret]
  | .app _ args => by simp [replace, vars, varsAll_replaceAll f args]
  | .branded _ base => by simp [replace, vars, vars_replace f base]

theorem varsAll_replaceAll (f : Nat → Ty) : (l : List Ty) →
    varsAll (replaceAll f l) = (varsAll l).flatMap fun v => (f v).vars
  | [] => rfl
  | t :: r => by simp [replaceAll, varsAll, vars_replace f t, varsAll_replaceAll f r]

end

end Ty

/-- Insert into an ascending list of distinct variables. -/
def insertVar (v : Nat) : List Nat → List Nat
  | [] => [v]
  | w :: r => if v < w then v :: w :: r else if v = w then w :: r else w :: insertVar v r

/-- The variables of a list, ascending and without repetition. -/
def ascending (l : List Nat) : List Nat := l.foldr insertVar []

@[simp] theorem mem_insertVar (v w : Nat) (l : List Nat) :
    w ∈ insertVar v l ↔ w = v ∨ w ∈ l := by
  induction l with
  | nil => simp [insertVar]
  | cons u r ih =>
    unfold insertVar
    split
    · simp
    · split
      · subst_vars
        simp
      · simp only [List.mem_cons, ih]
        exact ⟨fun h => by rcases h with h | h | h <;> simp [h],
          fun h => by rcases h with h | h | h <;> simp [h]⟩

@[simp] theorem mem_ascending (v : Nat) (l : List Nat) : v ∈ ascending l ↔ v ∈ l := by
  induction l with
  | nil => simp [ascending]
  | cons w r ih => simpa [ascending] using or_congr_right ih

/-- The variables of the type, ascending. -/
def Ty.freeVars (t : Ty) : List Nat := ascending t.vars

@[simp] theorem Ty.mem_freeVars (t : Ty) (v : Nat) : v ∈ t.freeVars ↔ v ∈ t.vars :=
  mem_ascending v t.vars

end Sema
