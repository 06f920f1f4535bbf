import Sema.Typing.Program

/-!
# A type checker in steps

Inference is given its context and cannot change it, and a check takes a session to a session and
shows nothing of what is in between. A `TypeChecker` has all that it can see in its state, next to
what it has found out. Its `Work` is laid out in steps. A step takes a variable or an instance of a
scheme, does what a check does that takes none, or changes what the checker can see: it pushes a
scope, a loop, a function, type parameters or an alias before it goes into a part of the program,
binds a name where it comes upon one, and takes off the stack again whatever is on top when it comes
out. Nothing but the order of these steps says that it is what was pushed.

`Work.run` does all steps. `Work.moments` lists the moments on the way, each with the checker as it
is then and the next step.
-/

namespace Sema

/-- All that the checker can see somewhere: the names, parameters, functions and loops around, and
what the items declare. -/
structure Place where
  context : Context
  interface : Interface

/-- Where a type checker is, and what it has found out. -/
structure TypeChecker extends Place where
  session : Session

namespace Context

def bind (cx : Context) (name : String) (s : Scheme) : Context :=
  { cx with env := cx.env.bind name s }

def withEnv (cx : Context) (env : Env) : Context := { cx with env }

def onScope (cx : Context) (f : TypeScope → TypeScope) : Context :=
  { cx with scope := f cx.scope }

def leaveParams (cx : Context) : Context :=
  cx.onScope fun sc => { sc with params := sc.params.tail }

def enterAlias (cx : Context) (name : String) : Context :=
  cx.onScope fun sc => { sc with resolving := name :: sc.resolving }

def leaveAlias (cx : Context) : Context :=
  cx.onScope fun sc => { sc with resolving := sc.resolving.tail }

def putSelf (cx : Context) (self : Option Ty) : Context :=
  cx.onScope fun sc => { sc with selfTy := self }

def onDecls (cx : Context) (f : Declarations → Declarations) : Context :=
  cx.onScope fun sc => { sc with decls := f sc.decls }

def enterFrame (cx : Context) (f : Frame) : Context := { cx with frames := f :: cx.frames }

def leaveFrame (cx : Context) : Context := { cx with frames := cx.frames.tail }

def leaveLoop (cx : Context) : Context := { cx with loops := cx.loops.tail }

def withLoops (cx : Context) (loops : List (Option Ty)) : Context := { cx with loops }

/-- Take off the innermost scope, whatever has been bound in it. -/
def popScope (cx : Context) : Context :=
  match cx.env.pop? with
  | some (_, env) => { cx with env }
  | none => cx

/-- What the innermost scope binds, if there is one to take off. -/
def innermost (cx : Context) : Scope := (cx.env.pop?.map (·.1)).getD .empty

end Context

namespace Place

def onContext (w : Place) (f : Context → Context) : Place := { w with context := f w.context }

/-- Outside of all bodies, with the items declared that are in the interface. -/
def outside (checkEffects : Bool) (sc : TypeScope) (i : Interface) : Place :=
  ⟨{ scope := sc, env := i.env, constructors := i.constructors, checkEffects }, i⟩

theorem scope_outside (checkEffects : Bool) (sc : TypeScope) (i : Interface) :
    (outside checkEffects sc i).context.scope = sc :=
  rfl

/-- In the first pass, with these types and names declared so far. -/
def first (catalog : Catalog) (checkEffects : Bool) (d : Declarations) (env : Env) : Place :=
  outside checkEffects { catalog, decls := d }
    { env, constructors := catalog.constructors, methods := catalog.methods }

/-- Outside of all bodies, what is declared can be seen at once. -/
def declare (w : Place) (f : Interface → Interface) : Place :=
  let i := f w.interface
  ⟨{ w.context with env := i.env, constructors := i.constructors }, i⟩

end Place

namespace TypeChecker

/-- Before any item of a program. -/
def start (catalog : Catalog) (checkEffects : Bool) : TypeChecker :=
  ⟨.first catalog checkEffects {} catalog.env, {}⟩

variable {α : Type}

/-- Do what a check does at the place, and stay there. -/
def stay (f : Place → Check α) : StateM TypeChecker α :=
  fun c => ((f c.toPlace c.session).1, ⟨c.toPlace, (f c.toPlace c.session).2⟩)

def go (f : Place → Place) : StateM TypeChecker Unit := fun c => ((), ⟨f c.toPlace, c.session⟩)

end TypeChecker

open TypeChecker (stay go)

/-- One step, by what it answers. -/
inductive Action : Type → Type 1 where
  /-- Take a variable. -/
  | fresh : Action Nat
  /-- Take an instance. -/
  | instantiate (scheme : Scheme) : Action Ty
  /-- Do what a check does. -/
  | check {α : Type} (m : Place → Check α) : Action α
  | change (f : Place → Place) : Action Unit

namespace Action

variable {α : Type}

def run : Action α → StateM TypeChecker α
  | fresh => stay fun _ => freshVar
  | instantiate scheme => stay fun _ => Sema.instantiate scheme
  | check m => stay m
  | change f => go f

/-- The scheme that an instance is taken of. -/
def scheme? : Action α → Option Scheme
  | instantiate scheme => some scheme
  | _ => none

end Action

/-- A check in steps. What comes next may depend on what a step answers. -/
inductive Work (α : Type) : Type 1 where
  | done (a : α)
  | act {β : Type} (x : Action β) (next : β → Work α)

/-- A step about to be taken. -/
structure Moment where
  checker : TypeChecker
  {answer : Type}
  action : Action answer

namespace Work

variable {α β γ : Type}

def bind : Work α → (α → Work β) → Work β
  | done a, f => f a
  | act x next, f => act x fun r => (next r).bind f

instance : Monad Work where
  pure := done
  bind := bind

theorem bind_done (m : Work α) : m.bind done = m := by
  induction m with
  | done a => rfl
  | act x next ih => exact congrArg (act x) (funext ih)

theorem bind_bind (m : Work α) (f : α → Work β) (g : β → Work γ) :
    (m.bind f).bind g = m.bind fun a => (f a).bind g := by
  induction m with
  | done a => rfl
  | act x next ih => exact congrArg (act x) (funext ih)

instance : LawfulMonad Work := .mk' Work bind_done (fun _ _ => rfl) bind_bind

/-- Do all steps. -/
def exec : Work α → StateM TypeChecker α
  | done a => pure a
  | act x next => do (next (← x.run)).exec

def run (m : Work α) (c : TypeChecker) : α × TypeChecker := m.exec c

/-- The moments on the way. -/
def moments : Work α → TypeChecker → List Moment
  | done _, _ => []
  | act x next, c => ⟨c, x⟩ :: (next (x.run c).1).moments (x.run c).2

theorem moments_bind (m : Work α) (f : α → Work β) (c : TypeChecker) :
    (m >>= f).moments c = m.moments c ++ (f (m.run c).1).moments (m.run c).2 := by
  induction m generalizing c with
  | done a => rfl
  | act x next ih => exact congrArg (⟨c, x⟩ :: ·) (ih _ _)

def freshVar : Work Nat := .act .fresh .done

def instantiate (scheme : Scheme) : Work Ty := .act (.instantiate scheme) .done

/-- Do what a check does at the place. -/
def check (m : Place → Check α) : Work α := .act (.check m) .done

instance : MonadLift Check Work := ⟨fun m => check fun _ => m⟩

/-- What the checker can see now. -/
def place : Work Place := check fun w => return w

def context : Work Context := return (← place).context

def change (f : Context → Context) : Work Unit := .act (.change (·.onContext f)) .done

def declare (f : Interface → Interface) : Work Unit := .act (.change (·.declare f)) .done

section Exec

@[simp] theorem exec_pure (a : α) : (pure a : Work α).exec = pure a := rfl

@[simp] theorem exec_bind (m : Work α) (f : α → Work β) :
    (m >>= f).exec = m.exec >>= fun a => (f a).exec := by
  induction m with
  | done a => rfl
  | act x next ih =>
    have hstep : (act x next >>= f).exec = x.run >>= fun r => (next r >>= f).exec := rfl
    rw [hstep, funext ih]
    rfl

@[simp] theorem exec_freshVar : freshVar.exec = stay fun _ => Sema.freshVar := rfl

@[simp] theorem exec_instantiate (scheme : Scheme) :
    (instantiate scheme).exec = stay fun _ => Sema.instantiate scheme := rfl

@[simp] theorem exec_check (m : Place → Check α) : (check m).exec = stay m := rfl

@[simp] theorem exec_lift (m : Check α) : (liftM m : Work α).exec = stay fun _ => m := rfl

@[simp] theorem exec_context : context.exec = stay fun w => pure w.context := rfl

@[simp] theorem exec_change (f : Context → Context) : (change f).exec = go (·.onContext f) := rfl

@[simp] theorem exec_ite (p : Prop) [Decidable p] (m n : Work α) :
    (if p then m else n).exec = if p then m.exec else n.exec := apply_ite ..

@[simp] theorem exec_map (f : α → β) (m : Work α) : (f <$> m).exec = f <$> m.exec := by
  simp only [← bind_pure_comp, exec_bind, exec_pure]

@[simp] theorem exec_discard (m : Work α) : (discard m).exec = discard m.exec :=
  exec_map (fun _ => PUnit.unit) m

end Exec

end Work

end Sema
