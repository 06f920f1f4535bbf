import Sema.Config
import Sema.LiveRange
import Sema.Ownership.Check
import Sema.Typing.Program

/-!
# The whole analysis of a program

Types first; then, and regardless of them, ownership.
-/

namespace Sema

/-- What the check of moves and borrows has found. -/
structure OwnershipCheck where
  errors : List OwnershipError := []
  /-- The live ranges of every function, if they were asked for. -/
  liveRanges : Table String (List LiveRange) := .empty

def OwnershipCheck.ok (c : OwnershipCheck) : Bool := c.errors.isEmpty

/-- The live ranges of the functions that have a body. -/
def Item.liveRanges (i : Item) : List (String × List LiveRange) :=
  (i.namedFunctions.filter (·.2.body.isSome)).map fun f => (f.1, f.2.liveRanges)

def checkOwnership (trackLifetimes : Bool) (p : Program) : OwnershipCheck where
  errors := p.ownershipFaults.map OwnershipError.ofFault
  liveRanges := if trackLifetimes then .ofList (p.items.flatMap Item.liveRanges) else .empty

structure Analysis where
  typeOk : Bool
  ownershipOk : Bool
  typeErrors : List TypeError
  ownershipErrors : List OwnershipError
  types : Table ExprId Ty
  brands : Table String TypeExpr
  liveRanges : Table String (List LiveRange)

namespace Analysis

def ok (a : Analysis) : Bool := a.typeOk && a.ownershipOk

def errorCount (a : Analysis) : Nat := a.typeErrors.length + a.ownershipErrors.length

/-- Report no more errors than the configuration allows. -/
def limited (a : Analysis) (c : Config) : Analysis :=
  { a with
    typeErrors := c.limit a.typeErrors
    ownershipErrors := c.limit a.ownershipErrors }

end Analysis

def analyze (p : Program) (c : Config) : Analysis :=
  let t := checkProgram .standard c.effects p
  let o : OwnershipCheck := if c.ownership then checkOwnership c.trackLifetimes p else {}
  { typeOk := t.ok
    ownershipOk := o.ok
    typeErrors := t.errors
    ownershipErrors := o.errors
    types := t.types
    brands := t.decls.brands
    liveRanges := o.liveRanges }

end Sema
