import Sema.Binary64

/-!
# JSON values

The values that JSON text denotes. Integers that fit 64 bits are kept apart from other
numbers, and an object lists its members in the order written. `ill` is text of the right
form that denotes nothing: a string with half a surrogate pair, a number too large to be
finite, an object with such a key.
-/

namespace Sema.Json

inductive Value where
  | null
  | bool (b : Bool)
  | int (n : Int)
  | float (x : Binary64)
  | str (s : String)
  | ill
  | arr (elems : List Value)
  | obj (members : List (String × Value))
  deriving Inhabited

namespace Value

def nat (n : Nat) : Value := .int n

def ofOption : Option Value → Value
  | some v => v
  | none => .null

/-- The value tagged with a variant's name. -/
def tagged (tag : String) (v : Value) : Value := .obj [(tag, v)]

/-- The first member called `key`. -/
def member? (key : String) : Value → Option Value
  | .obj members => members.lookup key
  | _ => none

mutual

/-- How deep brackets nest. -/
def depth : Value → Nat
  | .arr elems => depthElems elems + 1
  | .obj members => depthMembers members + 1
  | _ => 0

def depthElems : List Value → Nat
  | [] => 0
  | v :: r => max v.depth (depthElems r)

def depthMembers : List (String × Value) → Nat
  | [] => 0
  | (_, v) :: r => max v.depth (depthMembers r)

end

end Value

end Sema.Json
