import Sema.Json.Basic

/-!
# Records and variants as JSON

A record is an object with a member for each field, other members being ignored, or an array
of its fields in order. A variant of a sum type is its name, or an object whose only key is
its name. Readers take a bound on how deep brackets may still nest; what is ignored does not
count against it.
-/

namespace Sema.Json

/-- Where a value comes from: text just read, or a tree that was handed over. -/
inductive Medium where
  | text | tree
  deriving DecidableEq

/-- How deep brackets may nest in text. -/
def textDepth : Nat := 127

namespace Value

def bool? : Value → Option Bool
  | .bool b => some b
  | _ => none

def str? : Value → Option String
  | .str s => some s
  | _ => none

def nat? (bound : Nat) : Value → Option Nat
  | .int n => if 0 ≤ n && n < bound then some n.toNat else none
  | _ => none

def uint32? (v : Value) : Option UInt32 := (v.nat? (Nat.pow 2 32)).map UInt32.ofNat

def uint64? (v : Value) : Option UInt64 := (v.nat? (Nat.pow 2 64)).map UInt64.ofNat

/-- An integer stands for the nearest floating-point number. -/
def float? : Value → Option Binary64
  | .float x => some x
  | .int n => Binary64.ofDecimal (n < 0) n.natAbs 0
  | _ => none

def char? : Value → Option Char
  | .str s =>
    match s.toList with
    | [c] => some c
    | _ => none
  | _ => none

/-- The fields of a record, in the order of `names`. A field of an object may stand there
once; fields left off the end of an array are missing. -/
def fields? (names : List String) : Value → Option (List (Option Value))
  | v@(.obj members) =>
    if names.all fun k => (members.filter (·.1 == k)).length ≤ 1 then
      some (names.map fun k => v.member? k)
    else none
  | .arr elems =>
    if elems.length ≤ names.length then
      some (elems.map some ++ List.replicate (names.length - elems.length) none)
    else none
  | _ => none

/-- The fields of a variant's payload, which is an array only in text. -/
def payload? (m : Medium) (names : List String) (v : Value) : Option (List (Option Value)) :=
  match m, v with
  | .tree, .arr _ => none
  | _, _ => v.fields? names

/-- A variant's name and its payload. -/
def variant? : Value → Option (String × Option Value)
  | .str tag => some (tag, none)
  | .obj [(tag, v)] => some (tag, some v)
  | _ => none

/-- The name of a variant that has no payload. -/
def unitVariant? (v : Value) : Option String :=
  match v.variant? with
  | some (tag, none) => some tag
  | some (tag, some .null) => some tag
  | _ => none

end Value

/-- A field that may be missing or `null`. -/
def optional {α : Type} (read : Value → Option α) : Option Value → Option (Option α)
  | none => some none
  | some .null => some none
  | some v => (read v).map some

/-- A field that may be missing, not `null`. -/
def defaulted {α : Type} (a : α) (read : Value → Option α) : Option Value → Option α
  | none => some a
  | some v => read v

/-- An array, one level deeper than its elements. -/
def list {α : Type} (read : Nat → Value → Option α) : Nat → Value → Option (List α)
  | n + 1, .arr elems => elems.mapM (read n)
  | _, _ => none

/-- A record, one level deeper than its fields. -/
def record {α : Type} (names : List String) (read : Nat → List (Option Value) → Option α) :
    Nat → Value → Option α
  | 0, _ => none
  | n + 1, v => (v.fields? names).bind (read n)

/-- A variant without payload, which as an object takes one level. -/
def unitVariant {α : Type} (ofName? : String → Option α) : Nat → Value → Option α
  | 0, .str tag => ofName? tag
  | 0, _ => none
  | _ + 1, v => v.unitVariant?.bind ofName?

end Sema.Json
