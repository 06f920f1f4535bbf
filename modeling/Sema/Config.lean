import Sema.Json.Record

/-!
# Switches of an analysis
-/

namespace Sema

structure Config where
  /-- Check moves and borrows. -/
  ownership : Bool := true
  /-- Report effects that a function performs and does not declare. -/
  effects : Bool := true
  trackLifetimes : Bool := false
  /-- How many errors of each kind are reported; `0` is for all. -/
  maxErrors : Nat := 0
  deriving DecidableEq, Inhabited

namespace Config

/-- Keep as many errors as are to be reported. -/
def limit {α : Type} (c : Config) (errors : List α) : List α :=
  if c.maxErrors = 0 then errors else errors.take c.maxErrors

/-- The names of the switches, in order. -/
def keys : List String := ["ownership", "effects", "track_lifetimes", "max_errors"]

def toJson (c : Config) : Json.Value :=
  .obj [("ownership", .bool c.ownership), ("effects", .bool c.effects),
    ("track_lifetimes", .bool c.trackLifetimes), ("max_errors", .nat c.maxErrors)]

/-- Unlike other records, a configuration refuses members it does not know. -/
def ofJson? (v : Json.Value) : Option Config := do
  if let .obj members := v then
    guard (members.all fun m => keys.contains m.1)
  match ← v.fields? keys with
  | [ownership, effects, trackLifetimes, maxErrors] =>
    return {
      ownership := ← Json.defaulted true Json.Value.bool? ownership
      effects := ← Json.defaulted true Json.Value.bool? effects
      trackLifetimes := ← Json.defaulted false Json.Value.bool? trackLifetimes
      maxErrors := ← Json.defaulted 0 (Json.Value.nat? (Nat.pow 2 64)) maxErrors }
  | _ => none

end Config

end Sema
