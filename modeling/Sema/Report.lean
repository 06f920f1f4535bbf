import Sema.Analysis
import Sema.Syntax.Encode

/-!
# Reports

The outcome of an analysis as JSON, and each error as a diagnostic with labelled stretches
of the source.
-/

namespace Sema

open Json (Value)

def TypeError.toJson (e : TypeError) : Value :=
  .obj [("message", .str e.message), ("category", .str e.category.label),
    ("span", e.span.toJson)]

def OwnershipError.toJson (e : OwnershipError) : Value :=
  .obj [("message", .str e.message), ("span", e.span.toJson),
    ("moved_at", .ofOption (e.movedAt.map Span.toJson)), ("help", optStr e.help)]

def LiveRange.toJson (r : LiveRange) : Value :=
  .obj [("name", .str r.name), ("defined", r.defined.toJson), ("last_use", r.lastUse.toJson)]

def brandsToJson (t : Table String TypeExpr) : Value :=
  .obj (t.entries.map fun (brand, base) => (brand, .str base.text))

def liveRangesToJson (t : Table String (List LiveRange)) : Value :=
  .obj (t.entries.map fun (name, ranges) => (name, .arr (ranges.map LiveRange.toJson)))

/-- The machine-readable report of an analysis of `input`. -/
def Analysis.report (a : Analysis) (input : String) : Value :=
  .obj ([("schema", .str "veritas.check.v1"), ("input", .str input), ("ok", .bool a.ok),
    ("type_errors", .arr (a.typeErrors.map TypeError.toJson)),
    ("ownership_errors", .arr (a.ownershipErrors.map OwnershipError.toJson)),
    ("branded_types", brandsToJson a.brands)] ++
    if a.liveRanges.isEmpty then [] else [("live_ranges", liveRangesToJson a.liveRanges)])

def Analysis.summary (a : Analysis) : String :=
  s!"{a.typeErrors.length} type error(s), {a.ownershipErrors.length} ownership error(s)"

/-- A stretch of the source with what there is to say about it. -/
structure Label where
  offset : Nat
  length : Nat
  text : Option String := none

def Span.label (s : Span) (text : Option String) : Label := ⟨s.bytes.1, s.bytes.2, text⟩

structure Diagnostic where
  text : String
  code : String
  help : Option String := none
  labels : List Label

def TypeError.diagnostic (e : TypeError) : Diagnostic where
  text := e.message
  code := "veritas::typeck::" ++ e.category.label
  labels := [e.span.label none]

def OwnershipError.diagnostic (e : OwnershipError) : Diagnostic where
  text := e.message
  code := "veritas::ownership"
  help := e.help
  labels := e.span.label none :: (e.movedAt.map (·.label (some "value moved here"))).toList

/-- One diagnostic for each error, those about types first. -/
def Analysis.diagnostics (a : Analysis) : List Diagnostic :=
  a.typeErrors.map TypeError.diagnostic ++ a.ownershipErrors.map OwnershipError.diagnostic

end Sema
