import Sema.Span
import Sema.Binary64

/-!
# Literals and patterns

`Pattern.bindings` lists every name a pattern binds, in source order; of the alternatives of
an or-pattern the first is representative.
-/

namespace Sema

inductive LiteralKind where
  | int (n : UInt64)
  | float (x : Binary64)
  | str (s : String)
  | bool (b : Bool)
  | char (c : Char)
  | unit
  deriving DecidableEq, Inhabited

/-- A literal with its type suffix, as in `42u64`. -/
structure Literal where
  kind : LiteralKind
  suffix : Option String := none
  deriving DecidableEq, Inhabited

mutual

inductive Pattern where
  | wildcard (span : Span)
  | ident (span : Span) (name : String) (mutable byRef : Bool)
  | literal (span : Span) (value : Literal)
  | tuple (span : Span) (elems : List Pattern)
  | struct (span : Span) (name : Ident) (fields : List FieldPattern) (rest : Bool)
  | enum (span : Span) (path : List Ident) (fields : List Pattern)
  | or (span : Span) (alternatives : List Pattern)
  | range (span : Span) (start stop : Option Literal) (inclusive : Bool)

/-- A field of a struct pattern; without a pattern it binds its own name. -/
structure FieldPattern where
  span : Span
  name : Ident
  pattern : Option Pattern

end

namespace Pattern

def span : Pattern → Span
  | wildcard s | ident s .. | literal s _ | tuple s _ | struct s .. | enum s .. | or s _
  | range s .. => s

mutual

/-- Every name the pattern binds and where, in source order. -/
def bindings : Pattern → List (String × Span)
  | .wildcard _ | .literal .. | .range .. => []
  | .ident span name _ _ => [(name, span)]
  | .tuple _ elems => bindingsAll elems
  | .struct _ _ fields _ => bindingsFields fields
  | .enum _ _ fields => bindingsAll fields
  | .or _ alternatives =>
    match alternatives with
    | p :: _ => p.bindings
    | [] => []

def bindingsAll : List Pattern → List (String × Span)
  | [] => []
  | p :: r => p.bindings ++ bindingsAll r

def bindingsFields : List FieldPattern → List (String × Span)
  | [] => []
  | ⟨_, name, pattern⟩ :: r =>
    (match pattern with
      | some p => p.bindings
      | none => [(name.node, name.span)]) ++ bindingsFields r

end

/-- The names the pattern binds. -/
def names (p : Pattern) : List String := p.bindings.map (·.1)

end Pattern

end Sema
