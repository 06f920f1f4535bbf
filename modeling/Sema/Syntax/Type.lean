import Sema.Span
import Sema.Effect

/-!
# Type syntax

Types as they are written in a program, and the text of each.
-/

namespace Sema

inductive Primitive where
  | i8 | i16 | i32 | i64 | i128
  | u8 | u16 | u32 | u64 | u128
  | f32 | f64
  | bool | char | str
  deriving DecidableEq, Inhabited

namespace Primitive

def all : List Primitive :=
  [.i8, .i16, .i32, .i64, .i128, .u8, .u16, .u32, .u64, .u128, .f32, .f64, .bool, .char, .str]

def name : Primitive → String
  | i8 => "i8"
  | i16 => "i16"
  | i32 => "i32"
  | i64 => "i64"
  | i128 => "i128"
  | u8 => "u8"
  | u16 => "u16"
  | u32 => "u32"
  | u64 => "u64"
  | u128 => "u128"
  | f32 => "f32"
  | f64 => "f64"
  | bool => "bool"
  | char => "char"
  | str => "str"

def ofName? (s : String) : Option Primitive := all.find? (·.name == s)

def isFloat : Primitive → Bool
  | f32 | f64 => true
  | _ => false

def isInteger : Primitive → Bool
  | f32 | f64 | bool | char | str => false
  | _ => true

@[simp] theorem ofName?_name (p : Primitive) : ofName? p.name = some p := by
  cases p <;> decide

end Primitive

mutual

structure TypeExpr where
  span : Span
  kind : TypeExprKind

inductive TypeExprKind where
  | primitive (p : Primitive)
  /-- A path with type arguments; a bare name is a path of one segment. -/
  | path (segments : List String) (args : List TypeExpr)
  | branded (base : TypeExpr) (brand : String)
  | function (params : List TypeExpr) (ret : Option TypeExpr) (effects : List EffectExpr)
  | reference (inner : TypeExpr) (mutable : Bool) (lifetime : Option String)
  | tuple (elems : List TypeExpr)
  /-- An array, or a slice when the length is absent. -/
  | array (elem : TypeExpr) (len : Option UInt64)

/-- An effect declared in a signature, with the payload of a state or an error. -/
structure EffectExpr where
  span : Span
  kind : EffectKind
  arg : Option TypeExpr

end

/-- Path segments as one name. -/
def joinPath (segments : List String) : String := "::".intercalate segments

namespace TypeExpr

def unit (span : Span) : TypeExpr := ⟨span, .tuple []⟩

/-- The full name of a path type. -/
def pathName? (t : TypeExpr) : Option String :=
  match t.kind with
  | .path segments _ => some (joinPath segments)
  | _ => none

end TypeExpr

mutual

def TypeExpr.text : TypeExpr → String
  | ⟨_, kind⟩ => kind.text

def TypeExprKind.text : TypeExprKind → String
  | .primitive p => p.name
  | .path segments args =>
    let name := joinPath segments
    if args.isEmpty then name else name ++ "<" ++ ", ".intercalate (typeTexts args) ++ ">"
  | .branded base brand => base.text ++ " as " ++ brand
  | .function params ret effects =>
    let ret := match ret with
      | some t => " -> " ++ t.text
      | none => ""
    let effects := if effects.isEmpty then "" else " !" ++ " + ".intercalate (effectTexts effects)
    "fn(" ++ ", ".intercalate (typeTexts params) ++ ")" ++ ret ++ effects
  | .reference inner mutable lifetime =>
    let lifetime := match lifetime with
      | some l => "'" ++ l ++ " "
      | none => ""
    "&" ++ lifetime ++ (if mutable then "mut " else "") ++ inner.text
  | .tuple elems => "(" ++ ", ".intercalate (typeTexts elems) ++ ")"
  | .array elem len =>
    match len with
    | some n => "[" ++ elem.text ++ "; " ++ toString n.toNat ++ "]"
    | none => "[" ++ elem.text ++ "]"

def typeTexts : List TypeExpr → List String
  | [] => []
  | t :: r => t.text :: typeTexts r

def EffectExpr.text : EffectExpr → String
  | ⟨_, kind, arg⟩ =>
    match arg with
    | some t => kind.name ++ "<" ++ t.text ++ ">"
    | none => kind.name

def effectTexts : List EffectExpr → List String
  | [] => []
  | e :: r => e.text :: effectTexts r

end

end Sema
