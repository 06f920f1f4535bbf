import Sema.Table
import Sema.Ty.Scheme

/-!
# Catalogs

What a program may use without declaring it: values, some of which are also constructors in
patterns, type names with their arity, type aliases, and methods by the name of the type.
-/

namespace Sema

/-- Methods by type and then by name. -/
abbrev Methods := Table String (Table String Scheme)

namespace Methods

def find? (m : Methods) (type method : String) : Option Scheme :=
  (m.get? type).bind (·.get? method)

def add (m : Methods) (type method : String) (s : Scheme) : Methods :=
  m.insert type (((m.get? type).getD .empty).insert method s)

/-- Type, method and scheme, ordered by type and then method. -/
def toList (m : Methods) : List (String × String × Scheme) :=
  m.entries.flatMap fun (type, t) => t.entries.map fun (method, s) => (type, method, s)

end Methods

structure Catalog where
  values : Table String Scheme := .empty
  constructors : Table String Scheme := .empty
  types : Table String Nat := .empty
  aliases : Table String Ty := .empty
  methods : Methods := .empty
  deriving Inhabited

namespace Catalog

def empty : Catalog := {}

def value (c : Catalog) (name : String) (s : Scheme) : Catalog :=
  { c with values := c.values.insert name s }

/-- A constructor is a value that patterns know as well. -/
def constructor (c : Catalog) (name : String) (s : Scheme) : Catalog :=
  { c with values := c.values.insert name s, constructors := c.constructors.insert name s }

def type (c : Catalog) (name : String) (arity : Nat) : Catalog :=
  { c with types := c.types.insert name arity }

def typeAlias (c : Catalog) (name : String) (t : Ty) : Catalog :=
  { c with aliases := c.aliases.insert name t }

/-- The first parameter of a method is its receiver. -/
def method (c : Catalog) (type name : String) (s : Scheme) : Catalog :=
  { c with methods := c.methods.add type name s }

/-- A constructor under its own name and under that of its type. -/
def variant (c : Catalog) (type name : String) (s : Scheme) : Catalog :=
  (c.constructor (type ++ "::" ++ name) s).constructor name s

/-- `Option`, `Result`, arrays, ranges and console output. -/
def standard : Catalog :=
  let a : Ty := .var 0
  let b : Ty := .var 1
  let option := Ty.app Ty.optionName [a]
  let result := Ty.app Ty.resultName [a, b]
  let str := Ty.prim .str
  let console := Scheme.mono (.fn [str] .unit (.closed (.ofList [.io])))
  empty
    |>.type Ty.optionName 1
    |>.type Ty.resultName 2
    |>.type Ty.arrayName 1
    |>.type Ty.rangeName 1
    |>.typeAlias "String" str
    |>.variant Ty.optionName "Some" ⟨[0], .fn [a] option .pure⟩
    |>.variant Ty.optionName "None" ⟨[0], option⟩
    |>.variant Ty.resultName "Ok" ⟨[0, 1], .fn [a] result .pure⟩
    |>.variant Ty.resultName "Err" ⟨[0, 1], .fn [b] result .pure⟩
    |>.value "print" console
    |>.value "println" console
    |>.method "str" "len" (.mono (.fn [str] (.prim .u64) .pure))
    |>.method Ty.arrayName "len" ⟨[0], .fn [.array a] (.prim .u64) .pure⟩
    |>.method Ty.arrayName "push" ⟨[0], .fn [.array a, a] .unit (.closed (.ofList [.state]))⟩
    |>.method Ty.optionName "is_some" ⟨[0], .fn [option] .bool .pure⟩
    |>.method Ty.optionName "unwrap" ⟨[0], .fn [option] a .pure⟩
    |>.method Ty.resultName "is_ok" ⟨[0, 1], .fn [result] .bool .pure⟩
    |>.method Ty.resultName "unwrap" ⟨[0, 1], .fn [result] a .pure⟩

end Catalog

end Sema
