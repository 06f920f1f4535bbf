import Sema.Json.Basic

/-!
# Writing JSON text

Two layouts: everything on one line, and one member or element a line with two blanks of
indentation a level. A string escapes its quotes, backslashes and control characters only.
-/

namespace Sema.Json

namespace Printer

def hexDigit (n : Nat) : Char :=
  if n < 10 then Char.ofNat ('0'.toNat + n) else Char.ofNat ('a'.toNat + (n - 10))

def escaped (c : Char) : List Char :=
  if c = '"' then ['\\', '"']
  else if c = '\\' then ['\\', '\\']
  else if c = '\x08' then ['\\', 'b']
  else if c = '\x0c' then ['\\', 'f']
  else if c = '\n' then ['\\', 'n']
  else if c = '\r' then ['\\', 'r']
  else if c = '\t' then ['\\', 't']
  else if c.toNat < 0x20 then ['\\', 'u', '0', '0', hexDigit (c.toNat / 16), hexDigit (c.toNat % 16)]
  else [c]

def quoted (s : String) : String := "\"" ++ String.ofList (s.toList.flatMap escaped) ++ "\""

/-- A number that is not finite is written as nothing is. -/
def scalar : Value → String
  | .null => "null"
  | .bool b => if b then "true" else "false"
  | .int n => toString n
  | .float x => if x.isFinite then x.text else "null"
  | .str s => quoted s
  | _ => "null"

def newline (level : Nat) : String := "\n" ++ String.ofList (List.replicate (2 * level) ' ')

end Printer

namespace Value

mutual

/-- On one line, without blanks. -/
def compact : Value → String
  | .arr elems => "[" ++ ",".intercalate (compactElems elems) ++ "]"
  | .obj members => "\x7b" ++ ",".intercalate (compactMembers members) ++ "\x7d"
  | v => Printer.scalar v

def compactElems : List Value → List String
  | [] => []
  | v :: r => v.compact :: compactElems r

def compactMembers : List (String × Value) → List String
  | [] => []
  | (k, v) :: r => (Printer.quoted k ++ ":" ++ v.compact) :: compactMembers r

end

mutual

/-- Indented, as it stands `level` levels deep. -/
def prettyAt (level : Nat) : Value → String
  | .arr [] => "[]"
  | .arr elems =>
    let sep := Printer.newline (level + 1)
    "[" ++ sep ++ ("," ++ sep).intercalate (prettyElems (level + 1) elems)
      ++ Printer.newline level ++ "]"
  | .obj [] => "\x7b\x7d"
  | .obj members =>
    let sep := Printer.newline (level + 1)
    "\x7b" ++ sep ++ ("," ++ sep).intercalate (prettyMembers (level + 1) members)
      ++ Printer.newline level ++ "\x7d"
  | v => Printer.scalar v

def prettyElems (level : Nat) : List Value → List String
  | [] => []
  | v :: r => v.prettyAt level :: prettyElems level r

def prettyMembers (level : Nat) : List (String × Value) → List String
  | [] => []
  | (k, v) :: r => (Printer.quoted k ++ ": " ++ v.prettyAt level) :: prettyMembers level r

end

/-- One member or element a line. -/
def pretty (v : Value) : String := v.prettyAt 0

end Value

end Sema.Json
