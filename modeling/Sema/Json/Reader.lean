import Sema.Json.Basic

/-!
# Reading JSON text

Strict JSON: one value, blanks around it, nothing else. The reader is a recursive descent on
the characters left; every call takes at least one character, so the length of the text
bounds the number of nested calls.
-/

namespace Sema.Json

namespace Reader

def isBlank (c : Char) : Bool := c == ' ' || c == '\n' || c == '\t' || c == '\r'

def skipBlank (cs : List Char) : List Char := cs.dropWhile isBlank

/-- Drop the characters of `word` from the front, if they stand there. -/
def word? : List Char → List Char → Option (List Char)
  | [], cs => some cs
  | w :: ws, c :: cs => if w = c then word? ws cs else none
  | _ :: _, [] => none

def hexDigit? (c : Char) : Option Nat :=
  if '0' ≤ c && c ≤ '9' then some (c.toNat - '0'.toNat)
  else if 'a' ≤ c && c ≤ 'f' then some (c.toNat - 'a'.toNat + 10)
  else if 'A' ≤ c && c ≤ 'F' then some (c.toNat - 'A'.toNat + 10)
  else none

/-- A part of a string: a character, or a sixteen-bit unit written in hexadecimal. -/
inductive Piece where
  | char (c : Char)
  | unit (n : Nat)

def unit? (a b c d : Char) : Option Piece := do
  return .unit ((((← hexDigit? a) * 16 + (← hexDigit? b)) * 16 + (← hexDigit? c)) * 16
    + (← hexDigit? d))

def escape? : Char → Option Char
  | '"' => some '"'
  | '\\' => some '\\'
  | '/' => some '/'
  | 'b' => some '\x08'
  | 'f' => some '\x0c'
  | 'n' => some '\n'
  | 'r' => some '\r'
  | 't' => some '\t'
  | _ => none

/-- The pieces of a string up to its closing quote, and what follows it. -/
def pieces : List Char → Option (List Piece × List Char)
  | [] => none
  | '"' :: r => some ([], r)
  | '\\' :: 'u' :: a :: b :: c :: d :: r => do
    let p ← unit? a b c d
    let (ps, rest) ← pieces r
    return (p :: ps, rest)
  | '\\' :: e :: r => do
    let c ← escape? e
    let (ps, rest) ← pieces r
    return (.char c :: ps, rest)
  | c :: r => do
    if c.toNat < 0x20 || c = '\\' then none
    let (ps, rest) ← pieces r
    return (.char c :: ps, rest)

/-- The characters that the pieces stand for; none when a surrogate has no partner. -/
def characters : List Piece → Option (List Char)
  | [] => some []
  | .char c :: r => (c :: ·) <$> characters r
  | .unit n :: r =>
    if 0xD800 ≤ n && n < 0xE000 then
      match r with
      | .unit m :: r' =>
        if n < 0xDC00 && 0xDC00 ≤ m && m < 0xE000 then
          (Char.ofNat (0x10000 + (n - 0xD800) * 0x400 + (m - 0xDC00)) :: ·) <$> characters r'
        else none
      | _ => none
    else (Char.ofNat n :: ·) <$> characters r

/-- A string after its opening quote; its text is missing when it denotes none. -/
def string (cs : List Char) : Option (Option String × List Char) := do
  let (ps, rest) ← pieces cs
  return ((characters ps).map String.ofList, rest)

def digits (cs : List Char) : List Char × List Char := cs.span Char.isDigit

/-- The number that `n` becomes when a digit is written after it. -/
def appendDigit (n : Nat) (d : Char) : Nat := n * 10 + (d.toNat - '0'.toNat)

def digitsValue (ds : List Char) : Nat := ds.foldl appendDigit 0

/-- Write digits after `n` while it fits 64 bits: the number reached, and how many digits are
left over. -/
def significand (n : Nat) : List Char → Nat × Nat
  | [] => (n, 0)
  | d :: r =>
    let m := appendDigit n d
    if m < Nat.pow 2 64 then significand m r else (n, r.length + 1)

/-- The digits after a point, if one stands here. -/
def fraction : List Char → Option (Option (List Char) × List Char)
  | '.' :: r =>
    let (ds, rest) := digits r
    if ds.isEmpty then none else some (some ds, rest)
  | cs => some (none, cs)

def exponentDigits (negative : Bool) (cs : List Char) : Option (Option Int × List Char) :=
  let (ds, rest) := digits cs
  if ds.isEmpty then none
  else some (some (if negative then -(digitsValue ds : Int) else digitsValue ds), rest)

/-- The exponent, if one stands here. -/
def exponent : List Char → Option (Option Int × List Char)
  | c :: r =>
    if c = 'e' || c = 'E' then
      match r with
      | '+' :: r' => exponentDigits false r'
      | '-' :: r' => exponentDigits true r'
      | r' => exponentDigits false r'
    else some (none, c :: r)
  | [] => some (none, [])

/-- A whole number that fits 64 bits is an integer. Any other number, and minus zero, is a
floating-point number: as many leading digits as fit 64 bits, scaled by a power of ten. -/
def numberValue (negative : Bool) (whole : List Char) (frac : Option (List Char))
    (exp : Option Int) : Value :=
  let n := digitsValue whole
  let isInt := frac.isNone && exp.isNone &&
    (if negative then 0 < n && n ≤ Nat.pow 2 63 else n < Nat.pow 2 64)
  if isInt then .int (if negative then -(n : Int) else n)
  else
    let decimals := frac.getD []
    let (lead, wholeLeft) := significand 0 whole
    let (all, decimalsLeft) := significand lead decimals
    let e := exp.getD 0 + (wholeLeft + decimalsLeft : Nat) - (decimals.length : Int)
    match (Binary64.ofRatio negative all 1).scale? e with
    | some x => .float x
    | none => .ill

/-- A number; a leading zero stands alone. -/
def number (cs : List Char) : Option (Value × List Char) := do
  let (negative, cs) := match cs with
    | '-' :: r => (true, r)
    | r => (false, r)
  let (whole, cs) := digits cs
  if whole.isEmpty || (whole.head? == some '0' && whole.length ≠ 1) then none
  let (frac, cs) ← fraction cs
  let (exp, cs) ← exponent cs
  return (numberValue negative whole frac exp, cs)

mutual

def value : Nat → List Char → Option (Value × List Char)
  | 0, _ => none
  | n + 1, cs =>
    match skipBlank cs with
    | '{' :: r =>
      match skipBlank r with
      | '}' :: r' => some (.obj [], r')
      | r' => (members n r').map fun (ms, rest) => ((ms.map Value.obj).getD .ill, rest)
    | '[' :: r =>
      match skipBlank r with
      | ']' :: r' => some (.arr [], r')
      | r' => (elems n r').map fun (vs, rest) => (.arr vs, rest)
    | '"' :: r => (string r).map fun (s, rest) => ((s.map Value.str).getD .ill, rest)
    | 't' :: r => (word? ['r', 'u', 'e'] r).map fun rest => (.bool true, rest)
    | 'f' :: r => (word? ['a', 'l', 's', 'e'] r).map fun rest => (.bool false, rest)
    | 'n' :: r => (word? ['u', 'l', 'l'] r).map fun rest => (.null, rest)
    | cs' => number cs'

/-- The elements of an array that has one, up to its closing bracket. -/
def elems : Nat → List Char → Option (List Value × List Char)
  | 0, _ => none
  | n + 1, cs => do
    let (v, rest) ← value n cs
    match skipBlank rest with
    | ',' :: r =>
      let (vs, rest) ← elems n r
      return (v :: vs, rest)
    | ']' :: r => return ([v], r)
    | _ => none

/-- The members of an object that has one, up to its closing brace; missing when a key
denotes no text. -/
def members : Nat → List Char → Option (Option (List (String × Value)) × List Char)
  | 0, _ => none
  | n + 1, cs =>
    match skipBlank cs with
    | '"' :: r => do
      let (key, rest) ← string r
      match skipBlank rest with
      | ':' :: r =>
        let (v, rest) ← value n r
        match skipBlank rest with
        | ',' :: r =>
          let (ms, rest) ← members n r
          return ((do return (← key, v) :: (← ms)), rest)
        | '}' :: r => return (key.map fun k => [(k, v)], r)
        | _ => none
      | _ => none
    | _ => none

end

end Reader

/-- The value that `text` denotes, if it is strict JSON. -/
def parse? (text : String) : Option Value := do
  let cs := text.toList
  let (v, rest) ← Reader.value (cs.length + 1) cs
  if (Reader.skipBlank rest).isEmpty then some v else none

end Sema.Json
