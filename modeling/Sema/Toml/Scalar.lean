import Sema.Binary64
import Sema.Toml.Basic

/-!
# Strings, numbers and times in TOML
-/

namespace Sema.Toml

/-- A reader gives what it read and the rest, or fails. -/
abbrev Reader (α : Type) := List Char → Option (α × List Char)

def isWs (c : Char) : Bool := c == ' ' || c == '\t'

def skipWs (cs : List Char) : List Char := cs.dropWhile isWs

def newline? : List Char → Option (List Char)
  | '\n' :: r => some r
  | '\r' :: '\n' :: r => some r
  | _ => none

/-- A tab, or anything printable. -/
def isText (c : Char) : Bool := c == '\t' || (0x20 ≤ c.toNat && c.toNat != 0x7F)

def hex? (c : Char) : Option Nat :=
  if c.isDigit then some (c.toNat - 48)
  else if 'a' ≤ c && c ≤ 'f' then some (c.toNat - 87)
  else if 'A' ≤ c && c ≤ 'F' then some (c.toNat - 55)
  else none

/-- The character with the code point that the digits write in base sixteen. -/
def codePoint? (ds : List Char) : Option Char := do
  let n ← ds.foldlM (fun n d => (hex? d).map (16 * n + ·)) 0
  if n < 0xD800 || (0xE000 ≤ n && n < 0x110000) then some (Char.ofNat n) else none

/-- An escape after its backslash. -/
def escape : Reader Char
  | 'b' :: r => some ('\x08', r)
  | 't' :: r => some ('\t', r)
  | 'n' :: r => some ('\n', r)
  | 'f' :: r => some ('\x0c', r)
  | 'r' :: r => some ('\r', r)
  | '"' :: r => some ('"', r)
  | '\\' :: r => some ('\\', r)
  | 'u' :: r => if r.length < 4 then none else (codePoint? (r.take 4)).map (·, r.drop 4)
  | 'U' :: r => if r.length < 8 then none else (codePoint? (r.take 8)).map (·, r.drop 8)
  | _ => none

/-- A basic string after its opening quote; `n` bounds its length. -/
def basic : Nat → Reader (List Char)
  | _, '"' :: r => some ([], r)
  | n + 1, '\\' :: r => do
    let (c, r) ← escape r
    let (s, rest) ← basic n r
    return (c :: s, rest)
  | n + 1, c :: r => do
    if !isText c then none
    let (s, rest) ← basic n r
    return (c :: s, rest)
  | _, _ => none

/-- A literal string after its opening quote. -/
def literal : Reader (List Char)
  | '\'' :: r => some ([], r)
  | c :: r => do
    if !isText c then none
    let (s, rest) ← literal r
    return (c :: s, rest)
  | [] => none

/-- Quotes inside a string of several lines: three end it, after at most two of its own. -/
def quotes (q : Char) (cs : List Char) : List Char × Option (List Char) :=
  let k := (cs.takeWhile (· == q)).length
  if k < 3 then (List.replicate k q, none)
  else
    let own := min (k - 3) 2
    (List.replicate own q, some (cs.drop (own + 3)))

/-- Skip white space and newlines. -/
def skipLines : List Char → List Char
  | [] => []
  | c :: r =>
    if isWs c || c == '\n' || (c == '\r' && r.head? == some '\n') then skipLines r else c :: r

/-- A basic string of several lines after its opening quotes. A backslash at the end of a
line skips the white space and newlines up to the next character. -/
def multiBasic : Nat → Reader (List Char)
  | 0, _ | _, [] => none
  | n + 1, c :: r => do
    if c == '"' then
      match quotes '"' (c :: r) with
      | (own, some rest) => return (own, rest)
      | (own, none) =>
        let (s, rest) ← multiBasic n ((c :: r).drop own.length)
        return (own ++ s, rest)
    else if c == '\\' then
      match newline? (skipWs r) with
      | some r => multiBasic n (skipLines r)
      | none =>
        let (c, r) ← escape r
        let (s, rest) ← multiBasic n r
        return (c :: s, rest)
    else
      match newline? (c :: r) with
      | some r =>
        let (s, rest) ← multiBasic n r
        return ('\n' :: s, rest)
      | none =>
        if !isText c then none
        let (s, rest) ← multiBasic n r
        return (c :: s, rest)

/-- A literal string of several lines after its opening quotes. -/
def multiLiteral : Nat → Reader (List Char)
  | 0, _ | _, [] => none
  | n + 1, c :: r => do
    if c == '\'' then
      match quotes '\'' (c :: r) with
      | (own, some rest) => return (own, rest)
      | (own, none) =>
        let (s, rest) ← multiLiteral n ((c :: r).drop own.length)
        return (own ++ s, rest)
    else
      match newline? (c :: r) with
      | some r =>
        let (s, rest) ← multiLiteral n r
        return ('\n' :: s, rest)
      | none =>
        if !isText c then none
        let (s, rest) ← multiLiteral n r
        return (c :: s, rest)

/-- A newline right after the opening quotes does not count. -/
def skipNewline (cs : List Char) : List Char := (newline? cs).getD cs

/-- A string of any of the four kinds. -/
def string : Reader String
  | '"' :: '"' :: '"' :: r => (multiBasic (r.length + 1) (skipNewline r)).map ofChars
  | '"' :: r => (basic r.length r).map ofChars
  | '\'' :: '\'' :: '\'' :: r => (multiLiteral (r.length + 1) (skipNewline r)).map ofChars
  | '\'' :: r => (literal r).map ofChars
  | _ => none
where
  ofChars (p : List Char × List Char) : String × List Char := (String.ofList p.1, p.2)

/-- Digits of some kind, with single underscores between them. -/
def grouped (isDigit : Char → Bool) : Reader (List Char)
  | c :: '_' :: r => do
    if !isDigit c then none
    let (ds, rest) ← grouped isDigit r
    return (c :: ds, rest)
  | c :: r => do
    if !isDigit c then none
    match r with
    | d :: _ =>
      if isDigit d then
        let (ds, rest) ← grouped isDigit r
        return (c :: ds, rest)
      else return ([c], r)
    | [] => return ([c], [])
  | [] => none

/-- The number that digits write in a base. -/
def ofDigits (base : Nat) (ds : List Char) : Nat :=
  ds.foldl (fun n d => base * n + (hex? d).getD 0) 0

/-- A whole number has to fit into 64 bits with its sign. -/
def int? (n : Int) : Option Value :=
  if -(Nat.pow 2 63 : Int) ≤ n && n < (Nat.pow 2 63 : Int) then some (.int n) else none

/-- A whole number in another base, after its two-character mark. -/
def based (base : Nat) (isDigit : Char → Bool) (cs : List Char) : Option (Value × List Char) := do
  let (ds, rest) ← grouped isDigit cs
  return (← int? (ofDigits base ds), rest)

/-- A whole number in base ten; a leading zero stands alone. -/
def decimal : Reader (List Char)
  | '0' :: r => some (['0'], r)
  | cs => grouped Char.isDigit cs

def fraction : Reader (List Char)
  | '.' :: r => grouped Char.isDigit r
  | cs => some ([], cs)

/-- The exponent, if one stands here. -/
def exponent : Reader (Option Int)
  | c :: r =>
    if c == 'e' || c == 'E' then do
      let (sign, r) := match r with
        | '+' :: r => ((1 : Int), r)
        | '-' :: r => (-1, r)
        | r => (1, r)
      let (ds, rest) ← grouped Char.isDigit r
      return (some (sign * ofDigits 10 ds), rest)
    else some (none, c :: r)
  | [] => some (none, [])

def special : List Char → Option (List Char)
  | 'i' :: 'n' :: 'f' :: r => some r
  | 'n' :: 'a' :: 'n' :: r => some r
  | _ => none

/-- A number after its sign. A float may not be too large, unless it is negative. -/
def unsigned (negative : Bool) (cs : List Char) : Option (Value × List Char) := do
  match special cs with
  | some r => return (.float, r)
  | none =>
    let (whole, r) ← decimal cs
    let (frac, r) ← fraction r
    let (exp, r) ← exponent r
    if frac.isEmpty && exp.isNone then
      let n : Int := ofDigits 10 whole
      return (← int? (if negative then -n else n), r)
    else
      let x := Binary64.ofDecimal negative (ofDigits 10 (whole ++ frac))
        (exp.getD 0 - (frac.length : Int))
      if x.isNone && !negative then none
      return (.float, r)

def number : Reader Value
  | '+' :: r => unsigned false r
  | '-' :: r => unsigned true r
  | '0' :: 'x' :: r => based 16 (fun c => (hex? c).isSome) r
  | '0' :: 'o' :: r => based 8 (fun c => '0' ≤ c && c ≤ '7') r
  | '0' :: 'b' :: r => based 2 (fun c => c == '0' || c == '1') r
  | cs => unsigned false cs

/-- A number of exactly `n` digits between `low` and `high`. -/
def field (n low high : Nat) (cs : List Char) : Option (Nat × List Char) :=
  let ds := cs.take n
  let v := ofDigits 10 ds
  if ds.length = n && ds.all Char.isDigit && low ≤ v && v ≤ high then some (v, cs.drop n) else none

def expect (c : Char) : List Char → Option (List Char)
  | d :: r => if c = d then some r else none
  | [] => none

def daysIn (year month : Nat) : Nat :=
  if month = 2 then
    if year % 4 = 0 && (year % 100 != 0 || year % 400 = 0) then 29 else 28
  else if [4, 6, 9, 11].contains month then 30
  else 31

def date (cs : List Char) : Option (List Char) := do
  let (year, cs) ← field 4 0 9999 cs
  let (month, cs) ← field 2 1 12 (← expect '-' cs)
  let (_, cs) ← field 2 1 (daysIn year month) (← expect '-' cs)
  return cs

def timeOfDay (cs : List Char) : Option (List Char) := do
  let (_, cs) ← field 2 0 23 cs
  let (_, cs) ← field 2 0 59 (← expect ':' cs)
  let (_, cs) ← field 2 0 60 (← expect ':' cs)
  match cs with
  | '.' :: r => if (r.takeWhile Char.isDigit).isEmpty then none else some (r.dropWhile Char.isDigit)
  | _ => some cs

/-- The distance from universal time, if one stands here. -/
def offset : List Char → Option (List Char)
  | c :: r =>
    if c == 'Z' || c == 'z' then some r
    else if c == '+' || c == '-' then do
      let (_, r) ← field 2 0 23 r
      let (_, r) ← field 2 0 59 (← expect ':' r)
      return r
    else some (c :: r)
  | [] => some []

/-- A date, a time of day, or both with or without an offset. -/
def time (cs : List Char) : Option (List Char) :=
  match date cs with
  | none => timeOfDay cs
  | some [] => some []
  | some (c :: r) =>
    if c == 'T' || c == 't' || c == ' ' then
      match timeOfDay r with
      | some rest => offset rest
      | none => some (c :: r)
    else some (c :: r)

/-- A value that starts with a sign or a digit. -/
def quantity (cs : List Char) : Option (Value × List Char) :=
  match time cs with
  | some rest => some (.time, rest)
  | none => number cs

end Sema.Toml
