/-!
# Floating-point literals

A 64-bit binary floating-point number, held as its bits. All rounding is to the nearest such
number, a half to the even neighbour, by exact arithmetic. `ofDecimal` rounds a decimal once;
`scale?` multiplies a number by a power of ten that is rounded itself, so it rounds at every
step. `text` writes the fewest digits that `ofDecimal` takes back to the number.
-/

namespace Sema

structure Binary64 where
  bits : UInt64
  deriving DecidableEq, Inhabited

namespace Binary64

/-- The number `2 ^ n`. -/
def pow2 (n : Nat) : Nat := Nat.pow 2 n

/-- The number `10 ^ n`. -/
def pow10 (n : Nat) : Nat := Nat.pow 10 n

/-- The nearest integer to `num / den`; a half goes to the even neighbour. -/
def roundDiv (num den : Nat) : Nat :=
  let q := num / den
  let r := num % den
  if 2 * r < den then q
  else if den < 2 * r then q + 1
  else q + q % 2

/-- The greatest `l` with `2 ^ l ≤ num / den`. -/
def floorLog2 (num den : Nat) : Int :=
  let l : Int := (Nat.log2 num : Int) - Nat.log2 den
  if den * pow2 l.toNat ≤ num * pow2 (-l).toNat then l else l - 1

/-- Bits of the infinities without their sign. -/
def infinity : Nat := 0x7FF * pow2 52

/-- Bits, without the sign, of the number nearest to `num / den`. A significand that rounds
up to the next power of two carries into the exponent by itself. -/
def magnitude (num den : Nat) : Nat :=
  if num = 0 then 0
  else
    let e := max (-1074) (floorLog2 num den - 52)
    (e + 1074).toNat * pow2 52 + roundDiv (num * pow2 (-e).toNat) (den * pow2 e.toNat)

def ofMagnitude (negative : Bool) (m : Nat) : Binary64 :=
  ⟨UInt64.ofNat (if negative then pow2 63 + m else m)⟩

/-- The number nearest to `± digits * 10 ^ exponent`, if it is finite. Exponents so large or
small that they decide the answer alone are not multiplied out. -/
def ofDecimal (negative : Bool) (digits : Nat) (exponent : Int) : Option Binary64 :=
  let places := (Nat.repr digits).length
  if digits = 0 || exponent + places < -400 then some (ofMagnitude negative 0)
  else if 400 < exponent then none
  else
    let m := magnitude (digits * pow10 exponent.toNat) (pow10 (-exponent).toNat)
    if m < infinity then some (ofMagnitude negative m) else none

/-- The number nearest to `± num / den`; beyond the largest finite number, an infinity. -/
def ofRatio (negative : Bool) (num den : Nat) : Binary64 :=
  ofMagnitude negative (min infinity (magnitude num den))

def isNegative (x : Binary64) : Bool := pow2 63 ≤ x.bits.toNat

def unsigned (x : Binary64) : Nat := x.bits.toNat % pow2 63

def isZero (x : Binary64) : Bool := x.unsigned = 0

def isFinite (x : Binary64) : Bool := x.unsigned < infinity

/-- Numerator and denominator of the number without its sign. -/
def ratio (x : Binary64) : Nat × Nat :=
  let b := x.unsigned
  if b < pow2 52 then (b, pow2 1074)
  else
    let m := b % pow2 52 + pow2 52
    let e : Int := (b / pow2 52 : Nat) - 1075
    (m * pow2 e.toNat, pow2 (-e).toNat)

/-- The product of two finite numbers. -/
def mul (x y : Binary64) : Binary64 :=
  let (a, b) := x.ratio
  let (c, d) := y.ratio
  ofRatio (x.isNegative != y.isNegative) (a * c) (b * d)

/-- The quotient of two finite numbers, the second not zero. -/
def div (x y : Binary64) : Binary64 :=
  let (a, b) := x.ratio
  let (c, d) := y.ratio
  ofRatio (x.isNegative != y.isNegative) (a * d) (b * c)

/-- The number nearest to `10 ^ n`, which is finite up to `n = 308`. -/
def tenTo (n : Nat) : Binary64 := ofRatio false (pow10 n) 1

/-- The finite number `x` divided by `10 ^ n`. A power of ten out of range is divided out in
parts. -/
def shrink (x : Binary64) (n : Nat) : Binary64 :=
  if n ≤ 308 then x.div (tenTo n)
  else if x.isZero then x
  else shrink (x.div (tenTo 308)) (n - 308)
termination_by n

/-- The finite number `x` times `10 ^ exponent`, if power and product are finite. Zero may be
scaled by any power. -/
def scale? (x : Binary64) (exponent : Int) : Option Binary64 :=
  if exponent < 0 then some (x.shrink exponent.natAbs)
  else if exponent ≤ 308 then some (x.mul (tenTo exponent.toNat)) |>.filter isFinite
  else if x.isZero then some x
  else none

/-- The `n`-digit decimal nearest to the number that reads back as it, as digits and
exponent, where `k` is the exponent of the leading digit. -/
def withDigits (x : Binary64) (k : Int) (n : Nat) : Option (Nat × Int) :=
  let (num, den) := x.ratio
  let e := k - (n - 1 : Nat)
  let num' := num * pow10 (-e).toNat
  let den' := den * pow10 e.toNat
  let low := num' / den'
  let reads (d : Nat) : Bool := ofDecimal x.isNegative d e == some x
  let lowNear := 2 * (num' - low * den') ≤ den'
  if reads low && (lowNear || !reads (low + 1)) then some (low, e)
  else if reads (low + 1) then some (if low + 1 = pow10 n then (1, e + n) else (low + 1, e))
  else none

/-- Digits and exponent of the shortest decimal that reads back as the number. -/
def shortest (x : Binary64) : Nat × Int :=
  let (num, den) := x.ratio
  if num = 0 then (0, 0)
  else
    let k : Int := ((Nat.repr (num * pow10 350 / den)).length : Int) - 351
    ((List.range 17).findSome? fun n => x.withDigits k (n + 1)).getD (num, 0)

/-- Positional from `1e-5` up to `1e16`, always with a point; otherwise with an exponent. -/
def text (x : Binary64) : String :=
  let (d, e) := x.shortest
  let digits := (Nat.repr d).toList
  let point : Int := digits.length + e
  let zeros (n : Int) : List Char := List.replicate n.toNat '0'
  let body : List Char :=
    if d = 0 then ['0', '.', '0']
    else if 0 ≤ e && point ≤ 16 then digits ++ zeros e ++ ['.', '0']
    else if 0 < point && point ≤ 16 then
      digits.take point.toNat ++ ['.'] ++ digits.drop point.toNat
    else if -5 < point && point ≤ 0 then ['0', '.'] ++ zeros (-point) ++ digits
    else
      let fraction := if digits.length = 1 then [] else '.' :: digits.drop 1
      digits.take 1 ++ fraction ++ ['e'] ++ (toString (point - 1)).toList
  String.ofList (if x.isNegative then '-' :: body else body)

end Binary64

end Sema
