/-!
# Whole numbers as text

An unsigned number of 64 bits is written with decimal digits, after an optional plus sign.
-/

namespace Sema

/-- The number that a list of digits writes, going on from `n`. -/
def digits? (n : Nat) : List Char → Option Nat
  | [] => some n
  | c :: r => if c.isDigit then digits? (10 * n + (c.toNat - 48)) r else none

/-- Read an unsigned number of 64 bits. -/
def word? (s : String) : Option Nat :=
  let digits :=
    match s.toList with
    | '+' :: r => r
    | l => l
  if digits.isEmpty then none else (digits? 0 digits).filter (· < UInt64.size)

end Sema
