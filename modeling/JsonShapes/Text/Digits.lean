/-!
# Digits

Numbers as their digits spell them, in decimal and in hexadecimal notation. A whole number in
decimal notation is read, and written into a message, only up to a certain length; the other
notations have no such limit.
-/

namespace JsonShapes

/-- Whether a character is a decimal digit. -/
def isDigit (c : Char) : Bool :=
  '0' ≤ c && c ≤ '9'

/-- The value of a hexadecimal digit. -/
def hexDigit? (c : Char) : Option Nat :=
  if '0' ≤ c ∧ c ≤ '9' then some (c.toNat - 48)
  else if 'a' ≤ c ∧ c ≤ 'f' then some (c.toNat - 87)
  else if 'A' ≤ c ∧ c ≤ 'F' then some (c.toNat - 55)
  else none

/-- The number that hexadecimal digits spell. -/
def hexNumber? (digits : List Char) : Option Nat :=
  digits.foldlM (fun n c ↦ (hexDigit? c).map (16 * n + ·)) 0

/-- The number that decimal digits spell. -/
def decimalNumber (digits : List Char) : Nat :=
  digits.foldl (fun n c ↦ 10 * n + (c.toNat - 48)) 0

/-- The most digits that a whole number in decimal notation may have. -/
def maxIntegerDigits : Nat := 4300

/-- A number in at least as many digits as asked for. -/
def paddedDigits (width n : Nat) : List Char :=
  let digits := Nat.toDigits 10 n
  List.replicate (width - digits.length) '0' ++ digits

end JsonShapes
