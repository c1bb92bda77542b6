/-! # Hexadecimal digits

Digits are read in either case and written in lowercase.
-/

namespace LateMarkup.Text.Hex

def digit? (c : Char) : Option Nat :=
  if c.isDigit then some (c.toNat - '0'.toNat)
  else if 'a' ≤ c ∧ c ≤ 'f' then some (c.toNat - 'a'.toNat + 10)
  else if 'A' ≤ c ∧ c ≤ 'F' then some (c.toNat - 'A'.toNat + 10)
  else none

/-- The value of hexadecimal digits that follow others with the value `before`. -/
def valueFrom? (before : Nat) : List Char → Option Nat
  | [] => some before
  | c :: cs => do valueFrom? (before * 16 + (← digit? c)) cs

def value? (digits : List Char) : Option Nat := valueFrom? 0 digits

def digit (n : Nat) : Char :=
  if n < 10 then Char.ofNat ('0'.toNat + n) else Char.ofNat ('a'.toNat + (n - 10))

end LateMarkup.Text.Hex
