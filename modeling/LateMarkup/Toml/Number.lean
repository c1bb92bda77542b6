import LateMarkup.Text.Hex

/-! # Numbers of TOML texts

Integers in four bases and floats. Single underscores may stand between two digits and mean nothing.
An integer has to fit into 128 bits, of which a negative one uses the first for its sign. A float is
refused if it is so large that the nearest double would be infinite; none is too small.
-/

namespace LateMarkup.Toml.Number

/-! ## Digits -/

def isDigitOf (base : Nat) (c : Char) : Bool := (Text.Hex.digit? c).any (· < base)

/-- One or more digits, with single underscores allowed between two of them. -/
def isGrouped (base : Nat) : List Char → Bool
  | [] => false
  | [c] => isDigitOf base c
  | c :: '_' :: rest => isDigitOf base c && isGrouped base rest
  | c :: rest => isDigitOf base c && isGrouped base rest

def ungrouped (digits : List Char) : List Char := digits.filter (· != '_')

def natural (base : Nat) (digits : List Char) : Nat :=
  digits.foldl (fun number c => number * base + (Text.Hex.digit? c).getD 0) 0

/-- Decimal digits, of which the first is a zero only if it is the only one. -/
def isDecimal : List Char → Bool
  | ['0'] => true
  | '0' :: _ => false
  | digits => isGrouped 10 digits

/-! ## Integers -/

/-- Whether grouped digits of a base spell a number of at most 128 bits. -/
def isNatural (base : Nat) (digits : List Char) : Bool :=
  isGrouped base digits && natural base (ungrouped digits) < Nat.pow 2 128

def isInteger : List Char → Bool
  | '0' :: 'x' :: digits => isNatural 16 digits
  | '0' :: 'o' :: digits => isNatural 8 digits
  | '0' :: 'b' :: digits => isNatural 2 digits
  | '-' :: digits => isDecimal digits && natural 10 (ungrouped digits) ≤ Nat.pow 2 127
  | '+' :: digits => isDecimal digits && isNatural 10 digits
  | digits => isDecimal digits && isNatural 10 digits

/-! ## Floats -/

/-- A decimal number: the digits before its point, those behind it, and the power of ten by which
it is multiplied. -/
structure Decimal where
  whole : List Char
  fraction : List Char
  exponent : Int

namespace Decimal

/-- The least number that is not rounded to a finite double. It lies half-way between the largest
finite double and the next power of two, and such a number is rounded up. -/
def leastInfinite : Nat := (Nat.pow 2 54 - 1) * Nat.pow 2 970

def placesOfLeastInfinite : Nat := 309

/-- Whether the nearest double is infinite. Among numbers with as many digits before the point as
`leastInfinite`, it suffices to compare those digits, since there is nothing behind its point. -/
def overflows (decimal : Decimal) : Bool :=
  let digits := decimal.whole ++ decimal.fraction
  let significant := digits.dropWhile (· == '0')
  let zeros : Nat := digits.length - significant.length
  let places : Int := decimal.whole.length - zeros + decimal.exponent
  let limit := placesOfLeastInfinite
  let leading := (significant ++ List.replicate limit '0').take limit
  !significant.isEmpty &&
    (places > limit || (places = limit && natural 10 leading ≥ leastInfinite))

end Decimal

def isExponentMark (c : Char) : Bool := c == 'e' || c == 'E'

def fraction? : List Char → Option (List Char)
  | [] => some []
  | _ :: digits => if isGrouped 10 digits then some (ungrouped digits) else none

def signed? : List Char → Option Int
  | '-' :: digits => if isGrouped 10 digits then some (-natural 10 (ungrouped digits)) else none
  | '+' :: digits => if isGrouped 10 digits then some (natural 10 (ungrouped digits)) else none
  | digits => if isGrouped 10 digits then some (natural 10 (ungrouped digits)) else none

def exponent? : List Char → Option Int
  | [] => some 0
  | _ :: exponent => signed? exponent

def decimal? (cs : List Char) : Option Decimal := do
  let mantissa := cs.takeWhile fun c => !isExponentMark c
  let whole := mantissa.takeWhile (· != '.')
  let fraction ← fraction? (mantissa.dropWhile (· != '.'))
  let exponent ← exponent? (cs.dropWhile fun c => !isExponentMark c)
  if isDecimal whole then some ⟨ungrouped whole, fraction, exponent⟩ else none

def dropSign : List Char → List Char
  | '+' :: rest => rest
  | '-' :: rest => rest
  | cs => cs

/-- A float, which has a point or an exponent or both, or is infinite or no number by its name. -/
def isFloat (cs : List Char) : Bool :=
  let magnitude := dropSign cs
  magnitude == "inf".toList || magnitude == "nan".toList ||
    (magnitude.any (fun c => c == '.' || isExponentMark c) &&
      (decimal? magnitude).any (!·.overflows))

end LateMarkup.Toml.Number
