import LateMarkup.Toml.Number
import LateMarkup.Toml.Quoted

/-! # Scalars of TOML texts

The values that are written without quotes or brackets: truth values, integers, floats, dates and
times. No setting is one of them, so they are checked and kept as they are written.
-/

namespace LateMarkup.Toml.Scalar

/-! ## Dates and times -/

/-- The number that exactly `count` digits at the front of a text spell, and the text behind them.
-/
def fixedDigits? (count : Nat) (cs : List Char) : Option (Nat × List Char) :=
  let digits := cs.take count
  if digits.length = count ∧ digits.all Char.isDigit then
    some (Number.natural 10 digits, cs.drop count)
  else none

def daysIn (year month : Nat) : Nat :=
  if month = 2 then
    if year % 4 = 0 ∧ (year % 100 ≠ 0 ∨ year % 400 = 0) then 29 else 28
  else if month = 4 ∨ month = 6 ∨ month = 9 ∨ month = 11 then 30
  else 31

def date? (cs : List Char) : Option (List Char) := do
  let (year, cs) ← fixedDigits? 4 cs
  let cs ← expect? '-' cs
  let (month, cs) ← fixedDigits? 2 cs
  let cs ← expect? '-' cs
  let (day, cs) ← fixedDigits? 2 cs
  if 1 ≤ month ∧ month ≤ 12 ∧ 1 ≤ day ∧ day ≤ daysIn year month then some cs else none

def secondFraction? : List Char → Option (List Char)
  | '.' :: c :: rest => if c.isDigit then some (rest.dropWhile Char.isDigit) else none
  | '.' :: [] => none
  | cs => some cs

/-- The text behind the seconds of a time, if it has seconds. A minute may have a leap second. -/
def seconds? : List Char → Option (List Char)
  | ':' :: rest => do
    let (second, behind) ← fixedDigits? 2 rest
    if second ≤ 60 then secondFraction? behind else none
  | cs => some cs

def hourAndMinute? (cs : List Char) : Option (List Char) := do
  let (hour, cs) ← fixedDigits? 2 cs
  let cs ← expect? ':' cs
  let (minute, cs) ← fixedDigits? 2 cs
  if hour ≤ 23 ∧ minute ≤ 59 then some cs else none

def time? (cs : List Char) : Option (List Char) := do
  seconds? (← hourAndMinute? cs)

def isDone (rest : Option (List Char)) : Bool := rest == some []

/-- Whether a text is nothing, or the distance of a clock from universal time. -/
def isOffset : List Char → Bool
  | [] => true
  | ['Z'] => true
  | ['z'] => true
  | '+' :: rest => isDone (hourAndMinute? rest)
  | '-' :: rest => isDone (hourAndMinute? rest)
  | _ => false

def separatesTime (c : Char) : Bool := c == 'T' || c == 't' || c == ' '

/-- A date, a time, or both. Only both together can have an offset. -/
def isDateTime (cs : List Char) : Bool :=
  match date? cs with
  | none => isDone (time? cs)
  | some [] => true
  | some (c :: rest) => separatesTime c && (time? rest).any isOffset

/-! ## Finding scalars -/

def isScalar (cs : List Char) : Bool :=
  cs == "true".toList || cs == "false".toList || Number.isInteger cs || Number.isFloat cs ||
    isDateTime cs

def isScalarChar (c : Char) : Bool :=
  c.isAlphanum || c == '+' || c == '-' || c == '_' || c == '.' || c == ':'

/-- The characters of the scalar at the front of a text, and the text behind it. A date may have a
blank between itself and its time. -/
def extent (cs : List Char) : List Char × List Char :=
  let word := cs.takeWhile isScalarChar
  match isDone (date? word), cs.dropWhile isScalarChar with
  | true, ' ' :: c :: rest =>
    if c.isDigit then
      (word ++ ' ' :: (c :: rest).takeWhile isScalarChar, (c :: rest).dropWhile isScalarChar)
    else (word, ' ' :: c :: rest)
  | _, behind => (word, behind)

def scalar? (cs : List Char) : Option (String × List Char) :=
  let (literal, rest) := extent cs
  if isScalar literal then some (String.ofList literal, rest) else none

end LateMarkup.Toml.Scalar
