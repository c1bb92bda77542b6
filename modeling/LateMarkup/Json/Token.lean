import LateMarkup.Text.Hex

/-! # Tokens of JSON texts

A JSON text is read as brackets, punctuation, words, numbers and strings with white space between
them. White space is a space, a tab, a line feed or a carriage return. Where no token can be read
the sequence ends with a broken token.
-/

namespace LateMarkup.Json

/-- A token of a JSON text. -/
inductive Token where
  | openBrace
  | closeBrace
  | openBracket
  | closeBracket
  | colon
  | comma
  | null
  | bool (value : Bool)
  | number (literal : String)
  /-- A string, which is `none` if it holds one half of a surrogate pair without the other. -/
  | string (text : Option String)
  /-- No token can be read here. -/
  | broken
deriving DecidableEq, Repr

namespace Token

/-! ## Strings -/

inductive StringUnit where
  | char (c : Char)
  | surrogate (code : Nat)
deriving DecidableEq, Repr

def hexUnit? (a b c d : Char) : Option StringUnit := do
  let code ← Text.Hex.value? [a, b, c, d]
  return if 0xD800 ≤ code ∧ code ≤ 0xDFFF then .surrogate code else .char (Char.ofNat code)

def escaped? : Char → Option Char
  | '"' => some '"'
  | '\\' => some '\\'
  | '/' => some '/'
  | 'b' => some '\x08'
  | 'f' => some '\x0c'
  | 'n' => some '\n'
  | 'r' => some '\r'
  | 't' => some '\t'
  | _ => none

def stringBody? : List Char → Option (List StringUnit × List Char)
  | [] => none
  | '"' :: rest => some ([], rest)
  | '\\' :: 'u' :: a :: b :: c :: d :: rest => do
    let unit ← hexUnit? a b c d
    let (units, behind) ← stringBody? rest
    return (unit :: units, behind)
  | '\\' :: e :: rest => do
    let c ← escaped? e
    let (units, behind) ← stringBody? rest
    return (.char c :: units, behind)
  | c :: rest =>
    if c = '\\' ∨ c < ' ' then none
    else do
      let (units, behind) ← stringBody? rest
      return (.char c :: units, behind)

/-- The characters of a string. A high surrogate and a low one directly after it are one character;
any other surrogate leaves the string without a text. -/
def characters? : List StringUnit → Option (List Char)
  | [] => some []
  | .char c :: units => (characters? units).map (c :: ·)
  | .surrogate high :: .surrogate low :: units =>
    if high < 0xDC00 ∧ 0xDC00 ≤ low then
      (characters? units).map
        (Char.ofNat (0x10000 + (high - 0xD800) * 0x400 + (low - 0xDC00)) :: ·)
    else none
  | .surrogate _ :: _ => none

/-! ## Numbers -/

/-- The digits at the front of a text and what comes after them. There has to be one. -/
def digits? (cs : List Char) : Option (List Char × List Char) :=
  match cs.takeWhile Char.isDigit with
  | [] => none
  | digits => some (digits, cs.dropWhile Char.isDigit)

def whole? : List Char → Option (List Char × List Char)
  | '0' :: rest => some (['0'], rest)
  | cs => digits? cs

def fraction? : List Char → Option (List Char × List Char)
  | '.' :: rest => (digits? rest).map fun (digits, behind) => ('.' :: digits, behind)
  | cs => some ([], cs)

def signedDigits? : List Char → Option (List Char × List Char)
  | '+' :: rest => (digits? rest).map fun (digits, behind) => ('+' :: digits, behind)
  | '-' :: rest => (digits? rest).map fun (digits, behind) => ('-' :: digits, behind)
  | cs => digits? cs

def exponent? : List Char → Option (List Char × List Char)
  | 'e' :: rest => (signedDigits? rest).map fun (digits, behind) => ('e' :: digits, behind)
  | 'E' :: rest => (signedDigits? rest).map fun (digits, behind) => ('E' :: digits, behind)
  | cs => some ([], cs)

def unsigned? (cs : List Char) : Option (List Char × List Char) := do
  let (whole, afterWhole) ← whole? cs
  let (fraction, afterFraction) ← fraction? afterWhole
  let (exponent, behind) ← exponent? afterFraction
  return (whole ++ fraction ++ exponent, behind)

/-! ## Reading tokens -/

def isSpace (c : Char) : Bool := c == ' ' || c == '\t' || c == '\n' || c == '\r'

/-- A number token, or a broken one if the number cannot be read. -/
def ofNumber (sign : List Char) : Option (List Char × List Char) → Token × List Char
  | some (literal, rest) => (number (String.ofList (sign ++ literal)), rest)
  | none => (broken, [])

def ofString : Option (List StringUnit × List Char) → Token × List Char
  | some (units, rest) => (string ((characters? units).map String.ofList), rest)
  | none => (broken, [])

def first (c : Char) (cs : List Char) : Token × List Char :=
  match c, cs with
  | '\x7b', rest => (openBrace, rest)
  | '\x7d', rest => (closeBrace, rest)
  | '[', rest => (openBracket, rest)
  | ']', rest => (closeBracket, rest)
  | ':', rest => (colon, rest)
  | ',', rest => (comma, rest)
  | 'n', 'u' :: 'l' :: 'l' :: rest => (null, rest)
  | 't', 'r' :: 'u' :: 'e' :: rest => (bool true, rest)
  | 'f', 'a' :: 'l' :: 's' :: 'e' :: rest => (bool false, rest)
  | '"', body => ofString (stringBody? body)
  | '-', body => ofNumber ['-'] (unsigned? body)
  | c, cs => ofNumber [] (unsigned? (c :: cs))

/-! ## Progress -/

theorem stringBody?_length {cs : List Char} {units : List StringUnit} {rest : List Char}
    (h : stringBody? cs = some (units, rest)) : rest.length ≤ cs.length := by
  fun_induction stringBody? cs generalizing units rest <;>
    simp_all [Option.bind_eq_some_iff] <;> grind

theorem digits?_length {cs digits rest : List Char} (h : digits? cs = some (digits, rest)) :
    rest.length < cs.length := by
  unfold digits? at h
  split at h
  · simp at h
  · next taken nonempty =>
    cases h
    have whole :=
      congrArg List.length (List.takeWhile_append_dropWhile (p := Char.isDigit) (l := cs))
    have positive := List.length_pos_iff.2 nonempty
    simp only [List.length_append] at whole
    omega

theorem whole?_length {cs digits rest : List Char} (h : whole? cs = some (digits, rest)) :
    rest.length < cs.length := by
  unfold whole? at h
  split at h
  · cases h; simp
  · exact digits?_length h

theorem prepended_length {c : Char} {read : Option (List Char × List Char)}
    {literal rest : List Char} {n : Nat}
    (bound : ∀ literal rest, read = some (literal, rest) → rest.length < n)
    (h : read.map (fun (literal, rest) => (c :: literal, rest)) = some (literal, rest)) :
    rest.length < n + 1 := by
  simp only [Option.map_eq_some_iff, Prod.exists, Prod.mk.injEq] at h
  obtain ⟨inner, behind, found, -, rfl⟩ := h
  exact Nat.lt_succ_of_lt (bound inner behind found)

theorem fraction?_length {cs digits rest : List Char} (h : fraction? cs = some (digits, rest)) :
    rest.length ≤ cs.length := by
  unfold fraction? at h
  split at h
  · exact Nat.le_of_lt (prepended_length (fun _ _ => digits?_length) h)
  · cases h; exact Nat.le_refl _

theorem signedDigits?_length {cs digits rest : List Char}
    (h : signedDigits? cs = some (digits, rest)) : rest.length < cs.length := by
  unfold signedDigits? at h
  split at h
  · exact prepended_length (fun _ _ => digits?_length) h
  · exact prepended_length (fun _ _ => digits?_length) h
  · exact digits?_length h

theorem exponent?_length {cs digits rest : List Char} (h : exponent? cs = some (digits, rest)) :
    rest.length ≤ cs.length := by
  unfold exponent? at h
  split at h
  · exact Nat.le_of_lt (prepended_length (fun _ _ => signedDigits?_length) h)
  · exact Nat.le_of_lt (prepended_length (fun _ _ => signedDigits?_length) h)
  · cases h; exact Nat.le_refl _

theorem unsigned?_length {cs literal rest : List Char}
    (h : unsigned? cs = some (literal, rest)) : rest.length < cs.length := by
  simp only [unsigned?, Option.bind_eq_bind, Option.bind_eq_some_iff, Prod.exists] at h
  obtain ⟨whole, afterWhole, hw, fraction, afterFraction, hf, exponent, behind, he, same⟩ := h
  cases same
  exact Nat.lt_of_le_of_lt (exponent?_length he)
    (Nat.lt_of_le_of_lt (fraction?_length hf) (whole?_length hw))

theorem ofNumber_length {sign : List Char} {read : Option (List Char × List Char)} {n : Nat}
    (bound : ∀ literal rest, read = some (literal, rest) → rest.length < n) :
    (ofNumber sign read).2.length ≤ n - 1 := by
  unfold ofNumber
  split
  · next literal rest => exact Nat.le_pred_of_lt (bound literal rest rfl)
  · exact Nat.zero_le _

theorem ofString_length {body : List Char} :
    (ofString (stringBody? body)).2.length ≤ body.length := by
  unfold ofString
  split
  · next units rest found => exact stringBody?_length found
  · exact Nat.zero_le _

/-- Reading a token takes at least one character. -/
theorem first_length (c : Char) (cs : List Char) : (first c cs).2.length ≤ cs.length := by
  unfold first
  split
  case h_10 => exact ofString_length
  case h_11 => exact Nat.le_trans (ofNumber_length fun _ _ => unsigned?_length) (Nat.pred_le _)
  case h_12 => exact ofNumber_length fun _ _ => unsigned?_length
  all_goals simp only [List.length_cons]; omega

def tokens : List Char → List Token
  | [] => []
  | c :: cs =>
    if isSpace c then tokens cs
    else
      let found := first c cs
      if found.1 = broken then [broken] else found.1 :: tokens found.2
termination_by cs => cs.length
decreasing_by
  · simp
  · exact Nat.lt_succ_of_le (first_length c cs)

end Token

end LateMarkup.Json
