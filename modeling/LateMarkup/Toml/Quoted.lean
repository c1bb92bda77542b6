import LateMarkup.Text.Hex

/-! # Strings of TOML texts

TOML has four kinds of strings: basic ones with escapes and literal ones without, each on one line
or over several. Every function here starts behind the opening quotes and gives the characters of
the string together with the text behind the closing quotes.
-/

namespace LateMarkup.Toml

/-- A control character that no string and no comment may hold. -/
def isForbidden (c : Char) : Bool := (c < ' ' && c != '\t') || c == '\x7f'

def isSpace (c : Char) : Bool := c == ' ' || c == '\t'

def lineBreak? : List Char → Option (List Char)
  | '\n' :: rest => some rest
  | '\r' :: '\n' :: rest => some rest
  | _ => none

def expect? (c : Char) : List Char → Option (List Char)
  | [] => none
  | first :: rest => if first = c then some rest else none

namespace Quoted

/-- The character that hexadecimal digits number. Surrogates and numbers past the last character
have none. -/
def numbered? (digits : List Char) : Option Char := do
  let code ← Text.Hex.value? digits
  if code.isValidChar then some (Char.ofNat code) else none

def escaped? : Char → Option Char
  | 'b' => some '\x08'
  | 't' => some '\t'
  | 'n' => some '\n'
  | 'f' => some '\x0c'
  | 'r' => some '\r'
  | 'e' => some '\x1b'
  | '"' => some '"'
  | '\\' => some '\\'
  | _ => none

def prepend (c : Char) : Option (List Char × List Char) → Option (List Char × List Char)
  | some (content, rest) => some (c :: content, rest)
  | none => none

def basic? : List Char → Option (List Char × List Char)
  | [] => none
  | '"' :: rest => some ([], rest)
  | '\\' :: 'x' :: a :: b :: rest => do prepend (← numbered? [a, b]) (basic? rest)
  | '\\' :: 'u' :: a :: b :: c :: d :: rest => do prepend (← numbered? [a, b, c, d]) (basic? rest)
  | '\\' :: 'U' :: a :: b :: c :: d :: e :: f :: g :: h :: rest => do
    prepend (← numbered? [a, b, c, d, e, f, g, h]) (basic? rest)
  | '\\' :: e :: rest => do prepend (← escaped? e) (basic? rest)
  | c :: rest => if c = '\\' ∨ isForbidden c then none else prepend c (basic? rest)

def literal? : List Char → Option (List Char × List Char)
  | [] => none
  | '\'' :: rest => some ([], rest)
  | c :: rest => if isForbidden c then none else prepend c (literal? rest)

def isBlankLine (cs : List Char) : Bool := (lineBreak? (cs.dropWhile isSpace)).isSome

/-- A basic string over several lines. Up to two quotes may stand directly before the closing ones.
A backslash at the end of a line joins it to the next character that is no white space; `joining`
says that this character is being sought. -/
def basicLines? (joining : Bool) : List Char → Option (List Char × List Char)
  | [] => none
  | '"' :: '"' :: '"' :: '"' :: '"' :: rest => some (['"', '"'], rest)
  | '"' :: '"' :: '"' :: '"' :: rest => some (['"'], rest)
  | '"' :: '"' :: '"' :: rest => some ([], rest)
  | '\r' :: '\n' :: rest =>
    if joining then basicLines? true rest else prepend '\r' (prepend '\n' (basicLines? false rest))
  | '\\' :: 'x' :: a :: b :: rest => do prepend (← numbered? [a, b]) (basicLines? false rest)
  | '\\' :: 'u' :: a :: b :: c :: d :: rest => do
    prepend (← numbered? [a, b, c, d]) (basicLines? false rest)
  | '\\' :: 'U' :: a :: b :: c :: d :: e :: f :: g :: h :: rest => do
    prepend (← numbered? [a, b, c, d, e, f, g, h]) (basicLines? false rest)
  | '\\' :: e :: rest =>
    if isBlankLine (e :: rest) then basicLines? true (e :: rest)
    else do prepend (← escaped? e) (basicLines? false rest)
  | c :: rest =>
    if joining && (isSpace c || c == '\n') then basicLines? true rest
    else if c = '\\' ∨ (isForbidden c ∧ c ≠ '\n') then none
    else prepend c (basicLines? false rest)

/-- A literal string over several lines. Up to two quotes may stand directly before the closing
ones. -/
def literalLines? : List Char → Option (List Char × List Char)
  | [] => none
  | '\'' :: '\'' :: '\'' :: '\'' :: '\'' :: rest => some (['\'', '\''], rest)
  | '\'' :: '\'' :: '\'' :: '\'' :: rest => some (['\''], rest)
  | '\'' :: '\'' :: '\'' :: rest => some ([], rest)
  | '\r' :: '\n' :: rest => prepend '\r' (prepend '\n' (literalLines? rest))
  | c :: rest =>
    if isForbidden c ∧ c ≠ '\n' then none else prepend c (literalLines? rest)

def skipLineBreak (cs : List Char) : List Char := (lineBreak? cs).getD cs

def string? : List Char → Option (List Char × List Char)
  | '"' :: '"' :: '"' :: body => basicLines? false (skipLineBreak body)
  | '"' :: body => basic? body
  | '\'' :: '\'' :: '\'' :: body => literalLines? (skipLineBreak body)
  | '\'' :: body => literal? body
  | _ => none

end Quoted

end LateMarkup.Toml
