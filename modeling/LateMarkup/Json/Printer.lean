import LateMarkup.Json.Basic
import LateMarkup.Text.Hex

/-! # Printing JSON values

Values are printed over several lines, two spaces deeper for every bracket, with a blank after each
colon; empty brackets stay on their line. In a string only the quote, the backslash and the control
characters below the blank are escaped.
-/

namespace LateMarkup.Json

def shortEscape (name : Char) : List Char := ['\\', name]

/-- How a character is written in a string. -/
def spellChar (c : Char) : List Char :=
  if c = '"' ∨ c = '\\' then shortEscape c
  else if c = '\x08' then shortEscape 'b'
  else if c = '\x0c' then shortEscape 'f'
  else if c = '\n' then shortEscape 'n'
  else if c = '\r' then shortEscape 'r'
  else if c = '\t' then shortEscape 't'
  else if c < ' ' then
    ['\\', 'u', '0', '0', Text.Hex.digit (c.toNat / 16), Text.Hex.digit (c.toNat % 16)]
  else [c]

def quote (text : String) : List Char :=
  '"' :: text.toList.flatMap spellChar ++ ['"']

/-- A new line that is `depth` brackets deep. -/
def newLine (depth : Nat) : List Char := '\n' :: List.replicate (2 * depth) ' '

mutual

/-- The characters of a value that stands `depth` brackets deep. -/
def print (depth : Nat) : Json → List Char
  | null => "null".toList
  | bool value => (if value then "true" else "false").toList
  | number literal => literal.toList
  | string text => quote (text.getD "")
  | array [] => ['[', ']']
  | array (item :: items) =>
    '[' :: newLine (depth + 1) ++ print (depth + 1) item ++ printItems (depth + 1) items ++
      newLine depth ++ [']']
  | object [] => ['\x7b', '\x7d']
  | object ((key, value) :: members) =>
    '\x7b' :: newLine (depth + 1) ++ quote (key.getD "") ++ [':', ' '] ++ print (depth + 1) value ++
      printMembers (depth + 1) members ++ newLine depth ++ ['\x7d']
  | cut => []

def printItems (depth : Nat) : List Json → List Char
  | [] => []
  | item :: items => ',' :: newLine depth ++ print depth item ++ printItems depth items

def printMembers (depth : Nat) : List Member → List Char
  | [] => []
  | (key, value) :: members =>
    ',' :: newLine depth ++ quote (key.getD "") ++ [':', ' '] ++ print depth value ++
      printMembers depth members

end

def pretty (value : Json) : String := String.ofList (print 0 value)

end LateMarkup.Json
