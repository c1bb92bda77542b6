/-! # String literals

A static text goes into generated code between a pair of quotes. A backslash before a character
keeps that character from ending the literal, and a line break is written `\n` or `\r` unless the
quotes are backticks, between which line breaks stand for themselves. Between backticks a dollar
sign before an opening brace would start an interpolation, so it is written `\$`.
-/

namespace LateMarkup.Jsx.Literal

def backtick : Char := '\x60'

/-- How a character is written between a pair of `quote`s, when `next` is the character after it. -/
def spell (quote c : Char) (next : Option Char) : List Char :=
  if c = '\\' then ['\\', '\\']
  else if c = '\n' ∧ quote ≠ backtick then ['\\', 'n']
  else if c = '\r' ∧ quote ≠ backtick then ['\\', 'r']
  else if c = '$' ∧ quote = backtick ∧ next = some '{' then ['\\', '$']
  else if c = quote then ['\\', c]
  else [c]

/-- The body of the literal for a text, without the quotes around it. -/
def encode (quote : Char) : List Char → List Char
  | [] => []
  | c :: rest => spell quote c rest.head? ++ encode quote rest

def body (quote : Char) (text : String) : String :=
  String.ofList (encode quote text.toList)

def single (text : String) : String :=
  "'" ++ body '\'' text ++ "'"

/-- A text as a template literal without interpolations. -/
def template (text : String) : String :=
  "`" ++ body backtick text ++ "`"

end LateMarkup.Jsx.Literal
