import LateMarkup.Toml.Quoted
import LateMarkup.Toml.Scalar
import LateMarkup.Toml.Table

/-! # Reading TOML texts

A text is read line by line into one table. Brackets may nest and keys may be dotted, but only so
deep; a text that goes deeper is refused like one that is no TOML.

The functions that read values and lines carry a bound on the number of calls. The length of the
text suffices for it, since every second call takes at least one character.
-/

namespace LateMarkup.Toml

/-- How deep brackets may nest, and how many parts a key may have. -/
def depthLimit : Nat := 80

/-! ## White space, comments and line ends -/

def skipSpace (cs : List Char) : List Char := cs.dropWhile isSpace

/-- Skips white space, comments and line breaks, where `inComment` says that a comment has begun. -/
def skipBlank? (inComment : Bool) : List Char → Option (List Char)
  | [] => some []
  | '\n' :: rest => skipBlank? false rest
  | '\r' :: '\n' :: rest => skipBlank? false rest
  | c :: rest =>
    if inComment then if isForbidden c then none else skipBlank? true rest
    else if c = '#' then skipBlank? true rest
    else if isSpace c then skipBlank? false rest
    else some (c :: rest)

def commentEnd? : List Char → Option (List Char)
  | [] => some []
  | '\n' :: rest => some ('\n' :: rest)
  | '\r' :: '\n' :: rest => some ('\r' :: '\n' :: rest)
  | c :: rest => if isForbidden c then none else commentEnd? rest

def lineEnd? (cs : List Char) : Option (List Char) := do
  let rest ←
    match skipSpace cs with
    | '#' :: comment => commentEnd? comment
    | cs => some cs
  if rest.isEmpty then some [] else lineBreak? rest

/-! ## Keys -/

def isBareKeyChar (c : Char) : Bool := c.isAlphanum || c == '_' || c == '-'

def simpleKey? : List Char → Option (String × List Char)
  | '"' :: body => (Quoted.basic? body).map fun (key, rest) => (String.ofList key, rest)
  | '\'' :: body => (Quoted.literal? body).map fun (key, rest) => (String.ofList key, rest)
  | cs =>
    match cs.takeWhile isBareKeyChar with
    | [] => none
    | key => some (String.ofList key, cs.dropWhile isBareKeyChar)

/-- A key of at most `room` parts with dots between them: the path to the table it is in, the key
there, and the text behind the white space that follows it. -/
def parts? : Nat → List Char → Option (List String × String × List Char)
  | 0, _ => none
  | room + 1, cs => do
    let (first, rest) ← simpleKey? cs
    match skipSpace rest with
    | '.' :: more => do
      let (path, key, behind) ← parts? room (skipSpace more)
      return (first :: path, key, behind)
    | behind => return ([], first, behind)

def key? (cs : List Char) : Option (List String × String × List Char) := parts? depthLimit cs

/-! ## Values -/

mutual

/-- A value, where `room` more brackets may be opened. -/
def value? : Nat → Nat → List Char → Option (Item × List Char)
  | 0, _, _ => none
  | bound + 1, room, '[' :: rest => do
    if room = 0 then none
    else
      let (items, behind) ← items? bound (room - 1) (← skipBlank? false rest)
      return (.array items, behind)
  | bound + 1, room, '\x7b' :: rest => do
    if room = 0 then none
    else
      let (entries, behind) ← entries? bound (room - 1) [] (← skipBlank? false rest)
      return (.table .inline entries, behind)
  | _ + 1, _, cs =>
    match cs with
    | '"' :: _ => (Quoted.string? cs).map fun (text, rest) => (.text (String.ofList text), rest)
    | '\'' :: _ => (Quoted.string? cs).map fun (text, rest) => (.text (String.ofList text), rest)
    | _ => (Scalar.scalar? cs).map fun (literal, rest) => (.scalar literal, rest)

/-- The items of an array up to its end. A comma may stand behind the last. -/
def items? : Nat → Nat → List Char → Option (List Item × List Char)
  | 0, _, _ => none
  | _ + 1, _, ']' :: rest => some ([], rest)
  | bound + 1, room, cs => do
    let (item, rest) ← value? bound room cs
    match ← skipBlank? false rest with
    | ']' :: behind => return ([item], behind)
    | ',' :: more => do
      let (items, behind) ← items? bound room (← skipBlank? false more)
      return (item :: items, behind)
    | _ => none

/-- The entries of an inline table up to its end, added to those before them. Lines may end
everywhere but inside a key, and a comma may stand behind the last entry. -/
def entries? : Nat → Nat → Table → List Char → Option (Table × List Char)
  | 0, _, _, _ => none
  | _ + 1, _, table, '\x7d' :: rest => some (table, rest)
  | bound + 1, room, table, cs => do
    let (path, key, rest) ← key? cs
    let afterEquals ← expect? '=' (← skipBlank? false rest)
    let (item, behind) ← value? bound room (← skipBlank? false afterEquals)
    let grown ← table.addDotted key item path
    match ← skipBlank? false behind with
    | '\x7d' :: behind => return (grown, behind)
    | ',' :: more => entries? bound room grown (← skipBlank? false more)
    | _ => none

end

/-! ## Lines -/

def header? (cs : List Char) : Option (List String × String × List Char) := do
  let (path, key, rest) ← key? (skipSpace cs)
  return (path, key, ← expect? ']' rest)

/-- The table that lines build up from `root`. The lines without a header belong to the table at the
path `current`. -/
def lines? : Nat → List String → Table → List Char → Option Table
  | 0, _, _, _ => none
  | bound + 1, current, root, cs =>
    match skipSpace cs with
    | [] => some root
    | '[' :: '[' :: rest => do
      let (path, key, behind) ← header? rest
      let behind ← expect? ']' behind
      let root ← root.modifyAt (Table.openNext key) path
      lines? bound (path ++ [key]) root (← lineEnd? behind)
    | '[' :: rest => do
      let (path, key, behind) ← header? rest
      let root ← root.modifyAt (Table.openTable key) path
      lines? bound (path ++ [key]) root (← lineEnd? behind)
    | c :: rest =>
      if c = '#' ∨ (lineBreak? (c :: rest)).isSome then do
        lines? bound current root (← lineEnd? (c :: rest))
      else do
        let (path, key, behind) ← key? (c :: rest)
        let afterEquals ← expect? '=' behind
        let (item, behind) ← value? bound depthLimit (skipSpace afterEquals)
        let root ← root.modifyAt (Table.addDotted key item path) current
        lines? bound current root (← lineEnd? behind)

def skipMark : List Char → List Char
  | '\uFEFF' :: rest => rest
  | cs => cs

def read? (text : String) : Option Table :=
  let cs := skipMark text.toList
  lines? (2 * cs.length + 2) [] [] cs

end LateMarkup.Toml
