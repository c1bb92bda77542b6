/-! # TOML tables

A TOML text builds a table out of headers and key–value lines. A table can be given in several ways
— by its own header, by the header of a table below it, by dotted keys, or inline — and the way in
which it was first given settles what may be added to it later.
-/

namespace LateMarkup.Toml

/-- How a table came to be. -/
inductive Origin where
  /-- It lies on the way to a table that has a header. -/
  | implied
  /-- It has a header. -/
  | header
  /-- It lies on the way of a dotted key, and has no header of its own. -/
  | dotted
  /-- It is written in braces. -/
  | inline
deriving DecidableEq, Repr

/-- A TOML value. -/
inductive Item where
  | text (content : String)
  /-- A number, truth value, date or time, as it is written. -/
  | scalar (literal : String)
  | array (items : List Item)
  | table (origin : Origin) (entries : List (String × Item))
  /-- A row of tables that share a header, the last first. -/
  | tables (last : List (String × Item)) (before : List (List (String × Item)))

abbrev Table := List (String × Item)

namespace Table

def get? (key : String) : Table → Option Item
  | [] => none
  | (name, item) :: rest => if name = key then some item else get? key rest

def set (key : String) (item : Item) : Table → Table
  | [] => [(key, item)]
  | (name, old) :: rest =>
    if name = key then (name, item) :: rest else (name, old) :: set key item rest

def addNew (key : String) (item : Item) (table : Table) : Option Table :=
  if (get? key table).isSome then none else some (table ++ [(key, item)])

/-- Adds an entry under a dotted key: `path` leads to the table that gets it. The tables on the way
are made where they are missing, and one that was only implied is from then on a table of dotted
keys. A table that has a header of its own, or is inline, takes nothing from a dotted key. Of a row
of tables, which all share a header, the last is meant; so the path can lead through it, but not
end there. -/
def addDotted (key : String) (item : Item) : List String → Table → Option Table
  | [], table => addNew key item table
  | step :: path, table =>
    match get? step table with
    | none => do
      let inner ← addDotted key item path []
      return table ++ [(step, .table .dotted inner)]
    | some (.table .dotted entries) | some (.table .implied entries) => do
      let inner ← addDotted key item path entries
      return set step (.table .dotted inner) table
    | some (.tables last before) =>
      if path.isEmpty then none
      else do
        let inner ← addDotted key item path last
        return set step (.tables inner before) table
    | some _ => none

/-- Changes the table to which the path of a header leads. The tables on the way are made where they
are missing; of a row of tables the last is meant. -/
def modifyAt (change : Table → Option Table) : List String → Table → Option Table
  | [], table => change table
  | step :: path, table =>
    match get? step table with
    | none => do
      let inner ← modifyAt change path []
      return table ++ [(step, .table .implied inner)]
    | some (.table .inline _) => none
    | some (.table origin entries) => do
      let inner ← modifyAt change path entries
      return set step (.table origin inner) table
    | some (.tables last before) => do
      let inner ← modifyAt change path last
      return set step (.tables inner before) table
    | some _ => none

/-- Gives a table a header. It can have been implied before, but not given. -/
def openTable (key : String) (table : Table) : Option Table :=
  match get? key table with
  | none => some (table ++ [(key, .table .header [])])
  | some (.table .implied entries) => some (set key (.table .header entries) table)
  | some _ => none

def openNext (key : String) (table : Table) : Option Table :=
  match get? key table with
  | none => some (table ++ [(key, .tables [] [])])
  | some (.tables last before) => some (set key (.tables [] (last :: before)) table)
  | some _ => none

end Table

end LateMarkup.Toml
