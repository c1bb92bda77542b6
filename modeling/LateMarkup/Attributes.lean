import LateMarkup.AttributeName

/-! # Attribute lists

The attributes of an element, in the order in which they are written. No name occurs twice in a list
made by the operations here.
-/

namespace LateMarkup

/-- Names with their values, in written order. -/
abbrev Attributes := List (String × String)

namespace Attributes

def value? (name : String) : Attributes → Option String
  | [] => none
  | (key, value) :: rest => if key = name then some value else value? name rest

def has (name : String) (attributes : Attributes) : Bool :=
  (value? name attributes).isSome

/-- Gives a name a value. A name that occurs keeps its place, and a new one comes last. -/
def set (name value : String) : Attributes → Attributes
  | [] => [(name, value)]
  | (key, old) :: rest =>
    if key = name then (key, value) :: rest else (key, old) :: set name value rest

def remove (name : String) (attributes : Attributes) : Attributes :=
  attributes.filter fun pair => pair.1 != name

def ofList (pairs : List (String × String)) : Attributes :=
  pairs.foldl (fun attributes (name, value) => set name value attributes) []

/-! ## Either spelling

The operations by which an override looks at an attribute: its structural name stands for the markup
spelling as well. -/

def hasEither (name : String) (attributes : Attributes) : Bool :=
  attributes.has name || (AttributeName.markup? name).any attributes.has

/-- The value of an attribute. Where both spellings occur the markup spelling counts. -/
def valueOfEither? (name : String) (attributes : Attributes) : Option String :=
  ((AttributeName.markup? name).bind attributes.value?).or (attributes.value? name)

def removeEither (name : String) (attributes : Attributes) : Attributes :=
  match AttributeName.markup? name with
  | some markup => (attributes.remove name).remove markup
  | none => attributes.remove name

end Attributes

end LateMarkup
