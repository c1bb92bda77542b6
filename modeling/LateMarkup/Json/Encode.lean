import LateMarkup.Json.Basic
import LateMarkup.NameMap

/-! # Encoding as JSON values

The small vocabulary in which records and maps are turned into JSON values.
-/

namespace LateMarkup.Json

def ofText (text : String) : Json := .string (some text)

def member (key : String) (value : Json) : Member := (some key, value)

/-- The member for a value that may be missing; there is none if it is. -/
def optional {α : Type} (key : String) (encode : α → Json) : Option α → List Member
  | some value => [member key (encode value)]
  | none => []

def ofEntries {κ α : Type} (keyText : κ → String) (encode : α → Json)
    (entries : List (κ × α)) : Json :=
  .object (entries.map fun (key, value) => member (keyText key) (encode value))

def ofNameMap {α : Type} (encode : α → Json) (map : NameMap α) : Json :=
  ofEntries id encode map.toList

def nonemptyMap {α : Type} (key : String) (encode : α → Json) (map : NameMap α) : List Member :=
  if map.isEmpty then [] else [member key (ofNameMap encode map)]

end LateMarkup.Json
