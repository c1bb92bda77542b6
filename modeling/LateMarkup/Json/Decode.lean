import LateMarkup.InvalidText
import LateMarkup.Json.Basic
import LateMarkup.NameMap

/-! # Decoding JSON values

Values are turned into records, maps and words in the order of their text, and the first fault ends
it. A word that is none of the spellings its place allows is reported as such; every other fault,
a cut included, is only that the value does not have the shape it should have.

A record is written as an object, in any order and with any further members, or as an array of its
fields in their order. A field that is missing keeps the value it had at the start.
-/

namespace LateMarkup.Json

/-- A decoded value, or the fault: the word at fault, if it is one word. -/
abbrev Decoded (α : Type) := Except (Option InvalidText) α

def wrongShape {α : Type} : Decoded α := .error none

def toText : Json → Decoded String
  | .string (some text) => .ok text
  | _ => wrongShape

def toFlag : Json → Decoded Bool
  | .bool value => .ok value
  | _ => wrongShape

def toOption {α : Type} (decode : Json → Decoded α) : Json → Decoded (Option α)
  | .null => .ok none
  | value => (decode value).map some

def ofWord {α : Type} (read : String → Except InvalidText α) (word : String) : Decoded α :=
  match read word with
  | .ok value => .ok value
  | .error problem => .error (some problem)

def toWord {α : Type} (read : String → Except InvalidText α) (value : Json) : Decoded α := do
  ofWord read (← toText value)

def toKey {κ : Type} (readKey : String → Decoded κ) : Option String → Decoded κ
  | some key => readKey key
  | none => wrongShape

/-- Puts members into a map. Of two members with one key the later stays. -/
def insertMembers {κ α : Type} [Ord κ] [Std.TransOrd κ] (readKey : String → Decoded κ)
    (decode : Json → Decoded α) (map : Std.ExtTreeMap κ α) :
    List Member → Decoded (Std.ExtTreeMap κ α)
  | [] => .ok map
  | (key, value) :: members => do
    let key ← toKey readKey key
    let value ← decode value
    insertMembers readKey decode (map.insert key value) members

def toMap {κ α : Type} [Ord κ] [Std.TransOrd κ] (readKey : String → Decoded κ)
    (decode : Json → Decoded α) : Json → Decoded (Std.ExtTreeMap κ α)
  | .object members => insertMembers readKey decode ∅ members
  | _ => wrongShape

def toNameMap {α : Type} (decode : Json → Decoded α) (value : Json) : Decoded (NameMap α) :=
  toMap .ok decode value

/-! ## Records -/

structure Field (ρ : Type) where
  key : String
  /-- The record with the field decoded from a value. -/
  set : ρ → Json → Decoded ρ

def field {ρ α : Type} (key : String) (decode : Json → Decoded α) (set : ρ → α → ρ) : Field ρ where
  key := key
  set record value := (decode value).map (set record)

/-- Sets fields from members. A member that is no field is passed over, but must be whole. A field
that is `given` already cannot be given again. -/
def setMembers {ρ : Type} (fields : List (Field ρ)) (given : List String) (record : ρ) :
    List Member → Decoded ρ
  | [] => .ok record
  | (none, _) :: _ => wrongShape
  | (some key, value) :: members =>
    match fields.find? fun field => field.key == key with
    | none =>
      if value.isWhole then setMembers fields given record members else wrongShape
    | some field =>
      if given.contains key then wrongShape
      else do
        let record ← field.set record value
        setMembers fields (key :: given) record members

def setItems {ρ : Type} : List (Field ρ) → ρ → List Json → Decoded ρ
  | _, record, [] => .ok record
  | [], _, _ :: _ => wrongShape
  | field :: fields, record, item :: items => do
    let record ← field.set record item
    setItems fields record items

def toRecord {ρ : Type} (fields : List (Field ρ)) (start : ρ) : Json → Decoded ρ
  | .object members => setMembers fields [] start members
  | .array items => setItems fields start items
  | _ => wrongShape

end LateMarkup.Json
