import LateMarkup.Error
import LateMarkup.Settings
import LateMarkup.Toml.Reader

/-! # Settings as TOML

Every setting is one key of a TOML text. A key that is missing leaves the default, a key that is no
setting says nothing, and a setting whose value has another type is a fault.
-/

namespace LateMarkup.Settings

def texts? : List Toml.Item → Option (List String)
  | [] => some []
  | .text content :: items => (texts? items).map (content :: ·)
  | _ :: _ => none

def textAt? (table : Toml.Table) (key default : String) : Option String :=
  match table.get? key with
  | none => some default
  | some (.text content) => some content
  | some _ => none

def textsAt? (table : Toml.Table) (key : String) (default : List String) : Option (List String) :=
  match table.get? key with
  | none => some default
  | some (.array items) => texts? items
  | some _ => none

def ofToml? (table : Toml.Table) : Option Settings := do
  let standard : Settings := {}
  return {
    dataObject := ← textAt? table "data_object" standard.dataObject
    definedHelper := ← textAt? table "defined_helper" standard.definedHelper
    controlFlowTags := ← textsAt? table "control_flow_tags" standard.controlFlowTags
    unrenderAttribute := ← textAt? table "unrender_attribute" standard.unrenderAttribute
    rawContentAttribute := ← textAt? table "raw_content_attribute" standard.rawContentAttribute }

def read (text : String) : Except Error Settings :=
  match (Toml.read? text).bind ofToml? with
  | some settings => .ok settings
  | none => .error .settings

end LateMarkup.Settings
