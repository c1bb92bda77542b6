import LateMarkup.Ref

/-! # What can go wrong

Every failure of the library is one of seven causes. Each cause has a stable code, an optional hint
and, where the wording is the library's own, a one-line message.
-/

namespace LateMarkup

/-- The code fragments that a marker can ask a registry for. -/
inductive FragmentField where
  | attribute (name : String)
  | inner
  | unrender
deriving DecidableEq, Repr

/-- How messages spell a field: attributes by the path to their name. -/
def FragmentField.path : FragmentField → String
  | .attribute name => "attributes." ++ name
  | .inner => "inner"
  | .unrender => "unrender"

/-- Why an operation failed. -/
inductive Error where
  /-- A file could not be read or written, or is not UTF-8 text. -/
  | fileAccess
  /-- The settings file is no TOML, or gives a setting a value of the wrong type. -/
  | settings
  /-- A registry text is no JSON registry; `cause` tells the word at fault, if it is one word. -/
  | registry (cause : Option InvalidText)
  /-- A declaration text is no JSON declaration; `cause` as above. -/
  | declaration (cause : Option InvalidText)
  /-- A word on its own is none of the spellings its place allows. -/
  | invalid (cause : InvalidText)
  /-- Marker text is left after every substitution. -/
  | unresolved (marker : String)
  /-- A marker asks for a fragment that the registry does not hold. -/
  | missing (ref : Ref) (field : FragmentField)
deriving DecidableEq

namespace Error

def code : Error → String
  | fileAccess => "overrider::io_error"
  | settings => "overrider::config_parse"
  | registry _ => "overrider::registry_parse"
  | declaration _ => "overrider::spec_parse"
  | invalid (.attributeOverride _) => "overrider::unsupported_override_kind"
  | invalid (.classOverride _) => "overrider::unsupported_class_action"
  | invalid (.ref _) => "overrider::malformed_ref"
  | unresolved _ => "overrider::unresolved_marker"
  | missing _ _ => "overrider::missing_registry_entry"

def help : Error → Option String
  | fileAccess => none
  | settings => some "check that overrider.toml is valid TOML"
  | registry _ => some "the registry must be the JSON written by `OverrideRegistry::to_json`"
  | declaration _ => none
  | invalid (.attributeOverride _) => some "supported kinds: update, delete, update-delete"
  | invalid (.classOverride _) => some "supported class actions: create, delete"
  | invalid (.ref _) =>
    some "refs start with `e0` followed by lowercase letters or digits, e.g. `e0a1b2`"
  | unresolved _ =>
    some "every marker must be produced by the annotator for a well-formed ref"
  | missing _ _ => some "annotate every node before resolving the serialized document"

/-- The failure in one line. There is none where the wording is left to whoever noticed the failure:
the file system, or the TOML and JSON readers. -/
def message : Error → Option String
  | fileAccess => none
  | settings => none
  | registry cause =>
    cause.map fun word => "failed to parse override registry: " ++ word.message
  | declaration cause =>
    cause.map fun word => "failed to parse override spec: " ++ word.message
  | invalid cause => some cause.message
  | unresolved marker => some ("unresolved override marker `" ++ marker ++ "` left in output")
  | missing ref field =>
    some ("no registry entry `" ++ field.path ++ "` for ref `" ++ ref.text ++ "`")

end Error

end LateMarkup
