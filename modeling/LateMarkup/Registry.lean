import LateMarkup.Error
import LateMarkup.Fragment

/-! # Registries

A registry is what annotating a document leaves beside its markup. For each ref it holds the static
defaults of the node, which seed the run-time data, and the code fragments that take the place of
its markers. An entry is made when something is first recorded under its ref.
-/

namespace LateMarkup

/-- The static values of a node that seed the run-time data. -/
structure Defaults where
  /-- The tag in lowercase, from before it was made exchangeable. -/
  tag : Option String := none
  /-- The tag as written, from before the component was made exchangeable. -/
  component : Option String := none
  /-- Set when the node asked to be left out at first. -/
  unrender : Option Bool := none
deriving DecidableEq

/-- The code fragments of a node. -/
structure Fragments where
  attributes : NameMap String := ∅
  inner : Option String := none
  unrender : Option Guard := none
  classes : NameMap String := ∅
deriving DecidableEq

abbrev RefMap (α : Type) := Std.ExtTreeMap Ref α

/-- What is recorded beside an annotated document. -/
structure Registry where
  defaults : RefMap Defaults := ∅
  code : RefMap Fragments := ∅
deriving DecidableEq

namespace Registry

def isEmpty (registry : Registry) : Bool :=
  registry.defaults.isEmpty && registry.code.isEmpty

/-- Changes the defaults of a ref. Where there are none yet, the change starts from an empty entry.
-/
def modifyDefaults (registry : Registry) (ref : Ref) (change : Defaults → Defaults) : Registry :=
  { registry with defaults :=
      registry.defaults.insert ref (change ((registry.defaults[ref]?).getD {})) }

/-- Changes the fragments of a ref. Where there are none yet, the change starts from an empty
entry. -/
def modifyCode (registry : Registry) (ref : Ref) (change : Fragments → Fragments) : Registry :=
  { registry with code := registry.code.insert ref (change ((registry.code[ref]?).getD {})) }

private def require {α : Type} (ref : Ref) (field : FragmentField) : Option α → Except Error α
  | some fragment => .ok fragment
  | none => .error (.missing ref field)

def attributeFragment (registry : Registry) (ref : Ref) (name : String) : Except Error String :=
  require ref (.attribute name) (registry.code[ref]?.bind (·.attributes[name]?))

def innerFragment (registry : Registry) (ref : Ref) : Except Error String :=
  require ref .inner (registry.code[ref]?.bind (·.inner))

def guardFragment (registry : Registry) (ref : Ref) : Except Error Guard :=
  require ref .unrender (registry.code[ref]?.bind (·.unrender))

end Registry

end LateMarkup
