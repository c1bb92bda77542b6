import Std.Data.ExtTreeMap

/-! # Maps from names

Declarations and registries list what they hold in the order of its names, so that what is
generated from them does not depend on the order in which they were written. Names are compared
character by character.
-/

namespace LateMarkup

/-- Values under names, listed in the order of the names. -/
abbrev NameMap (α : Type) := Std.ExtTreeMap String α

end LateMarkup
