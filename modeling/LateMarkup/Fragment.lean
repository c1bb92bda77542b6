import LateMarkup.Declaration
import LateMarkup.Jsx.Attribute
import LateMarkup.RuntimeKey

/-! # Code fragments

What each kind of override generates. Every fragment reads the run-time data under the keys of its
node and keeps the static value as the fallback.
-/

namespace LateMarkup

/-- The two pieces of code around a node that can be left out. -/
structure Guard where
  opening : String
  closing : String
deriving DecidableEq, Repr

namespace Fragment

/-- A character that a sanitized name keeps: an ASCII letter, a digit, a hyphen or an underscore. -/
def isNameChar (c : Char) : Bool := c.isAlphanum || c == '-' || c == '_'

def sanitize (name : String) : String := String.ofList (name.toList.filter isNameChar)

/-- An overridden attribute that is written under the name `shown`. `value` is its static value, and
`present` says whether it stands in the markup; only an update depends on that. -/
def attributeForm (ref : Ref) (name shown value : String) (present : Bool) :
    AttributeOverride → Jsx.Attribute
  | .update =>
    let key := RuntimeKey.value ref .attribute name
    if present then .assigned shown (.choice key value)
    else .spread (.defined key) shown (.data key)
  | .delete =>
    .spread (.kept (RuntimeKey.deletion ref .attribute name)) shown (.literal value)
  | .updateDelete =>
    .spread (.kept (RuntimeKey.deletion ref .attribute name)) shown
      (.choice (RuntimeKey.value ref .attribute name) value)

/-- The code of an overridden attribute. A missing static value counts as empty, and the name is
sanitized if `clean` says so. -/
def ofAttribute (settings : Settings) (ref : Ref) (name : String) (value : Option String)
    (kind : AttributeOverride) (present clean : Bool) : String :=
  let shown := if clean then sanitize name else name
  (attributeForm ref name shown (value.getD "") present kind).render settings

def ofClass (settings : Settings) (ref : Ref) (name : String) : ClassOverride → String
  | .create =>
    "$\x7b" ++ settings.dataExpr (RuntimeKey.value ref .cssClass name) ++ " || ''\x7d"
  | .delete =>
    "$\x7b" ++ settings.dataExpr (RuntimeKey.deletion ref .cssClass name) ++ " ? '' : " ++
      Jsx.Literal.single name ++ "\x7d"

/-- The code of overridden inner content, with `markup` as its static form. -/
def ofInner (settings : Settings) (ref : Ref) (markup : String) : String :=
  "\x7b\x7b__html: " ++
    Jsx.choose settings (RuntimeKey.part ref .inner) (Jsx.Literal.template markup) ++ "\x7d\x7d"

def tag (settings : Settings) (ref : Ref) : String :=
  settings.dataExpr (RuntimeKey.part ref .tag)

def component (settings : Settings) (ref : Ref) : String :=
  settings.dataExpr (RuntimeKey.part ref .component)

/-- The code around a node that can be left out. A control-flow parent already gives an expression
context, so inside one there are no braces. -/
def guard (settings : Settings) (ref : Ref) (parentTag : Option String) : Guard :=
  let test := "!" ++ settings.dataExpr (RuntimeKey.part ref .unrender) ++ " && "
  if parentTag.any settings.isControlFlow then ⟨test, ""⟩ else ⟨"\x7b" ++ test, "\x7d"⟩

end Fragment

end LateMarkup
