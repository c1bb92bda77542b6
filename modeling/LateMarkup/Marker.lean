import LateMarkup.Ref
import LateMarkup.Text.Blank

/-! # Markers

A tree of elements has no place for code, so annotating a node leaves markers in it: an attribute
with a reserved name, a reserved value of the raw-content attribute, or a wrapper element with a
reserved tag. In the serialized document each of them is a fixed stretch of text, which is later
exchanged for the code of the node that it names.
-/

namespace LateMarkup

/-- What a marker stands for: an attribute, inner content, or the wrapper of a node. -/
inductive Site where
  | attribute
  | inner
  | unrender
deriving DecidableEq, Repr

/-- A marker in serialized text. -/
inductive Marker where
  | attribute (ref : Ref) (name : String)
  | inner (ref : Ref)
  /-- It stands before a node that can be left out. -/
  | opening (ref : Ref)
  /-- It stands after a node that can be left out. -/
  | closing (ref : Ref)
deriving DecidableEq

namespace Marker

/-- How every marker starts, apart from the punctuation around it. -/
def stem : String := "__OVERRIDE_"

/-- The name of the attribute that marks an overridden attribute. -/
def attributeName (ref : Ref) (name : String) : String :=
  "__OVERRIDE_ATTR__" ++ ref.text ++ "__" ++ name

/-- The value of the raw-content attribute that marks overridden inner content. -/
def innerValue (ref : Ref) : String := "__OVERRIDE_INNER__" ++ ref.text

/-- The tag of the element that marks a node that can be left out. -/
def wrapperTag (ref : Ref) : String := "__OVERRIDE_UNRENDER__" ++ ref.text

/-- A character that the name in an attribute marker may hold. The others end an attribute name in
serialized markup. -/
def isNameChar (c : Char) : Bool :=
  !(c == '=' || c == '"' || c == '\'' || c == '<' || c == '>' || c == '/' || Text.isBlank c)

def site : Marker → Site
  | .attribute _ _ => .attribute
  | .inner _ => .inner
  | .opening _ => .unrender
  | .closing _ => .unrender

def ref : Marker → Ref
  | .attribute ref _ => ref
  | .inner ref => ref
  | .opening ref => ref
  | .closing ref => ref

/-- The stretch of serialized text that is the marker. -/
def source : Marker → List Char
  | .attribute ref name => (attributeName ref name).toList ++ ['=', '"', '"']
  | .inner ref => '=' :: '"' :: (innerValue ref).toList ++ ['"']
  | .opening ref => '<' :: (wrapperTag ref).toList ++ ['>']
  | .closing ref => '<' :: '/' :: (wrapperTag ref).toList ++ ['>']

end Marker

end LateMarkup
