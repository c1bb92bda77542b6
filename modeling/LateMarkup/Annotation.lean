import LateMarkup.Document
import LateMarkup.Resolution

/-! # Annotating a document

Annotating a node records the code of its overrides in the registry and leaves the markers of that
code in the document. The parts of a declaration are taken in a fixed order: attributes, tag,
component, inner content, and last the wrapper of a node that can be left out.
-/

namespace LateMarkup

/-- A document that is being annotated, with what has been recorded so far. -/
structure Draft where
  settings : Settings := {}
  document : Document := {}
  registry : Registry := {}
deriving DecidableEq

namespace Draft

/-- Puts a marker in the place of an attribute, which is named by its structural spelling. -/
def overrideAttribute (draft : Draft) (node : Nat) (ref : Ref) (name : String)
    (kind : AttributeOverride) : Draft :=
  let attributes := draft.document.attributes node
  let code := Fragment.ofAttribute draft.settings ref name (attributes.valueOfEither? name) kind
    (attributes.hasEither name) false
  { draft with
    document := draft.document.mapAttributes node fun attributes =>
      (attributes.removeEither name).set (Marker.attributeName ref name) ""
    registry := draft.registry.modifyCode ref fun entry =>
      { entry with attributes := entry.attributes.insert name code } }

def overrideEach (draft : Draft) (node : Nat) (ref : Ref)
    (overrides : List (String × AttributeOverride)) : Draft :=
  overrides.foldl (fun draft (name, kind) => draft.overrideAttribute node ref name kind) draft

def overrideAttributes (draft : Draft) (node : Nat) (ref : Ref) (declaration : Declaration) :
    Draft :=
  draft.overrideEach node ref declaration.attributes.toList

def overrideTag (draft : Draft) (node : Nat) (ref : Ref) (declaration : Declaration) : Draft :=
  if declaration.tag then
    { draft with
      document := draft.document.setTag node (Fragment.tag draft.settings ref)
      registry := draft.registry.modifyDefaults ref fun entry =>
        { entry with tag := some (draft.document.tag node).toLower } }
  else draft

def overrideComponent (draft : Draft) (node : Nat) (ref : Ref) (declaration : Declaration) :
    Draft :=
  if declaration.component then
    { draft with
      document := draft.document.setTag node (Fragment.component draft.settings ref)
      registry := draft.registry.modifyDefaults ref fun entry =>
        { entry with component := some (draft.document.tag node) } }
  else draft

def overrideInner (draft : Draft) (node : Nat) (ref : Ref) (declaration : Declaration) : Draft :=
  if declaration.inner then
    let code := Fragment.ofInner draft.settings ref (draft.document.contentMarkup node)
    { draft with
      document := (draft.document.clear node).mapAttributes node
        (Attributes.set draft.settings.rawContentAttribute (Marker.innerValue ref))
      registry := draft.registry.modifyCode ref fun entry => { entry with inner := some code } }
  else draft

/-- Moves a node's own wish to be left out at first from its attributes into the registry. -/
def takeWish (draft : Draft) (node : Nat) (ref : Ref) : Draft :=
  { draft with
    document := draft.document.mapAttributes node
      (Attributes.remove draft.settings.unrenderAttribute)
    registry := draft.registry.modifyDefaults ref fun entry =>
      { entry with unrender := some true } }

def surround (draft : Draft) (node : Nat) (ref : Ref) : Draft :=
  let parentTag := (draft.document.parent? node).map draft.document.tag
  let guard := Fragment.guard draft.settings ref parentTag
  { draft with
    document := draft.document.wrap node (Marker.wrapperTag ref)
    registry := draft.registry.modifyCode ref fun entry => { entry with unrender := some guard } }

/-- Marks a node that can be left out, because it is so declared or because the node itself asks for
it. -/
def overrideUnrender (draft : Draft) (node : Nat) (ref : Ref) (declaration : Declaration) : Draft :=
  if (draft.document.attributes node).has draft.settings.unrenderAttribute then
    (draft.takeWish node ref).surround node ref
  else if declaration.unrender then draft.surround node ref
  else draft

/-- Annotates a node with all that is declared for it. -/
def annotate (draft : Draft) (node : Nat) (ref : Ref) (declaration : Declaration) : Draft :=
  let withAttributes := draft.overrideAttributes node ref declaration
  let withTag := withAttributes.overrideTag node ref declaration
  let withComponent := withTag.overrideComponent node ref declaration
  let withInner := withComponent.overrideInner node ref declaration
  withInner.overrideUnrender node ref declaration

end Draft

end LateMarkup
