import LateMarkup.Annotation
import LateMarkup.Arena

/-! # Annotating any tree

Annotating asks little of a tree, and works on every type with these operations. Stored documents
have them, and so have forests, for which `Draft` spells out what annotating does to one.
-/

namespace LateMarkup

/-- Trees that can be annotated. The nodes of a tree go by numbers. -/
class MarkupTree (T : Type) where
  tag : T → Nat → String
  setTag : T → Nat → String → T
  attribute? : T → Nat → String → Option String
  setAttribute : T → Nat → String → String → T
  removeAttribute : T → Nat → String → T
  /-- The markup of what is in a node, if writing it ends. -/
  contentMarkup? : T → Nat → Option String
  clear : T → Nat → T
  parent? : T → Nat → Option Nat
  wrap : T → Nat → String → T

instance : MarkupTree Arena where
  tag := Arena.tag
  setTag := Arena.setTag
  attribute? arena node name := (arena.attributes node).value? name
  setAttribute := Arena.setAttribute
  removeAttribute := Arena.removeAttribute
  contentMarkup? := Arena.contentMarkup?
  clear := Arena.clear
  parent? := Arena.parent?
  wrap := Arena.wrap

instance : MarkupTree Document where
  tag := Document.tag
  setTag := Document.setTag
  attribute? doc node name := (doc.attributes node).value? name
  setAttribute doc node name value := doc.mapAttributes node (Attributes.set name value)
  removeAttribute doc node name := doc.mapAttributes node (Attributes.remove name)
  contentMarkup? doc node := some (doc.contentMarkup node)
  clear := Document.clear
  parent? := Document.parent?
  wrap := Document.wrap

namespace MarkupTree

variable {T : Type} [MarkupTree T]

def hasAttribute (tree : T) (node : Nat) (name : String) : Bool :=
  (attribute? tree node name).isSome

/-! ## Either spelling -/

def hasEither (tree : T) (node : Nat) (name : String) : Bool :=
  hasAttribute tree node name || (AttributeName.markup? name).any (hasAttribute tree node)

def valueOfEither? (tree : T) (node : Nat) (name : String) : Option String :=
  ((AttributeName.markup? name).bind (attribute? tree node)).or (attribute? tree node name)

def removeEither (tree : T) (node : Nat) (name : String) : T :=
  let removed := removeAttribute tree node name
  match AttributeName.markup? name with
  | some markup => removeAttribute removed node markup
  | none => removed

end MarkupTree

/-- A tree that is being annotated, with what has been recorded so far. -/
structure Annotator (T : Type) where
  settings : Settings := {}
  tree : T
  registry : Registry := {}

namespace Annotator

open MarkupTree

variable {T : Type} [MarkupTree T] (state : Annotator T) (node : Nat) (ref : Ref)
  (declaration : Declaration)

def overrideAttribute (name : String) (kind : AttributeOverride) : Annotator T :=
  let code := Fragment.ofAttribute state.settings ref name (valueOfEither? state.tree node name)
    kind (hasEither state.tree node name) false
  { state with
    tree := setAttribute (removeEither state.tree node name) node (Marker.attributeName ref name) ""
    registry := state.registry.modifyCode ref fun entry =>
      { entry with attributes := entry.attributes.insert name code } }

def overrideAttributes : Annotator T :=
  declaration.attributes.toList.foldl
    (fun state (name, kind) => state.overrideAttribute node ref name kind) state

def overrideTag : Annotator T :=
  if declaration.tag then
    { state with
      tree := setTag state.tree node (Fragment.tag state.settings ref)
      registry := state.registry.modifyDefaults ref fun entry =>
        { entry with tag := some (tag state.tree node).toLower } }
  else state

def overrideComponent : Annotator T :=
  if declaration.component then
    { state with
      tree := setTag state.tree node (Fragment.component state.settings ref)
      registry := state.registry.modifyDefaults ref fun entry =>
        { entry with component := some (tag state.tree node) } }
  else state

/-- Puts a marker in the place of the inner content, if writing that content ends. -/
def overrideInner? : Option (Annotator T) :=
  if declaration.inner then do
    let content ← contentMarkup? state.tree node
    let code := Fragment.ofInner state.settings ref content
    return { state with
      tree := setAttribute (clear state.tree node) node state.settings.rawContentAttribute
        (Marker.innerValue ref)
      registry := state.registry.modifyCode ref fun entry => { entry with inner := some code } }
  else some state

def takeWish : Annotator T :=
  { state with
    tree := removeAttribute state.tree node state.settings.unrenderAttribute
    registry := state.registry.modifyDefaults ref fun entry =>
      { entry with unrender := some true } }

def surround : Annotator T :=
  let guard := Fragment.guard state.settings ref ((parent? state.tree node).map (tag state.tree))
  { state with
    tree := wrap state.tree node (Marker.wrapperTag ref)
    registry := state.registry.modifyCode ref fun entry => { entry with unrender := some guard } }

def overrideUnrender : Annotator T :=
  if hasAttribute state.tree node state.settings.unrenderAttribute then
    (state.takeWish node ref).surround node ref
  else if declaration.unrender then state.surround node ref
  else state

def annotate? : Option (Annotator T) := do
  let withAttributes := state.overrideAttributes node ref declaration
  let withTag := withAttributes.overrideTag node ref declaration
  let withComponent := withTag.overrideComponent node ref declaration
  let withInner ← withComponent.overrideInner? node ref declaration
  return withInner.overrideUnrender node ref declaration

end Annotator

end LateMarkup
