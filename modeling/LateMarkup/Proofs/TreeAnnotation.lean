import LateMarkup.MarkupTree
import LateMarkup.Proofs.Locality

/-!
# Annotating related trees

Annotating sees a tree only through the operations of `MarkupTree`. Where these agree on related
trees and keep them related (`MarkupTree.Agree`), annotating records the same and leaves related
trees (`Annotator.annotate?_alike`). This serves twice: to carry an invariant of one kind of tree
along, and to compare two kinds.

For forests nothing has to be compared: annotating one as a tree is what `Draft.annotate` says.
-/

namespace LateMarkup

open MarkupTree

variable {T U : Type} [MarkupTree T] [MarkupTree U] {R : T → U → Prop} {node : Nat}

/-- What is read of a node is the same in related trees, and what changes it keeps them related. -/
structure MarkupTree.Agree (R : T → U → Prop) (node : Nat) : Prop where
  tag : ∀ {t u}, R t u → tag t node = tag u node
  attribute? : ∀ {t u}, R t u → ∀ name, attribute? t node name = attribute? u node name
  content : ∀ {t u}, R t u →
    ∃ content, contentMarkup? t node = some content ∧ contentMarkup? u node = some content
  above : ∀ {t u}, R t u →
    (parent? t node).map (MarkupTree.tag t) = (parent? u node).map (MarkupTree.tag u)
  setTag : ∀ {t u}, R t u → ∀ tag, R (setTag t node tag) (setTag u node tag)
  setAttribute : ∀ {t u}, R t u → ∀ name value,
    R (setAttribute t node name value) (setAttribute u node name value)
  removeAttribute : ∀ {t u}, R t u → ∀ name,
    R (removeAttribute t node name) (removeAttribute u node name)
  clear : ∀ {t u}, R t u → R (clear t node) (clear u node)
  wrap : ∀ {t u}, R t u → ∀ tag, R (wrap t node tag) (wrap u node tag)

namespace MarkupTree.Agree

variable {t : T} {u : U} (agree : Agree R node) (related : R t u) (name : String)

include agree related

theorem hasEither : hasEither t node name = hasEither u node name := by
  have same : hasAttribute t node = hasAttribute u node := by
    funext name
    rw [hasAttribute, hasAttribute, agree.attribute? related]
  rw [MarkupTree.hasEither, MarkupTree.hasEither, same]

theorem valueOfEither? : valueOfEither? t node name = valueOfEither? u node name := by
  have same : MarkupTree.attribute? t node = MarkupTree.attribute? u node :=
    funext (agree.attribute? related)
  rw [MarkupTree.valueOfEither?, MarkupTree.valueOfEither?, same]

theorem removeEither : R (removeEither t node name) (removeEither u node name) := by
  unfold MarkupTree.removeEither
  cases AttributeName.markup? name with
  | none => exact agree.removeAttribute related name
  | some markup => exact agree.removeAttribute (agree.removeAttribute related name) markup

end MarkupTree.Agree

namespace Annotator

/-- Two annotators with the same settings and records, on related trees. -/
structure Alike (R : T → U → Prop) (one : Annotator T) (other : Annotator U) : Prop where
  settings : one.settings = other.settings
  registry : one.registry = other.registry
  trees : R one.tree other.tree

namespace Alike

variable {one : Annotator T} {other : Annotator U} (agree : Agree R node) (h : one.Alike R other)
  (ref : Ref) (declaration : Declaration)

include agree h

theorem overrideAttribute (name : String) (kind : AttributeOverride) :
    (one.overrideAttribute node ref name kind).Alike R
      (other.overrideAttribute node ref name kind) where
  settings := h.settings
  registry := by
    simp only [Annotator.overrideAttribute, h.settings, h.registry,
      agree.hasEither h.trees name, agree.valueOfEither? h.trees name]
  trees := agree.setAttribute (agree.removeEither h.trees name) _ _

theorem overrideAttributes : (one.overrideAttributes node ref declaration).Alike R
    (other.overrideAttributes node ref declaration) := by
  unfold Annotator.overrideAttributes
  generalize declaration.attributes.toList = overrides
  induction overrides generalizing one other with
  | nil => exact h
  | cons first rest ih => exact ih (h.overrideAttribute agree ref first.1 first.2)

theorem overrideTag :
    (one.overrideTag node ref declaration).Alike R (other.overrideTag node ref declaration) := by
  unfold Annotator.overrideTag
  split
  · refine ⟨h.settings, ?_, ?_⟩
    · simp only [h.registry, agree.tag h.trees]
    · rw [h.settings]
      exact agree.setTag h.trees _
  · exact h

theorem overrideComponent : (one.overrideComponent node ref declaration).Alike R
    (other.overrideComponent node ref declaration) := by
  unfold Annotator.overrideComponent
  split
  · refine ⟨h.settings, ?_, ?_⟩
    · simp only [h.registry, agree.tag h.trees]
    · rw [h.settings]
      exact agree.setTag h.trees _
  · exact h

theorem overrideInner? : ∃ after after',
    one.overrideInner? node ref declaration = some after ∧
      other.overrideInner? node ref declaration = some after' ∧ after.Alike R after' := by
  unfold Annotator.overrideInner?
  split
  · obtain ⟨content, hone, hother⟩ := agree.content h.trees
    rw [hone, hother]
    refine ⟨_, _, rfl, rfl, h.settings, ?_, ?_⟩
    · simp only [h.settings, h.registry]
    · simp only [h.settings]
      exact agree.setAttribute (agree.clear h.trees) _ _
  · exact ⟨one, other, rfl, rfl, h⟩

theorem takeWish : (one.takeWish node ref).Alike R (other.takeWish node ref) where
  settings := h.settings
  registry := by simp only [Annotator.takeWish, h.registry]
  trees := by
    simp only [Annotator.takeWish, h.settings]
    exact agree.removeAttribute h.trees _

theorem surround : (one.surround node ref).Alike R (other.surround node ref) where
  settings := h.settings
  registry := by simp only [Annotator.surround, h.settings, h.registry, agree.above h.trees]
  trees := agree.wrap h.trees _

theorem overrideUnrender : (one.overrideUnrender node ref declaration).Alike R
    (other.overrideUnrender node ref declaration) := by
  unfold Annotator.overrideUnrender hasAttribute
  rw [h.settings, agree.attribute? h.trees]
  split
  · exact (h.takeWish agree ref).surround agree ref
  · split
    · exact h.surround agree ref
    · exact h

end Alike

/-- **Annotating related trees ends, records the same, and leaves related trees.** -/
theorem annotate?_alike {one : Annotator T} {other : Annotator U} (agree : Agree R node)
    (h : one.Alike R other) (ref : Ref) (declaration : Declaration) : ∃ after after',
      one.annotate? node ref declaration = some after ∧
        other.annotate? node ref declaration = some after' ∧ after.Alike R after' := by
  have attributes := h.overrideAttributes agree ref declaration
  have tag := attributes.overrideTag agree ref declaration
  have component := tag.overrideComponent agree ref declaration
  obtain ⟨one', other', hone, hother, inner⟩ := component.overrideInner? agree ref declaration
  refine ⟨_, _, ?_, ?_, inner.overrideUnrender agree ref declaration⟩
  · rw [annotate?, hone]
    rfl
  · rw [annotate?, hother]
    rfl

end Annotator

/-! ## Forests -/

theorem Document.relabel_relabel (doc : Document) (node : Nat) (first second : Label → Label) :
    (doc.relabel node first).relabel node second =
      doc.relabel node fun label => second (first label) := by
  have twice (forest : Forest) := Forest.edit_edit
    (fun label children => (rfl : Forest.tree node (first label) children = _))
    (fun label children => Forest.tree node (second label) children) forest
  unfold relabel edit
  rw [twice, twice]

theorem Document.mapAttributes_mapAttributes (doc : Document) (node : Nat)
    (first second : Attributes → Attributes) :
    (doc.mapAttributes node first).mapAttributes node second =
      doc.mapAttributes node fun attributes => second (first attributes) := by
  have fused : (fun label => Label.mapAttributes second (Label.mapAttributes first label)) =
      Label.mapAttributes fun attributes => second (first attributes) := by
    funext label
    cases label <;> rfl
  rw [mapAttributes, mapAttributes, relabel_relabel, fused, mapAttributes]

theorem Document.removeEither_eq (doc : Document) (node : Nat) (name : String) :
    removeEither doc node name = doc.mapAttributes node (Attributes.removeEither name) := by
  unfold MarkupTree.removeEither Attributes.removeEither
  cases AttributeName.markup? name with
  | none => rfl
  | some markup => exact doc.mapAttributes_mapAttributes node _ _

namespace Draft

variable (draft : Draft) (node : Nat) (ref : Ref) (declaration : Declaration)

def toAnnotator : Annotator Document :=
  { settings := draft.settings, tree := draft.document, registry := draft.registry }

theorem overrideAttribute_toAnnotator (name : String) (kind : AttributeOverride) :
    draft.toAnnotator.overrideAttribute node ref name kind =
      (draft.overrideAttribute node ref name kind).toAnnotator := by
  have changed : setAttribute (removeEither draft.document node name) node
      (Marker.attributeName ref name) "" =
        (draft.overrideAttribute node ref name kind).document := by
    rw [Document.removeEither_eq]
    exact draft.document.mapAttributes_mapAttributes node _ _
  show Annotator.mk _ _ _ = Annotator.mk _ _ _
  congr 1

theorem overrideAttributes_toAnnotator :
    draft.toAnnotator.overrideAttributes node ref declaration =
      (draft.overrideAttributes node ref declaration).toAnnotator := by
  unfold Annotator.overrideAttributes overrideAttributes overrideEach
  generalize declaration.attributes.toList = overrides
  induction overrides generalizing draft with
  | nil => rfl
  | cons first rest ih =>
      obtain ⟨name, kind⟩ := first
      rw [List.foldl_cons, List.foldl_cons]
      dsimp only
      rw [overrideAttribute_toAnnotator]
      exact ih _

theorem overrideTag_toAnnotator : draft.toAnnotator.overrideTag node ref declaration =
    (draft.overrideTag node ref declaration).toAnnotator := by
  unfold Annotator.overrideTag overrideTag
  split <;> rfl

theorem overrideComponent_toAnnotator : draft.toAnnotator.overrideComponent node ref declaration =
    (draft.overrideComponent node ref declaration).toAnnotator := by
  unfold Annotator.overrideComponent overrideComponent
  split <;> rfl

theorem overrideInner_toAnnotator : draft.toAnnotator.overrideInner? node ref declaration =
    some (draft.overrideInner node ref declaration).toAnnotator := by
  unfold Annotator.overrideInner? overrideInner
  split <;> rfl

theorem overrideUnrender_toAnnotator : draft.toAnnotator.overrideUnrender node ref declaration =
    (draft.overrideUnrender node ref declaration).toAnnotator := by
  unfold overrideUnrender
  split
  · next wish => exact if_pos wish
  · next none =>
      refine (if_neg none).trans ?_
      split <;> rfl

/-- **Annotating a forest as any tree is what a draft does.** -/
theorem annotate?_toAnnotator : draft.toAnnotator.annotate? node ref declaration =
    some (draft.annotate node ref declaration).toAnnotator := by
  rw [Annotator.annotate?, overrideAttributes_toAnnotator, overrideTag_toAnnotator,
    overrideComponent_toAnnotator, overrideInner_toAnnotator]
  exact congrArg some (overrideUnrender_toAnnotator _ node ref declaration)

end Draft

end LateMarkup
