import Mathlib.Data.Finset.Card
import Mathlib.Data.List.Range
import Mathlib.Order.Interval.Finset.Nat
import LateMarkup.Proofs.StoredForests

/-!
# Stored documents under any operations

A stored document starts empty and is changed by one operation after another, in any order, also at
nodes that were cut out. One step keeps the links (`Arena.Linked.perform?`) and comes to an end, and
so does a run. In terms of what can be read, the document is a forest then (`Arena.IsForest`), which
is the main result here (`Arena.isForest_performAll`). It is also the forest that the same
operations make of the empty one (`Arena.stores_performAll?`), and whatever is proved of the tags,
places and markup there holds of the stored document (`Arena.reads_performAll?`).
-/

namespace LateMarkup

namespace Arena

variable {arena : Arena} {doc : Document} {node : Nat}

/-! ## Annotating -/

theorem agree_linked (node : Nat) : MarkupTree.Agree
    (fun one other : Arena => one = other ∧ one.Linked ∧ node < one.size) node where
  tag := by
    rintro arena _ ⟨rfl, -⟩
    rfl
  attribute? := by
    rintro arena _ ⟨rfl, -⟩ name
    rfl
  content := by
    rintro arena _ ⟨rfl, linked, -⟩
    obtain ⟨content, written⟩ := linked.exists_contentMarkup? node
    exact ⟨content, written, written⟩
  above := by
    rintro arena _ ⟨rfl, -⟩
    rfl
  setTag := by
    rintro arena _ ⟨rfl, linked, made⟩ tag
    exact ⟨rfl, linked.setTag node tag, (size_mapElement node _).symm ▸ made⟩
  setAttribute := by
    rintro arena _ ⟨rfl, linked, made⟩ name value
    exact ⟨rfl, linked.setAttribute node name value, (size_mapElement node _).symm ▸ made⟩
  removeAttribute := by
    rintro arena _ ⟨rfl, linked, made⟩ name
    exact ⟨rfl, linked.removeAttribute node name, (size_mapElement node _).symm ▸ made⟩
  clear := by
    rintro arena _ ⟨rfl, linked, made⟩
    exact ⟨rfl, linked.clear node, (size_clear node).symm ▸ made⟩
  wrap := by
    rintro arena _ ⟨rfl, linked, made⟩ tag
    refine ⟨rfl, linked.wrap made tag, ?_⟩
    show node < (arena.wrap node tag).size
    rw [size_wrap]
    exact Nat.lt_succ_of_lt made

theorem agree_stores (node : Nat) : MarkupTree.Agree
    (fun (arena : Arena) (doc : Document) => arena.Stores doc ∧ node < doc.size) node where
  tag := fun ⟨h, _⟩ => h.tag node
  attribute? := fun ⟨h, _⟩ name => congrArg (Attributes.value? name) (h.attributes node)
  content := fun ⟨h, _⟩ => ⟨_, h.contentMarkup? node, rfl⟩
  above := by
    rintro arena doc ⟨h, -⟩
    show (arena.parent? node).map arena.tag = (doc.parent? node).map doc.tag
    rw [h.parent?, funext h.tag]
  setTag := fun ⟨h, made⟩ tag => ⟨h.setTag node tag, made⟩
  setAttribute := fun ⟨h, made⟩ name value => ⟨h.setAttribute node name value, made⟩
  removeAttribute := fun ⟨h, made⟩ name => ⟨h.removeAttribute node name, made⟩
  clear := by
    rintro arena doc ⟨h, made⟩
    refine ⟨h.clear node, ?_⟩
    show node < (doc.clear node).size
    rw [Document.size_clear]
    exact made
  wrap := fun ⟨h, made⟩ tag => ⟨h.wrap made tag, Nat.lt_succ_of_lt made⟩

/-- **Annotating a stored document is annotating the forest in it.** -/
theorem Stores.annotate? (h : arena.Stores doc) (made : node < doc.size) (settings : Settings)
    (registry : Registry) (ref : Ref) (declaration : Declaration) :
    ∃ after, Annotator.annotate? ⟨settings, arena, registry⟩ node ref declaration = some after ∧
      after.tree.Stores (Draft.annotate ⟨settings, doc, registry⟩ node ref declaration).document ∧
      after.registry =
        (Draft.annotate ⟨settings, doc, registry⟩ node ref declaration).registry := by
  let draft : Draft := ⟨settings, doc, registry⟩
  have alike : Annotator.Alike (fun arena doc => arena.Stores doc ∧ node < doc.size)
      (⟨settings, arena, registry⟩ : Annotator Arena) draft.toAnnotator := ⟨rfl, rfl, h, made⟩
  obtain ⟨after, drawn, hafter, hdrawn, alike⟩ :=
    Annotator.annotate?_alike (agree_stores node) alike ref declaration
  rw [draft.annotate?_toAnnotator] at hdrawn
  cases hdrawn
  exact ⟨after, hafter, alike.trees.1, alike.registry⟩

/-! ## Operations -/

def perform? (arena : Arena) : Document.Operation → Option Arena
  | .element parent tag attributes => some (arena.addElement parent tag attributes)
  | .text parent content => some (arena.addText parent content)
  | .setTag node tag => some (arena.setTag node tag)
  | .setAttribute node name value => some (arena.setAttribute node name value)
  | .removeAttribute node name => some (arena.removeAttribute node name)
  | .clear node => some (arena.clear node)
  | .wrap node tag => some (arena.wrap node tag)
  | .annotate settings registry node ref declaration =>
    (Annotator.annotate? ⟨settings, arena, registry⟩ node ref declaration).map Annotator.tree

/-- An operation is about nodes that were made, and puts new nodes into elements. -/
def Allows (arena : Arena) : Document.Operation → Prop
  | .element parent _ _ => ∀ id ∈ parent, arena.IsElement id
  | .text parent _ => arena.IsElement parent
  | .setTag node _ => node < arena.size
  | .setAttribute node _ _ => node < arena.size
  | .removeAttribute node _ => node < arena.size
  | .clear node => node < arena.size
  | .wrap node _ => node < arena.size
  | .annotate _ _ node _ _ => node < arena.size

def performAll? (arena : Arena) : List Document.Operation → Option Arena
  | [] => some arena
  | operation :: rest => (arena.perform? operation).bind fun after => after.performAll? rest

def AllowsAll (arena : Arena) : List Document.Operation → Prop
  | [] => True
  | operation :: rest =>
    arena.Allows operation ∧ ∀ after, arena.perform? operation = some after → after.AllowsAll rest

/-- **Every operation ends and keeps the links.** -/
theorem Linked.perform? (h : arena.Linked) {operation : Document.Operation}
    (allowed : arena.Allows operation) :
    ∃ after, arena.perform? operation = some after ∧ after.Linked := by
  cases operation with
  | element parent tag attributes => exact ⟨_, rfl, h.addElement allowed tag attributes⟩
  | text parent content => exact ⟨_, rfl, h.addText allowed content⟩
  | setTag node tag => exact ⟨_, rfl, h.setTag node tag⟩
  | setAttribute node name value => exact ⟨_, rfl, h.setAttribute node name value⟩
  | removeAttribute node name => exact ⟨_, rfl, h.removeAttribute node name⟩
  | clear node => exact ⟨_, rfl, h.clear node⟩
  | wrap node tag => exact ⟨_, rfl, h.wrap allowed tag⟩
  | annotate settings registry node ref declaration =>
      let annotator : Annotator Arena := ⟨settings, arena, registry⟩
      have alike : Annotator.Alike (fun one other : Arena =>
          one = other ∧ one.Linked ∧ node < one.size) annotator annotator :=
        ⟨rfl, rfl, rfl, h, allowed⟩
      obtain ⟨after, _, hafter, _, alike⟩ :=
        Annotator.annotate?_alike (agree_linked node) alike ref declaration
      exact ⟨after.tree, congrArg (Option.map Annotator.tree) hafter, alike.trees.2.1⟩

theorem Linked.performAll? (h : arena.Linked) {operations : List Document.Operation}
    (allowed : arena.AllowsAll operations) :
    ∃ after, arena.performAll? operations = some after ∧ after.Linked := by
  induction operations generalizing arena with
  | nil => exact ⟨arena, rfl, h⟩
  | cons operation rest ih =>
      obtain ⟨after, performed, linked⟩ := h.perform? allowed.1
      obtain ⟨last, done, linked⟩ := ih linked (allowed.2 after performed)
      refine ⟨last, ?_, linked⟩
      rw [Arena.performAll?, performed]
      exact done

/-! ## Forests that are stored -/

/-- What is allowed at a forest is allowed at a document that stores it, and has the same effect. -/
theorem Stores.perform? (h : arena.Stores doc) {operation : Document.Operation}
    (allowed : doc.Allows operation) : arena.Allows operation ∧
      ∃ after, arena.perform? operation = some after ∧ after.Stores (doc.perform operation) := by
  have made {node : Nat} (lt : node < doc.size) : node < arena.size := h.size ▸ lt
  cases operation with
  | element parent tag attributes =>
      exact ⟨fun above mem => h.isElement_iff.mpr (allowed above mem), _, rfl,
        h.addElement allowed tag attributes⟩
  | text parent content =>
      exact ⟨h.isElement_iff.mpr allowed, _, rfl, h.addText allowed content⟩
  | setTag node tag => exact ⟨made allowed, _, rfl, h.setTag node tag⟩
  | setAttribute node name value =>
      exact ⟨made allowed, _, rfl, h.setAttribute node name value⟩
  | removeAttribute node name => exact ⟨made allowed, _, rfl, h.removeAttribute node name⟩
  | clear node => exact ⟨made allowed, _, rfl, h.clear node⟩
  | wrap node tag => exact ⟨made allowed, _, rfl, h.wrap allowed tag⟩
  | annotate settings registry node ref declaration =>
      obtain ⟨after, annotated, stores, -⟩ := h.annotate? allowed settings registry ref declaration
      exact ⟨made allowed, after.tree, congrArg (Option.map Annotator.tree) annotated, stores⟩

theorem Stores.performAll? (h : arena.Stores doc) {operations : List Document.Operation}
    (allowed : doc.AllowsAll operations) : arena.AllowsAll operations ∧
      ∃ after, arena.performAll? operations = some after ∧
        after.Stores (doc.performAll operations) := by
  induction operations generalizing arena doc with
  | nil => exact ⟨trivial, arena, rfl, h⟩
  | cons operation rest ih =>
      obtain ⟨here, after, performed, stores⟩ := h.perform? allowed.1
      obtain ⟨later, last, done, stores⟩ := ih stores allowed.2
      refine ⟨⟨here, fun other hother => ?_⟩, last, ?_, stores⟩
      · rw [performed] at hother
        cases hother
        exact later
      · rw [Arena.performAll?, performed]
        exact done

/-- **Operations make a stored document of the forest that they make.** -/
theorem stores_performAll? {operations : List Document.Operation}
    (allowed : Document.AllowsAll {} operations) : AllowsAll {} operations ∧
      ∃ arena, performAll? {} operations = some arena ∧
        arena.Stores (Document.performAll {} operations) :=
  Stores.empty.performAll? allowed

/-- **Nothing that is read tells the stored document from the forest.** -/
theorem reads_performAll? {operations : List Document.Operation}
    (allowed : Document.AllowsAll {} operations) :
    ∃ arena, performAll? {} operations = some arena ∧
      arena.markup? = some (Document.performAll {} operations).markup ∧
      ∀ id < (Document.performAll {} operations).size,
        arena.tag id = (Document.performAll {} operations).tag id ∧
        arena.attributes id = (Document.performAll {} operations).attributes id ∧
        arena.children id = (Document.performAll {} operations).children id ∧
        arena.parent? id = (Document.performAll {} operations).parent? id ∧
        arena.markupOf? id = some ((Document.performAll {} operations).markupOf id) := by
  obtain ⟨-, arena, performed, stores⟩ := stores_performAll? allowed
  refine ⟨arena, performed, stores.markup?, fun id made => ?_⟩
  exact ⟨stores.tag id, stores.attributes id, stores.children id, stores.parent? id,
    stores.markupOf? made⟩

/-! ## Stored documents are forests -/

/-- What can be read of a stored document is a forest. -/
structure IsForest (arena : Arena) : Prop where
  /-- A node is listed at most once, among the roots or in a node. -/
  once : (arena.roots ++ (List.range arena.size).flatMap arena.children).Nodup
  /-- What is listed was made. -/
  made : ∀ id ∈ arena.roots ++ (List.range arena.size).flatMap arena.children, id < arena.size
  /-- The slot of a node names the node that lists it. -/
  parent : ∀ child above, arena.parent? child = some above ↔ child ∈ arena.children above
  root : ∀ id ∈ arena.roots, arena.parent? id = none
  /-- Nobody comes back to a node by going up. -/
  acyclic : ∀ id, ¬ Relation.TransGen (fun child above => arena.parent? child = some above) id id
  ascent : WellFounded fun above child => arena.parent? child = some above
  descent : WellFounded fun child above => child ∈ arena.children above
  /-- Writing markup ends. -/
  markup : arena.markup?.isSome ∧
    ∀ id, (arena.markupOf? id).isSome ∧ (arena.contentMarkup? id).isSome
  names : ∀ id, ((arena.attributes id).map Prod.fst).Nodup

namespace Linked

variable (h : arena.Linked)

include h

theorem nodup_listed : (arena.roots ++ (List.range arena.size).flatMap arena.children).Nodup := by
  rw [List.nodup_append]
  refine ⟨h.roots, List.nodup_flatMap.mpr ⟨fun id _ => h.children id, ?_⟩, ?_⟩
  · refine List.nodup_range.imp fun {one other} hne child hone hother => hne ?_
    exact h.unique hone hother
  · rintro root top _ inside rfl
    obtain ⟨above, -, mem⟩ := List.mem_flatMap.mp inside
    have parent := h.parent.mpr mem
    rw [(h.root root top).2] at parent
    cases parent

theorem acyclic (id : Nat) :
    ¬ Relation.TransGen (fun child above => arena.parent? child = some above) id id := by
  simp only [h.parent]
  exact h.descent.transGen.irrefl.irrefl id

/-- There are ever fewer nodes above. -/
theorem ascent : WellFounded fun above child => arena.parent? child = some above := by
  classical
  let up := Relation.TransGen fun child above => arena.parent? child = some above
  refine Subrelation.wf (fun {above child} parent => ?_)
    (measure fun id => ((Finset.range arena.size).filter (up id)).card).wf
  have made : above < arena.size := (isElement_of_mem_children (h.parent.mp parent)).lt_size
  refine Finset.card_lt_card (Finset.ssubset_iff_of_subset ?_ |>.mpr ⟨above, ?_, ?_⟩)
  · exact Finset.monotone_filter_right _ fun _ _ far => Relation.TransGen.head parent far
  · exact Finset.mem_filter.mpr ⟨Finset.mem_range.mpr made, .single parent⟩
  · exact fun mem => h.acyclic above (Finset.mem_filter.mp mem).2

theorem isForest : arena.IsForest where
  once := h.nodup_listed
  made id mem := by
    rcases List.mem_append.mp mem with top | inside
    · exact (h.root id top).1
    · obtain ⟨above, -, mem⟩ := List.mem_flatMap.mp inside
      exact h.lt_size mem
  parent _ _ := h.parent
  root id mem := (h.root id mem).2
  acyclic := h.acyclic
  ascent := h.ascent
  descent := h.descent
  markup := by
    refine ⟨Option.isSome_iff_exists.mpr h.exists_markup?, fun id => ⟨?_, ?_⟩⟩
    · exact Option.isSome_iff_exists.mpr (h.exists_markupOf? id)
    · exact Option.isSome_iff_exists.mpr (h.exists_contentMarkup? id)
  names := h.names

end Linked

/-- **Whatever is done to a stored document, it stays a forest.** All operations of a run end. In
the document that they make of the empty one every node is in one list at most, its slot names the
node with this list, going up and down ends, and no attribute name repeats. -/
theorem isForest_performAll {operations : List Document.Operation}
    (allowed : AllowsAll {} operations) :
    ∃ arena, performAll? {} operations = some arena ∧ arena.IsForest := by
  obtain ⟨arena, performed, linked⟩ := linked_empty.performAll? allowed
  exact ⟨arena, performed, linked.isForest⟩

/-- A list item is cut out of its list, wrapped and annotated where it is, and its first wrapper
gets another child. The list, which is a root, is wrapped as well. -/
def upheaval : List Document.Operation :=
  [.element none "ul" [], .element (some 0) "li" [("class", "a"), ("class", "b")], .text 1 "x",
    .clear 0, .wrap 1 "b",
    .annotate {} {} 1 ⟨"e0a", Ref.isValid_e0a⟩ { inner := true, unrender := true },
    .wrap 0 "main", .element (some 3) "i" [], .clear 5, .setAttribute 4 "id" "", .setTag 2 "p"]

theorem isForest_upheaval : AllowsAll {} upheaval ∧
    ∃ arena, performAll? {} upheaval = some arena ∧ arena.IsForest := by
  have allowed : AllowsAll {} upheaval := (stores_performAll? (by decide)).1
  exact ⟨allowed, isForest_performAll allowed⟩

end Arena

end LateMarkup
