import LateMarkup.Annotation
import LateMarkup.Proofs.Links

/-!
# Documents under any operations

A document starts empty and is changed by one operation after another: nodes are added, changed,
emptied, wrapped and annotated, in any order, and also after they were cut out. Each operation keeps
a document orderly (`Document.Orderly.perform`), and so does every sequence of operations
(`Document.Orderly.performAll`).

Numbers go up as nodes are made, but a wrapper stands above a node that is older than itself, and
an emptied node loses what it had. What every operation leaves alone is the multiset of numbers: an
edit gains the numbers of the nodes it makes, and what it loses is cut out and kept.
-/

namespace LateMarkup

/-! ## Attribute names -/

namespace Attributes

variable {attributes : Attributes}

theorem nodup_set (h : (attributes.map Prod.fst).Nodup) (name value : String) :
    ((attributes.set name value).map Prod.fst).Nodup := by
  induction attributes with
  | nil => exact List.nodup_singleton name
  | cons first rest ih =>
      obtain ⟨key, old⟩ := first
      rw [set]
      split
      · exact h
      · next hne =>
          obtain ⟨fresh, nodup⟩ := List.nodup_cons.mp h
          refine List.nodup_cons.mpr ⟨fun mem => ?_, ih nodup⟩
          obtain ⟨pair, hpair, same⟩ := List.mem_map.mp mem
          rcases mem_set hpair with rfl | hpair
          · exact hne same.symm
          · exact fresh (List.mem_map.mpr ⟨pair, hpair, same⟩)

theorem nodup_remove (h : (attributes.map Prod.fst).Nodup) (name : String) :
    ((attributes.remove name).map Prod.fst).Nodup :=
  h.sublist (List.filter_sublist.map Prod.fst)

theorem nodup_removeEither (h : (attributes.map Prod.fst).Nodup) (name : String) :
    ((attributes.removeEither name).map Prod.fst).Nodup := by
  unfold removeEither
  split
  · exact nodup_remove (nodup_remove h name) _
  · exact nodup_remove h name

theorem nodup_ofList (pairs : List (String × String)) : ((ofList pairs).map Prod.fst).Nodup :=
  List.foldlRecOn (motive := fun given : Attributes => (given.map Prod.fst).Nodup) pairs _
    List.nodup_nil fun _ nodup pair _ => nodup_set nodup pair.1 pair.2

end Attributes

/-! ## What an edit gains and loses -/

namespace Forest

/-- An edit of a node gains and loses what it gains and loses at the node. -/
theorem ids_edit_exchange {forest : Forest} {id : Nat} (nodup : forest.ids.Nodup)
    (mem : id ∈ forest.ids) {change : Label → Forest → Forest} {lost gained : List Nat}
    (put : forest.All fun here label children => here = id →
      ((change label children).ids ++ lost).Perm ((tree here label children).ids ++ gained)) :
    ((forest.edit id change).ids ++ lost).Perm (forest.ids ++ gained) := by
  rw [List.perm_iff_count]
  intro x
  have count := count_ids_edit nodup x put
  rw [if_pos mem, if_pos mem] at count
  rwa [List.count_append, List.count_append]

theorem ids_tree (id : Nat) (label : Label) (children : Forest) :
    (tree id label children).ids = id :: children.ids := by
  rw [tree, ids, ids, List.append_nil]

end Forest

namespace Document

variable {doc changed : Document} {node : Nat}

theorem Proper.edit {label : Label} {children : Forest} (h : Proper label children) (id : Nat)
    (change : Label → Forest → Forest) : Proper label (children.edit id change) where
  childless content text := by
    rw [h.childless content text]
    rfl
  names := h.names

theorem Proper.empty {label : Label} (names : (label.attributes.map Prod.fst).Nodup) :
    Proper label .nil where
  childless _ _ := rfl
  names := names

theorem proper_element {tag : String} {attributes : Attributes}
    (names : (attributes.map Prod.fst).Nodup) (children : Forest) :
    Proper (.element tag attributes) children where
  childless _ := nofun
  names := names

namespace Orderly

theorem mem_whole (h : doc.Orderly) (made : node < doc.size) : node ∈ doc.whole.ids :=
  (h.complete node).mpr made

theorem whole_edit (h : doc.Orderly) (change : Label → Forest → Forest) :
    (doc.edit node change).whole = doc.whole.edit node change :=
  (Forest.edit_append change h.nodup).symm

theorem of_perm (h : doc.Orderly) (perm : changed.whole.ids.Perm doc.whole.ids)
    (size : changed.size = doc.size) (nodes : changed.whole.All fun _ => Proper) :
    changed.Orderly where
  nodup := perm.symm.nodup h.nodup
  complete id := by rw [perm.mem_iff, size, h.complete]
  nodes := nodes

theorem of_grown (h : doc.Orderly)
    (perm : changed.whole.ids.Perm (doc.whole.ids ++ [doc.size]))
    (size : changed.size = doc.size + 1) (nodes : changed.whole.All fun _ => Proper) :
    changed.Orderly where
  nodup := by
    have fresh : doc.size ∉ doc.whole.ids := fun mem =>
      Nat.lt_irrefl _ ((h.complete _).mp mem)
    exact perm.symm.nodup (List.nodup_append_comm.mp (List.nodup_cons.mpr ⟨fresh, h.nodup⟩))
  complete id := by
    rw [perm.mem_iff, List.mem_append, h.complete, List.mem_singleton, size]
    omega
  nodes := nodes

/-! ## Making nodes -/

theorem addRoot (h : doc.Orderly) {label : Label}
    (names : (label.attributes.map Prod.fst).Nodup) : (doc.add none label).Orderly := by
  have parts := Forest.all_append.mp h.nodes
  refine h.of_grown ?_ rfl (Forest.all_append.mpr ⟨?_, parts.2⟩)
  · show ((doc.roots ++ Forest.tree doc.size label .nil) ++ doc.detached).ids.Perm _
    rw [whole, Forest.ids_append, Forest.ids_append, Forest.ids_append, Forest.ids_tree,
      List.append_assoc, List.append_assoc]
    exact List.perm_append_comm.append_left doc.roots.ids
  · exact Forest.all_append.mpr ⟨parts.1, .empty names, trivial, trivial⟩

theorem grow (h : doc.Orderly) (mem : node ∈ doc.whole.ids) {change : Label → Forest → Forest}
    (ids : ∀ label children,
      (change label children).ids.Perm (node :: (children.ids ++ [doc.size])))
    (nodes : (doc.whole.edit node change).All fun _ => Proper) :
    Orderly { doc.edit node change with size := doc.size + 1 } := by
  have put : doc.whole.All fun here label children => here = node →
      ((change label children).ids ++ []).Perm
        ((Forest.tree here label children).ids ++ [doc.size]) := by
    refine h.nodes.mono fun here label children _ heq => ?_
    rw [heq, List.append_nil, Forest.ids_tree]
    exact ids label children
  refine h.of_grown ?_ rfl ?_
  · have perm := Forest.ids_edit_exchange h.nodup mem put
    rwa [List.append_nil, ← h.whole_edit] at perm
  · show (doc.edit node change).whole.All _
    rwa [h.whole_edit]

theorem addTo (h : doc.Orderly) {parent : Nat} (under : doc.IsElement parent) {label : Label}
    (names : (label.attributes.map Prod.fst).Nodup) : (doc.add (some parent) label).Orderly := by
  obtain ⟨tag, attributes, content, found⟩ := under
  have mem : parent ∈ doc.whole.ids := by
    rw [find?_eq_whole] at found
    exact Forest.mem_ids_of_find? found
  -- The node under the number of the parent is no text.
  have nodes : doc.whole.All fun here above below => Proper above below ∧
      (here = parent → above = .element tag attributes) := by
    refine h.nodes.and (h.all_find?.mono ?_)
    rintro here above below hhere rfl
    rw [found] at hhere
    cases hhere
    rfl
  apply h.grow mem
  · intro above children
    rw [Forest.ids_tree, Forest.ids_append, Forest.ids_tree]
    rfl
  · refine Forest.All.mono (nodes.edit ?_ ?_) fun _ _ _ hnode => hnode.1
    · intro above children hnode below
      obtain rfl := hnode.2 rfl
      refine ⟨⟨proper_element hnode.1.names _, fun _ => rfl⟩,
        Forest.all_append.mpr ⟨below, ⟨.empty names, ?_⟩, trivial, trivial⟩, trivial⟩
      rintro rfl
      exact absurd ((h.complete _).mp mem) (Nat.lt_irrefl _)
    · exact fun here above below hnode => ⟨hnode.1.edit _ _, hnode.2⟩

theorem wrap (h : doc.Orderly) (made : node < doc.size) (tag : String) :
    (doc.wrap node tag).Orderly := by
  apply h.grow (h.mem_whole made)
  · intro label children
    rw [Forest.ids_tree, Forest.ids_tree]
    exact (List.perm_append_singleton _ _).symm
  · refine h.nodes.edit ?_ fun _ _ _ hnode => hnode.edit _ _
    exact fun label children hnode below =>
      ⟨⟨nofun, List.nodup_nil⟩, ⟨hnode, below, trivial⟩, trivial⟩

/-! ## Changing nodes -/

theorem relabel (h : doc.Orderly) {change : Label → Label}
    (keeps : ∀ label children, Proper label children → Proper (change label) children) :
    (doc.relabel node change).Orderly := by
  refine h.of_perm ?_ rfl ?_
  · rw [Document.relabel, h.whole_edit, Forest.ids_relabel]
  · rw [Document.relabel, h.whole_edit]
    refine h.nodes.edit ?_ fun _ _ _ hnode => hnode.edit _ _
    exact fun label children hnode below => ⟨keeps label children hnode, below, trivial⟩

theorem setTag (h : doc.Orderly) (tag : String) : (doc.setTag node tag).Orderly := by
  apply h.relabel
  rintro (⟨old, attributes⟩ | content) children proper
  · exact proper_element proper.names children
  · exact proper

theorem mapAttributes (h : doc.Orderly) {change : Attributes → Attributes}
    (keeps : ∀ attributes : Attributes, (attributes.map Prod.fst).Nodup →
      ((change attributes).map Prod.fst).Nodup) : (doc.mapAttributes node change).Orderly := by
  apply h.relabel
  rintro (⟨tag, attributes⟩ | content) children proper
  · exact proper_element (keeps attributes proper.names) children
  · exact proper

theorem clear (h : doc.Orderly) : (doc.clear node).Orderly := by
  unfold Document.clear
  split
  · next tag attributes children found =>
      have mem : node ∈ doc.whole.ids := by
        rw [find?_eq_whole] at found
        exact Forest.mem_ids_of_find? found
      have put : doc.whole.All fun here label below => here = node →
          ((Forest.tree node label .nil).ids ++ children.ids).Perm
            ((Forest.tree here label below).ids ++ []) := by
        refine h.all_find?.mono fun here label below hhere heq => ?_
        rw [heq, found] at hhere
        cases hhere
        rw [heq, List.append_nil, Forest.ids_tree, Forest.ids_tree]
        rfl
      have moved : { doc.edit node fun label _ => Forest.tree node label .nil with
          detached := (doc.edit node fun label _ => Forest.tree node label .nil).detached ++
            children }.whole = (doc.whole.edit node fun label _ => Forest.tree node label .nil) ++
              children := by
        rw [← h.whole_edit]
        exact (Forest.append_assoc _ _ _).symm
      refine h.of_perm ?_ rfl ?_
      · rw [moved, Forest.ids_append]
        have perm := Forest.ids_edit_exchange h.nodup mem put
        rwa [List.append_nil] at perm
      · rw [moved]
        refine Forest.all_append.mpr ⟨h.nodes.edit ?_ fun _ _ _ hnode => hnode.edit _ _, ?_⟩
        · exact fun label below hnode _ => ⟨.empty hnode.names, trivial, trivial⟩
        · rw [find?_eq_whole] at found
          exact (h.nodes.of_find? found).2
  · exact h

end Orderly

end Document

/-! ## Annotating -/

namespace Draft

/-- A draft whose document is orderly, with a node to be annotated. -/
structure Ready (draft : Draft) (node : Nat) : Prop where
  orderly : draft.document.Orderly
  made : node < draft.document.size

variable {draft : Draft} {node : Nat}

theorem ready_overrideAttribute (h : draft.Ready node) (ref : Ref) (name : String)
    (kind : AttributeOverride) : (draft.overrideAttribute node ref name kind).Ready node where
  orderly := h.orderly.mapAttributes fun _ nodup =>
    Attributes.nodup_set (Attributes.nodup_removeEither nodup name) _ _
  made := h.made

theorem ready_overrideEach (h : draft.Ready node) (ref : Ref)
    (overrides : List (String × AttributeOverride)) :
    (draft.overrideEach node ref overrides).Ready node := by
  induction overrides generalizing draft with
  | nil => exact h
  | cons first rest ih => exact ih (ready_overrideAttribute h ref first.1 first.2)

theorem ready_overrideTag (h : draft.Ready node) (ref : Ref) (declaration : Declaration) :
    (draft.overrideTag node ref declaration).Ready node := by
  unfold overrideTag
  split
  · exact ⟨h.orderly.setTag _, h.made⟩
  · exact h

theorem ready_overrideComponent (h : draft.Ready node) (ref : Ref) (declaration : Declaration) :
    (draft.overrideComponent node ref declaration).Ready node := by
  unfold overrideComponent
  split
  · exact ⟨h.orderly.setTag _, h.made⟩
  · exact h

theorem ready_overrideInner (h : draft.Ready node) (ref : Ref) (declaration : Declaration) :
    (draft.overrideInner node ref declaration).Ready node := by
  unfold overrideInner
  split
  · refine ⟨h.orderly.clear.mapAttributes fun _ nodup => Attributes.nodup_set nodup _ _, ?_⟩
    show node < (draft.document.clear node).size
    rw [Document.size_clear]
    exact h.made
  · exact h

theorem ready_takeWish (h : draft.Ready node) (ref : Ref) :
    (draft.takeWish node ref).Ready node where
  orderly := h.orderly.mapAttributes fun _ nodup => Attributes.nodup_remove nodup _
  made := h.made

theorem ready_surround (h : draft.Ready node) (ref : Ref) :
    (draft.surround node ref).Ready node where
  orderly := h.orderly.wrap h.made _
  made := Nat.lt_succ_of_lt h.made

theorem ready_overrideUnrender (h : draft.Ready node) (ref : Ref) (declaration : Declaration) :
    (draft.overrideUnrender node ref declaration).Ready node := by
  unfold overrideUnrender
  split
  · exact ready_surround (ready_takeWish h ref) ref
  · split
    · exact ready_surround h ref
    · exact h

/-- Annotating keeps a document orderly. -/
theorem ready_annotate (h : draft.Ready node) (ref : Ref) (declaration : Declaration) :
    (draft.annotate node ref declaration).Ready node := by
  have attributes := ready_overrideEach h ref declaration.attributes.toList
  have tag := ready_overrideTag attributes ref declaration
  have component := ready_overrideComponent tag ref declaration
  exact ready_overrideUnrender (ready_overrideInner component ref declaration) ref declaration

end Draft

/-! ## Sequences of operations -/

namespace Document

inductive Operation where
  | element (parent : Option Nat) (tag : String) (attributes : List (String × String))
  | text (parent : Nat) (content : String)
  | setTag (node : Nat) (tag : String)
  | setAttribute (node : Nat) (name value : String)
  | removeAttribute (node : Nat) (name : String)
  | clear (node : Nat)
  | wrap (node : Nat) (tag : String)
  | annotate (settings : Settings) (registry : Registry) (node : Nat) (ref : Ref)
      (declaration : Declaration)

def perform (doc : Document) : Operation → Document
  | .element parent tag attributes => doc.addElement parent tag attributes
  | .text parent content => doc.addText parent content
  | .setTag node tag => doc.setTag node tag
  | .setAttribute node name value => doc.mapAttributes node (Attributes.set name value)
  | .removeAttribute node name => doc.mapAttributes node (Attributes.remove name)
  | .clear node => doc.clear node
  | .wrap node tag => doc.wrap node tag
  | .annotate settings registry node ref declaration =>
    (Draft.annotate ⟨settings, doc, registry⟩ node ref declaration).document

/-- An operation is about nodes that were made, and puts new nodes into elements. -/
def Allows (doc : Document) : Operation → Prop
  | .element parent _ _ => ∀ id ∈ parent, doc.IsElement id
  | .text parent _ => doc.IsElement parent
  | .setTag node _ => node < doc.size
  | .setAttribute node _ _ => node < doc.size
  | .removeAttribute node _ => node < doc.size
  | .clear node => node < doc.size
  | .wrap node _ => node < doc.size
  | .annotate _ _ node _ _ => node < doc.size

instance (doc : Document) (id : Nat) : Decidable (doc.IsElement id) :=
  match found : doc.find? id with
  | some (.element tag attributes, children) => .isTrue ⟨tag, attributes, children, found⟩
  | some (.text _, _) => .isFalse fun ⟨_, _, _, element⟩ => nomatch found.symm.trans element
  | none => .isFalse fun ⟨_, _, _, element⟩ => nomatch found.symm.trans element

instance (doc : Document) : (operation : Operation) → Decidable (doc.Allows operation)
  | .element parent _ _ => inferInstanceAs (Decidable (∀ id ∈ parent, doc.IsElement id))
  | .text parent _ => inferInstanceAs (Decidable (doc.IsElement parent))
  | .setTag node _ => inferInstanceAs (Decidable (node < doc.size))
  | .setAttribute node _ _ => inferInstanceAs (Decidable (node < doc.size))
  | .removeAttribute node _ => inferInstanceAs (Decidable (node < doc.size))
  | .clear node => inferInstanceAs (Decidable (node < doc.size))
  | .wrap node _ => inferInstanceAs (Decidable (node < doc.size))
  | .annotate _ _ node _ _ => inferInstanceAs (Decidable (node < doc.size))

def performAll (doc : Document) : List Operation → Document
  | [] => doc
  | operation :: rest => (doc.perform operation).performAll rest

def AllowsAll (doc : Document) : List Operation → Prop
  | [] => True
  | operation :: rest => doc.Allows operation ∧ (doc.perform operation).AllowsAll rest

instance decidableAllowsAll (doc : Document) :
    (operations : List Operation) → Decidable (doc.AllowsAll operations)
  | [] => .isTrue trivial
  | operation :: rest =>
    have := decidableAllowsAll (doc.perform operation) rest
    inferInstanceAs (Decidable (doc.Allows operation ∧ (doc.perform operation).AllowsAll rest))

/-- **Every operation keeps a document orderly.** -/
theorem Orderly.perform {doc : Document} (h : doc.Orderly) {operation : Operation}
    (allowed : doc.Allows operation) : (doc.perform operation).Orderly := by
  cases operation with
  | element parent tag attributes =>
      cases parent with
      | none => exact h.addRoot (Attributes.nodup_ofList attributes)
      | some parent => exact h.addTo (allowed parent rfl) (Attributes.nodup_ofList attributes)
  | text parent content => exact h.addTo allowed List.nodup_nil
  | setTag node tag => exact h.setTag tag
  | setAttribute node name value =>
      exact h.mapAttributes fun _ nodup => Attributes.nodup_set nodup name value
  | removeAttribute node name =>
      exact h.mapAttributes fun _ nodup => Attributes.nodup_remove nodup name
  | clear node => exact h.clear
  | wrap node tag => exact h.wrap allowed tag
  | annotate settings registry node ref declaration =>
      have ready : Draft.Ready ⟨settings, doc, registry⟩ node := ⟨h, allowed⟩
      exact (Draft.ready_annotate ready ref declaration).orderly

theorem Orderly.performAll {doc : Document} (h : doc.Orderly) {operations : List Operation}
    (allowed : doc.AllowsAll operations) : (doc.performAll operations).Orderly := by
  induction operations generalizing doc with
  | nil => exact h
  | cons operation rest ih => exact ih (h.perform allowed.1) allowed.2

theorem orderly_empty : Orderly {} where
  nodup := List.nodup_nil
  complete _ := by simp [whole, Forest.ids]
  nodes := trivial

end Document

end LateMarkup
