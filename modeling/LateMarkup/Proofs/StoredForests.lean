import LateMarkup.Proofs.StoredMarkup
import LateMarkup.Proofs.TreeAnnotation

/-!
# Forests and the documents that store them

A forest is easier to reason about than a row of slots, and says as much: a stored document stores
one (`Arena.Stores`) if the slots have what the nodes are and which nodes are in them. What is read
of the two is then the same, and the same operation keeps it so (`Arena.Stores.perform`). As every
run on stored documents starts from the empty one, all that is proved of forests holds of them
(`Arena.performAll?_stores`).
-/

namespace LateMarkup

/-! ## Edits that change what holds of the nodes -/

namespace Forest

variable {P Q : Nat → Label → Forest → Prop} {id : Nat} {change : Label → Forest → Forest}

/-- Where no number occurs twice, nothing is edited in what the edit puts in. -/
theorem All.edit_of_nodup {forest : Forest} (nodup : forest.ids.Nodup) (h : forest.All P)
    (put : ∀ label children, id ∉ children.ids → P id label children → children.All Q →
      (change label children).All Q)
    (keep : ∀ here label children, here ≠ id → children.ids.Nodup → P here label children →
      Q here label (children.edit id change)) : (forest.edit id change).All Q := by
  induction forest with
  | nil => trivial
  | node here label children next ihChildren ihNext =>
      rw [ids, List.nodup_cons, List.mem_append, not_or] at nodup
      obtain ⟨⟨hchildren, hnext⟩, nodup⟩ := nodup
      obtain ⟨nodupChildren, nodupNext, -⟩ := List.nodup_append.mp nodup
      obtain ⟨hhere, below, beside⟩ := h
      have below := ihChildren nodupChildren below
      have beside := ihNext nodupNext beside
      rw [Forest.edit]
      split
      · next heq =>
          subst heq
          rw [edit_of_notMem hchildren] at below
          rw [edit_of_notMem hnext] at beside
          exact all_append.mpr ⟨put label children hchildren hhere below, beside⟩
      · next hne => exact ⟨keep here label children hne nodupChildren hhere, below, beside⟩

/-- Where nothing is to be edited, what holds of the other nodes holds of all. -/
theorem All.of_notMem {forest : Forest} (absent : id ∉ forest.ids)
    (h : forest.All fun here label children => here ≠ id → P here label children) :
    forest.All P := by
  induction forest with
  | nil => trivial
  | node here label children next ihChildren ihNext =>
      rw [ids, List.mem_cons, List.mem_append, not_or, not_or] at absent
      obtain ⟨hhere, below, beside⟩ := h
      exact ⟨hhere (Ne.symm absent.1), ihChildren absent.2.1 below, ihNext absent.2.2 beside⟩

/-- A node that stays where it is leaves the rows as they are. -/
theorem row_edit {forest : Forest} (put : ∀ label children, (change label children).row = [id]) :
    (forest.edit id change).row = forest.row := by
  induction forest with
  | nil => rfl
  | node here label children next _ ih =>
      rw [edit, row]
      split
      · next heq => rw [row_append, put, heq, List.singleton_append]
      · rw [row, ih]

/-- A new node around a node stands where the node stood in its row. -/
theorem row_edit_around {forest : Forest} (nodup : forest.ids.Nodup) {top : Nat} {outer : Label} :
    (forest.edit id fun label children => tree top outer (tree id label children)).row =
      forest.row.map fun x => if x = id then top else x := by
  induction forest with
  | nil => rfl
  | node here label children next _ ih =>
      rw [ids, List.nodup_cons, List.mem_append, not_or] at nodup
      obtain ⟨⟨-, absent⟩, nodup⟩ := nodup
      rw [Forest.edit, row, List.map_cons]
      split
      · next heq =>
          -- The row goes on without the number of the node.
          subst heq
          have others : here ∉ next.row := fun mem => absent (mem_ids_of_mem_row mem)
          rw [NodeData.map_exchange_of_notMem others]
          rfl
      · rw [row, ih (List.nodup_append.mp nodup).2.1]

end Forest

/-- What is in the slot of a node, with the nodes that are in it. -/
def Label.stored : Label → List Nat → NodeData
  | .element tag attributes, children => .element tag attributes children
  | .text content, _ => .text content

namespace Label

variable (label : Label) (children : List Nat)

@[simp] theorem tag_stored : (label.stored children).tag = label.tag := by
  cases label <;> rfl

@[simp] theorem attributes_stored : (label.stored children).attributes = label.attributes := by
  cases label <;> rfl

theorem mapElement_stored (change : Label → Label)
    (stays : ∀ content, change (.text content) = .text content) :
    (label.stored children).mapElement (fun tag attributes children =>
      (change (.element tag attributes)).stored children) = (change label).stored children := by
  cases label with
  | element tag attributes => rfl
  | text content =>
      rw [stays]
      rfl

end Label

namespace Arena

variable {arena after : Arena} {doc : Document} {id : Nat}

/-- A stored document that stores a forest. -/
structure Stores (arena : Arena) (doc : Document) : Prop where
  linked : arena.Linked
  orderly : doc.Orderly
  size : arena.size = doc.size
  roots : arena.roots = doc.rootIds
  slots : doc.whole.All fun id label children => arena.data id = label.stored children.row

/-- A document with the slot of one more node, which is not linked yet. -/
structure More (arena : Arena) (slot : NodeData) (made : Arena) : Prop where
  size : made.size = arena.size + 1
  roots : made.roots = arena.roots
  data : ∀ x, made.data x = if x = arena.size then slot else arena.data x

theorem More.data_size {slot : NodeData} (more : arena.More slot after) :
    after.data arena.size = slot := by
  rw [more.data, if_pos rfl]

theorem More.data_of_lt {slot : NodeData} (more : arena.More slot after) (made : id < arena.size) :
    after.data id = arena.data id := by
  rw [more.data, if_neg (Nat.ne_of_lt made)]

section SetAttributes

variable (arena : Arena) (id : Nat) (attributes : List (String × String))

theorem data_setAttributes (x : Nat) : (arena.setAttributes id attributes).data x =
    if x = id then (arena.data id).mapElement fun tag old children =>
      .element tag (attributes.foldl (fun old (name, value) => Attributes.set name value old) old)
        children
    else arena.data x := by
  induction attributes generalizing arena with
  | nil =>
      show arena.data x = _
      split
      · next heq =>
          rw [heq]
          cases arena.data id <;> rfl
      · rfl
  | cons first rest ih =>
      have step (x : Nat) : (arena.setAttribute id first.1 first.2).data x =
          if x = id then (arena.data id).mapElement fun tag attributes children =>
            .element tag (attributes.set first.1 first.2) children
          else arena.data x := data_mapElement id _ x
      show ((arena.setAttribute id first.1 first.2).setAttributes id rest).data x = _
      rw [ih, step, step, if_pos rfl]
      split
      · cases arena.data id <;> rfl
      · rfl

theorem size_setAttributes : (arena.setAttributes id attributes).size = arena.size := by
  induction attributes generalizing arena with
  | nil => rfl
  | cons first rest ih => exact (ih _).trans (size_mapElement id _)

theorem roots_setAttributes : (arena.setAttributes id attributes).roots = arena.roots := by
  induction attributes generalizing arena with
  | nil => rfl
  | cons first rest ih => exact ih _

end SetAttributes

namespace Stores

theorem empty : Stores {} {} where
  linked := linked_empty
  orderly := Document.orderly_empty
  size := rfl
  roots := rfl
  slots := trivial

/-! ### Reading -/

theorem data (h : arena.Stores doc) (id : Nat) :
    arena.data id = (doc.label id).stored (doc.children id) := by
  unfold Document.children Document.content Document.label
  cases found : doc.find? id with
  | none =>
      have beyond : doc.size ≤ id := by
        by_contra made
        obtain ⟨_, is⟩ := Forest.exists_find?_of_mem
          ((h.orderly.complete id).mpr (Nat.lt_of_not_le made))
        rw [← Document.find?_eq_whole, found] at is
        cases is
      exact data_of_size_le (h.size ▸ beyond)
  | some node =>
      obtain ⟨label, below⟩ := node
      rw [Document.find?_eq_whole] at found
      have slot := (h.slots.of_find? found).1
      cases label with
      | element tag attributes => exact slot
      | text content => exact slot

theorem tag (h : arena.Stores doc) (id : Nat) : arena.tag id = doc.tag id := by
  rw [Arena.tag, h.data, Label.tag_stored, Document.tag]

theorem attributes (h : arena.Stores doc) (id : Nat) :
    arena.attributes id = doc.attributes id := by
  rw [Arena.attributes, h.data, Label.attributes_stored, Document.attributes]

theorem children (h : arena.Stores doc) (id : Nat) : arena.children id = doc.children id := by
  rw [Arena.children, h.data]
  unfold Document.children Document.content Document.label
  cases doc.find? id with
  | none => rfl
  | some node =>
      obtain ⟨label, below⟩ := node
      cases label <;> rfl

/-- The parent in a slot is the one that is found by a search of the forest. -/
theorem parent? (h : arena.Stores doc) (id : Nat) : arena.parent? id = doc.parent? id := by
  ext above
  rw [h.linked.parent, h.children, h.orderly.parent?_iff]

theorem markupOfAll?_row {forest : Forest}
    (slots : forest.All fun id label children => arena.data id = label.stored children.row) :
    arena.markupOfAll? forest.row = some forest.markup := by
  induction forest with
  | nil => rfl
  | node here label children next ihChildren ihNext =>
      obtain ⟨slot, below, beside⟩ := slots
      rw [Forest.row, markupOfAll?_cons, ihNext beside]
      cases label with
      | element tag attributes =>
          rw [markupOf?_of_element slot, ihChildren below, Forest.row_isEmpty]
          rfl
      | text content =>
          rw [markupOf?_of_text slot]
          rfl

theorem markup? (h : arena.Stores doc) : arena.markup? = some doc.markup := by
  rw [Arena.markup?, h.roots]
  exact markupOfAll?_row (Forest.all_append.mp h.slots).1

theorem contentMarkup? (h : arena.Stores doc) (id : Nat) :
    arena.contentMarkup? id = some (doc.contentMarkup id) := by
  rw [Arena.contentMarkup?, h.children]
  exact markupOfAll?_row (Document.all_content h.slots id)

theorem markupOf? (h : arena.Stores doc) (made : id < doc.size) :
    arena.markupOf? id = some (doc.markupOf id) := by
  obtain ⟨⟨label, below⟩, found⟩ := Forest.exists_find?_of_mem (h.orderly.mem_whole made)
  have tree : (Forest.tree id label below).All fun id label children =>
      arena.data id = label.stored children.row :=
    ⟨(h.slots.of_find? found).1, (h.slots.of_find? found).2, trivial⟩
  have written := markupOfAll?_row tree
  rw [← Document.find?_eq_whole] at found
  rw [Document.markupOf, found, ← written, Forest.tree, Forest.row, Forest.row, markupOfAll?_cons,
    markupOfAll?_nil]
  cases arena.markupOf? id <;> simp

theorem isElement_iff (h : arena.Stores doc) : arena.IsElement id ↔ doc.IsElement id := by
  unfold IsElement Document.IsElement
  rw [h.data, Document.label]
  cases doc.find? id with
  | none => simp [Label.stored]
  | some node =>
      obtain ⟨label, below⟩ := node
      cases label <;> simp [Label.stored]

/-! ### Changing a node -/

theorem all_lt_size (h : arena.Stores doc) :
    doc.whole.All fun id _ _ => id < arena.size := by
  refine h.orderly.all_find?.mono fun id label children found => ?_
  rw [Document.find?_eq_whole] at found
  rw [h.size]
  exact (h.orderly.complete id).mp (Forest.mem_ids_of_find? found)

theorem relabel (h : arena.Stores doc) (id : Nat) (change : Label → Label)
    (stays : ∀ content, change (.text content) = .text content)
    (linked : (arena.mapElement id fun tag attributes children =>
      (change (.element tag attributes)).stored children).Linked)
    (orderly : (doc.relabel id change).Orderly) :
    (arena.mapElement id fun tag attributes children =>
      (change (.element tag attributes)).stored children).Stores (doc.relabel id change) where
  linked := linked
  orderly := orderly
  size := (size_mapElement id _).trans h.size
  roots := h.roots.trans (Forest.row_edit fun _ _ => rfl).symm
  slots := by
    rw [Document.relabel, h.orderly.whole_edit]
    refine h.slots.edit_of_nodup h.orderly.nodup ?_ ?_
    · intro label children _ slot below
      refine ⟨?_, below, trivial⟩
      dsimp only
      rw [data_mapElement, if_pos rfl, slot, Label.mapElement_stored _ _ change stays]
    · intro here label children hne _ slot
      rw [data_mapElement, if_neg hne, slot, Forest.row_edit fun _ _ => rfl]

theorem setTag (h : arena.Stores doc) (id : Nat) (tag : String) :
    (arena.setTag id tag).Stores (doc.setTag id tag) :=
  h.relabel id (Label.withTag tag) (fun _ => rfl) (h.linked.setTag id tag) (h.orderly.setTag tag)

theorem mapAttributes (h : arena.Stores doc) (id : Nat) {change : Attributes → Attributes}
    (keeps : ∀ attributes : Attributes, (attributes.map Prod.fst).Nodup →
      ((change attributes).map Prod.fst).Nodup) :
    (arena.mapAttributes id change).Stores (doc.mapAttributes id change) :=
  h.relabel id (Label.mapAttributes change) (fun _ => rfl) (h.linked.mapAttributes id keeps)
    (h.orderly.mapAttributes keeps)

theorem setAttribute (h : arena.Stores doc) (id : Nat) (name value : String) :
    (arena.setAttribute id name value).Stores
      (doc.mapAttributes id (Attributes.set name value)) :=
  h.mapAttributes id fun _ nodup => Attributes.nodup_set nodup name value

theorem removeAttribute (h : arena.Stores doc) (id : Nat) (name : String) :
    (arena.removeAttribute id name).Stores (doc.mapAttributes id (Attributes.remove name)) :=
  h.mapAttributes id fun _ nodup => Attributes.nodup_remove nodup name

/-- What is cut out of an element is stored as before, and so is a text, of which nothing is cut
out. -/
theorem clear (h : arena.Stores doc) (id : Nat) : (arena.clear id).Stores (doc.clear id) where
  linked := h.linked.clear id
  orderly := h.orderly.clear
  size := by rw [size_clear, h.size, Document.size_clear]
  roots := by
    rw [Arena.clear, roots_release]
    unfold Document.clear
    split
    · exact h.roots.trans (Forest.row_edit fun _ _ => rfl).symm
    · exact h.roots
  slots := by
    have others {here : Nat} {slot : NodeData} (hne : here ≠ id) (old : arena.data here = slot) :
        (arena.clear id).data here = slot := by
      rw [data_clear, if_neg hne, old]
    unfold Document.clear
    split
    · next tag attributes below found =>
        show ((doc.roots.edit id _ ++ (doc.detached.edit id _ ++ below) : Forest)).All _
        rw [← Forest.append_assoc, ← Forest.edit_append _ h.orderly.nodup]
        rw [Document.find?_eq_whole] at found
        have self := (h.slots.of_find? found).1
        refine Forest.all_append.mpr ⟨h.slots.edit_of_nodup h.orderly.nodup ?_ ?_, ?_⟩
        · intro label children _ slot rest
          refine ⟨?_, trivial, trivial⟩
          dsimp only
          rw [data_clear, if_pos rfl, slot]
          cases label <;> rfl
        · intro here label children hne _ slot
          rw [Forest.row_edit fun _ _ => rfl]
          exact others hne slot
        · have absent : id ∉ below.ids := by
            have apart : id ∉ (doc.below id).ids := Document.notMem_below h.orderly.nodup
            rwa [Document.below, Document.find?_eq_whole, found] at apart
          refine Forest.All.of_notMem absent ((h.slots.of_find? found).2.mono ?_)
          exact fun here label children slot hne => others hne slot
    · next none =>
        refine (h.slots.and h.orderly.all_find?).mono ?_
        rintro here label children ⟨slot, found⟩
        by_cases heq : here = id
        · subst heq
          rw [data_clear, if_pos rfl, slot]
          cases label with
          | element tag attributes => exact absurd found (none tag attributes children)
          | text content => rfl
        · exact others heq slot

/-! ### Making nodes -/

theorem attachRoot (h : arena.Stores doc) {made : Arena} {label : Label}
    (more : arena.More (label.stored []) made) (linked : (made.attach none arena.size).Linked)
    (orderly : (doc.add none label).Orderly) :
    (made.attach none arena.size).Stores (doc.add none label) where
  linked := linked
  orderly := orderly
  size := (size_setParent _ _).trans (more.size.trans (congrArg (· + 1) h.size))
  roots := by
    show made.roots ++ [arena.size] = (doc.roots ++ Forest.tree doc.size label .nil).row
    rw [Forest.row_append, more.roots, h.roots, h.size]
    rfl
  slots := by
    have same (x : Nat) : (made.attach none arena.size).data x = made.data x :=
      data_setParent _ _ x
    simp only [same]
    have known := h.slots.and h.all_lt_size
    obtain ⟨top, cut⟩ := Forest.all_append.mp known
    have new : made.data doc.size = label.stored [] := h.size ▸ more.data_size
    refine Forest.all_append.mpr ⟨Forest.all_append.mpr ⟨?_, new, trivial, trivial⟩, ?_⟩
    · exact top.mono fun _ _ _ was => (more.data_of_lt was.2).trans was.1
    · exact cut.mono fun _ _ _ was => (more.data_of_lt was.2).trans was.1

theorem attachTo (h : arena.Stores doc) {made : Arena} {label : Label}
    (more : arena.More (label.stored []) made) {above : Nat}
    (linked : (made.attach (some above) arena.size).Linked)
    (orderly : (doc.add (some above) label).Orderly) :
    (made.attach (some above) arena.size).Stores (doc.add (some above) label) where
  linked := linked
  orderly := orderly
  size := by
    show ((made.setParent _ _).mapChildren above _).size = doc.size + 1
    rw [size_mapChildren, size_setParent, more.size, h.size]
  roots := by
    show made.roots = (doc.roots.edit above _).row
    rw [Forest.row_edit fun _ _ => rfl]
    exact more.roots.trans h.roots
  slots := by
    have grown (x : Nat) : (made.attach (some above) arena.size).data x =
        if x = above then (made.data above).mapElement fun tag attributes children =>
          .element tag attributes (children ++ [arena.size])
        else made.data x := by
      show ((made.setParent _ _).mapElement above _).data x = _
      rw [data_mapElement, data_setParent, data_setParent]
    show (doc.edit above _).whole.All _
    rw [h.orderly.whole_edit]
    refine (h.slots.and h.all_lt_size).edit_of_nodup h.orderly.nodup ?_ ?_
    · rintro here below - ⟨was, lt⟩ rest
      refine ⟨?_, Forest.all_append.mpr ⟨rest, ?_, trivial, trivial⟩, trivial⟩
      · dsimp only
        rw [grown, if_pos rfl, more.data_of_lt lt, was, Forest.row_append, h.size]
        cases here <;> rfl
      · dsimp only
        rw [grown, if_neg (h.size ▸ Nat.ne_of_gt lt), ← h.size, more.data_size]
        rfl
    · rintro here label below hne - ⟨was, lt⟩
      rw [grown, if_neg hne, Forest.row_edit fun _ _ => rfl, more.data_of_lt lt, was]

/-- A new node is stored where the forest has it. -/
theorem attach (h : arena.Stores doc) {made : Arena} {label : Label}
    (more : arena.More (label.stored []) made) {parent : Option Nat}
    (linked : (made.attach parent arena.size).Linked) (orderly : (doc.add parent label).Orderly) :
    (made.attach parent arena.size).Stores (doc.add parent label) := by
  cases parent with
  | none => exact h.attachRoot more linked orderly
  | some above => exact h.attachTo more linked orderly

theorem addElement (h : arena.Stores doc) {parent : Option Nat}
    (under : ∀ above ∈ parent, doc.IsElement above) (tag : String)
    (attributes : List (String × String)) :
    (arena.addElement parent tag attributes).Stores (doc.addElement parent tag attributes) := by
  have linked := h.linked.addElement (fun above mem => h.isElement_iff.mpr (under above mem)) tag
    attributes
  have orderly : (doc.addElement parent tag attributes).Orderly := by
    cases parent with
    | none => exact h.orderly.addRoot (Attributes.nodup_ofList attributes)
    | some above => exact h.orderly.addTo (under above rfl) (Attributes.nodup_ofList attributes)
  have more : arena.More ((Label.element tag (Attributes.ofList attributes)).stored [])
      ((arena.push (.element tag [] [])).setAttributes arena.size attributes) := by
    refine ⟨?_, roots_setAttributes _ _ _, fun x => ?_⟩
    · rw [size_setAttributes, size_push]
    · rw [data_setAttributes, data_push, data_push, if_pos rfl]
      split <;> rfl
  exact h.attach more linked orderly

theorem addText (h : arena.Stores doc) {parent : Nat} (under : doc.IsElement parent)
    (content : String) : (arena.addText parent content).Stores (doc.addText parent content) := by
  have linked := h.linked.addText (h.isElement_iff.mpr under) content
  have orderly : (doc.addText parent content).Orderly := h.orderly.addTo under List.nodup_nil
  have more : arena.More ((Label.text content).stored []) (arena.push (.text content)) :=
    ⟨size_push _, rfl, data_push _⟩
  exact h.attach more linked orderly

/-- The slot that is found through the stored parent is the place that the forest edits. -/
theorem wrap (h : arena.Stores doc) (made : id < doc.size) (tag : String) :
    (arena.wrap id tag).Stores (doc.wrap id tag) where
  linked := h.linked.wrap (h.size ▸ made) tag
  orderly := h.orderly.wrap made tag
  size := by
    rw [size_wrap, h.size]
    rfl
  roots := by
    rw [h.linked.roots_wrap, h.roots, h.size]
    exact (Forest.row_edit_around (Document.nodup_roots h.orderly.nodup)).symm
  slots := by
    show (doc.edit id _).whole.All _
    rw [h.orderly.whole_edit]
    refine (h.slots.and h.all_lt_size).edit_of_nodup h.orderly.nodup ?_ ?_
    · rintro label children absent ⟨slot, lt⟩ rest
      refine ⟨?_, ⟨?_, rest, trivial⟩, trivial⟩
      · dsimp only
        rw [h.linked.data_wrap, h.size, if_pos rfl]
        rfl
      · dsimp only
        rw [h.linked.data_wrap, if_neg (Nat.ne_of_lt lt), slot]
        apply NodeData.exchange_of_notMem
        cases label with
        | element tag attributes => exact fun mem => absent (Forest.mem_ids_of_mem_row mem)
        | text content => exact List.not_mem_nil
    · rintro here label children hne nodup ⟨slot, lt⟩
      rw [h.linked.data_wrap, if_neg (Nat.ne_of_lt lt), slot, Forest.row_edit_around nodup, h.size]
      cases label <;> rfl

end Stores

end Arena

end LateMarkup
