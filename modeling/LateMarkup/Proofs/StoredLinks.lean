import Mathlib.Data.List.Nodup
import LateMarkup.MarkupTree
import LateMarkup.Proofs.Operations

/-!
# The links of stored documents

A stored document names every link twice, and nothing in its type makes the two sides agree. What
makes them agree is that every operation restores them: `Arena.Linked` says that they agree, and
there is one lemma for each operation that keeps it. Wrapping puts a newer node above an older one,
and emptying cuts out nodes that may later be wrapped or filled, so the numbers of the nodes say
nothing about who is above whom. That going down ends is part of the invariant.
-/

namespace LateMarkup

/-! ## Exchanging a node in a list -/

namespace NodeData

variable {list : List Nat} {data : NodeData} {old : Nat}

theorem map_exchange_of_notMem (absent : old ∉ list) (new : Nat) :
    (list.map fun x => if x = old then new else x) = list := by
  rw [List.map_congr_left fun x mem => if_neg fun heq : x = old => absent (heq ▸ mem),
    List.map_id']

/-- In a list that has nothing twice it does not matter that only the first one is exchanged. -/
theorem replace_of_nodup (nodup : list.Nodup) (old new : Nat) :
    list.replace old new = list.map fun x => if x = old then new else x := by
  induction list with
  | nil => rfl
  | cons first rest ih =>
      obtain ⟨fresh, nodup⟩ := List.nodup_cons.mp nodup
      rw [List.replace_cons, List.map_cons]
      by_cases heq : first = old
      · subst heq
        rw [map_exchange_of_notMem fresh]
        simp
      · have hne : (old == first) = false := beq_eq_false_iff_ne.mpr (Ne.symm heq)
        simp [hne, heq, ih nodup]

theorem mem_map_exchange {new x : Nat} :
    (x ∈ list.map fun x => if x = old then new else x) ↔
      x = new ∧ old ∈ list ∨ x ≠ old ∧ x ∈ list := by
  rw [List.mem_map]
  constructor
  · rintro ⟨y, mem, rfl⟩
    by_cases heq : y = old
    · exact Or.inl ⟨if_pos heq, heq ▸ mem⟩
    · rw [if_neg heq]
      exact Or.inr ⟨heq, mem⟩
  · rintro (⟨rfl, mem⟩ | ⟨hne, mem⟩)
    · exact ⟨old, mem, if_pos rfl⟩
    · exact ⟨x, mem, if_neg hne⟩

theorem nodup_map_exchange {new : Nat} (nodup : list.Nodup) (fresh : new ∉ list) :
    (list.map fun x => if x = old then new else x).Nodup := by
  refine List.Nodup.map_on (fun x hx y hy same => ?_) nodup
  by_cases hxo : x = old <;> by_cases hyo : y = old <;>
    simp only [hxo, hyo, if_true, if_false] at same ⊢
  · exact absurd (same ▸ hy) fresh
  · exact absurd (same ▸ hx) fresh
  · exact same


/-- Puts another node in the place of one. -/
def exchange (old new : Nat) (data : NodeData) : NodeData :=
  data.mapElement fun tag attributes children =>
    .element tag attributes (children.map fun x => if x = old then new else x)

theorem exchange_of_notMem (absent : old ∉ data.children) (new : Nat) :
    data.exchange old new = data := by
  cases data with
  | element tag attributes children =>
      exact congrArg (element tag attributes) (map_exchange_of_notMem absent new)
  | text content => rfl

theorem exchange_eq_replace (nodup : data.children.Nodup) (new : Nat) :
    data.exchange old new = data.mapElement fun tag attributes children =>
      .element tag attributes (children.replace old new) := by
  cases data with
  | element tag attributes children =>
      exact congrArg (element tag attributes) (replace_of_nodup nodup old new).symm
  | text content => rfl

theorem children_exchange (old new : Nat) (data : NodeData) :
    (data.exchange old new).children =
      data.children.map fun x => if x = old then new else x := by
  cases data <;> rfl

theorem attributes_exchange (old new : Nat) (data : NodeData) :
    (data.exchange old new).attributes = data.attributes := by
  cases data <;> rfl

end NodeData

namespace Arena

variable {arena after : Arena} {id x : Nat}

/-! ## Slots after a change -/

@[simp] theorem size_push (data : NodeData) : (arena.push data).size = arena.size + 1 := by
  simp [push, size]

@[simp] theorem size_setParent (id : Nat) (parent : Option Nat) :
    (arena.setParent id parent).size = arena.size := by
  simp [setParent, size]

@[simp] theorem size_mapElement (id : Nat)
    (change : String → Attributes → List Nat → NodeData) :
    (arena.mapElement id change).size = arena.size := by
  simp [mapElement, size]

theorem data_push (data : NodeData) (x : Nat) :
    (arena.push data).data x = if x = arena.size then data else arena.data x := by
  by_cases heq : x = arena.size
  · subst heq
    simp [push, Arena.data, size]
  · rw [if_neg heq, Arena.data, Arena.data, push]
    rcases Nat.lt_or_gt_of_ne heq with before | behind
    · rw [List.getElem?_append_left before]
    · have beyond : arena.slots.length < x := behind
      rw [List.getElem?_eq_none (by simp; omega), List.getElem?_eq_none (by omega)]

@[simp] theorem data_setParent (id : Nat) (parent : Option Nat) (x : Nat) :
    (arena.setParent id parent).data x = arena.data x := by
  simp only [setParent, data, List.getElem?_modify]
  cases arena.slots[x]? with
  | none => rfl
  | some slot => by_cases heq : id = x <;> simp [heq]

theorem data_mapElement (id : Nat) (change : String → Attributes → List Nat → NodeData) (x : Nat) :
    (arena.mapElement id change).data x =
      if x = id then (arena.data id).mapElement change else arena.data x := by
  simp only [mapElement, data, List.getElem?_modify]
  by_cases heq : x = id
  · subst heq
    cases arena.slots[x]? <;> simp [NodeData.mapElement]
  · simp only [if_neg heq, if_neg (Ne.symm heq)]
    cases arena.slots[x]? <;> rfl

@[simp] theorem parent?_push (data : NodeData) (x : Nat) :
    (arena.push data).parent? x = arena.parent? x := by
  simp only [push, parent?]
  rcases Nat.lt_trichotomy x arena.slots.length with before | rfl | behind
  · rw [List.getElem?_append_left before]
  · simp
  · rw [List.getElem?_eq_none (by simp; omega), List.getElem?_eq_none (by omega)]

theorem parent?_setParent (made : id < arena.size) (parent : Option Nat) (x : Nat) :
    (arena.setParent id parent).parent? x = if x = id then parent else arena.parent? x := by
  simp only [setParent, parent?, List.getElem?_modify]
  by_cases heq : x = id
  · subst heq
    simp [List.getElem?_eq_getElem (show x < arena.slots.length from made)]
  · simp only [if_neg heq, if_neg (Ne.symm heq)]
    cases arena.slots[x]? <;> rfl

@[simp] theorem parent?_mapElement (id : Nat)
    (change : String → Attributes → List Nat → NodeData) (x : Nat) :
    (arena.mapElement id change).parent? x = arena.parent? x := by
  simp only [mapElement, parent?, List.getElem?_modify]
  cases arena.slots[x]? with
  | none => rfl
  | some slot => by_cases heq : id = x <;> simp [heq]

theorem data_of_size_le (beyond : arena.size ≤ x) : arena.data x = .text "" := by
  rw [data, List.getElem?_eq_none beyond]

theorem parent?_of_size_le (beyond : arena.size ≤ x) : arena.parent? x = none := by
  rw [parent?, List.getElem?_eq_none beyond]
  rfl

theorem children_of_size_le (beyond : arena.size ≤ x) : arena.children x = [] := by
  rw [children, data_of_size_le beyond]
  rfl

theorem lt_size_of_parent? {above : Nat} (h : arena.parent? id = some above) :
    id < arena.size := by
  by_contra beyond
  rw [parent?_of_size_le (Nat.le_of_not_lt beyond)] at h
  cases h

/-! ## Linked documents -/

/-- The two sides of every link agree, no list has a node twice, and going down ends. -/
structure Linked (arena : Arena) : Prop where
  roots : arena.roots.Nodup
  children : ∀ id, (arena.children id).Nodup
  root : ∀ id ∈ arena.roots, id < arena.size ∧ arena.parent? id = none
  parent : ∀ {child above}, arena.parent? child = some above ↔ child ∈ arena.children above
  descent : WellFounded fun child above => child ∈ arena.children above
  names : ∀ id, ((arena.attributes id).map Prod.fst).Nodup

theorem Linked.lt_size (h : arena.Linked) {above : Nat} (mem : id ∈ arena.children above) :
    id < arena.size :=
  lt_size_of_parent? (h.parent.mpr mem)

theorem Linked.unique (h : arena.Linked) {one other : Nat} (hone : id ∈ arena.children one)
    (hother : id ∈ arena.children other) : one = other :=
  Option.some.inj ((h.parent.mpr hone).symm.trans (h.parent.mpr hother))

theorem linked_empty : Linked {} where
  roots := List.nodup_nil
  children _ := List.nodup_nil
  root _ := nofun
  parent := ⟨nofun, nofun⟩
  descent := ⟨fun _ => ⟨_, fun _ => nofun⟩⟩
  names _ := List.nodup_nil

/-! ### Changing a node -/

theorem Linked.of_same (h : arena.Linked) (size : after.size = arena.size)
    (roots : after.roots = arena.roots) (children : ∀ id, after.children id = arena.children id)
    (parents : ∀ id, after.parent? id = arena.parent? id)
    (names : ∀ id, ((after.attributes id).map Prod.fst).Nodup) : after.Linked where
  roots := roots ▸ h.roots
  children id := children id ▸ h.children id
  root := by
    intro id mem
    rw [size, parents]
    exact h.root id (roots ▸ mem)
  parent := by
    intro child above
    rw [parents, children]
    exact h.parent
  descent := by
    simp only [children]
    exact h.descent
  names := names

theorem children_mapElement (id : Nat) {change : String → Attributes → List Nat → NodeData}
    (same : ∀ tag attributes children, (change tag attributes children).children = children)
    (x : Nat) : (arena.mapElement id change).children x = arena.children x := by
  rw [children, children, data_mapElement]
  by_cases heq : x = id
  · subst heq
    rw [if_pos rfl]
    cases arena.data x with
    | element tag attributes children => exact same tag attributes children
    | text content => rfl
  · rw [if_neg heq]

theorem attributes_mapElement (id : Nat) {change : String → Attributes → List Nat → NodeData}
    (same : ∀ tag attributes children, (change tag attributes children).attributes = attributes)
    (x : Nat) : (arena.mapElement id change).attributes x = arena.attributes x := by
  rw [attributes, attributes, data_mapElement]
  by_cases heq : x = id
  · subst heq
    rw [if_pos rfl]
    cases arena.data x with
    | element tag attributes children => exact same tag attributes children
    | text content => rfl
  · rw [if_neg heq]

theorem attributes_mapAttributes (arena : Arena) (id : Nat) (change : Attributes → Attributes)
    (x : Nat) :
    (arena.mapAttributes id change).attributes x = arena.attributes x ∨
      (arena.mapAttributes id change).attributes x = change (arena.attributes x) := by
  rw [attributes, attributes, mapAttributes, data_mapElement]
  by_cases heq : x = id
  · subst heq
    rw [if_pos rfl]
    cases arena.data x with
    | element tag attributes children => exact Or.inr rfl
    | text content => exact Or.inl rfl
  · rw [if_neg heq]
    exact Or.inl rfl

theorem Linked.setTag (h : arena.Linked) (id : Nat) (tag : String) :
    (arena.setTag id tag).Linked := by
  refine h.of_same (size_mapElement id _) rfl (children_mapElement id fun _ _ _ => rfl)
    (parent?_mapElement id _) fun x => ?_
  rw [Arena.setTag, attributes_mapElement id fun _ _ _ => rfl]
  exact h.names x

theorem Linked.mapAttributes (h : arena.Linked) (id : Nat) {change : Attributes → Attributes}
    (keeps : ∀ attributes : Attributes, (attributes.map Prod.fst).Nodup →
      ((change attributes).map Prod.fst).Nodup) : (arena.mapAttributes id change).Linked := by
  refine h.of_same (size_mapElement id _) rfl (children_mapElement id fun _ _ _ => rfl)
    (parent?_mapElement id _) fun x => ?_
  rcases attributes_mapAttributes arena id change x with same | changed
  · rw [same]
    exact h.names x
  · rw [changed]
    exact keeps _ (h.names x)

theorem Linked.setAttribute (h : arena.Linked) (id : Nat) (name value : String) :
    (arena.setAttribute id name value).Linked :=
  h.mapAttributes id fun _ nodup => Attributes.nodup_set nodup name value

theorem Linked.removeAttribute (h : arena.Linked) (id : Nat) (name : String) :
    (arena.removeAttribute id name).Linked :=
  h.mapAttributes id fun _ nodup => Attributes.nodup_remove nodup name

/-! ### Making nodes -/

def IsElement (arena : Arena) (id : Nat) : Prop :=
  ∃ tag attributes children, arena.data id = .element tag attributes children

theorem IsElement.lt_size (h : arena.IsElement id) : id < arena.size := by
  by_contra beyond
  obtain ⟨tag, attributes, children, found⟩ := h
  rw [data_of_size_le (Nat.le_of_not_lt beyond)] at found
  cases found

theorem isElement_of_mem_children {child : Nat} (mem : child ∈ arena.children id) :
    arena.IsElement id := by
  unfold Arena.children at mem
  unfold IsElement
  cases h : arena.data id with
  | element tag attributes children => exact ⟨tag, attributes, children, rfl⟩
  | text content =>
      rw [h] at mem
      cases mem

/-- A change of the list in an element. A text has no list that could change. -/
theorem children_mapChildren (id : Nat) {change : List Nat → List Nat}
    (element : arena.IsElement id ∨ change [] = []) (x : Nat) :
    (arena.mapChildren id change).children x =
      if x = id then change (arena.children id) else arena.children x := by
  rw [children, mapChildren, data_mapElement]
  by_cases heq : x = id
  · rw [if_pos heq, if_pos heq]
    rcases element with ⟨tag, attributes, inside, found⟩ | empty
    · rw [children, found]
      rfl
    · rw [children]
      cases arena.data id with
      | element tag attributes inside => rfl
      | text content => exact empty.symm
  · rw [if_neg heq, if_neg heq]
    rfl

@[simp] theorem size_mapChildren (id : Nat) (change : List Nat → List Nat) :
    (arena.mapChildren id change).size = arena.size :=
  size_mapElement id _

@[simp] theorem parent?_mapChildren (id : Nat) (change : List Nat → List Nat) (x : Nat) :
    (arena.mapChildren id change).parent? x = arena.parent? x :=
  parent?_mapElement id _ x

@[simp] theorem attributes_mapChildren (id : Nat) (change : List Nat → List Nat) (x : Nat) :
    (arena.mapChildren id change).attributes x = arena.attributes x :=
  attributes_mapElement id (fun _ _ _ => rfl) x

@[simp] theorem children_setParent (id : Nat) (parent : Option Nat) (x : Nat) :
    (arena.setParent id parent).children x = arena.children x := by
  rw [children, data_setParent, children]

@[simp] theorem attributes_setParent (id : Nat) (parent : Option Nat) (x : Nat) :
    (arena.setParent id parent).attributes x = arena.attributes x := by
  rw [attributes, data_setParent, attributes]

theorem IsElement.setParent (h : arena.IsElement x) (id : Nat) (parent : Option Nat) :
    (arena.setParent id parent).IsElement x := by
  rw [IsElement, data_setParent]
  exact h

theorem children_push (data : NodeData) (x : Nat) :
    (arena.push data).children x = if x = arena.size then data.children else arena.children x := by
  rw [children, children, data_push, apply_ite NodeData.children]

theorem attributes_push (data : NodeData) (x : Nat) : (arena.push data).attributes x =
    if x = arena.size then data.attributes else arena.attributes x := by
  rw [attributes, attributes, data_push, apply_ite NodeData.attributes]

/-- A node that is in no list and has nothing in it, in a document that is otherwise linked. -/
structure Loose (arena : Arena) (id : Nat) : Prop where
  linked : arena.Linked
  made : id < arena.size
  parent : arena.parent? id = none
  unlisted : id ∉ arena.roots
  empty : arena.children id = []

theorem children_push_of_empty {data : NodeData} (empty : data.children = []) (x : Nat) :
    (arena.push data).children x = arena.children x := by
  rw [children_push, empty]
  split
  · next heq => rw [children_of_size_le (Nat.le_of_eq heq.symm)]
  · rfl

theorem Linked.push (h : arena.Linked) {data : NodeData} (empty : data.children = [])
    (names : (data.attributes.map Prod.fst).Nodup) : (arena.push data).Linked where
  roots := h.roots
  children := by
    simp only [children_push_of_empty empty]
    exact h.children
  root := by
    intro id mem
    rw [size_push, parent?_push]
    exact ⟨Nat.lt_succ_of_lt (h.root id mem).1, (h.root id mem).2⟩
  parent := by
    simp only [parent?_push, children_push_of_empty empty]
    exact h.parent
  descent := by
    simp only [children_push_of_empty empty]
    exact h.descent
  names := by
    intro id
    rw [attributes_push]
    split
    · exact names
    · exact h.names id

theorem Linked.loose_push (h : arena.Linked) {data : NodeData} (empty : data.children = [])
    (names : (data.attributes.map Prod.fst).Nodup) : (arena.push data).Loose arena.size where
  linked := h.push empty names
  made := by
    rw [size_push]
    exact Nat.lt_succ_self _
  parent := by
    rw [parent?_push, parent?_of_size_le (Nat.le_refl _)]
  unlisted := fun mem => Nat.lt_irrefl _ (h.root _ mem).1
  empty := by
    rw [children_push_of_empty empty, children_of_size_le (Nat.le_refl _)]

theorem Loose.setAttribute (h : arena.Loose id) (name value : String) :
    (arena.setAttribute id name value).Loose id where
  linked := h.linked.setAttribute id name value
  made := by
    rw [Arena.setAttribute, Arena.mapAttributes, size_mapElement]
    exact h.made
  parent := by
    rw [Arena.setAttribute, Arena.mapAttributes, parent?_mapElement]
    exact h.parent
  unlisted := h.unlisted
  empty := by
    rw [Arena.setAttribute, Arena.mapAttributes, children_mapElement id fun _ _ _ => rfl]
    exact h.empty

theorem Loose.notMem_children (h : arena.Loose id) (x : Nat) : id ∉ arena.children x := by
  intro mem
  have parent := h.linked.parent.mpr mem
  rw [h.parent] at parent
  cases parent

theorem parent?_attachRoot (h : arena.Loose id) (x : Nat) :
    (arena.attach none id).parent? x = arena.parent? x := by
  show (arena.setParent id none).parent? x = _
  rw [parent?_setParent h.made]
  split
  · next heq => rw [heq, h.parent]
  · rfl

theorem children_attachRoot (x : Nat) :
    (arena.attach none id).children x = arena.children x :=
  children_setParent id none x

theorem Loose.attachRoot (h : arena.Loose id) : (arena.attach none id).Linked where
  roots := by
    show (arena.roots ++ [id]).Nodup
    exact List.nodup_append_comm.mp (List.nodup_cons.mpr ⟨h.unlisted, h.linked.roots⟩)
  children := by
    simp only [children_attachRoot]
    exact h.linked.children
  root := by
    intro x mem
    rw [parent?_attachRoot h]
    show x < (arena.setParent id none).size ∧ _
    rw [size_setParent]
    rcases List.mem_append.mp mem with old | new
    · exact h.linked.root x old
    · rw [List.mem_singleton.mp new]
      exact ⟨h.made, h.parent⟩
  parent := by
    simp only [parent?_attachRoot h, children_attachRoot]
    exact h.linked.parent
  descent := by
    simp only [children_attachRoot]
    exact h.linked.descent
  names := by
    intro x
    show (((arena.setParent id none).attributes x).map Prod.fst).Nodup
    rw [attributes_setParent]
    exact h.linked.names x

section AttachTo

variable {above : Nat} (under : arena.IsElement above)

theorem parent?_attachTo (made : id < arena.size) (x : Nat) :
    (arena.attach (some above) id).parent? x =
      if x = id then some above else arena.parent? x := by
  show ((arena.setParent id (some above)).mapChildren above (· ++ [id])).parent? x = _
  rw [parent?_mapChildren, parent?_setParent made]

include under

theorem children_attachTo (x : Nat) :
    (arena.attach (some above) id).children x =
      if x = above then arena.children above ++ [id] else arena.children x := by
  show ((arena.setParent id (some above)).mapChildren above (· ++ [id])).children x = _
  rw [children_mapChildren above (Or.inl (under.setParent id _)), children_setParent,
    children_setParent]

/-- The node has nothing in it, so whoever goes down to it is at an end. -/
theorem Loose.descent_attachTo (h : arena.Loose id) (other : above ≠ id) :
    WellFounded fun child top => child ∈ (arena.attach (some above) id).children top := by
  have bottom : Acc (fun child top => child ∈ (arena.attach (some above) id).children top) id := by
    refine ⟨_, fun child mem => ?_⟩
    rw [children_attachTo under, if_neg (Ne.symm other), h.empty] at mem
    cases mem
  refine ⟨fun x => h.linked.descent.induction x fun x ih => ⟨_, fun child mem => ?_⟩⟩
  rw [children_attachTo under] at mem
  split at mem
  · next heq =>
      rw [List.mem_append, List.mem_singleton] at mem
      rcases mem with old | rfl
      · exact ih child (heq ▸ old)
      · exact bottom
  · exact ih child mem

theorem Loose.attachTo (h : arena.Loose id) (other : above ≠ id) :
    (arena.attach (some above) id).Linked where
  roots := h.linked.roots
  children := by
    intro x
    rw [children_attachTo under]
    split
    · exact List.nodup_append_comm.mp
        (List.nodup_cons.mpr ⟨h.notMem_children above, h.linked.children above⟩)
    · exact h.linked.children x
  root := by
    intro x mem
    have hne : x ≠ id := by
      rintro rfl
      exact h.unlisted mem
    rw [parent?_attachTo h.made, if_neg hne]
    show x < ((arena.setParent id (some above)).mapChildren above (· ++ [id])).size ∧ _
    rw [size_mapChildren, size_setParent]
    exact h.linked.root x mem
  parent := by
    intro child top
    rw [parent?_attachTo h.made, children_attachTo under]
    by_cases hchild : child = id
    · by_cases htop : top = above
      · simp [hchild, htop]
      · simp [hchild, htop, Ne.symm htop, h.notMem_children top]
    · rw [if_neg hchild, h.linked.parent]
      by_cases htop : top = above
      · simp [htop, hchild]
      · simp [htop]
  descent := h.descent_attachTo under other
  names := by
    intro x
    show (((arena.setParent id (some above)).mapChildren above _).attributes x |>.map
      Prod.fst).Nodup
    rw [attributes_mapChildren, attributes_setParent]
    exact h.linked.names x

end AttachTo

/-- Links after a loose node has got a place: it is in one list, and its slot names the node that
has this list. -/
theorem Loose.attach (h : arena.Loose id) {parent : Option Nat}
    (under : ∀ above ∈ parent, arena.IsElement above ∧ above ≠ id) :
    (arena.attach parent id).Linked := by
  cases parent with
  | none => exact h.attachRoot
  | some above => exact h.attachTo (under above rfl).1 (under above rfl).2

theorem IsElement.push (h : arena.IsElement x) (data : NodeData) :
    (arena.push data).IsElement x := by
  rw [IsElement, data_push, if_neg (Nat.ne_of_lt h.lt_size)]
  exact h

theorem IsElement.setAttribute (h : arena.IsElement x) (id : Nat) (name value : String) :
    (arena.setAttribute id name value).IsElement x := by
  obtain ⟨tag, attributes, children, found⟩ := h
  rw [IsElement, Arena.setAttribute, Arena.mapAttributes, data_mapElement]
  split
  · next heq =>
      rw [← heq, found]
      exact ⟨_, _, _, rfl⟩
  · exact ⟨tag, attributes, children, found⟩

theorem Linked.addElement (h : arena.Linked) {parent : Option Nat}
    (under : ∀ above ∈ parent, arena.IsElement above) (tag : String)
    (attributes : List (String × String)) : (arena.addElement parent tag attributes).Linked := by
  have start : (arena.push (.element tag [] [])).Loose arena.size := h.loose_push rfl List.nodup_nil
  have elements : ∀ above ∈ parent, (arena.push (.element tag [] [])).IsElement above :=
    fun above mem => (under above mem).push _
  have others : ∀ above ∈ parent, above ≠ arena.size :=
    fun above mem => Nat.ne_of_lt (under above mem).lt_size
  show (((arena.push (.element tag [] [])).setAttributes arena.size attributes).attach parent
    arena.size).Linked
  generalize arena.push (.element tag [] []) = made at start elements
  induction attributes generalizing made with
  | nil => exact start.attach fun above mem => ⟨elements above mem, others above mem⟩
  | cons first rest ih =>
      exact ih _ (start.setAttribute first.1 first.2) fun above mem =>
        (elements above mem).setAttribute _ _ _

theorem Linked.addText (h : arena.Linked) {parent : Nat} (under : arena.IsElement parent)
    (content : String) : (arena.addText parent content).Linked := by
  have start : (arena.push (.text content)).Loose arena.size := h.loose_push rfl List.nodup_nil
  exact start.attachTo (under.push _) (Nat.ne_of_lt under.lt_size)

/-! ### Cutting out -/

@[simp] theorem size_release (ids : List Nat) : (arena.release ids).size = arena.size := by
  induction ids generalizing arena with
  | nil => rfl
  | cons id rest ih => exact ih.trans (size_setParent id none)

@[simp] theorem data_release (ids : List Nat) (x : Nat) :
    (arena.release ids).data x = arena.data x := by
  induction ids generalizing arena with
  | nil => rfl
  | cons id rest ih => exact ih.trans (data_setParent id none x)

@[simp] theorem roots_release (ids : List Nat) : (arena.release ids).roots = arena.roots := by
  induction ids generalizing arena with
  | nil => rfl
  | cons id rest ih => exact ih

theorem parent?_release {ids : List Nat} (made : ∀ id ∈ ids, id < arena.size) (x : Nat) :
    (arena.release ids).parent? x = if x ∈ ids then none else arena.parent? x := by
  induction ids generalizing arena with
  | nil => rfl
  | cons id rest ih =>
      obtain ⟨hid, hrest⟩ := List.forall_mem_cons.mp made
      show ((arena.setParent id none).release rest).parent? x = _
      rw [ih (by simpa using hrest), parent?_setParent hid]
      by_cases here : x = id <;> by_cases later : x ∈ rest <;> simp [here, later]

theorem data_clear (id x : Nat) : (arena.clear id).data x =
    if x = id then (arena.data id).mapElement fun tag attributes _ => .element tag attributes []
    else arena.data x := by
  rw [clear, data_release]
  exact data_mapElement id _ x

theorem children_clear (id x : Nat) :
    (arena.clear id).children x = if x = id then [] else arena.children x := by
  rw [Arena.children, clear, data_release]
  exact children_mapChildren id (Or.inr rfl) x

@[simp] theorem size_clear (id : Nat) : (arena.clear id).size = arena.size := by
  rw [clear, size_release, size_mapChildren]

@[simp] theorem attributes_clear (id x : Nat) :
    (arena.clear id).attributes x = arena.attributes x := by
  rw [Arena.attributes, clear, data_release]
  exact attributes_mapChildren id _ x

theorem Linked.parent?_clear (h : arena.Linked) (id x : Nat) : (arena.clear id).parent? x =
    if x ∈ arena.children id then none else arena.parent? x := by
  have made : ∀ child ∈ arena.children id,
      child < (arena.mapChildren id fun _ => []).size := by
    intro child mem
    rw [size_mapChildren]
    exact h.lt_size mem
  rw [Arena.clear, parent?_release made, parent?_mapChildren]

/-- Emptying a node cuts the links in it, and going down ends all the sooner. -/
theorem Linked.clear (h : arena.Linked) (id : Nat) : (arena.clear id).Linked where
  roots := by
    rw [Arena.clear, roots_release]
    exact h.roots
  children x := by
    rw [children_clear]
    split
    · exact List.nodup_nil
    · exact h.children x
  root x mem := by
    rw [Arena.clear, roots_release] at mem
    rw [size_clear, h.parent?_clear]
    obtain ⟨made, top⟩ := h.root x mem
    exact ⟨made, by rw [top, ite_self]⟩
  parent := by
    intro child above
    rw [h.parent?_clear, children_clear]
    by_cases inside : child ∈ arena.children id
    · rw [if_pos inside]
      constructor
      · intro parent
        cases parent
      · intro mem
        split at mem
        · cases mem
        · next hne => exact absurd (h.unique mem inside) hne
    · rw [if_neg inside, h.parent]
      by_cases heq : above = id
      · simp [heq, inside]
      · simp [heq]
  descent := by
    refine Subrelation.wf (fun {child above} mem => ?_) h.descent
    rw [children_clear] at mem
    split at mem
    · cases mem
    · exact mem
  names x := by
    rw [attributes_clear]
    exact h.names x

/-! ### Wrapping -/

@[simp] theorem size_wrap (id : Nat) (tag : String) :
    (arena.wrap id tag).size = arena.size + 1 := by
  unfold wrap
  cases arena.parent? id with
  | none => exact (size_setParent _ _).trans ((size_setParent _ _).trans (size_push _))
  | some above =>
      rw [size_mapChildren, size_setParent, size_setParent, size_push]

theorem parent?_wrap (made : id < arena.size) (tag : String) (x : Nat) :
    (arena.wrap id tag).parent? x =
      if x = id then some arena.size
      else if x = arena.size then arena.parent? id
      else arena.parent? x := by
  have links : (((arena.push (.element tag [] [id])).setParent arena.size
      (arena.parent? id)).setParent id (some arena.size)).parent? x =
        if x = id then some arena.size
        else if x = arena.size then arena.parent? id
        else arena.parent? x := by
    rw [parent?_setParent, parent?_setParent, parent?_push]
    · rw [size_push]
      exact Nat.lt_succ_self _
    · rw [size_setParent, size_push]
      exact Nat.lt_succ_of_lt made
  rw [← links]
  unfold wrap
  cases arena.parent? id with
  | none => rfl
  | some above => exact parent?_mapChildren _ _ _

namespace Linked

variable (h : arena.Linked) (made : id < arena.size) (tag : String)

include h

theorem size_notMem_children (x : Nat) : arena.size ∉ arena.children x :=
  fun mem => Nat.lt_irrefl _ (h.lt_size mem)

theorem size_notMem_roots : arena.size ∉ arena.roots :=
  fun mem => Nat.lt_irrefl _ (h.root _ mem).1

/-- The list of the node above is the only one in which the new element is put. -/
theorem data_wrap (x : Nat) : (arena.wrap id tag).data x =
    if x = arena.size then .element tag [] [id] else (arena.data x).exchange id arena.size := by
  unfold wrap
  cases parent : arena.parent? id with
  | none =>
      show (((arena.push (.element tag [] [id])).setParent _ _).setParent _ _).data x = _
      rw [data_setParent, data_setParent, data_push]
      split
      · rfl
      · refine (NodeData.exchange_of_notMem (fun mem => ?_) arena.size).symm
        rw [h.parent.mpr mem] at parent
        cases parent
  | some above =>
      have inside := h.parent.mp parent
      have hsize : above ≠ arena.size := Nat.ne_of_lt (isElement_of_mem_children inside).lt_size
      dsimp only
      rw [mapChildren, data_mapElement, data_setParent, data_setParent, data_setParent,
        data_setParent, data_push, data_push, if_neg hsize]
      by_cases hx : x = above
      · rw [if_pos hx, if_neg (hx ▸ hsize), hx]
        exact (NodeData.exchange_eq_replace (h.children above) arena.size).symm
      · rw [if_neg hx]
        split
        · rfl
        · exact (NodeData.exchange_of_notMem (fun mem => hx (h.unique mem inside)) arena.size).symm

theorem children_wrap (x : Nat) : (arena.wrap id tag).children x =
    if x = arena.size then [id]
    else (arena.children x).map fun x => if x = id then arena.size else x := by
  rw [Arena.children, h.data_wrap, apply_ite NodeData.children, NodeData.children_exchange]
  rfl

theorem roots_wrap : (arena.wrap id tag).roots =
    arena.roots.map fun x => if x = id then arena.size else x := by
  unfold wrap
  cases parent : arena.parent? id with
  | none => exact NodeData.replace_of_nodup h.roots id arena.size
  | some above =>
      have absent : id ∉ arena.roots := by
        intro mem
        rw [(h.root id mem).2] at parent
        cases parent
      exact (NodeData.map_exchange_of_notMem absent arena.size).symm

theorem attributes_wrap (x : Nat) : (arena.wrap id tag).attributes x =
    if x = arena.size then [] else arena.attributes x := by
  rw [Arena.attributes, h.data_wrap, apply_ite NodeData.attributes, NodeData.attributes_exchange]
  rfl

include made

/-- Wrapping puts a newer node above an older one. Going down to the new element, one comes to the
node next, and goes on as before. -/
theorem descent_wrap :
    WellFounded fun child above => child ∈ (arena.wrap id tag).children above := by
  have old (x : Nat) (hx : x ≠ arena.size) :
      Acc (fun child above => child ∈ (arena.wrap id tag).children above) x := by
    induction x using h.descent.induction with
    | _ x ih =>
        refine ⟨_, fun child mem => ?_⟩
        rw [h.children_wrap, if_neg hx, NodeData.mem_map_exchange] at mem
        have below (y : Nat) (inside : y ∈ arena.children x) :
            Acc (fun child above => child ∈ (arena.wrap id tag).children above) y :=
          ih y inside (Nat.ne_of_lt (h.lt_size inside))
        rcases mem with ⟨rfl, inside⟩ | ⟨-, inside⟩
        · refine ⟨_, fun child mem => ?_⟩
          rw [h.children_wrap, if_pos rfl, List.mem_singleton] at mem
          rw [mem]
          exact below id inside
        · exact below child inside
  refine ⟨fun x => ?_⟩
  by_cases hx : x = arena.size
  · refine ⟨_, fun child mem => ?_⟩
    rw [h.children_wrap, if_pos hx, List.mem_singleton] at mem
    rw [mem]
    exact old id (Nat.ne_of_lt made)
  · exact old x hx

/-- Wrapping keeps the links, also of a node that was cut out. -/
theorem wrap : (arena.wrap id tag).Linked where
  roots := by
    rw [h.roots_wrap]
    exact NodeData.nodup_map_exchange h.roots h.size_notMem_roots
  children x := by
    rw [h.children_wrap]
    split
    · exact List.nodup_singleton id
    · exact NodeData.nodup_map_exchange (h.children x) (h.size_notMem_children x)
  root x mem := by
    rw [h.roots_wrap, NodeData.mem_map_exchange] at mem
    rw [size_wrap, parent?_wrap made]
    rcases mem with ⟨rfl, mem⟩ | ⟨hne, mem⟩
    · rw [if_neg (Ne.symm (Nat.ne_of_lt made)), if_pos rfl]
      exact ⟨Nat.lt_succ_self _, (h.root id mem).2⟩
    · obtain ⟨hx, top⟩ := h.root x mem
      rw [if_neg hne, if_neg (Nat.ne_of_lt hx)]
      exact ⟨Nat.lt_succ_of_lt hx, top⟩
  parent := by
    intro child above
    have hid : id ≠ arena.size := Nat.ne_of_lt made
    have nothing : arena.children arena.size = [] := children_of_size_le (Nat.le_refl _)
    have unlisted := h.size_notMem_children above
    rw [parent?_wrap made, h.children_wrap]
    by_cases hchild : child = id
    · by_cases habove : above = arena.size
      · simp [hchild, habove]
      · simp [hchild, habove, Ne.symm habove, NodeData.mem_map_exchange, hid]
    · rw [if_neg hchild]
      by_cases hsize : child = arena.size
      · rw [if_pos hsize, h.parent]
        by_cases habove : above = arena.size
        · simp [habove, hchild, nothing]
        · simp [habove, hsize, NodeData.mem_map_exchange, unlisted]
      · rw [if_neg hsize, h.parent]
        by_cases habove : above = arena.size
        · simp [habove, hchild, nothing]
        · simp [habove, hchild, hsize, NodeData.mem_map_exchange]
  descent := h.descent_wrap made tag
  names x := by
    rw [h.attributes_wrap]
    split
    · exact List.nodup_nil
    · exact h.names x

end Linked

end Arena

end LateMarkup
