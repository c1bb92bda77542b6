import Mathlib.Logic.Relation
import LateMarkup.Proofs.StoredDocuments

/-!
# Wrapping a node

Wrapping looks up the node above in the slot of a node, searches the list there, or the list of
roots, and puts the new element in the first place where the node is found. In a linked document
this is the only place of the node in any list, so the markup gets a tag before the node and one
behind it, and nothing else changes (`Arena.Wrapped`). This holds of every node of every document
that operations make (`Arena.wrap_splices`): of roots, of nodes in void elements, and of nodes that
were cut out, whose wrapper is cut out as well.

The markup of the elements above the node does change. What carries the proof is that a node beside
one that is above the wrapped node, or beside the wrapped node itself, is not above it.
-/

namespace LateMarkup

namespace Arena

variable {arena : Arena} {id x : Nat} {front behind : String}

/-! ## Places in the markup -/

/-- A node has a part in the markup of the document. -/
def Written (arena : Arena) (id : Nat) : Prop :=
  ∃ root ∈ arena.roots,
    Relation.ReflTransGen (fun above child => child ∈ arena.children above) root id

/-- The markup of the document before the place of a node, and the markup behind it. -/
inductive Around (arena : Arena) : Nat → String → String → Prop where
  | root {id : Nat} {before after : List Nat} {front behind : String}
      (list : arena.roots = before ++ id :: after)
      (hfront : arena.markupOfAll? before = some front)
      (hbehind : arena.markupOfAll? after = some behind) : arena.Around id front behind
  | inside {id above : Nat} {tag : String} {attributes : Attributes} {before after : List Nat}
      {front behind first last : String} (place : arena.Around above front behind)
      (data : arena.data above = .element tag attributes (before ++ id :: after))
      (hfirst : arena.markupOfAll? before = some first)
      (hlast : arena.markupOfAll? after = some last) :
      arena.Around id
        (front ++ "<" ++ tag ++ Forest.attributesMarkup attributes ++ ">" ++ first)
        (last ++ "</" ++ tag ++ ">" ++ behind)

theorem markupOfAll?_middle {before after : List Nat} {markup : String}
    (hfront : arena.markupOfAll? before = some front) (hid : arena.markupOf? id = some markup)
    (hbehind : arena.markupOfAll? after = some behind) :
    arena.markupOfAll? (before ++ id :: after) = some (front ++ markup ++ behind) := by
  rw [markupOfAll?_append, markupOfAll?_cons, hfront, hid, hbehind]
  simp [String.append_assoc]

/-- An element with a node in it is written with two tags, also if it could be void. -/
theorem markupOf?_around {tag : String} {attributes : Attributes} {before after : List Nat}
    {markup : String} (data : arena.data x = .element tag attributes (before ++ id :: after))
    (hfront : arena.markupOfAll? before = some front) (hid : arena.markupOf? id = some markup)
    (hbehind : arena.markupOfAll? after = some behind) : arena.markupOf? x =
      some ("<" ++ tag ++ Forest.attributesMarkup attributes ++ ">" ++
        (front ++ markup ++ behind) ++ "</" ++ tag ++ ">") := by
  have filled : (before ++ id :: after).isEmpty = false := by simp
  rw [markupOf?_of_element data, markupOfAll?_middle hfront hid hbehind, filled]
  rfl

/-- The markup of the document is the markup of a node and the markup around it. -/
theorem Around.markup (place : arena.Around id front behind) {markup : String}
    (hid : arena.markupOf? id = some markup) :
    arena.markup? = some (front ++ markup ++ behind) := by
  induction place generalizing markup with
  | root list before after =>
      rw [markup?, list]
      exact markupOfAll?_middle before hid after
  | inside _ data first last ih =>
      rw [ih (markupOf?_around data first hid last)]
      simp [String.append_assoc]

namespace Linked

variable (h : arena.Linked)

include h

theorem exists_around (written : arena.Written id) :
    ∃ front behind, arena.Around id front behind := by
  have markup (ids : List Nat) : ∃ markup, arena.markupOfAll? ids = some markup :=
    exists_markupOfAll? fun id _ => h.exists_markupOf? id
  obtain ⟨root, top, down⟩ := written
  induction down with
  | refl =>
      obtain ⟨before, after, list⟩ := List.append_of_mem top
      obtain ⟨front, hfront⟩ := markup before
      obtain ⟨behind, hbehind⟩ := markup after
      exact ⟨front, behind, .root list hfront hbehind⟩
  | @tail above child _ mem ih =>
      obtain ⟨front, behind, place⟩ := ih
      obtain ⟨tag, attributes, children, data⟩ := isElement_of_mem_children mem
      have inside : arena.children above = children := congrArg NodeData.children data
      obtain ⟨before, after, list⟩ := List.append_of_mem (inside ▸ mem)
      obtain ⟨first, hfirst⟩ := markup before
      obtain ⟨last, hlast⟩ := markup after
      exact ⟨_, _, .inside place (list ▸ data) hfirst hlast⟩

/-! ## Nodes above and beside -/

/-- Of two nodes in one list at most one is above a node, or is the node. -/
theorem not_up_of_beside {other : Nat} (hne : other ≠ x)
    (beside : arena.parent? other = arena.parent? x)
    (up : Relation.ReflTransGen (fun child above => arena.parent? child = some above) id x) :
    ¬ Relation.ReflTransGen (fun child above => arena.parent? child = some above) id other := by
  intro up'
  -- Whoever of the two is below the other one has the same node above it, which closes a cycle.
  have apart {low high : Nat} (hne : low ≠ high) (same : arena.parent? low = arena.parent? high) :
      ¬ Relation.ReflTransGen (fun child above => arena.parent? child = some above) low high := by
    intro way
    rcases Relation.ReflTransGen.cases_head way with heq | ⟨above, parent, rest⟩
    · exact hne heq
    · exact h.acyclic high (Relation.TransGen.head' (same ▸ parent) rest)
  have unique : Relator.RightUnique fun child above => arena.parent? child = some above :=
    fun _ _ _ one two => Option.some.inj (one.symm.trans two)
  rcases Relation.ReflTransGen.total_of_right_unique unique up up' with way | way
  · exact apart (Ne.symm hne) beside.symm way
  · exact apart hne beside way

variable (tag : String)

theorem markupOf?_wrap (hx : x < arena.size)
    (apart : ¬ Relation.TransGen (fun child above => arena.parent? child = some above) id x) :
    (arena.wrap id tag).markupOf? x = arena.markupOf? x := by
  let P (x : Nat) : Prop := x < arena.size ∧
    ¬ Relation.TransGen (fun child above => arena.parent? child = some above) id x
  have down (x : Nat) (hx : P x) (child : Nat) (mem : child ∈ arena.children x) : P child :=
    ⟨h.lt_size mem, fun far => hx.2 (far.tail (h.parent.mpr mem))⟩
  have same (x : Nat) (hx : P x) : (arena.wrap id tag).data x = arena.data x := by
    rw [h.data_wrap, if_neg (Nat.ne_of_lt hx.1)]
    exact NodeData.exchange_of_notMem (fun mem => hx.2 (.single (h.parent.mpr mem))) _
  exact h.markupOf?_congr down same ⟨hx, apart⟩

/-- In the list of a node that is wrapped, or that is above the wrapped one, all others stay and
keep their markup. -/
theorem wrap_middle {before after : List Nat} (nodup : (before ++ x :: after).Nodup)
    (beside : ∀ other ∈ before ++ x :: after,
      other < arena.size ∧ arena.parent? other = arena.parent? x)
    (up : Relation.ReflTransGen (fun child above => arena.parent? child = some above) id x) :
    ((before ++ x :: after).map fun y => if y = id then arena.size else y) =
        before ++ (if x = id then arena.size else x) :: after ∧
      (arena.wrap id tag).markupOfAll? before = arena.markupOfAll? before ∧
      (arena.wrap id tag).markupOfAll? after = arena.markupOfAll? after := by
  rw [List.nodup_middle, List.nodup_cons, List.mem_append, not_or] at nodup
  have apart {other : Nat} (mem : other ∈ before ∨ other ∈ after) : other < arena.size ∧
      ¬ Relation.ReflTransGen (fun child above => arena.parent? child = some above) id other := by
    obtain ⟨lt, same⟩ := beside other (by simp; tauto)
    refine ⟨lt, h.not_up_of_beside ?_ same up⟩
    rintro rfl
    exact mem.elim nodup.1.1 nodup.1.2
  have keep {other : Nat} (mem : other ∈ before ∨ other ∈ after) :
      (arena.wrap id tag).markupOf? other = arena.markupOf? other :=
    h.markupOf?_wrap tag (apart mem).1 fun far => (apart mem).2 far.to_reflTransGen
  have still {list : List Nat} (sub : ∀ other ∈ list, other ∈ before ∨ other ∈ after) :
      (list.map fun y => if y = id then arena.size else y) = list :=
    NodeData.map_exchange_of_notMem (fun mem => (apart (sub id mem)).2 .refl) _
  refine ⟨?_, ?_, ?_⟩
  · rw [List.map_append, List.map_cons, still fun _ => Or.inl, still fun _ => Or.inr]
  · exact markupOfAll?_congr fun other mem => keep (Or.inl mem)
  · exact markupOfAll?_congr fun other mem => keep (Or.inr mem)

/-- The new element has the place of the wrapped node, and what is above keeps its place. -/
theorem around_wrap (place : arena.Around x front behind)
    (up : Relation.ReflTransGen (fun child above => arena.parent? child = some above) id x) :
    (arena.wrap id tag).Around (if x = id then arena.size else x) front behind := by
  induction place with
  | @root x before after front behind list hfront hbehind =>
      have beside : ∀ other ∈ before ++ x :: after,
          other < arena.size ∧ arena.parent? other = arena.parent? x := by
        rw [← list]
        intro other mem
        have top : x ∈ arena.roots := list ▸ List.mem_append_right _ List.mem_cons_self
        rw [(h.root other mem).2, (h.root x top).2]
        exact ⟨(h.root other mem).1, rfl⟩
      obtain ⟨exchanged, hbefore, hafter⟩ := h.wrap_middle tag (list ▸ h.roots) beside up
      refine .root ?_ (hbefore.trans hfront) (hafter.trans hbehind)
      rw [h.roots_wrap, list, exchanged]
  | @inside x above tag' attributes before after front behind first last _ data hfirst hlast ih =>
      have inside : arena.children above = before ++ x :: after :=
        congrArg NodeData.children data
      have parent : arena.parent? x = some above :=
        h.parent.mpr (inside ▸ List.mem_append_right _ List.mem_cons_self)
      have beside : ∀ other ∈ before ++ x :: after,
          other < arena.size ∧ arena.parent? other = arena.parent? x := by
        rw [← inside, parent]
        exact fun other mem => ⟨h.lt_size mem, h.parent.mpr mem⟩
      obtain ⟨exchanged, hbefore, hafter⟩ :=
        h.wrap_middle tag (inside ▸ h.children above) beside up
      have hne : above ≠ id := by
        rintro rfl
        exact h.acyclic above (Relation.TransGen.tail' up parent)
      have hsize : above ≠ arena.size :=
        Nat.ne_of_lt (IsElement.lt_size ⟨tag', attributes, _, data⟩)
      have ih := ih (up.tail parent)
      rw [if_neg hne] at ih
      refine .inside ih ?_ (hbefore.trans hfirst) (hafter.trans hlast)
      rw [h.data_wrap, if_neg hsize, data]
      exact congrArg (NodeData.element tag' attributes) exchanged

end Linked

/-! ## What wrapping does -/

/-- What wrapping a node does to a document. -/
structure Wrapped (before after : Arena) (node : Nat) (tag : String) : Prop where
  /-- One node is made, the wrapper, and its number is the next one. -/
  size : after.size = before.size + 1
  /-- Among the roots the wrapper stands where the node stood. -/
  roots : after.roots = before.roots.map fun x => if x = node then before.size else x
  /-- The wrapper has the tag, no attributes, and the node in it. Every other node stays what it is,
  with the wrapper in it where the node stood. -/
  data : ∀ x, after.data x =
    if x = before.size then .element tag [] [node]
    else (before.data x).exchange node before.size
  /-- Above the node is the wrapper, above the wrapper what was above the node, and above every
  other node what was there before. -/
  parent? : ∀ x, after.parent? x =
    if x = node then some before.size
    else if x = before.size then before.parent? node
    else before.parent? x
  self : after.markupOf? node = before.markupOf? node
  /-- The markup of the wrapper is that of the node between two tags. -/
  wrapper : ∃ inner, before.markupOf? node = some inner ∧
    after.markupOf? before.size = some ("<" ++ tag ++ ">" ++ inner ++ "</" ++ tag ++ ">")
  /-- Every other node keeps its markup, unless it is above the node. -/
  others : ∀ x < before.size,
    ¬ Relation.TransGen (fun child above => before.parent? child = some above) node x →
      after.markupOf? x = before.markupOf? x
  /-- Where the node stood in the markup, the wrapper stands, and the node between its tags. -/
  place : before.Written node → ∃ front inner behind,
    before.Around node front behind ∧
    before.markupOf? node = some inner ∧
    before.markup? = some (front ++ inner ++ behind) ∧
    after.Around before.size front behind ∧
    after.Around node (front ++ "<" ++ tag ++ ">") ("</" ++ tag ++ ">" ++ behind) ∧
    after.markup? = some (front ++ "<" ++ tag ++ ">" ++ inner ++ "</" ++ tag ++ ">" ++ behind)
  /-- A node without a part in the markup gets a wrapper without one. -/
  unwritten : ¬ before.Written node → after.markup? = before.markup?

namespace Linked

variable (h : arena.Linked) (made : id < arena.size) (tag : String)

include h

theorem data_wrap_size :
    (arena.wrap id tag).data arena.size = .element tag [] ([] ++ id :: []) := by
  rw [h.data_wrap, if_pos rfl]
  rfl

/-- A node without a part in the markup is no root, and not below one. -/
theorem markup?_wrap_of_unwritten (unwritten : ¬ arena.Written id) :
    (arena.wrap id tag).markup? = arena.markup? := by
  have absent : id ∉ arena.roots := fun mem => unwritten ⟨id, mem, .refl⟩
  rw [markup?, h.roots_wrap, NodeData.map_exchange_of_notMem absent]
  refine markupOfAll?_congr fun root top => ?_
  refine h.markupOf?_wrap tag (h.root root top).1 fun far => unwritten ⟨root, top, ?_⟩
  have down := far.swap
  simp only [h.parent] at down
  exact down.to_reflTransGen

include made

theorem markupOf?_wrap_self : (arena.wrap id tag).markupOf? id = arena.markupOf? id :=
  h.markupOf?_wrap tag made (h.acyclic id)

theorem markupOf?_wrap_size {inner : String} (hid : arena.markupOf? id = some inner) :
    (arena.wrap id tag).markupOf? arena.size =
      some ("<" ++ tag ++ ">" ++ inner ++ "</" ++ tag ++ ">") := by
  have self := (h.markupOf?_wrap_self made tag).trans hid
  rw [markupOf?_around (h.data_wrap_size tag) rfl self rfl]
  simp [Forest.attributesMarkup]

/-- **Wrapping puts one element around one node.** -/
theorem wrapped : arena.Wrapped (arena.wrap id tag) id tag where
  size := size_wrap id tag
  roots := h.roots_wrap tag
  data := h.data_wrap tag
  parent? := parent?_wrap made tag
  self := h.markupOf?_wrap_self made tag
  wrapper := by
    obtain ⟨inner, hid⟩ := h.exists_markupOf? id
    exact ⟨inner, hid, h.markupOf?_wrap_size made tag hid⟩
  others _ hx apart := h.markupOf?_wrap tag hx apart
  place written := by
    obtain ⟨front, behind, place⟩ := h.exists_around written
    obtain ⟨inner, hid⟩ := h.exists_markupOf? id
    have wrapper := h.around_wrap tag place .refl
    rw [if_pos rfl] at wrapper
    have self := wrapper.inside (h.data_wrap_size tag) rfl rfl
    refine ⟨front, inner, behind, place, hid, place.markup hid, wrapper, ?_, ?_⟩
    · simpa [Forest.attributesMarkup] using self
    · rw [wrapper.markup (h.markupOf?_wrap_size made tag hid)]
      simp only [String.append_assoc]
  unwritten := h.markup?_wrap_of_unwritten tag

end Linked

/-- **Wrapping puts one element around one node, and does nothing else.** In every document that
operations make, the wrapper takes the place of the node in the markup and among its siblings, with
the node as the only one in it. All that is not above the node keeps its markup, and what is cut out
stays cut out. -/
theorem wrap_splices {operations : List Document.Operation} (allowed : AllowsAll {} operations)
    (performed : performAll? {} operations = some arena) (made : id < arena.size) (tag : String) :
    arena.Wrapped (arena.wrap id tag) id tag := by
  obtain ⟨after, performed', linked⟩ := linked_empty.performAll? allowed
  rw [performed] at performed'
  cases performed'
  exact linked.wrapped made tag

/-- A text in a void element, between other nodes. -/
def brimful : List Document.Operation :=
  [.element none "p" [], .element (some 0) "br" [], .text 1 "x", .element (some 0) "i" []]

theorem wrap_splices_brimful : ∃ arena, AllowsAll {} brimful ∧
    performAll? {} brimful = some arena ∧ 2 < arena.size ∧ arena.Written 2 ∧
      arena.Wrapped (arena.wrap 2 "hr") 2 "hr" ∧
      (arena.wrap 2 "hr").markup? = some "<p><br><hr>x</hr></br><i></i></p>" := by
  obtain ⟨allowed, arena, performed, stores⟩ :=
    stores_performAll? (show Document.AllowsAll {} brimful by decide)
  have made : 2 < (Document.performAll {} brimful).size := by decide
  have written : arena.Written 2 := by
    refine ⟨0, ?_, Relation.ReflTransGen.tail (.single (?_ : 1 ∈ _)) ?_⟩
    · rw [stores.roots]
      decide
    · rw [stores.children]
      decide
    · rw [stores.children]
      decide
  have lt : 2 < arena.size := stores.size ▸ made
  refine ⟨arena, allowed, performed, lt, written, wrap_splices allowed performed lt "hr", ?_⟩
  rw [(stores.wrap made "hr").markup?]
  decide

end Arena

end LateMarkup
