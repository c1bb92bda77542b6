import LateMarkup.Proofs.StoredLinks

/-!
# The markup of stored documents

The markup of a node is written by going down through the lists. In a linked document this ends
(`Arena.Linked.exists_markupOf?`), and what is written of a node depends on nothing but the slots
that are reached on the way (`Arena.Linked.markupOf?_congr`).
-/

namespace LateMarkup

namespace Arena

variable {arena after : Arena} {id : Nat}

theorem markupOf?_of_text {content : String} (h : arena.data id = .text content) :
    arena.markupOf? id = some (Forest.textMarkup content) := by
  rw [markupOf?, h]

theorem markupOf?_of_element {tag : String} {attributes : Attributes} {children : List Nat}
    (h : arena.data id = .element tag attributes children) : arena.markupOf? id =
      (arena.markupOfAll? children).map
        (Forest.elementMarkup tag attributes children.isEmpty) := by
  rw [markupOf?, h, markupOfAll?, Option.map_map]
  show ((children.mapM fun child => arena.markupOf? child) >>= _) = _
  cases children.mapM arena.markupOf? <;> rfl

@[simp] theorem markupOfAll?_nil (arena : Arena) : arena.markupOfAll? [] = some "" := rfl

theorem markupOfAll?_cons (arena : Arena) (id : Nat) (rest : List Nat) :
    arena.markupOfAll? (id :: rest) =
      (arena.markupOf? id).bind fun markup => (arena.markupOfAll? rest).map (markup ++ ·) := by
  rw [markupOfAll?, markupOfAll?, List.mapM_cons]
  cases arena.markupOf? id with
  | none => rfl
  | some markup =>
      cases rest.mapM arena.markupOf? with
      | none => rfl
      | some parts => exact congrArg some String.join_cons

theorem markupOfAll?_append (arena : Arena) (front back : List Nat) :
    arena.markupOfAll? (front ++ back) = (arena.markupOfAll? front).bind fun markup =>
      (arena.markupOfAll? back).map (markup ++ ·) := by
  induction front with
  | nil =>
      rw [List.nil_append, markupOfAll?_nil, Option.bind_some]
      cases arena.markupOfAll? back <;> simp
  | cons id rest ih =>
      rw [List.cons_append, markupOfAll?_cons, ih, markupOfAll?_cons]
      cases arena.markupOf? id with
      | none => rfl
      | some markup =>
          cases arena.markupOfAll? rest with
          | none => rfl
          | some middle => cases arena.markupOfAll? back <;> simp [String.append_assoc]

theorem markupOfAll?_congr {ids : List Nat}
    (same : ∀ id ∈ ids, after.markupOf? id = arena.markupOf? id) :
    after.markupOfAll? ids = arena.markupOfAll? ids := by
  induction ids with
  | nil => rfl
  | cons id rest ih =>
      obtain ⟨hid, hrest⟩ := List.forall_mem_cons.mp same
      rw [markupOfAll?_cons, markupOfAll?_cons, hid, ih hrest]

theorem exists_markupOfAll? {ids : List Nat}
    (each : ∀ id ∈ ids, ∃ markup, arena.markupOf? id = some markup) :
    ∃ markup, arena.markupOfAll? ids = some markup := by
  induction ids with
  | nil => exact ⟨"", rfl⟩
  | cons id rest ih =>
      obtain ⟨⟨first, hid⟩, hrest⟩ := List.forall_mem_cons.mp each
      obtain ⟨others, hothers⟩ := ih hrest
      exact ⟨first ++ others, by rw [markupOfAll?_cons, hid, hothers]; rfl⟩

namespace Linked

variable (h : arena.Linked)

include h

theorem exists_markupOf? (id : Nat) : ∃ markup, arena.markupOf? id = some markup := by
  induction id using h.descent.induction with
  | _ id ih =>
      cases data : arena.data id with
      | text content => exact ⟨_, markupOf?_of_text data⟩
      | element tag attributes children =>
          have inside : arena.children id = children := congrArg NodeData.children data
          obtain ⟨content, written⟩ := exists_markupOfAll? fun child mem =>
            ih child (show child ∈ arena.children id from inside ▸ mem)
          rw [markupOf?_of_element data, written]
          exact ⟨_, rfl⟩

theorem exists_contentMarkup? (id : Nat) : ∃ markup, arena.contentMarkup? id = some markup :=
  exists_markupOfAll? fun child _ => h.exists_markupOf? child

theorem exists_markup? : ∃ markup, arena.markup? = some markup :=
  exists_markupOfAll? fun root _ => h.exists_markupOf? root

/-- Nodes among which going down stays, and whose slots are the same in two documents, have the same
markup in both. -/
theorem markupOf?_congr {P : Nat → Prop} (down : ∀ id, P id → ∀ child ∈ arena.children id, P child)
    (same : ∀ id, P id → after.data id = arena.data id) (hid : P id) :
    after.markupOf? id = arena.markupOf? id := by
  induction id using h.descent.induction with
  | _ id ih =>
      have slot := same id hid
      cases data : arena.data id with
      | text content =>
          rw [markupOf?_of_text data, markupOf?_of_text (slot.trans data)]
      | element tag attributes children =>
          have inside : arena.children id = children := congrArg NodeData.children data
          rw [markupOf?_of_element data, markupOf?_of_element (slot.trans data),
            markupOfAll?_congr fun child mem => ?_]
          have child_mem : child ∈ arena.children id := inside ▸ mem
          exact ih child child_mem (down id hid child child_mem)

end Linked

end Arena

end LateMarkup
