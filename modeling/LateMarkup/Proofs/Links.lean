import Mathlib.Logic.Relation
import LateMarkup.Proofs.Placement

/-!
# Links between the nodes of a forest

A node of a forest is listed by the node above it: in a document in which every number below its
size stands exactly once, be it in the document or cut out of it, and in which nothing hangs below a
text (`Document.Orderly`), the node above is the one that has a node in its list
(`Document.Orderly.parent?_iff`).
-/

namespace LateMarkup

/-! ## Rows -/

namespace Forest

variable {P : Nat → Label → Forest → Prop} {id x : Nat}

theorem row_append (a b : Forest) : (a ++ b).row = a.row ++ b.row := by
  induction a with
  | nil => rfl
  | node here label children next _ ih => rw [node_append, row, row, ih, List.cons_append]

theorem find?_append (a b : Forest) : (a ++ b).find? id = (a.find? id).or (b.find? id) := by
  induction a with
  | nil => rfl
  | node here label children next _ ih =>
      rw [node_append, find?, find?, ih]
      split
      · rfl
      · rw [Option.or_assoc]

theorem parent?_append (above : Option Nat) (a b : Forest) :
    (a ++ b).parent? id above = (a.parent? id above).or (b.parent? id above) := by
  induction a with
  | nil => rfl
  | node here label children next _ ih =>
      rw [node_append, parent?, parent?, ih]
      split
      · rfl
      · rw [Option.or_assoc]

theorem append_assoc (a b c : Forest) : a ++ b ++ c = a ++ (b ++ c) := by
  induction a with
  | nil => rfl
  | node here label children next _ ih => rw [node_append, node_append, node_append, ih]

/-- Where no number occurs twice, a node can be edited in either of two rows. -/
theorem edit_append (change : Label → Forest → Forest) {a b : Forest}
    (nodup : (a ++ b).ids.Nodup) :
    (a ++ b).edit id change = a.edit id change ++ b.edit id change := by
  induction a with
  | nil => rfl
  | node here label children next _ ih =>
      rw [node_append, ids, List.nodup_cons, List.mem_append, not_or] at nodup
      obtain ⟨⟨-, absent⟩, nodup⟩ := nodup
      rw [node_append, edit, edit, ih (List.nodup_append.mp nodup).2.1]
      split
      · next heq =>
          -- The edit ends here, so nothing may be left to edit behind.
          subst heq
          rw [ids_append, List.mem_append, not_or] at absent
          rw [append_assoc, edit_of_notMem absent.2]
      · rfl

/-- A node stands in one row: that of the forest, or that below one of its nodes. -/
theorem row_append_flatMap_perm {forest : Forest} {inside : Nat → List Nat}
    (rows : forest.All fun id _ children => inside id = children.row) :
    (forest.row ++ forest.ids.flatMap inside).Perm forest.ids := by
  induction forest with
  | nil => rfl
  | node here label children next ihChildren ihNext =>
      obtain ⟨hhere, below, beside⟩ := rows
      rw [List.perm_iff_count]
      intro x
      have countBelow := (ihChildren below).count_eq x
      have countBeside := (ihNext beside).count_eq x
      rw [List.count_append] at countBelow countBeside
      rw [row, ids, List.flatMap_cons, List.flatMap_append, hhere]
      simp only [List.count_append, List.count_cons]
      omega

theorem mem_ids_of_mem_row {forest : Forest} (mem : x ∈ forest.row) : x ∈ forest.ids := by
  induction forest with
  | nil => cases mem
  | node here label children next _ ih =>
      rw [row, List.mem_cons] at mem
      rw [ids, List.mem_cons, List.mem_append]
      exact mem.imp_right fun beside => Or.inr (ih beside)

/-! ## Parents -/

theorem parent?_eq_none {forest : Forest} (above : Option Nat) (absent : id ∉ forest.ids) :
    forest.parent? id above = none := by
  induction forest generalizing above with
  | nil => rfl
  | node here label children next ihChildren ihNext =>
      rw [ids, List.mem_cons, List.mem_append, not_or, not_or] at absent
      obtain ⟨hhere, hchildren, hnext⟩ := absent
      rw [parent?, if_neg (Ne.symm hhere), ihChildren _ hchildren, ihNext _ hnext]
      rfl

theorem mem_ids_of_parent? {forest : Forest} {above found : Option Nat}
    (h : forest.parent? id above = some found) : id ∈ forest.ids := by
  by_contra absent
  rw [parent?_eq_none above absent] at h
  cases h

theorem parent?_of_mem_row {forest : Forest} (nodup : forest.ids.Nodup) (above : Option Nat)
    (mem : x ∈ forest.row) : forest.parent? x above = some above := by
  induction forest with
  | nil => cases mem
  | node here label children next _ ih =>
      rw [ids, List.nodup_cons] at nodup
      obtain ⟨-, nodupNext, disjoint⟩ := List.nodup_append.mp nodup.2
      rw [parent?]
      split
      · rfl
      · next hne =>
          have beside : x ∈ next.row := (List.mem_cons.mp mem).resolve_left (Ne.symm hne)
          have absent : x ∉ children.ids := fun below =>
            disjoint x below x (mem_ids_of_mem_row beside) rfl
          rw [parent?_eq_none _ absent, ih nodupNext beside]
          rfl

/-- Where no number occurs twice, the nodes in the row below a node have it above them. -/
theorem all_parent? {forest : Forest} (nodup : forest.ids.Nodup) (above : Option Nat) :
    forest.All fun id _ children =>
      ∀ x ∈ children.row, forest.parent? x above = some (some id) := by
  induction forest generalizing above with
  | nil => trivial
  | node here label children next ihChildren ihNext =>
      rw [ids, List.nodup_cons, List.mem_append, not_or] at nodup
      obtain ⟨⟨hchildren, hnext⟩, nodup⟩ := nodup
      obtain ⟨nodupChildren, nodupNext, disjoint⟩ := List.nodup_append.mp nodup
      have below {x : Nat} {p : Option Nat} (h : children.parent? x (some here) = some p) :
          (node here label children next).parent? x above = some p := by
        have hne : here ≠ x := by
          rintro rfl
          exact hchildren (mem_ids_of_parent? h)
        rw [parent?, if_neg hne, h]
        rfl
      have beside {x : Nat} {p : Option Nat} (h : next.parent? x above = some p) :
          (node here label children next).parent? x above = some p := by
        have mem := mem_ids_of_parent? h
        have hne : here ≠ x := by
          rintro rfl
          exact hnext mem
        have absent : x ∉ children.ids := fun hx => disjoint x hx x mem rfl
        rw [parent?, if_neg hne, parent?_eq_none _ absent, h]
        rfl
      refine ⟨fun x hx => below (parent?_of_mem_row nodupChildren _ hx), ?_, ?_⟩
      · exact (ihChildren nodupChildren _).mono fun _ _ _ h x hx => below (h x hx)
      · exact (ihNext nodupNext _).mono fun _ _ _ h x hx => beside (h x hx)

theorem row_isEmpty (forest : Forest) : forest.row.isEmpty = forest.isEmpty := by
  cases forest <;> rfl

end Forest

/-! ## Links -/

namespace Document

variable {doc : Document} {id child above : Nat}

/-- The trees of a document and those that were cut out of it. -/
def whole (doc : Document) : Forest := doc.roots ++ doc.detached

theorem mem_whole_of_mem_roots (mem : id ∈ doc.roots.ids) : id ∈ doc.whole.ids := by
  rw [whole, Forest.ids_append]
  exact List.mem_append_left _ mem

theorem nodup_roots (nodup : doc.whole.ids.Nodup) : doc.roots.ids.Nodup := by
  rw [whole, Forest.ids_append] at nodup
  exact (List.nodup_append.mp nodup).1

theorem find?_eq_whole (doc : Document) (id : Nat) : doc.find? id = doc.whole.find? id :=
  (Forest.find?_append doc.roots doc.detached).symm

theorem parent?_eq_whole (doc : Document) (id : Nat) :
    doc.parent? id = (doc.whole.parent? id none).join := by
  rw [whole, Forest.parent?_append]
  rfl

theorem content_of_all {P : Nat → Forest → Prop}
    (all : doc.whole.All fun id _ children => P id children) (id : Nat) (empty : P id .nil) :
    P id (doc.content id) := by
  unfold Document.content
  split
  · next found =>
      rw [find?_eq_whole] at found
      exact (all.of_find? found).1
  · exact empty

theorem all_content {P : Nat → Label → Forest → Prop} (all : doc.whole.All P) (id : Nat) :
    (doc.content id).All P := by
  unfold Document.content
  split
  · next found =>
      rw [find?_eq_whole] at found
      exact (all.of_find? found).2
  · trivial

/-- A node as it can be made: a text has nothing below it, and attribute names do not repeat. -/
structure Proper (label : Label) (children : Forest) : Prop where
  childless : Childless label children
  names : (label.attributes.map Prod.fst).Nodup

/-- Every node that was made stands once, in the document or in what was cut out of it. -/
structure Orderly (doc : Document) : Prop where
  nodup : doc.whole.ids.Nodup
  complete : ∀ id, id ∈ doc.whole.ids ↔ id < doc.size
  nodes : doc.whole.All fun _ => Proper

namespace Orderly

theorem all_find? (h : doc.Orderly) :
    doc.whole.All fun id label children => doc.find? id = some (label, children) :=
  (Forest.all_find? h.nodup).mono fun id _ _ found => (doc.find?_eq_whole id).trans found

theorem content_of_find? (h : doc.Orderly) {label : Label} {below : Forest}
    (found : doc.find? id = some (label, below)) : doc.content id = below := by
  rw [Document.content, found]
  cases label with
  | element tag attributes => rfl
  | text content =>
      rw [find?_eq_whole] at found
      exact ((h.nodes.of_find? found).1.childless content rfl).symm

/-! ### Lists and parents -/

/-- Every node that was made is listed once: as the top of a tree or in a node. -/
theorem listed_perm (h : doc.Orderly) :
    (doc.whole.row ++ (List.range doc.size).flatMap doc.children).Perm doc.whole.ids := by
  have numbers : (List.range doc.size).Perm doc.whole.ids := by
    rw [List.perm_ext_iff_of_nodup List.nodup_range h.nodup]
    exact fun id => List.mem_range.trans (h.complete id).symm
  have rows : doc.whole.All fun id _ children => doc.children id = children.row :=
    h.all_find?.mono fun _ _ _ found => congrArg Forest.row (h.content_of_find? found)
  exact ((numbers.flatMap_right doc.children).append_left _).trans
    (Forest.row_append_flatMap_perm rows)

theorem parent?_of_mem_children (h : doc.Orderly) (mem : child ∈ doc.children above) :
    doc.parent? child = some above := by
  have parents := content_of_all (Forest.all_parent? h.nodup none) above nofun
  rw [parent?_eq_whole, parents child mem]
  rfl

theorem parent?_of_mem_row (h : doc.Orderly) (mem : id ∈ doc.whole.row) :
    doc.parent? id = none := by
  rw [parent?_eq_whole, Forest.parent?_of_mem_row h.nodup none mem]
  rfl

theorem parent?_iff (h : doc.Orderly) : doc.parent? child = some above ↔
    child ∈ doc.children above := by
  refine ⟨fun parent => ?_, h.parent?_of_mem_children⟩
  have mem : child ∈ doc.whole.ids := by
    rw [parent?_eq_whole, Option.join_eq_some_iff] at parent
    exact Forest.mem_ids_of_parent? parent
  -- The node is listed somewhere, and that place decides which node is above it.
  rw [← h.listed_perm.mem_iff, List.mem_append, List.mem_flatMap] at mem
  rcases mem with top | ⟨other, -, inside⟩
  · rw [h.parent?_of_mem_row top] at parent
    cases parent
  · rw [h.parent?_of_mem_children inside] at parent
    cases parent
    exact inside

end Orderly

end Document

end LateMarkup
