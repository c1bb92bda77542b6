import LateMarkup.Document
import LateMarkup.Proofs.Serialization

/-! # What editing keeps

Statements about every node of a forest, and about the texts of its rows, through the operations by
which annotating changes a document. A node that is edited may change its label and what is below
it, and may come to stand in a new node, but what it shows to the texts beside it stays, or becomes
an angle bracket. -/

namespace LateMarkup

namespace Forest

variable {P Q : Nat → Label → Forest → Prop}

@[simp] theorem nil_append (forest : Forest) : nil ++ forest = forest := rfl

@[simp] theorem node_append (id : Nat) (label : Label) (children next forest : Forest) :
    node id label children next ++ forest = node id label children (next ++ forest) := rfl

theorem rowText_append (a b : Forest) : (a ++ b).rowText = a.rowText ++ b.rowText := by
  induction a with
  | nil => rfl
  | node id label children next _ ih =>
      rw [node_append, rowText, rowText, ih, List.append_assoc]

theorem all_append {a b : Forest} : (a ++ b).All P ↔ a.All P ∧ b.All P := by
  induction a with
  | nil => exact (and_iff_right trivial).symm
  | node id label children next _ ih =>
      rw [node_append, All, All, ih, and_assoc, and_assoc]

theorem All.mono {forest : Forest} (h : forest.All P)
    (hP : ∀ id label children, P id label children → Q id label children) : forest.All Q := by
  induction forest with
  | nil => trivial
  | node id label children next ihChildren ihNext =>
      exact ⟨hP _ _ _ h.1, ihChildren h.2.1, ihNext h.2.2⟩

theorem All.and {forest : Forest} (hP : forest.All P) (hQ : forest.All Q) :
    forest.All fun id label children => P id label children ∧ Q id label children := by
  induction forest with
  | nil => trivial
  | node id label children next ihChildren ihNext =>
      exact ⟨⟨hP.1, hQ.1⟩, ihChildren hP.2.1 hQ.2.1, ihNext hP.2.2 hQ.2.2⟩

/-- A node that is found is as all nodes are, and so is what is below it. -/
theorem All.of_find? {forest : Forest} (h : forest.All P) {id : Nat} {label : Label}
    {children : Forest} (found : forest.find? id = some (label, children)) :
    P id label children ∧ children.All P := by
  induction forest with
  | nil => cases found
  | node here label' below next ihBelow ihNext =>
      obtain ⟨hhere, hbelow, hnext⟩ := h
      rw [find?] at found
      split at found
      · next heq =>
          cases found
          exact ⟨heq ▸ hhere, hbelow⟩
      · rcases Option.or_eq_some_iff.mp found with found | ⟨-, found⟩
        · exact ihBelow hbelow found
        · exact ihNext hnext found

/-- What holds of every node holds of every node after an edit, if it holds of what the edit puts in
and does not mind edits further below. -/
theorem All.edit {forest : Forest} (h : forest.All P) {id : Nat}
    {change : Label → Forest → Forest}
    (put : ∀ label children, P id label children → children.All P → (change label children).All P)
    (below : ∀ here label children, P here label children →
      P here label (children.edit id change)) : (forest.edit id change).All P := by
  induction forest with
  | nil => trivial
  | node here label children next ihChildren ihNext =>
      obtain ⟨hhere, hchildren, hnext⟩ := h
      rw [Forest.edit]
      split
      · next heq =>
          subst heq
          exact all_append.mpr ⟨put label children hhere hchildren, hnext⟩
      · exact ⟨below here label children hhere, ihChildren hchildren, ihNext hnext⟩

/-- An edit that shows nothing new to the texts beside it makes no marker text there. -/
theorem unmarked_rowText_edit (before : List Char) {forest : Forest} {id : Nat}
    {change : Label → Forest → Forest}
    (face : ∀ label children, (change label children).rowText = label.face ∨
      (change label children).rowText = ['<'])
    (free : Unmarked (before ++ forest.rowText)) :
    Unmarked (before ++ (forest.edit id change).rowText) := by
  induction forest generalizing before with
  | nil => exact free
  | node here label children next _ ih =>
      rw [edit]
      rw [rowText] at free
      split
      · rw [rowText_append]
        rcases face label children with same | angle
        · rw [same]
          exact free
        · -- What becomes an angle bracket parts the texts on its two sides.
          rw [angle, List.singleton_append, unmarked_append_cons (by decide)]
          exact ⟨free.left, free.right.right⟩
      · rw [← List.append_assoc] at free
        rw [rowText, ← List.append_assoc]
        exact ih _ free

theorem angles_edit {forest : Forest} {id : Nat} {change : Label → Forest → Forest}
    (face : ∀ label children, (change label children).rowText = label.face ∨
      (change label children).rowText = ['<'])
    (angles : ∀ c ∈ forest.rowText, c = '<') : ∀ c ∈ (forest.edit id change).rowText, c = '<' := by
  induction forest with
  | nil => exact angles
  | node here label children next _ ih =>
      rw [rowText, List.forall_mem_append] at angles
      obtain ⟨hface, hnext⟩ := angles
      rw [edit]
      split
      · rw [rowText_append, List.forall_mem_append]
        rcases face label children with same | angle
        · rw [same]
          exact ⟨hface, hnext⟩
        · rw [angle]
          exact ⟨fun c hc => List.mem_singleton.mp hc, hnext⟩
      · rw [rowText, List.forall_mem_append]
        exact ⟨hface, ih hnext⟩

end Forest

/-! ## Every node of a document -/

namespace Document

variable {P : Nat → Label → Forest → Prop} {doc : Document} {node : Nat}

/-- A statement about every node of a document, also about those that were cut out. -/
def Every (P : Nat → Label → Forest → Prop) (doc : Document) : Prop :=
  doc.roots.All P ∧ doc.detached.All P

theorem Every.mono {Q : Nat → Label → Forest → Prop} (h : doc.Every P)
    (weaker : ∀ id label children, P id label children → Q id label children) : doc.Every Q :=
  ⟨h.1.mono weaker, h.2.mono weaker⟩

theorem Every.find? (h : doc.Every P) {id : Nat} {label : Label} {children : Forest}
    (found : doc.find? id = some (label, children)) : P id label children ∧ children.All P := by
  rcases Option.or_eq_some_iff.mp found with found | ⟨-, found⟩
  · exact h.1.of_find? found
  · exact h.2.of_find? found

theorem Every.edit (h : doc.Every P) {change : Label → Forest → Forest}
    (put : ∀ label children, P node label children → children.All P →
      (change label children).All P)
    (below : ∀ here label children, P here label children →
      P here label (children.edit node change)) : (doc.edit node change).Every P :=
  ⟨h.1.edit put below, h.2.edit put below⟩

@[simp] theorem size_clear (doc : Document) (node : Nat) : (doc.clear node).size = doc.size := by
  unfold Document.clear
  split <;> rfl

end Document

/-! ## Attributes -/

theorem AttributeName.unmarked_markup {name other : String} (h : markup? name = some other) :
    Unmarked other.toList := by
  have table : ∀ pair ∈ spellings, Unmarked pair.1.toList := by decide
  obtain ⟨pair, hpair, rfl⟩ := Option.map_eq_some_iff.mp h
  exact table pair (List.mem_of_find?_eq_some hpair)

namespace Attributes

theorem mem_set {attributes : Attributes} {name value : String} {pair : String × String}
    (h : pair ∈ attributes.set name value) : pair = (name, value) ∨ pair ∈ attributes := by
  induction attributes with
  | nil => exact Or.inl (List.mem_singleton.mp h)
  | cons first rest ih =>
      obtain ⟨key, old⟩ := first
      rw [set] at h
      split at h
      · next heq =>
          rcases List.mem_cons.mp h with rfl | h
          · exact Or.inl (by rw [heq])
          · exact Or.inr (List.mem_cons_of_mem _ h)
      · rcases List.mem_cons.mp h with rfl | h
        · exact Or.inr List.mem_cons_self
        · exact (ih h).imp id (List.mem_cons_of_mem _)

theorem set_of_fresh {attributes : Attributes} {name : String}
    (fresh : ∀ pair ∈ attributes, pair.1 ≠ name) (value : String) :
    attributes.set name value = attributes ++ [(name, value)] := by
  induction attributes with
  | nil => rfl
  | cons first rest ih =>
      obtain ⟨key, old⟩ := first
      rw [set, if_neg (fresh _ List.mem_cons_self),
        ih fun pair hpair => fresh pair (List.mem_cons_of_mem _ hpair)]
      rfl

theorem mem_remove {attributes : Attributes} {name : String} {pair : String × String}
    (h : pair ∈ attributes.remove name) : pair ∈ attributes :=
  (List.mem_filter.mp h).1

theorem mem_removeEither {attributes : Attributes} {name : String} {pair : String × String}
    (h : pair ∈ attributes.removeEither name) : pair ∈ attributes := by
  unfold removeEither at h
  split at h
  · exact mem_remove (mem_remove h)
  · exact mem_remove h

theorem mem_of_value? {attributes : Attributes} {name value : String}
    (h : attributes.value? name = some value) : (name, value) ∈ attributes := by
  induction attributes with
  | nil => cases h
  | cons first rest ih =>
      obtain ⟨key, old⟩ := first
      rw [value?] at h
      split at h
      · next heq =>
          cases h
          rw [heq]
          exact List.mem_cons_self
      · exact List.mem_cons_of_mem _ (ih h)

theorem mem_of_valueOfEither? {attributes : Attributes} {name value : String}
    (h : attributes.valueOfEither? name = some value) : ∃ key, (key, value) ∈ attributes := by
  unfold valueOfEither? at h
  rcases Option.or_eq_some_iff.mp h with h | ⟨-, h⟩
  · obtain ⟨key, -, h⟩ := Option.bind_eq_some_iff.mp h
    exact ⟨key, mem_of_value? h⟩
  · exact ⟨name, mem_of_value? h⟩

end Attributes

end LateMarkup
