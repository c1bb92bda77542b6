import Mathlib.Data.List.Nodup
import LateMarkup.Proofs.Construction

/-!
# Where nodes are

Annotating moves nodes in two ways only. Cutting out the content of a node takes exactly its nodes
out of the document, and wrapping puts a new node in. From the top down, a node therefore stands in
the document for as long as nothing above it was cut out (`Document.Placed`).

What an edit adds and takes away is counted (`Forest.weigh_edit`): in a forest where no number
occurs twice, an edit changes any sum over the nodes by what it changes in the edited tree.
-/

namespace LateMarkup

/-! ## Sums over the nodes -/

namespace Forest

/-- What the nodes of a forest weigh together. -/
def weigh (weight : Nat → Label → Nat) : Forest → Nat
  | nil => 0
  | node id label children next =>
    weight id label + (children.weigh weight + next.weigh weight)

variable {weight : Nat → Label → Nat} {id : Nat}

theorem weigh_append (a b : Forest) :
    (a ++ b).weigh weight = a.weigh weight + b.weigh weight := by
  induction a with
  | nil => exact (Nat.zero_add _).symm
  | node id label children next _ ih =>
      rw [node_append, weigh, weigh, ih]
      omega

theorem weigh_tree (id : Nat) (label : Label) (children : Forest) :
    (tree id label children).weigh weight = weight id label + children.weigh weight := by
  show weight id label + (children.weigh weight + 0) = _
  rw [Nat.add_zero]

/-- An edit changes a sum as it changes the edited tree. -/
theorem weigh_edit {forest : Forest} (nodup : forest.ids.Nodup)
    {change : Label → Forest → Forest} (lost gained : Nat)
    (put : forest.All fun here label children => here = id →
      (change label children).weigh weight + lost =
        (tree here label children).weigh weight + gained) :
    (forest.edit id change).weigh weight + (if id ∈ forest.ids then lost else 0) =
      forest.weigh weight + (if id ∈ forest.ids then gained else 0) := by
  induction forest with
  | nil => simp [edit, ids]
  | node here label children next ihChildren ihNext =>
      obtain ⟨hput, putBelow, putBeside⟩ := put
      rw [ids, List.nodup_cons, List.mem_append, not_or] at nodup
      obtain ⟨-, nodup⟩ := nodup
      obtain ⟨nodupChildren, nodupNext, disjoint⟩ := List.nodup_append.mp nodup
      by_cases heq : here = id
      · have changed := hput heq
        subst heq
        rw [weigh_tree] at changed
        have mem : here ∈ (node here label children next).ids := List.mem_cons_self
        rw [edit, if_pos rfl, if_pos mem, if_pos mem, weigh_append, weigh]
        omega
      · have below := ihChildren nodupChildren putBelow
        have beside := ihNext nodupNext putBeside
        have mem : id ∈ (node here label children next).ids ↔
            id ∈ children.ids ∨ id ∈ next.ids := by
          rw [ids, List.mem_cons, List.mem_append]
          exact or_iff_right (Ne.symm heq)
        rw [edit, if_neg heq, weigh, weigh]
        -- The node is in at most one of the two rows.
        by_cases hchildren : id ∈ children.ids
        · have hnext : id ∉ next.ids := fun hnext => disjoint id hchildren id hnext rfl
          rw [if_pos hchildren, if_pos hchildren] at below
          rw [if_neg hnext, if_neg hnext] at beside
          rw [if_pos (mem.mpr (Or.inl hchildren)), if_pos (mem.mpr (Or.inl hchildren))]
          omega
        · rw [if_neg hchildren, if_neg hchildren] at below
          by_cases hnext : id ∈ next.ids
          · rw [if_pos hnext, if_pos hnext] at beside
            rw [if_pos (mem.mpr (Or.inr hnext)), if_pos (mem.mpr (Or.inr hnext))]
            omega
          · rw [if_neg hnext, if_neg hnext] at beside
            have absent : id ∉ (node here label children next).ids := fun h =>
              (mem.mp h).elim hchildren hnext
            rw [if_neg absent, if_neg absent]
            omega

theorem count_ids (x : Nat) (forest : Forest) :
    forest.ids.count x = forest.weigh fun here _ => if here = x then 1 else 0 := by
  induction forest with
  | nil => rfl
  | node here label children next ihChildren ihNext =>
      rw [ids, List.count_cons, List.count_append, ihChildren, ihNext, weigh]
      simp only [beq_iff_eq]
      omega

theorem count_ids_edit {forest : Forest} (nodup : forest.ids.Nodup) (x : Nat)
    {change : Label → Forest → Forest} {lost gained : List Nat}
    (put : forest.All fun here label children => here = id →
      ((change label children).ids ++ lost).Perm ((tree here label children).ids ++ gained)) :
    (forest.edit id change).ids.count x + (if id ∈ forest.ids then lost.count x else 0) =
      forest.ids.count x + (if id ∈ forest.ids then gained.count x else 0) := by
  rw [count_ids, count_ids]
  apply weigh_edit nodup (lost.count x) (gained.count x)
  refine put.mono fun here label children hput heq => ?_
  have perm := (hput heq).count_eq x
  rw [List.count_append, List.count_append, count_ids, count_ids] at perm
  exact perm

theorem ids_relabel (id : Nat) (change : Label → Label) (forest : Forest) :
    (forest.edit id fun label children => tree id (change label) children).ids = forest.ids := by
  induction forest with
  | nil => rfl
  | node here label children next ihChildren ihNext =>
      rw [edit]
      split
      · next heq =>
          subst heq
          rfl
      · rw [ids, ihChildren, ihNext, ids]

theorem edit_emptied (id : Nat) (change : Label → Label) (forest : Forest) :
    (forest.edit id fun label _ => tree id label nil).edit id
        (fun label children => tree id (change label) children) =
      forest.edit id fun label _ => tree id (change label) nil := by
  induction forest with
  | nil => rfl
  | node here label children next ihChildren ihNext =>
      by_cases heq : here = id
      · rw [edit, edit, if_pos heq, if_pos heq]
        show (node id label nil (nil ++ next)).edit id _ = _
        rw [edit, if_pos rfl]
        rfl
      · rw [edit, edit, if_neg heq, if_neg heq, edit, if_neg heq, ihChildren, ihNext]

/-! ## Nodes that are there -/

theorem exists_find?_of_mem {forest : Forest} (mem : id ∈ forest.ids) :
    ∃ found, forest.find? id = some found := by
  induction forest with
  | nil => cases mem
  | node here label children next ihChildren ihNext =>
      rw [find?]
      by_cases heq : here = id
      · exact ⟨(label, children), if_pos heq⟩
      · rw [if_neg heq]
        rw [ids, List.mem_cons, List.mem_append] at mem
        rcases mem with heq' | mem | mem
        · exact absurd heq'.symm heq
        · obtain ⟨found, hfound⟩ := ihChildren mem
          exact ⟨found, by rw [hfound]; rfl⟩
        · obtain ⟨found, hfound⟩ := ihNext mem
          cases hchildren : children.find? id with
          | none => exact ⟨found, hfound⟩
          | some other => exact ⟨other, rfl⟩

/-- A node of a forest is as all nodes are, and what is below it is in the forest. -/
theorem All.of_mem {P : Nat → Label → Forest → Prop} {forest : Forest} (h : forest.All P)
    (mem : id ∈ forest.ids) :
    ∃ label children, P id label children ∧ ∀ x ∈ children.ids, x ∈ forest.ids := by
  induction forest with
  | nil => cases mem
  | node here label children next ihChildren ihNext =>
      obtain ⟨hhere, below, beside⟩ := h
      rw [ids, List.mem_cons, List.mem_append] at mem
      rcases mem with rfl | mem | mem
      · refine ⟨label, children, hhere, fun x hx => ?_⟩
        exact List.mem_cons_of_mem _ (List.mem_append_left _ hx)
      · obtain ⟨label', children', hP, sub⟩ := ihChildren below mem
        refine ⟨label', children', hP, fun x hx => ?_⟩
        exact List.mem_cons_of_mem _ (List.mem_append_left _ (sub x hx))
      · obtain ⟨label', children', hP, sub⟩ := ihNext beside mem
        refine ⟨label', children', hP, fun x hx => ?_⟩
        exact List.mem_cons_of_mem _ (List.mem_append_right _ (sub x hx))

/-! ## Nodes that are written -/

/-- The nodes that have a part in the markup, in the order in which they are written. -/
def written : Forest → List Nat
  | nil => []
  | node id (.text _) _ next => id :: next.written
  | node id (.element _ _) children next => id :: (children.written ++ next.written)

theorem written_eq_ids {forest : Forest} (texts : forest.All fun _ => Document.Childless) :
    forest.written = forest.ids := by
  induction forest with
  | nil => rfl
  | node id label children next ihChildren ihNext =>
      obtain ⟨childless, below, beside⟩ := texts
      cases label with
      | text content =>
          rw [written, ihNext beside, childless content rfl]
          rfl
      | element tag attributes => rw [written, ihChildren below, ihNext beside, ids]

end Forest

/-! ## Where the nodes of a document go -/

namespace Document

variable {original doc : Document} {cut : List Nat} {node : Nat}

theorem Regular.mem_content_trans (h : original.Regular) {above x : Nat}
    (inside : node ∈ (original.content above).ids) (hx : x ∈ (original.content node).ids) :
    x ∈ (original.content above).ids := by
  have nodes := Forest.all_find? h.nodup
  unfold Document.content at inside
  split at inside
  · next tag attributes children found =>
      have habove : original.content above = children := by
        rw [Document.content, found]
      rw [h.find?] at found
      obtain ⟨label, below, hnode, sub⟩ := (nodes.of_find? found).2.of_mem inside
      rw [habove]
      apply sub
      rw [← h.find?] at hnode
      unfold Document.content at hx
      rw [hnode] at hx
      cases label with
      | text content => cases hx
      | element tag attributes => exact hx
  · cases inside

theorem Regular.texts_content (h : original.Regular) (id : Nat) :
    (original.content id).All fun _ => Childless := by
  unfold Document.content
  rw [h.find?]
  split
  · next found => exact (h.texts.of_find? found).2
  · trivial

/-- A document that was annotated from the top down. `cut` are the nodes whose content was cut out.
-/
structure Placed (original : Document) (cut : List Nat) (doc : Document) : Prop where
  nodup : doc.roots.ids.Nodup
  bound : ∀ id ∈ doc.roots.ids, id < doc.size
  grown : original.size ≤ doc.size
  texts : doc.roots.All fun _ => Childless
  stays : ∀ id < original.size, id ∈ doc.roots.ids ↔
    id ∈ original.roots.ids ∧ ∀ above ∈ cut, id ∉ (original.content above).ids

theorem Regular.placed (h : original.Regular) : original.Placed [] original :=
  ⟨h.nodup, h.bound, Nat.le_refl _, h.texts, fun _ _ => (and_iff_left nofun).symm⟩

theorem Placed.relabel (h : original.Placed cut doc) {change : Label → Label}
    (texts : ∀ label children, Childless label children → Childless (change label) children) :
    original.Placed cut (doc.relabel node change) := by
  have ids : (doc.relabel node change).roots.ids = doc.roots.ids :=
    Forest.ids_relabel node change doc.roots
  refine ⟨ids ▸ h.nodup, ids ▸ h.bound, h.grown, ?_, ids ▸ h.stays⟩
  apply h.texts.edit
  · exact fun label children childless below => ⟨texts label children childless, below, trivial⟩
  · intro here label children childless content heq
    rw [childless content heq]
    rfl

theorem Placed.mapAttributes (h : original.Placed cut doc) (change : Attributes → Attributes) :
    original.Placed cut (doc.mapAttributes node change) := by
  apply h.relabel
  rintro (⟨tag, attributes⟩ | content) children childless text heq
  · cases heq
  · exact childless content rfl

theorem Placed.setTag (h : original.Placed cut doc) (tag : String) :
    original.Placed cut (doc.setTag node tag) := by
  apply h.relabel
  rintro (⟨old, attributes⟩ | content) children childless text heq
  · cases heq
  · exact childless content rfl

/-- Cutting out the content of an element, as it affects the trees that are left. -/
theorem roots_clear (elements : doc.Every fun id label _ =>
      id = node → ∃ tag attributes, label = .element tag attributes) :
    (doc.clear node).roots = doc.roots.edit node fun label _ => Forest.tree node label .nil := by
  unfold Document.clear
  split
  · rfl
  · next other =>
      have absent : node ∉ doc.roots.ids := by
        intro mem
        obtain ⟨⟨label, children⟩, found⟩ := Forest.exists_find?_of_mem mem
        obtain ⟨label', children', element, -⟩ := elements.1.of_mem mem
        have hfound : doc.find? node = some (label, children) := by
          rw [Document.find?, found]
          rfl
        obtain ⟨tag, attributes, rfl⟩ := (elements.find? hfound).1 rfl
        exact other tag attributes children hfound
      exact (Forest.edit_of_notMem absent).symm

/-- What is cut out of a node is what was in it from the start. -/
theorem Placed.clear (h : original.Placed cut doc) (regular : original.Regular)
    (mem : node ∈ original.roots.ids)
    (elements : doc.Every fun id label _ =>
      id = node → ∃ tag attributes, label = .element tag attributes)
    (content : doc.roots.All fun id _ children =>
      id = node → children = original.content node) :
    original.Placed (node :: cut) (doc.clear node) := by
  have put : doc.roots.All fun here label children => here = node →
      ((Forest.tree node label .nil).ids ++ (original.content node).ids).Perm
        ((Forest.tree here label children).ids ++ []) := by
    refine content.mono fun here label children hcontent heq => ?_
    rw [← hcontent heq, heq, List.append_nil]
    show (node :: children.ids).Perm (node :: (children.ids ++ []))
    rw [List.append_nil]
  have counts : ∀ x, (doc.clear node).roots.ids.count x +
      (if node ∈ doc.roots.ids then (original.content node).ids.count x else 0) =
        doc.roots.ids.count x := by
    intro x
    have changed := Forest.count_ids_edit h.nodup x put
    rw [roots_clear elements, changed]
    simp
  have once := List.nodup_iff_count_le_one.mp h.nodup
  have fewer : ∀ x < original.size, x ∈ (doc.clear node).roots.ids ↔
      x ∈ doc.roots.ids ∧ x ∉ (original.content node).ids := by
    intro x hx
    have count := counts x
    have atMost := once x
    by_cases here : node ∈ doc.roots.ids
    · rw [if_pos here] at count
      rw [← List.one_le_count_iff, ← List.one_le_count_iff, ← List.one_le_count_iff]
      omega
    · rw [if_neg here, Nat.add_zero] at count
      rw [← List.one_le_count_iff, count, List.one_le_count_iff]
      refine (and_iff_left_of_imp fun still inside => ?_).symm
      -- Something above the node was cut out before, and the content of the node went with it.
      rw [h.stays node (regular.bound node mem), and_iff_right mem] at here
      simp only [not_forall, not_not] at here
      obtain ⟨above, habove, hnode⟩ := here
      exact ((h.stays x hx).mp still).2 above habove (regular.mem_content_trans hnode inside)
  refine ⟨?_, ?_, ?_, ?_, ?_⟩
  · rw [List.nodup_iff_count_le_one]
    intro x
    have count := counts x
    have atMost := once x
    omega
  · intro id hid
    rw [size_clear]
    rw [← List.one_le_count_iff] at hid
    have count := counts id
    exact h.bound id (List.one_le_count_iff.mp (by omega))
  · rw [size_clear]
    exact h.grown
  · rw [roots_clear elements]
    apply h.texts.edit
    · exact fun label children childless _ => ⟨fun _ _ => rfl, trivial, trivial⟩
    · intro here label children childless text heq
      rw [childless text heq]
      rfl
  · intro id hid
    rw [fewer id hid, h.stays id hid, List.forall_mem_cons, and_assoc]
    exact and_congr_right fun _ => and_comm

/-- A wrapper is a new node, and moves no other one. -/
theorem Placed.wrap (h : original.Placed cut doc) (node : Nat) (tag : String) :
    original.Placed cut (doc.wrap node tag) := by
  have put : doc.roots.All fun here label children => here = node →
      ((Forest.tree doc.size (.element tag []) (Forest.tree node label children)).ids ++ []).Perm
        ((Forest.tree here label children).ids ++ [doc.size]) := by
    refine h.texts.mono fun here label children _ heq => ?_
    rw [← heq, List.append_nil]
    show (doc.size :: ((Forest.tree here label children).ids ++ [])).Perm _
    rw [List.append_nil]
    exact (List.perm_append_singleton doc.size _).symm
  have counts : ∀ x, (doc.wrap node tag).roots.ids.count x = doc.roots.ids.count x +
      (if node ∈ doc.roots.ids then [doc.size].count x else 0) := by
    intro x
    have changed := Forest.count_ids_edit h.nodup x put
    rw [List.count_nil, ite_self, Nat.add_zero] at changed
    exact changed
  have others : ∀ x, x ≠ doc.size →
      (doc.wrap node tag).roots.ids.count x = doc.roots.ids.count x := by
    intro x hx
    have none : [doc.size].count x = 0 := List.count_eq_zero.mpr fun mem =>
      hx (List.mem_singleton.mp mem)
    rw [counts, none, ite_self, Nat.add_zero]
  have fresh : doc.size ∉ doc.roots.ids := fun mem => Nat.lt_irrefl _ (h.bound _ mem)
  have once := List.nodup_iff_count_le_one.mp h.nodup
  refine ⟨?_, ?_, Nat.le_succ_of_le h.grown, ?_, ?_⟩
  · rw [List.nodup_iff_count_le_one]
    intro x
    by_cases hx : x = doc.size
    · subst hx
      rw [counts, List.count_eq_zero.mpr fresh, Nat.zero_add]
      split
      · rw [List.count_singleton_self]
      · exact Nat.zero_le 1
    · rw [others x hx]
      exact once x
  · intro id hid
    by_cases hx : id = doc.size
    · exact hx ▸ Nat.lt_succ_self _
    · rw [← List.one_le_count_iff, others id hx, List.one_le_count_iff] at hid
      exact Nat.lt_succ_of_lt (h.bound id hid)
  · apply h.texts.edit
    · exact fun label children childless below => ⟨nofun, ⟨childless, below, trivial⟩, trivial⟩
    · intro here label children childless text heq
      rw [childless text heq]
      rfl
  · intro id hid
    have hx : id ≠ doc.size := Nat.ne_of_lt (Nat.lt_of_lt_of_le hid h.grown)
    rw [← h.stays id hid, ← List.one_le_count_iff, others id hx, List.one_le_count_iff]

end Document

end LateMarkup
