import LateMarkup.Proofs.Editing

/-!
# Documents as they are built

A document is built by adding elements and texts to elements and by wrapping nodes. Each node gets a
number of its own, nothing is cut out, and nothing hangs below a text. So a node can be told from
all others by its number, and every tree of the document is part of its markup.
-/

namespace LateMarkup

/-! ## Numbers -/

namespace Forest

theorem ids_append (a b : Forest) : (a ++ b).ids = a.ids ++ b.ids := by
  induction a with
  | nil => rfl
  | node id label children next _ ih =>
      rw [node_append, ids, ids, ih, List.cons_append, List.append_assoc]

theorem find?_eq_none {forest : Forest} {id : Nat} (h : id ∉ forest.ids) :
    forest.find? id = none := by
  induction forest with
  | nil => rfl
  | node here label children next ihChildren ihNext =>
      rw [ids, List.mem_cons, List.mem_append, not_or, not_or] at h
      obtain ⟨hhere, hchildren, hnext⟩ := h
      rw [find?, if_neg (Ne.symm hhere), ihChildren hchildren, ihNext hnext]
      rfl

theorem mem_ids_of_find? {forest : Forest} {id : Nat} {found : Label × Forest}
    (h : forest.find? id = some found) : id ∈ forest.ids := by
  by_contra hmem
  rw [find?_eq_none hmem] at h
  cases h

theorem edit_of_notMem {forest : Forest} {id : Nat} {change : Label → Forest → Forest}
    (h : id ∉ forest.ids) : forest.edit id change = forest := by
  induction forest with
  | nil => rfl
  | node here label children next ihChildren ihNext =>
      rw [ids, List.mem_cons, List.mem_append, not_or, not_or] at h
      obtain ⟨hhere, hchildren, hnext⟩ := h
      rw [edit, if_neg (Ne.symm hhere), ihChildren hchildren, ihNext hnext]

/-- Where no number occurs twice, every node is the one that is found under its number. -/
theorem all_find? {forest : Forest} (nodup : forest.ids.Nodup) :
    forest.All fun id label children => forest.find? id = some (label, children) := by
  induction forest with
  | nil => trivial
  | node here label children next ihChildren ihNext =>
      rw [ids, List.nodup_cons, List.mem_append, not_or] at nodup
      obtain ⟨⟨hchildren, hnext⟩, nodup⟩ := nodup
      obtain ⟨nodupChildren, nodupNext, disjoint⟩ := List.nodup_append.mp nodup
      refine ⟨if_pos rfl, (ihChildren nodupChildren).mono ?_, (ihNext nodupNext).mono ?_⟩
      · intro id label' below found
        have hne : here ≠ id := by
          rintro rfl
          exact hchildren (mem_ids_of_find? found)
        rw [find?, if_neg hne, found]
        rfl
      · intro id label' below found
        have hmem := mem_ids_of_find? found
        have hne : here ≠ id := by
          rintro rfl
          exact hnext hmem
        have absent : children.find? id = none :=
          find?_eq_none fun hc => disjoint id hc id hmem rfl
        rw [find?, if_neg hne, absent, found]
        rfl

/-- Where no number occurs twice, no node is below itself. -/
theorem all_notMem {forest : Forest} (nodup : forest.ids.Nodup) :
    forest.All fun id _ children => id ∉ children.ids := by
  induction forest with
  | nil => trivial
  | node here label children next ihChildren ihNext =>
      rw [ids, List.nodup_cons, List.mem_append, not_or] at nodup
      obtain ⟨⟨hchildren, -⟩, nodup⟩ := nodup
      obtain ⟨nodupChildren, nodupNext, -⟩ := List.nodup_append.mp nodup
      exact ⟨hchildren, ihChildren nodupChildren, ihNext nodupNext⟩

/-- An edit of a node adds the numbers that it puts beside that of the node. -/
theorem ids_edit_perm {forest : Forest} {id : Nat} {change : Label → Forest → Forest}
    {extra : List Nat}
    (h : ∀ label children, (change label children).ids.Perm (extra ++ id :: children.ids))
    (nodup : forest.ids.Nodup) (mem : id ∈ forest.ids) :
    (forest.edit id change).ids.Perm (extra ++ forest.ids) := by
  induction forest with
  | nil => cases mem
  | node here label children next ihChildren ihNext =>
      rw [ids, List.nodup_cons, List.mem_append, not_or] at nodup
      obtain ⟨-, nodup⟩ := nodup
      obtain ⟨nodupChildren, nodupNext, disjoint⟩ := List.nodup_append.mp nodup
      rw [edit, ids]
      split
      · next heq =>
          subst heq
          rw [ids_append]
          have put := (h label children).append_right next.ids
          rwa [List.append_assoc, List.cons_append] at put
      · next hne =>
          rw [ids, List.mem_cons, List.mem_append] at mem
          rw [ids]
          -- The node is in one of the two rows, and the other stays.
          rcases mem with rfl | hchildren | hnext
          · exact absurd rfl hne
          · rw [edit_of_notMem fun hn => disjoint id hchildren id hn rfl]
            have below := ((ihChildren nodupChildren hchildren).append_right next.ids).cons here
            rw [List.append_assoc] at below
            exact below.trans List.perm_middle.symm
          · rw [edit_of_notMem fun hc => disjoint id hc id hnext rfl]
            have beside := ((ihNext nodupNext hnext).append_left children.ids).cons here
            refine beside.trans ((List.Perm.cons here ?_).trans List.perm_middle.symm)
            rw [← List.append_assoc, ← List.append_assoc]
            exact List.perm_append_comm.append_right next.ids

end Forest

/-! ## Building -/

namespace Document

def IsElement (doc : Document) (id : Nat) : Prop :=
  ∃ tag attributes children, doc.find? id = some (.element tag attributes, children)

/-- A document that was built under element parents. -/
inductive Built : Document → Prop
  | empty : Built {}
  | element {doc : Document} (built : Built doc) {parent : Option Nat}
      (under : ∀ id ∈ parent, doc.IsElement id) (tag : String)
      (attributes : List (String × String)) : Built (doc.addElement parent tag attributes)
  | text {doc : Document} (built : Built doc) {parent : Nat} (under : doc.IsElement parent)
      (content : String) : Built (doc.addText parent content)
  | wrap {doc : Document} (built : Built doc) (id : Nat) (tag : String) : Built (doc.wrap id tag)

def Childless (label : Label) (children : Forest) : Prop :=
  ∀ content, label = .text content → children = .nil

/-- What building guarantees. -/
structure Regular (doc : Document) : Prop where
  detached : doc.detached = .nil
  nodup : doc.roots.ids.Nodup
  bound : ∀ id ∈ doc.roots.ids, id < doc.size
  texts : doc.roots.All fun _ => Childless

theorem Regular.find? {doc : Document} (h : doc.Regular) (id : Nat) :
    doc.find? id = doc.roots.find? id := by
  rw [Document.find?, h.detached]
  exact Option.or_none

theorem Regular.mem_of_isElement {doc : Document} (h : doc.Regular) {id : Nat}
    (element : doc.IsElement id) : id ∈ doc.roots.ids := by
  obtain ⟨tag, attributes, children, found⟩ := element
  rw [h.find?] at found
  exact Forest.mem_ids_of_find? found

/-- What is known of every node with what is in it is known of the content of a node. -/
theorem Regular.content {doc : Document} (h : doc.Regular) {P : Nat → Forest → Prop}
    (nodes : doc.roots.All fun id _ children => P id children) {id : Nat} (empty : P id .nil) :
    P id (doc.content id) := by
  unfold Document.content
  rw [h.find?]
  split
  · next found => exact (nodes.of_find? found).1
  · exact empty

theorem Regular.notMem_content {doc : Document} (h : doc.Regular) (id : Nat) :
    id ∉ (doc.content id).ids :=
  h.content (Forest.all_notMem h.nodup) List.not_mem_nil

theorem Regular.grow {doc : Document} (h : doc.Regular) {id : Nat}
    {change : Label → Forest → Forest}
    (ids : ∀ label children, (change label children).ids.Perm ([doc.size] ++ id :: children.ids))
    (texts : (doc.roots.edit id change).All fun _ => Childless) :
    Regular { doc.edit id change with size := doc.size + 1 } := by
  have fresh : doc.size ∉ doc.roots.ids := fun hmem => Nat.lt_irrefl _ (h.bound _ hmem)
  have detached : (doc.detached.edit id change) = .nil := by
    rw [h.detached]
    rfl
  by_cases hmem : id ∈ doc.roots.ids
  · have perm := Forest.ids_edit_perm ids h.nodup hmem
    refine ⟨detached, ?_, ?_, texts⟩
    · exact perm.symm.nodup (List.nodup_cons.mpr ⟨fresh, h.nodup⟩)
    · intro other hother
      rcases List.mem_cons.mp (perm.mem_iff.mp hother) with rfl | hother
      · exact Nat.lt_succ_self _
      · exact Nat.lt_succ_of_lt (h.bound other hother)
  · have same : doc.roots.edit id change = doc.roots := Forest.edit_of_notMem hmem
    refine ⟨detached, ?_, ?_, texts⟩
    · show (doc.roots.edit id change).ids.Nodup
      rw [same]
      exact h.nodup
    · intro other hother
      have hother : other ∈ (doc.roots.edit id change).ids := hother
      rw [same] at hother
      exact Nat.lt_succ_of_lt (h.bound other hother)

theorem Regular.addTo {doc : Document} (h : doc.Regular) {parent : Nat}
    (under : doc.IsElement parent) (label : Label) : (doc.add (some parent) label).Regular := by
  apply h.grow
  · intro above children
    show (parent :: ((children ++ Forest.tree doc.size label .nil).ids ++ [])).Perm _
    rw [List.append_nil, Forest.ids_append]
    exact (List.Perm.cons parent List.perm_append_comm).trans (List.Perm.swap _ _ _)
  · obtain ⟨tag, attributes, content, found⟩ := under
    rw [h.find?] at found
    -- Only one node has the number of the parent, and it is no text.
    have nodes : doc.roots.All fun here above below => Childless above below ∧
        (here = parent → above = .element tag attributes) := by
      refine h.texts.and ((Forest.all_find? h.nodup).mono ?_)
      rintro here above below hhere rfl
      rw [found] at hhere
      cases hhere
      rfl
    refine Forest.All.mono (nodes.edit ?_ ?_) fun _ _ _ hnode => hnode.1
    · intro above children hnode below
      have habove := hnode.2 rfl
      refine ⟨⟨?_, fun _ => habove⟩, Forest.all_append.mpr ⟨below, ?_⟩, trivial⟩
      · rintro text rfl
        cases habove
      · refine ⟨⟨fun _ _ => rfl, ?_⟩, trivial, trivial⟩
        rintro rfl
        exact absurd (h.bound _ (Forest.mem_ids_of_find? found)) (Nat.lt_irrefl _)
    · intro here above below hnode
      refine ⟨?_, hnode.2⟩
      rintro text rfl
      rw [hnode.1 text rfl]
      rfl

theorem Regular.addRoot {doc : Document} (h : doc.Regular) (label : Label) :
    (doc.add none label).Regular := by
  refine ⟨h.detached, ?_, ?_, Forest.all_append.mpr ⟨h.texts, fun _ _ => rfl, trivial, trivial⟩⟩
  · show (doc.roots ++ Forest.tree doc.size label .nil).ids.Nodup
    rw [Forest.ids_append]
    refine List.nodup_append.mpr ⟨h.nodup, by simp [Forest.tree, Forest.ids], ?_⟩
    intro id hid other hother heq
    subst heq
    rw [List.mem_singleton.mp hother] at hid
    exact Nat.lt_irrefl _ (h.bound _ hid)
  · intro id hid
    have hid : id ∈ (doc.roots ++ Forest.tree doc.size label .nil).ids := hid
    rw [Forest.ids_append, List.mem_append] at hid
    rcases hid with hid | hid
    · exact Nat.lt_succ_of_lt (h.bound id hid)
    · rw [List.mem_singleton.mp hid]
      exact Nat.lt_succ_self _

theorem Regular.wrap {doc : Document} (h : doc.Regular) (id : Nat) (tag : String) :
    (doc.wrap id tag).Regular := by
  apply h.grow
  · intro label children
    show (doc.size :: ((id :: (children.ids ++ [])) ++ [])).Perm _
    rw [List.append_nil, List.append_nil]
    rfl
  · apply h.texts.edit
    · exact fun label children hnode below => ⟨nofun, ⟨hnode, below, trivial⟩, trivial⟩
    · intro here label children hnode text heq
      rw [hnode text heq]
      rfl

/-- **What is built is regular.** -/
theorem Built.regular {doc : Document} (built : doc.Built) : doc.Regular := by
  induction built with
  | empty => exact ⟨rfl, List.nodup_nil, nofun, trivial⟩
  | @element doc built parent under tag attributes ih =>
      cases parent with
      | none => exact ih.addRoot _
      | some parent => exact ih.addTo (under parent rfl) _
  | text built under content ih => exact ih.addTo under _
  | wrap built id tag ih => exact ih.wrap id tag

end Document

/-! ## Without marker text -/

def Label.Plain : Label → Prop
  | .element tag attributes =>
    Unmarked tag.toList ∧ ∀ pair ∈ attributes,
      Unmarked pair.1.toList ∧ Unmarked (pair.2.toList.flatMap Forest.spellValueChar)
  | .text content => Unmarked (content.toList.flatMap Forest.spellTextChar)

namespace Forest

theorem unmarked_of_attributesMarkup {attributes : Attributes}
    (free : Unmarked (attributesMarkup attributes).toList) :
    ∀ pair ∈ attributes,
      Unmarked pair.1.toList ∧ Unmarked (pair.2.toList.flatMap spellValueChar) := by
  induction attributes with
  | nil => nofun
  | cons first rest ih =>
      obtain ⟨name, value⟩ := first
      rw [toList_attributesMarkup_cons] at free
      intro pair hpair
      rcases List.mem_cons.mp hpair with rfl | hpair
      · have part := free.left
        rw [toList_attributesMarkup_single, unmarked_cons (by decide),
          unmarked_append_cons (by decide), unmarked_cons (by decide)] at part
        exact ⟨part.1, part.2.left⟩
      · exact ih free.right pair hpair

theorem toList_elementMarkup (tag : String) (attributes : Attributes) (hollow : Bool)
    (content : String) :
    (elementMarkup tag attributes hollow content).toList =
      '<' :: (tag.toList ++ ((attributesMarkup attributes).toList ++
        if hollow && voidTags.contains tag then ['/', '>']
        else '>' :: (content.toList ++ '<' :: '/' :: (tag.toList ++ ['>'])))) := by
  unfold elementMarkup
  split <;> simp

theorem unmarked_of_elementMarkup {tag : String} {attributes : Attributes} {hollow : Bool}
    {content : String} (free : Unmarked (elementMarkup tag attributes hollow content).toList) :
    Unmarked tag.toList ∧ Unmarked (attributesMarkup attributes).toList ∧
      (hollow = false → Unmarked content.toList) := by
  rw [toList_elementMarkup, unmarked_cons (by decide)] at free
  refine ⟨free.left, free.right.left, ?_⟩
  rintro rfl
  have body := free.right.right
  rw [Bool.false_and, if_neg Bool.false_ne_true, unmarked_cons (by decide)] at body
  exact body.left

/-- Where there is no marker text in the markup of an element, there is none in what it is, and none
in it. -/
theorem plain_of_elementMarkup {tag : String} {attributes : Attributes} {children : Forest}
    (free : Unmarked (elementMarkup tag attributes children.isEmpty children.markup).toList) :
    (Label.element tag attributes).Plain ∧ Unmarked children.markup.toList := by
  obtain ⟨htag, hattributes, hcontent⟩ := unmarked_of_elementMarkup free
  refine ⟨⟨htag, unmarked_of_attributesMarkup hattributes⟩, ?_⟩
  cases children with
  | nil => exact Unmarked.nil
  | node _ _ _ _ => exact hcontent rfl

theorem unmarked_rowText (before : List Char) {forest : Forest}
    (free : Unmarked (before ++ forest.markup.toList)) : Unmarked (before ++ forest.rowText) := by
  induction forest generalizing before with
  | nil => exact free
  | node id label children next _ ih =>
      cases label with
      | text content =>
          rw [markup, String.toList_append, textMarkup, String.toList_ofList,
            ← List.append_assoc] at free
          rw [rowText, ← List.append_assoc]
          exact ih _ free
      | element tag attributes =>
          rw [markup, String.toList_append] at free
          show Unmarked (before ++ '<' :: next.rowText)
          rw [unmarked_append_cons (by decide)]
          exact ⟨free.left, ih [] free.right.right⟩

theorem all_plain {forest : Forest} (texts : forest.All fun _ => Document.Childless)
    (free : Unmarked forest.markup.toList) :
    forest.All fun _ label children => label.Plain ∧ Unmarked children.markup.toList := by
  induction forest with
  | nil => trivial
  | node id label children next ihChildren ihNext =>
      obtain ⟨childless, below, beside⟩ := texts
      cases label with
      | text content =>
          rw [markup, String.toList_append] at free
          have part := free.left
          rw [textMarkup, String.toList_ofList] at part
          have alone : children = .nil := childless content rfl
          subst alone
          exact ⟨⟨part, Unmarked.nil⟩, trivial, ihNext beside free.right⟩
      | element tag attributes =>
          rw [markup, String.toList_append] at free
          obtain ⟨plain, inner⟩ := plain_of_elementMarkup free.left
          exact ⟨⟨plain, inner⟩, ihChildren below inner, ihNext beside free.right⟩

end Forest

theorem Document.Regular.unmarked_content {doc : Document} (h : doc.Regular)
    (free : Unmarked doc.markup.toList) (id : Nat) : Unmarked (doc.contentMarkup id).toList := by
  have nodes := (Forest.all_plain h.texts free).mono fun _ _ _ hnode => hnode.2
  exact h.content (P := fun _ content => Unmarked content.markup.toList) nodes Unmarked.nil

end LateMarkup
