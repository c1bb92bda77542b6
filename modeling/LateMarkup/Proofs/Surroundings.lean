import LateMarkup.Proofs.Numbering
import LateMarkup.Proofs.Placement

/-!
# What stands around a node

A node that is written stands at one place of the markup (`Forest.around?`). Whatever an edit puts
there, the markup before it and behind it stays (`Forest.markup_edit`). Of the nodes themselves, an
effect changes the label of the one it is about and of no other, wherever these are
(`Document.Numbered.label_enact`), and what is below a node only where that node is above its own
(`Document.Numbered.find?_enact`).
-/

namespace LateMarkup

namespace Forest

variable {id : Nat}

theorem mem_ids_of_mem_written {forest : Forest} (mem : id ∈ forest.written) : id ∈ forest.ids := by
  induction forest with
  | nil => cases mem
  | node here label children next ihChildren ihNext =>
      rw [ids, List.mem_cons, List.mem_append]
      cases label with
      | text content =>
          rcases List.mem_cons.mp mem with rfl | mem
          · exact Or.inl rfl
          · exact Or.inr (Or.inr (ihNext mem))
      | element tag attributes =>
          rcases List.mem_cons.mp mem with rfl | mem
          · exact Or.inl rfl
          · exact Or.inr ((List.mem_append.mp mem).imp ihChildren ihNext)

theorem edit_tree (id : Nat) (forest : Forest) :
    forest.edit id (fun label children => tree id label children) = forest := by
  induction forest with
  | nil => rfl
  | node here label children next ihChildren ihNext =>
      rw [edit, ihChildren, ihNext]
      split
      · next heq =>
          rw [heq]
          rfl
      · rfl

theorem markup_append (a b : Forest) : (a ++ b).markup = a.markup ++ b.markup := by
  induction a with
  | nil => exact String.empty_append.symm
  | node here label children next _ ih =>
      rw [node_append]
      cases label with
      | text content => rw [markup, markup, ih, String.append_assoc]
      | element tag attributes => rw [markup, markup, ih, String.append_assoc]

theorem markup_node (here : Nat) (label : Label) (children next : Forest) :
    (node here label children next).markup =
      (tree here label children).markup ++ next.markup :=
  markup_append (tree here label children) next

/-- The markup before the place of a node, and the markup behind it. A node has a place if it is
written. -/
def around? (id : Nat) : Forest → Option (String × String)
  | nil => none
  | node here label children next =>
    if here = id then some ("", next.markup)
    else
      let beside := (next.around? id).map fun (front, behind) =>
        ((tree here label children).markup ++ front, behind)
      match label with
      | .text _ => beside
      | .element tag attributes =>
        ((children.around? id).map fun (front, behind) =>
          ("<" ++ tag ++ attributesMarkup attributes ++ ">" ++ front,
            behind ++ "</" ++ tag ++ ">" ++ next.markup)).or beside

theorem exists_around? {forest : Forest} (mem : id ∈ forest.written) :
    ∃ front behind, forest.around? id = some (front, behind) := by
  induction forest with
  | nil => cases mem
  | node here label children next ihChildren ihNext =>
      rw [around?]
      split
      · exact ⟨_, _, rfl⟩
      · next hne =>
          cases label with
          | text content =>
              rcases List.mem_cons.mp mem with rfl | mem
              · exact absurd rfl hne
              · obtain ⟨front, behind, place⟩ := ihNext mem
                exact ⟨_, _, by rw [place]; rfl⟩
          | element tag attributes =>
              rcases List.mem_cons.mp mem with rfl | mem
              · exact absurd rfl hne
              · cases below : children.around? id with
                | some place => exact ⟨_, _, rfl⟩
                | none =>
                    rcases List.mem_append.mp mem with mem | mem
                    · obtain ⟨_, _, place⟩ := ihChildren mem
                      rw [below] at place
                      cases place
                    · obtain ⟨front, behind, place⟩ := ihNext mem
                      exact ⟨_, _, by rw [place]; rfl⟩

theorem mem_ids_of_around? {forest : Forest} {place : String × String}
    (found : forest.around? id = some place) : id ∈ forest.ids := by
  induction forest generalizing place with
  | nil => cases found
  | node here label children next ihChildren ihNext =>
      rw [ids, List.mem_cons, List.mem_append]
      rw [around?] at found
      split at found
      · next heq => exact Or.inl heq.symm
      · cases label with
        | text content =>
            obtain ⟨_, found, -⟩ := Option.map_eq_some_iff.mp found
            exact Or.inr (Or.inr (ihNext found))
        | element tag attributes =>
            rcases Option.or_eq_some_iff.mp found with found | ⟨-, found⟩
            · obtain ⟨_, found, -⟩ := Option.map_eq_some_iff.mp found
              exact Or.inr (Or.inl (ihChildren found))
            · obtain ⟨_, found, -⟩ := Option.map_eq_some_iff.mp found
              exact Or.inr (Or.inr (ihNext found))

theorem around?_eq_none {forest : Forest} (absent : id ∉ forest.ids) :
    forest.around? id = none := by
  cases found : forest.around? id with
  | none => rfl
  | some place => exact absurd (mem_ids_of_around? found) absent

theorem isEmpty_of_around? {forest : Forest} {place : String × String}
    (found : forest.around? id = some place) : forest.isEmpty = false := by
  cases forest with
  | nil => cases found
  | node _ _ _ _ => rfl

section Edit

variable {forest : Forest} {change : Label → Forest → Forest} {front behind : String}

/-- An edit that puts something in the place of a node leaves no row empty that was not. -/
theorem isEmpty_edit (full : ∀ label children, (change label children).isEmpty = false)
    (forest : Forest) : (forest.edit id change).isEmpty = forest.isEmpty := by
  cases forest with
  | nil => rfl
  | node here label children next =>
      rw [edit]
      split
      · have first := full label children
        cases hchange : change label children with
        | nil =>
            rw [hchange] at first
            cases first
        | node _ _ _ _ => rfl
      · rfl

/-- **A node has one place in the markup.** What is put there stands between the same texts. -/
theorem markup_edit {label : Label} {children : Forest} (nodup : forest.ids.Nodup)
    (place : forest.around? id = some (front, behind))
    (found : forest.find? id = some (label, children))
    (full : ∀ label children, (change label children).isEmpty = false) :
    (forest.edit id change).markup = front ++ (change label children).markup ++ behind := by
  induction forest generalizing front behind with
  | nil => cases place
  | node here l c next ihChildren ihNext =>
      rw [ids, List.nodup_cons] at nodup
      obtain ⟨nodupChildren, nodupNext, disjoint⟩ := List.nodup_append.mp nodup.2
      by_cases heq : here = id
      · rw [around?, if_pos heq] at place
        rw [find?, if_pos heq] at found
        cases place
        cases found
        rw [edit, if_pos heq, markup_append, String.empty_append]
      · rw [around?, if_neg heq] at place
        rw [find?, if_neg heq] at found
        rw [edit, if_neg heq]
        -- The node is below this one or beside it, and what is put there does not show in the rest.
        have beside {f b : String} (there : next.around? id = some (f, b)) :
            (node here l (c.edit id change) (next.edit id change)).markup =
              (tree here l c).markup ++ f ++ (change label children).markup ++ b := by
          have absent : id ∉ c.ids :=
            fun below => disjoint id below id (mem_ids_of_around? there) rfl
          rw [find?_eq_none absent, Option.none_or] at found
          rw [edit_of_notMem absent, markup_node, ihNext nodupNext there found]
          simp only [String.append_assoc]
        cases l with
        | text content =>
            obtain ⟨_, there, shape⟩ := Option.map_eq_some_iff.mp place
            cases shape
            exact beside there
        | element tag attributes =>
            rcases Option.or_eq_some_iff.mp place with inside | ⟨-, aside⟩
            · obtain ⟨_, there, shape⟩ := Option.map_eq_some_iff.mp inside
              cases shape
              have absent : id ∉ next.ids :=
                fun beside => disjoint id (mem_ids_of_around? there) id beside rfl
              rw [find?_eq_none absent, Option.or_none] at found
              rw [edit_of_notMem absent, markup, isEmpty_edit full, isEmpty_of_around? there,
                ihChildren nodupChildren there found, elementMarkup]
              simp [String.append_assoc]
            · obtain ⟨_, there, shape⟩ := Option.map_eq_some_iff.mp aside
              cases shape
              exact beside there

theorem markup_of_around? {label : Label} {children : Forest} (nodup : forest.ids.Nodup)
    (place : forest.around? id = some (front, behind))
    (found : forest.find? id = some (label, children)) :
    forest.markup = front ++ (tree id label children).markup ++ behind := by
  have same :
      (forest.edit id (tree id)).markup = front ++ (tree id label children).markup ++ behind :=
    markup_edit nodup place found fun _ _ => rfl
  rwa [edit_tree] at same

/-- A tree that is put in the place of a node stands there, under its own number. -/
theorem around?_edit {top : Nat} (nodup : forest.ids.Nodup)
    (place : forest.around? id = some (front, behind)) (fresh : top ∈ forest.ids → top = id)
    (put : ∀ label children, ∃ l c, change label children = tree top l c) :
    (forest.edit id change).around? top = some (front, behind) := by
  induction forest generalizing front behind with
  | nil => cases place
  | node here l c next ihChildren ihNext =>
      rw [ids, List.nodup_cons] at nodup
      obtain ⟨nodupChildren, nodupNext, disjoint⟩ := List.nodup_append.mp nodup.2
      rw [ids, List.mem_cons, List.mem_append] at fresh
      by_cases heq : here = id
      · rw [around?, if_pos heq] at place
        cases place
        obtain ⟨l', c', shape⟩ := put l c
        rw [edit, if_pos heq, shape]
        show (node top l' c' (nil ++ next)).around? top = _
        rw [around?, if_pos rfl]
        rfl
      · have hne : here ≠ top := fun h => heq (h.trans (fresh (Or.inl h.symm)))
        rw [around?, if_neg heq] at place
        rw [edit, if_neg heq]
        have beside {f b : String} (there : next.around? id = some (f, b)) :
            c.edit id change = c ∧ c.around? top = none ∧
              (next.edit id change).around? top = some (f, b) := by
          have absent : id ∉ c.ids :=
            fun below => disjoint id below id (mem_ids_of_around? there) rfl
          refine ⟨edit_of_notMem absent, around?_eq_none fun below => absent ?_,
            ihNext nodupNext there fun h => fresh (Or.inr (Or.inr h))⟩
          rwa [fresh (Or.inr (Or.inl below))] at below
        cases l with
        | text content =>
            obtain ⟨_, there, shape⟩ := Option.map_eq_some_iff.mp place
            cases shape
            obtain ⟨same, -, kept⟩ := beside there
            rw [around?, if_neg hne, same, kept]
            rfl
        | element tag attributes =>
            rcases Option.or_eq_some_iff.mp place with inside | ⟨-, aside⟩
            · obtain ⟨_, there, shape⟩ := Option.map_eq_some_iff.mp inside
              cases shape
              have absent : id ∉ next.ids :=
                fun beside => disjoint id (mem_ids_of_around? there) id beside rfl
              rw [around?, if_neg hne, edit_of_notMem absent,
                ihChildren nodupChildren there fun h => fresh (Or.inr (Or.inl h))]
              rfl
            · obtain ⟨_, there, shape⟩ := Option.map_eq_some_iff.mp aside
              cases shape
              obtain ⟨same, none, kept⟩ := beside there
              rw [around?, if_neg hne, same, none, kept]
              rfl

end Edit

theorem exists_attribute {attributes : Attributes} {name value : String}
    (mem : (name, value) ∈ attributes) :
    ∃ before behind : List Char, (attributesMarkup attributes).toList =
      before ++ ' ' :: (name.toList ++ '=' :: '"' ::
        (value.toList.flatMap spellValueChar ++ '"' :: behind)) := by
  induction attributes with
  | nil => cases mem
  | cons first rest ih =>
      obtain ⟨key, old⟩ := first
      rw [toList_attributesMarkup_cons]
      rcases List.mem_cons.mp mem with heq | mem
      · cases heq
        refine ⟨[], (attributesMarkup rest).toList, ?_⟩
        rw [toList_attributesMarkup_single]
        simp
      · obtain ⟨before, behind, heq⟩ := ih mem
        exact ⟨(attributesMarkup [(key, old)]).toList ++ before, behind, by
          rw [heq, List.append_assoc]⟩

theorem exists_attribute_tree {label : Label} {name value : String}
    (mem : (name, value) ∈ label.attributes) (children : Forest) :
    ∃ before behind : List Char, (tree id label children).markup.toList =
      before ++ ' ' :: (name.toList ++ '=' :: '"' ::
        (value.toList.flatMap spellValueChar ++ '"' :: behind)) := by
  cases label with
  | text content => cases mem
  | element tag attributes =>
      obtain ⟨left, right, written⟩ := exists_attribute mem
      dsimp only [Label.attributes] at written
      rw [tree, markup, String.toList_append, toList_elementMarkup, written]
      split
      · exact ⟨'<' :: tag.toList ++ left, right ++ (['/', '>'] ++ nil.markup.toList), by simp⟩
      · exact ⟨'<' :: tag.toList ++ left, right ++ ('>' :: (children.markup.toList ++
          '<' :: '/' :: (tag.toList ++ ['>'])) ++ nil.markup.toList), by simp⟩

end Forest

namespace Document

variable {doc : Document} {node x : Nat}

/-- An effect gives its node a label, also below a wrapper. -/
theorem label_enact_self (stands : doc.Stands node) (effect : Effect) (other : node ≠ doc.size) :
    (doc.enact node effect).label node = effect.label := by
  have put (_ : Label) (c : Forest) : (effect.put node doc.size c).find? node =
      some (effect.label, if effect.emptied then .nil else c) := by
    unfold Effect.put
    cases effect.wrapper with
    | none => exact Forest.find?_tree _ _ _
    | some tag =>
        show (Forest.tree doc.size _ (Forest.tree node _ _)).find? node = _
        rw [Forest.tree, Forest.find?, if_neg other.symm, Forest.find?_tree, Option.some_or]
  have self := Forest.find?_edit_self node put
  have found : (doc.enact node effect).find? node = (doc.find? node).map fun old =>
      (effect.label, if effect.emptied then .nil else old.2) := by
    unfold find? enact
    dsimp only
    rw [Forest.find?_append, Forest.find?_eq_none (notMem_cut stands.nodup), Option.or_none, self,
      self, Option.map_or]
  rw [label, found, find?_eq_some stands.mem]
  rfl

theorem Numbered.of_all (h : doc.Numbered) {P : Nat → Label → Forest → Prop} (made : x < doc.size)
    (all : doc.whole.All P) : P x (doc.label x) (doc.below x) := by
  have found := find?_eq_some ((h.complete x).mpr made)
  rw [find?_eq_whole] at found
  exact (all.of_find? found).1

/-- What holds of every node still does after an effect, also of the nodes that it cuts out, if it
holds of what the effect puts in and does not mind the effect further below. -/
theorem all_enact {P : Nat → Label → Forest → Prop} (nodup : doc.whole.ids.Nodup)
    (old : doc.whole.All P) {effect : Effect} (self : ∀ children, P node effect.label children)
    (wrapper : ∀ label children, P doc.size label children)
    (above : ∀ here label children, P here label children →
      P here label (children.edit node fun _ => effect.put node doc.size)) :
    (doc.enact node effect).whole.All P := by
  have kept : (doc.whole.edit node fun _ => effect.put node doc.size).All P := by
    refine old.edit (fun label children _ below => ?_) above
    have tree : (Forest.tree node effect.label (if effect.emptied then .nil else children)).All
        P := by
      refine ⟨self _, ?_, trivial⟩
      split
      · trivial
      · exact below
    unfold Effect.put
    cases effect.wrapper with
    | none => exact tree
    | some tag => exact ⟨wrapper _ _, tree, trivial⟩
  have cut : (doc.cut node effect).All P := by
    unfold cut below
    split
    · split
      · next found =>
          rw [find?_eq_whole] at found
          exact (old.of_find? found).2
      · trivial
    · trivial
  rw [whole, Forest.edit_append _ nodup, Forest.all_append] at kept
  exact Forest.all_append.mpr ⟨kept.1, Forest.all_append.mpr ⟨kept.2, cut⟩⟩

section Others

variable (h : doc.Numbered) (hnode : node < doc.size) (hx : x < doc.size) (effect : Effect)

include h hnode hx

/-- **An effect gives its node another label, and no other node**, also where it cuts nodes out. -/
theorem Numbered.label_enact :
    (doc.enact node effect).label x = if x = node then effect.label else doc.label x := by
  by_cases heq : x = node
  · rw [if_pos heq, heq]
    exact label_enact_self (h.stands hnode) effect (Nat.ne_of_lt hnode)
  · have old : doc.whole.All fun here l _ => here = x → l = doc.label x :=
      Forest.All.mono (all_at x h.nodup) fun _ _ _ at_ h => (at_ h).1
    rw [if_neg heq]
    refine (h.enact hnode effect).of_all (Nat.lt_of_lt_of_le hx (doc.size_le_enact node effect))
      (all_enact h.nodup old ?_ ?_ ?_) rfl
    · exact fun _ same => absurd same.symm heq
    · exact fun _ _ same => absurd same.symm (Nat.ne_of_lt hx)
    · exact fun _ _ _ same => same

/-- **An effect leaves what is below a node that is not above its own**, also where it cuts the node
out. -/
theorem Numbered.find?_enact (hne : x ≠ node) (notAbove : node ∉ (doc.below x).ids) :
    (doc.enact node effect).find? x = doc.find? x := by
  have all : (doc.enact node effect).whole.All
      fun here l c => here = x → l = doc.label x ∧ c = doc.below x := by
    refine all_enact h.nodup (all_at x h.nodup) ?_ ?_ fun here l c at_ same => ?_
    · exact fun _ same => absurd same.symm hne
    · exact fun _ _ same => absurd same.symm (Nat.ne_of_lt hx)
    · rw [(at_ same).2, Forest.edit_of_notMem notAbove]
      exact ⟨(at_ same).1, rfl⟩
  have later : x < (doc.enact node effect).size :=
    Nat.lt_of_lt_of_le hx (doc.size_le_enact node effect)
  have after := h.enact hnode effect
  obtain ⟨label, below⟩ := after.of_all later all rfl
  rw [find?_eq_some ((after.complete x).mpr later), label, below,
    find?_eq_some ((h.complete x).mpr hx)]

end Others

/-- The markup around the place of a node in the document. -/
def around? (doc : Document) (node : Nat) : Option (String × String) := doc.roots.around? node

section Around

variable {front behind : String} (nodup : doc.whole.ids.Nodup)
  (place : doc.around? node = some (front, behind))

include nodup place

theorem find?_roots_of_around? :
    doc.roots.ids.Nodup ∧ doc.roots.find? node = some (doc.label node, doc.below node) := by
  obtain ⟨⟨label, children⟩, found⟩ := Forest.exists_find?_of_mem (Forest.mem_ids_of_around? place)
  have here : doc.find? node = some (label, children) := by
    rw [find?, found, Option.some_or]
  refine ⟨nodup_roots nodup, ?_⟩
  rw [found, Document.label, below, here]

theorem markup_of_around? : doc.markup =
    front ++ (Forest.tree node (doc.label node) (doc.below node)).markup ++ behind := by
  obtain ⟨nodupRoots, found⟩ := find?_roots_of_around? nodup place
  exact Forest.markup_of_around? nodupRoots place found

/-- **What an effect does to the markup**: what it makes of the node stands in the place of it. -/
theorem markup_enact (effect : Effect) : (doc.enact node effect).markup =
    front ++ (effect.put node doc.size (doc.below node)).markup ++ behind := by
  obtain ⟨nodupRoots, found⟩ := find?_roots_of_around? nodup place
  refine Forest.markup_edit nodupRoots place found fun _ children => ?_
  unfold Effect.put
  cases effect.wrapper <;> rfl

end Around

/-- What an effect makes of a written node has what was around the node around it. -/
theorem exists_around (nodup : doc.whole.ids.Nodup) (shown : node ∈ doc.roots.written) :
    ∃ before behind : List Char,
      doc.markup.toList = before ++
        ((Forest.tree node (doc.label node) (doc.below node)).markup.toList ++ behind) ∧
      ∀ effect : Effect, (doc.enact node effect).markup.toList = before ++
        ((effect.put node doc.size (doc.below node)).markup.toList ++ behind) := by
  obtain ⟨front, behind, place⟩ := Forest.exists_around? shown
  refine ⟨front.toList, behind.toList, ?_, fun effect => ?_⟩
  · rw [markup_of_around? nodup place, String.toList_append, String.toList_append,
      List.append_assoc]
  · rw [markup_enact nodup place, String.toList_append, String.toList_append, List.append_assoc]

/-- An attribute of a node that is written stands in the markup. -/
theorem exists_attribute (nodup : doc.whole.ids.Nodup) (shown : node ∈ doc.roots.written)
    {name value : String} (mem : (name, value) ∈ (doc.label node).attributes) :
    ∃ before behind : List Char, doc.markup.toList =
      before ++ ' ' :: (name.toList ++ '=' :: '"' ::
        (value.toList.flatMap Forest.spellValueChar ++ '"' :: behind)) := by
  obtain ⟨before, behind, around, -⟩ := exists_around nodup shown
  obtain ⟨left, right, written⟩ := Forest.exists_attribute_tree mem (doc.below node)
  exact ⟨before ++ left, right ++ behind, by rw [around, written]; simp⟩

end Document

end LateMarkup
