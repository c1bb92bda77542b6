import LateMarkup.Annotation
import LateMarkup.Proofs.Links

/-!
# Annotating is one edit

Annotating a node goes through five steps, each of which looks at the node again. All that they look
at is what the node is, the markup in it, and the tag above it (`Sight`), and all that they do comes
to an effect (`Effect`): the node gets another label, is perhaps emptied, perhaps gets a wrapper,
and some entries of one ref change. `Effect.ofDeclaration` computes the effect from what is seen,
and `Draft.annotate_eq_enact` says that annotating enacts just that: one edit of the document at the
node, and changes of the registry under the ref.

It is enough for this that no number occurs twice in the document.
-/

namespace LateMarkup

/-! ## Edits at a node and looks at nodes -/

namespace Forest

variable {id x : Nat} {change : Label → Forest → Forest}

/-- Of two edits of a node the second starts from what the first made of the node. -/
theorem edit_edit {label : Label → Forest → Label} {below : Label → Forest → Forest}
    (put : ∀ l c, change l c = tree id (label l c) (below l c)) (again : Label → Forest → Forest)
    (forest : Forest) :
    (forest.edit id change).edit id again =
      forest.edit id fun l c => again (label l c) (below l c) := by
  induction forest with
  | nil => rfl
  | node here l c next ihChildren ihNext =>
      by_cases heq : here = id
      · rw [edit, if_pos heq, put, edit, if_pos heq]
        show (node id (label l c) (below l c) (nil ++ next)).edit id again = _
        rw [edit, if_pos rfl]
        rfl
      · rw [edit, if_neg heq, edit, if_neg heq, edit, if_neg heq, ihChildren, ihNext]

/-- A row behind which nothing is to be edited. -/
theorem edit_append_of_notMem {a b : Forest} (absent : id ∉ b.ids) :
    (a ++ b).edit id change = a.edit id change ++ b := by
  induction a with
  | nil => exact edit_of_notMem absent
  | node here l c next _ ih =>
      rw [node_append, edit, edit, ih]
      split
      · rw [append_assoc]
      · rfl

theorem append_nil (forest : Forest) : forest ++ nil = forest := by
  induction forest with
  | nil => rfl
  | node here l c next _ ih => rw [node_append, ih]

theorem edit_eq_self {forest : Forest}
    (put : forest.All fun here l c => here = id → change l c = tree here l c) :
    forest.edit id change = forest := by
  induction forest with
  | nil => rfl
  | node here l c next ihChildren ihNext =>
      obtain ⟨hput, below, beside⟩ := put
      rw [edit, ihChildren below, ihNext beside]
      split
      · next heq =>
          rw [hput heq]
          rfl
      · rfl

theorem find?_edit_self (id : Nat) {change : Label → Forest → Forest}
    {label : Label → Forest → Label} {below : Label → Forest → Forest}
    (put : ∀ l c, (change l c).find? id = some (label l c, below l c)) (forest : Forest) :
    (forest.edit id change).find? id =
      (forest.find? id).map fun (l, c) => (label l c, below l c) := by
  induction forest with
  | nil => rfl
  | node here l c next ihChildren ihNext =>
      by_cases heq : here = id
      · rw [edit, if_pos heq, find?_append, put, Option.some_or, find?, if_pos heq]
        rfl
      · rw [edit, if_neg heq, find?, if_neg heq, ihChildren, ihNext, find?, if_neg heq,
          Option.map_or]

theorem find?_tree (id : Nat) (label : Label) (children : Forest) :
    (tree id label children).find? id = some (label, children) := by
  rw [tree, find?, if_pos rfl]

/-- Another node keeps its label, if the edit keeps it. -/
theorem label_edit_of_ne {forest : Forest} (hx : x ≠ id)
    (put : forest.All fun here l c => here = id → (change l c).find? x = c.find? x) :
    ((forest.edit id change).find? x).map Prod.fst = (forest.find? x).map Prod.fst := by
  induction forest with
  | nil => rfl
  | node here l c next ihChildren ihNext =>
      obtain ⟨hput, below, beside⟩ := put
      by_cases heq : here = id
      · have hne : here ≠ x := fun h => hx (h.symm.trans heq)
        rw [edit, if_pos heq, find?_append, hput heq, find?, if_neg hne]
      · rw [edit, if_neg heq, find?, find?]
        split
        · rfl
        · rw [Option.map_or, Option.map_or, ihChildren below, ihNext beside]

/-- Another node keeps all that is below it, if the edited node is not there. -/
theorem find?_edit_of_apart {forest : Forest} (hx : x ≠ id)
    (put : forest.All fun here l c => here = id → (change l c).find? x = c.find? x)
    (apart : forest.All fun here _ c => here = x → id ∉ c.ids) :
    (forest.edit id change).find? x = forest.find? x := by
  induction forest with
  | nil => rfl
  | node here l c next ihChildren ihNext =>
      obtain ⟨hput, below, beside⟩ := put
      obtain ⟨hapart, apartBelow, apartBeside⟩ := apart
      by_cases heq : here = id
      · have hne : here ≠ x := fun h => hx (h.symm.trans heq)
        rw [edit, if_pos heq, find?_append, hput heq, find?, if_neg hne]
      · rw [edit, if_neg heq, find?, find?, ihChildren below apartBelow, ihNext beside apartBeside]
        split
        · next hx => rw [edit_of_notMem (hapart hx)]
        · rfl

/-- The edited node stays where it is, if nothing is put around it. -/
theorem parent?_edit_self (id : Nat) {change : Label → Forest → Forest}
    {label : Label → Forest → Label} {below : Label → Forest → Forest}
    (put : ∀ l c, change l c = tree id (label l c) (below l c)) (above : Option Nat)
    (forest : Forest) : (forest.edit id change).parent? id above = forest.parent? id above := by
  induction forest generalizing above with
  | nil => rfl
  | node here l c next ihChildren ihNext =>
      by_cases heq : here = id
      · rw [edit, if_pos heq, put]
        show (node id (label l c) (below l c) (nil ++ next)).parent? id above = _
        rw [parent?, if_pos rfl, parent?, if_pos heq]
      · rw [edit, if_neg heq, parent?, if_neg heq, ihChildren, ihNext, parent?, if_neg heq]

/-- Another node stays where it is, if the edit keeps it there. -/
theorem parent?_edit_of_ne {forest : Forest} (hx : x ≠ id)
    (put : forest.All fun here l c => here = id →
      ∀ above, (change l c).parent? x above = c.parent? x (some id)) (above : Option Nat) :
    (forest.edit id change).parent? x above = forest.parent? x above := by
  induction forest generalizing above with
  | nil => rfl
  | node here l c next ihChildren ihNext =>
      obtain ⟨hput, below, beside⟩ := put
      by_cases heq : here = id
      · have hne : here ≠ x := fun h => hx (h.symm.trans heq)
        rw [edit, if_pos heq, parent?_append, hput heq, parent?, if_neg hne, heq]
      · rw [edit, if_neg heq, parent?, parent?, ihChildren below, ihNext beside]

theorem mem_ids_of_mem_below {forest c : Forest} {l : Label} (found : forest.find? id = some (l, c))
    (mem : x ∈ c.ids) : x ∈ forest.ids := by
  induction forest with
  | nil => cases found
  | node here l' c' next ihChildren ihNext =>
      rw [ids, List.mem_cons, List.mem_append]
      rw [find?] at found
      split at found
      · cases found
        exact Or.inr (Or.inl mem)
      · rcases Option.or_eq_some_iff.mp found with found | ⟨-, found⟩
        · exact Or.inr (Or.inl (ihChildren found))
        · exact Or.inr (Or.inr (ihNext found))

theorem all_of_notMem {P : Nat → Label → Forest → Prop} {forest : Forest}
    (absent : id ∉ forest.ids) :
    forest.All fun here l c => here = id → P here l c := by
  induction forest with
  | nil => trivial
  | node here l c next ihChildren ihNext =>
      rw [ids, List.mem_cons, List.mem_append, not_or, not_or] at absent
      obtain ⟨hhere, hchildren, hnext⟩ := absent
      exact ⟨fun heq => absurd heq.symm hhere, ihChildren hchildren, ihNext hnext⟩

/-- The node above a node is another one, and is not below it. -/
theorem all_notMem_of_parent? {forest : Forest} {above : Option Nat} {p : Nat}
    (nodup : forest.ids.Nodup) (outside : ∀ q ∈ above, q ∉ forest.ids)
    (parent : forest.parent? id above = some (some p)) :
    p ≠ id ∧ forest.All fun here _ c => here = id → p ∉ c.ids := by
  induction forest generalizing above with
  | nil => cases parent
  | node here l c next ihChildren ihNext =>
      rw [ids, List.nodup_cons, List.mem_append, not_or] at nodup
      obtain ⟨⟨hchildren, hnext⟩, nodup⟩ := nodup
      obtain ⟨nodupChildren, nodupNext, disjoint⟩ := List.nodup_append.mp nodup
      rw [parent?] at parent
      split at parent
      · next heq =>
          subst heq
          have absent := outside p (Option.some.inj parent)
          rw [ids, List.mem_cons, List.mem_append, not_or, not_or] at absent
          exact ⟨absent.1, fun _ => absent.2.1, all_of_notMem hchildren, all_of_notMem hnext⟩
      · next hne =>
          rcases Option.or_eq_some_iff.mp parent with found | ⟨-, found⟩
          · have mem := mem_ids_of_parent? found
            have inside : ∀ q ∈ some here, q ∉ c.ids := by
              rintro q ⟨⟩
              exact hchildren
            obtain ⟨hp, below⟩ := ihChildren nodupChildren inside found
            exact ⟨hp, fun heq => absurd heq hne, below,
              all_of_notMem fun beside => disjoint id mem id beside rfl⟩
          · have mem := mem_ids_of_parent? found
            have inside : ∀ q ∈ above, q ∉ next.ids := by
              intro q hq hmem
              exact outside q hq (List.mem_cons_of_mem _ (List.mem_append_right _ hmem))
            obtain ⟨hp, beside⟩ := ihNext nodupNext inside found
            exact ⟨hp, fun heq => absurd heq hne,
              all_of_notMem fun below => disjoint id below id mem rfl, beside⟩

end Forest

/-! ## What is recorded -/

namespace Registry

/-- One change of what is recorded under a ref. -/
inductive Change where
  | defaults (change : Defaults → Defaults)
  | code (change : Fragments → Fragments)

def change (registry : Registry) (ref : Ref) : Change → Registry
  | .defaults change => registry.modifyDefaults ref change
  | .code change => registry.modifyCode ref change

def changeAll (registry : Registry) (ref : Ref) (changes : List Change) : Registry :=
  changes.foldl (fun registry change => registry.change ref change) registry

theorem changeAll_concat (registry : Registry) (ref : Ref) (changes : List Change)
    (last : Change) :
    registry.changeAll ref (changes ++ [last]) = (registry.changeAll ref changes).change ref last :=
  List.foldl_concat _ _ _ _

end Registry

/-! ## Sights and effects -/

/-- What annotating looks at: the node, the markup in it, and the tag of the node above it. -/
structure Sight where
  label : Label
  content : String
  above : Option String

/-- What annotating does: what becomes of the node, and what is recorded. -/
structure Effect where
  label : Label
  emptied : Bool := false
  wrapper : Option String := none
  changes : List Registry.Change := []

def Label.isElement : Label → Bool
  | element _ _ => true
  | text _ => false

namespace Label

@[simp] theorem isElement_withTag (tag : String) (label : Label) :
    (label.withTag tag).isElement = label.isElement := by
  cases label <;> rfl

@[simp] theorem isElement_mapAttributes (change : Attributes → Attributes) (label : Label) :
    (label.mapAttributes change).isElement = label.isElement := by
  cases label <;> rfl

end Label

namespace Effect

/-- What stands in the place of the node. `fresh` is the number of a wrapper. -/
def put (effect : Effect) (node fresh : Nat) (children : Forest) : Forest :=
  let kept := Forest.tree node effect.label (if effect.emptied then .nil else children)
  match effect.wrapper with
  | some tag => Forest.tree fresh (.element tag []) kept
  | none => kept

variable (settings : Settings) (ref : Ref) (declaration : Declaration)

def overrideAttribute (effect : Effect) (name : String) (kind : AttributeOverride) : Effect :=
  let attributes := effect.label.attributes
  let code := Fragment.ofAttribute settings ref name (attributes.valueOfEither? name) kind
    (attributes.hasEither name) false
  { effect with
    label := effect.label.mapAttributes fun attributes =>
      (attributes.removeEither name).set (Marker.attributeName ref name) ""
    changes := effect.changes ++ [.code fun entry =>
      { entry with attributes := entry.attributes.insert name code }] }

def overrideEach (effect : Effect) (overrides : List (String × AttributeOverride)) : Effect :=
  overrides.foldl (fun effect (name, kind) => effect.overrideAttribute settings ref name kind)
    effect

def overrideTag (effect : Effect) : Effect :=
  if declaration.tag then
    { effect with
      label := effect.label.withTag (Fragment.tag settings ref)
      changes := effect.changes ++ [.defaults fun entry =>
        { entry with tag := some effect.label.tag.toLower }] }
  else effect

def overrideComponent (effect : Effect) : Effect :=
  if declaration.component then
    { effect with
      label := effect.label.withTag (Fragment.component settings ref)
      changes := effect.changes ++ [.defaults fun entry =>
        { entry with component := some effect.label.tag }] }
  else effect

def overrideInner (content : String) (effect : Effect) : Effect :=
  if declaration.inner then
    let code := Fragment.ofInner settings ref content
    { effect with
      label := effect.label.mapAttributes
        (Attributes.set settings.rawContentAttribute (Marker.innerValue ref))
      emptied := effect.label.isElement
      changes := effect.changes ++ [.code fun entry => { entry with inner := some code }] }
  else effect

def takeWish (effect : Effect) : Effect :=
  { effect with
    label := effect.label.mapAttributes (Attributes.remove settings.unrenderAttribute)
    changes := effect.changes ++ [.defaults fun entry => { entry with unrender := some true }] }

def surround (above : Option String) (effect : Effect) : Effect :=
  { effect with
    wrapper := some (Marker.wrapperTag ref)
    changes := effect.changes ++ [.code fun entry =>
      { entry with unrender := some (Fragment.guard settings ref above) }] }

def overrideUnrender (above : Option String) (effect : Effect) : Effect :=
  if effect.label.attributes.has settings.unrenderAttribute then
    (effect.takeWish settings).surround settings ref above
  else if declaration.unrender then effect.surround settings ref above
  else effect

def ofDeclaration (sight : Sight) : Effect :=
  let withAttributes :=
    ({ label := sight.label } : Effect).overrideEach settings ref declaration.attributes.toList
  let withTag := withAttributes.overrideTag settings ref declaration
  let withComponent := withTag.overrideComponent settings ref declaration
  let withInner := withComponent.overrideInner settings ref declaration sight.content
  withInner.overrideUnrender settings ref declaration sight.above

end Effect

/-! ## Enacting -/

namespace Document

def sight (doc : Document) (node : Nat) : Sight where
  label := doc.label node
  content := doc.contentMarkup node
  above := (doc.parent? node).map doc.tag

/-- All that hangs below a node, also below a text. -/
def below (doc : Document) (node : Nat) : Forest :=
  match doc.find? node with
  | some (_, children) => children
  | none => .nil

def cut (doc : Document) (node : Nat) (effect : Effect) : Forest :=
  if effect.emptied then doc.below node else .nil

def enact (doc : Document) (node : Nat) (effect : Effect) : Document where
  roots := doc.roots.edit node fun _ => effect.put node doc.size
  detached := (doc.detached.edit node fun _ => effect.put node doc.size) ++ doc.cut node effect
  size := if effect.wrapper.isSome then doc.size + 1 else doc.size

end Document

def Draft.enact (draft : Draft) (node : Nat) (ref : Ref) (effect : Effect) : Draft :=
  { draft with
    document := draft.document.enact node effect
    registry := draft.registry.changeAll ref effect.changes }

/-! ### An effect that goes on

Until the wrapper is put around it, the node can be looked at and edited further. -/

namespace Effect

/-- An effect puts in the number of the node, that of its wrapper, and those of the nodes below it.
-/
theorem notMem_put (effect : Effect) {node fresh x : Nat} {children : Forest} (hx : x ≠ node)
    (hfresh : effect.wrapper.isSome = true → x ≠ fresh) (hchildren : x ∉ children.ids) :
    x ∉ (effect.put node fresh children).ids := by
  have below : x ∉ (if effect.emptied then .nil else children : Forest).ids := by
    split
    · nofun
    · exact hchildren
  unfold put
  cases hwrapper : effect.wrapper with
  | none => simpa [Forest.tree, Forest.ids] using ⟨hx, below⟩
  | some tag =>
      have := hfresh (by rw [hwrapper]; rfl)
      simpa [Forest.tree, Forest.ids] using ⟨this, hx, below⟩

/-- An effect on a node that has no wrapper yet, and that is as much an element as it was. -/
structure Open (effect : Effect) (label : Label) : Prop where
  wrapper : effect.wrapper = none
  kind : effect.label.isElement = label.isElement

theorem Open.put_eq {effect : Effect} {label : Label} (h : effect.Open label) (node fresh : Nat)
    (children : Forest) : effect.put node fresh children =
      Forest.tree node effect.label (if effect.emptied then .nil else children) := by
  rw [put, h.wrapper]

section Open

variable {effect : Effect} {label : Label} (settings : Settings) (ref : Ref)
  (declaration : Declaration)

theorem Open.overrideAttribute (h : effect.Open label) (name : String)
    (kind : AttributeOverride) : (effect.overrideAttribute settings ref name kind).Open label :=
  ⟨h.wrapper, (Label.isElement_mapAttributes _ _).trans h.kind⟩

theorem Open.overrideEach (h : effect.Open label)
    (overrides : List (String × AttributeOverride)) :
    (effect.overrideEach settings ref overrides).Open label := by
  induction overrides generalizing effect with
  | nil => exact h
  | cons first rest ih => exact ih (h.overrideAttribute settings ref first.1 first.2)

theorem Open.overrideTag (h : effect.Open label) :
    (effect.overrideTag settings ref declaration).Open label := by
  unfold Effect.overrideTag
  split
  · exact ⟨h.wrapper, (Label.isElement_withTag _ _).trans h.kind⟩
  · exact h

theorem Open.overrideComponent (h : effect.Open label) :
    (effect.overrideComponent settings ref declaration).Open label := by
  unfold Effect.overrideComponent
  split
  · exact ⟨h.wrapper, (Label.isElement_withTag _ _).trans h.kind⟩
  · exact h

theorem Open.overrideInner (h : effect.Open label) (content : String) :
    (effect.overrideInner settings ref declaration content).Open label := by
  unfold Effect.overrideInner
  split
  · exact ⟨h.wrapper, (Label.isElement_mapAttributes _ _).trans h.kind⟩
  · exact h

theorem Open.takeWish (h : effect.Open label) : (effect.takeWish settings).Open label :=
  ⟨h.wrapper, (Label.isElement_mapAttributes _ _).trans h.kind⟩

/-- Only inner content is cut out. -/
theorem emptied_overrideEach (overrides : List (String × AttributeOverride)) (effect : Effect) :
    (effect.overrideEach settings ref overrides).emptied = effect.emptied := by
  induction overrides generalizing effect with
  | nil => rfl
  | cons first rest ih => exact ih _

theorem emptied_overrideTag (effect : Effect) :
    (effect.overrideTag settings ref declaration).emptied = effect.emptied := by
  unfold Effect.overrideTag
  split <;> rfl

theorem emptied_overrideComponent (effect : Effect) :
    (effect.overrideComponent settings ref declaration).emptied = effect.emptied := by
  unfold Effect.overrideComponent
  split <;> rfl

/-- What holds of the label of a node after its attributes are overridden, and is kept by each of
the later steps, holds of the label in the end. -/
theorem label_ofDeclaration {P : Label → Prop} (sight : Sight)
    (attributes : P (({ label := sight.label } : Effect).overrideEach settings ref
      declaration.attributes.toList).label)
    (tag : ∀ label, P label → P (label.withTag (Fragment.tag settings ref)))
    (component : ∀ label, P label → P (label.withTag (Fragment.component settings ref)))
    (inner : ∀ label, P label → P (label.mapAttributes
      (Attributes.set settings.rawContentAttribute (Marker.innerValue ref))))
    (wish : ∀ label, P label → P (label.mapAttributes
      (Attributes.remove settings.unrenderAttribute))) :
    P (ofDeclaration settings ref declaration sight).label := by
  have afterTag (effect : Effect) (h : P effect.label) :
      P (effect.overrideTag settings ref declaration).label := by
    unfold Effect.overrideTag
    split
    · exact tag _ h
    · exact h
  have afterComponent (effect : Effect) (h : P effect.label) :
      P (effect.overrideComponent settings ref declaration).label := by
    unfold Effect.overrideComponent
    split
    · exact component _ h
    · exact h
  have afterInner (effect : Effect) (h : P effect.label) :
      P (effect.overrideInner settings ref declaration sight.content).label := by
    unfold Effect.overrideInner
    split
    · exact inner _ h
    · exact h
  have afterUnrender (effect : Effect) (h : P effect.label) :
      P (effect.overrideUnrender settings ref declaration sight.above).label := by
    unfold Effect.overrideUnrender
    split
    · exact wish _ h
    · split
      · exact h
      · exact h
  exact afterUnrender _ (afterInner _ (afterComponent _ (afterTag _ attributes)))

theorem Open.frame_overrideUnrender (h : effect.Open label) (above : Option String) :
    (effect.overrideUnrender settings ref declaration above).label.isElement = label.isElement ∧
      ((effect.overrideUnrender settings ref declaration above).wrapper = none ∨
        (effect.overrideUnrender settings ref declaration above).wrapper =
          some (Marker.wrapperTag ref)) := by
  unfold Effect.overrideUnrender
  split
  · exact ⟨(h.takeWish settings).kind, Or.inr rfl⟩
  · split
    · exact ⟨h.kind, Or.inr rfl⟩
    · exact ⟨h.kind, Or.inl h.wrapper⟩

/-- A declaration leaves the kind of a node, and puts nothing around it but the wrapper of its ref.
-/
theorem frame_ofDeclaration (sight : Sight) :
    (ofDeclaration settings ref declaration sight).label.isElement = sight.label.isElement ∧
      ((ofDeclaration settings ref declaration sight).wrapper = none ∨
        (ofDeclaration settings ref declaration sight).wrapper =
          some (Marker.wrapperTag ref)) := by
  have seen : ({ label := sight.label } : Effect).Open sight.label := ⟨rfl, rfl⟩
  have attributes := seen.overrideEach settings ref declaration.attributes.toList
  have tag := attributes.overrideTag settings ref declaration
  have component := tag.overrideComponent settings ref declaration
  have inner := component.overrideInner settings ref declaration sight.content
  exact inner.frame_overrideUnrender settings ref declaration sight.above

end Open

end Effect

namespace Document

variable {doc : Document} {node : Nat} {effect : Effect}

theorem label_eq (doc : Document) (node : Nat) :
    doc.label node = ((doc.find? node).map Prod.fst).getD (.text "") := by
  rw [label]
  cases doc.find? node <;> rfl

theorem all_at (node : Nat) (nodup : doc.whole.ids.Nodup) :
    doc.whole.All fun here l c => here = node → l = doc.label node ∧ c = doc.below node := by
  refine (Forest.all_find? nodup).mono ?_
  rintro here l c found rfl
  rw [← find?_eq_whole] at found
  rw [label, below, found]
  exact ⟨rfl, rfl⟩

theorem notMem_below (nodup : doc.whole.ids.Nodup) : node ∉ (doc.below node).ids := by
  rw [below]
  split
  · next found =>
      rw [find?_eq_whole] at found
      exact ((Forest.all_notMem nodup).of_find? found).1
  · nofun

theorem find?_eq_some (mem : node ∈ doc.whole.ids) :
    doc.find? node = some (doc.label node, doc.below node) := by
  obtain ⟨⟨l, c⟩, found⟩ := Forest.exists_find?_of_mem mem
  rw [← find?_eq_whole] at found
  rw [label, below, found]

theorem enact_label (node : Nat) (nodup : doc.whole.ids.Nodup) :
    doc.enact node { label := doc.label node } = doc := by
  have put : doc.whole.All fun here l c => here = node →
      ({ label := doc.label node } : Effect).put node doc.size c = Forest.tree here l c := by
    refine Forest.All.mono (all_at node nodup) fun here l c h heq => ?_
    rw [← (h heq).1, heq]
    rfl
  obtain ⟨roots, detached⟩ := Forest.all_append.mp put
  unfold enact
  rw [Forest.edit_eq_self roots, Forest.edit_eq_self detached]
  show Document.mk doc.roots (doc.detached ++ .nil) doc.size = doc
  rw [Forest.append_nil]

/-- Only what hangs below the node is cut out. -/
theorem mem_below_of_mem_cut {x : Nat} (mem : x ∈ (doc.cut node effect).ids) :
    x ∈ (doc.below node).ids := by
  unfold cut at mem
  split at mem
  · exact mem
  · cases mem

theorem mem_of_mem_below {x : Nat} (mem : x ∈ (doc.below node).ids) : x ∈ doc.whole.ids := by
  unfold below at mem
  split at mem
  · next found =>
      rw [find?_eq_whole] at found
      exact Forest.mem_ids_of_mem_below found mem
  · cases mem

theorem mem_of_mem_cut {x : Nat} (mem : x ∈ (doc.cut node effect).ids) : x ∈ doc.whole.ids :=
  mem_of_mem_below (mem_below_of_mem_cut mem)

theorem notMem_cut (nodup : doc.whole.ids.Nodup) : node ∉ (doc.cut node effect).ids :=
  fun mem => notMem_below nodup (mem_below_of_mem_cut mem)

theorem find?_enact (nodup : doc.whole.ids.Nodup) (mem : node ∈ doc.whole.ids)
    (still : effect.Open (doc.label node)) :
    (doc.enact node effect).find? node =
      some (effect.label, if effect.emptied then .nil else doc.below node) := by
  have put (_ : Label) (c : Forest) : (effect.put node doc.size c).find? node =
      some (effect.label, if effect.emptied then .nil else c) := by
    rw [still.put_eq, Forest.find?_tree]
  have self := Forest.find?_edit_self node put
  unfold find? enact
  dsimp only
  rw [Forest.find?_append, Forest.find?_eq_none (notMem_cut nodup), Option.or_none, self, self,
    ← Option.map_or]
  show Option.map _ (doc.find? node) = _
  rw [find?_eq_some mem]
  rfl

theorem label_enact (nodup : doc.whole.ids.Nodup) (mem : node ∈ doc.whole.ids)
    (still : effect.Open (doc.label node)) : (doc.enact node effect).label node = effect.label := by
  rw [label, find?_enact nodup mem still]

theorem contentMarkup_enact (nodup : doc.whole.ids.Nodup) (mem : node ∈ doc.whole.ids)
    (still : effect.Open (doc.label node)) (full : effect.emptied = false) :
    (doc.enact node effect).contentMarkup node = doc.contentMarkup node := by
  have kind := still.kind
  unfold contentMarkup content
  rw [find?_enact nodup mem still, full, find?_eq_some mem]
  cases hnew : effect.label <;> cases hold : doc.label node <;> simp_all [Label.isElement]

theorem parent?_enact (nodup : doc.whole.ids.Nodup) (still : effect.Open (doc.label node)) :
    (doc.enact node effect).parent? node = doc.parent? node := by
  have self := Forest.parent?_edit_self node (fun _ c => still.put_eq node doc.size c) none
  unfold parent? enact
  dsimp only
  rw [Forest.parent?_append, Forest.parent?_eq_none none (notMem_cut nodup), Option.or_none, self,
    self]

theorem label_enact_of_ne (nodup : doc.whole.ids.Nodup) {x : Nat} (hx : x ≠ node)
    (old : effect.wrapper.isSome = true → x ≠ doc.size) (apart : x ∉ (doc.below node).ids) :
    (doc.enact node effect).label x = doc.label x := by
  have put : doc.whole.All fun here _ c => here = node →
      (effect.put node doc.size c).find? x = c.find? x := by
    refine Forest.All.mono (all_at node nodup) fun here l c h heq => ?_
    rw [← (h heq).2] at apart
    rw [Forest.find?_eq_none (effect.notMem_put hx old apart), Forest.find?_eq_none apart]
  obtain ⟨roots, detached⟩ := Forest.all_append.mp put
  have cut : x ∉ (doc.cut node effect).ids := fun mem => apart (mem_below_of_mem_cut mem)
  have labels : ((doc.enact node effect).find? x).map Prod.fst =
      (doc.find? x).map Prod.fst := by
    unfold find? enact
    dsimp only
    rw [Forest.find?_append, Forest.find?_eq_none cut, Option.or_none, Option.map_or,
      Option.map_or, Forest.label_edit_of_ne hx roots, Forest.label_edit_of_ne hx detached]
  rw [label_eq, label_eq, labels]

theorem above_enact (nodup : doc.whole.ids.Nodup) (still : effect.Open (doc.label node)) :
    ((doc.enact node effect).parent? node).map (doc.enact node effect).tag =
      (doc.parent? node).map doc.tag := by
  rw [parent?_enact nodup still]
  cases hparent : doc.parent? node with
  | none => rfl
  | some p =>
      rw [parent?_eq_whole, Option.join_eq_some_iff] at hparent
      obtain ⟨hp, apart⟩ := Forest.all_notMem_of_parent? nodup (by nofun) hparent
      have mem := Forest.mem_ids_of_parent? hparent
      have outside : p ∉ (doc.below node).ids :=
        (apart.of_find? ((find?_eq_whole _ _).symm.trans (find?_eq_some mem))).1 rfl
      have old : effect.wrapper.isSome = true → p ≠ doc.size := by
        rw [still.wrapper]
        nofun
      show some ((doc.enact node effect).label p).tag = some (doc.label p).tag
      rw [label_enact_of_ne nodup hp old outside]

theorem relabel_enact (nodup : doc.whole.ids.Nodup) (still : effect.Open (doc.label node))
    (change : Label → Label) :
    (doc.enact node effect).relabel node change =
      doc.enact node { effect with label := change effect.label } := by
  have put (_ : Label) (c : Forest) := still.put_eq node doc.size c
  unfold relabel edit enact
  dsimp only
  rw [Forest.edit_append_of_notMem (notMem_cut nodup), Forest.edit_edit put, Forest.edit_edit put]
  simp only [still.wrapper]
  rfl

theorem clear_enact (nodup : doc.whole.ids.Nodup) (mem : node ∈ doc.whole.ids)
    (still : effect.Open (doc.label node)) (full : effect.emptied = false) :
    (doc.enact node effect).clear node =
      doc.enact node { effect with emptied := effect.label.isElement } := by
  have put (_ : Label) (c : Forest) := still.put_eq node doc.size c
  unfold clear
  rw [find?_enact nodup mem still, full]
  cases hlabel : effect.label with
  | element tag attributes =>
      have none : doc.cut node effect = .nil := by
        rw [cut, full]
        rfl
      unfold edit enact
      dsimp only
      rw [none, Forest.append_nil, Forest.edit_edit put, Forest.edit_edit put,
        if_neg Bool.false_ne_true, hlabel]
      simp only [still.wrapper]
      rfl
  | text content =>
      obtain ⟨label, emptied, wrapper, changes⟩ := effect
      cases hlabel
      cases full
      rfl

theorem wrap_enact (nodup : doc.whole.ids.Nodup) (still : effect.Open (doc.label node))
    (tag : String) :
    (doc.enact node effect).wrap node tag = doc.enact node { effect with wrapper := some tag } := by
  have put (_ : Label) (c : Forest) := still.put_eq node doc.size c
  unfold wrap edit enact
  dsimp only
  rw [Forest.edit_append_of_notMem (notMem_cut nodup), Forest.edit_edit put, Forest.edit_edit put,
    still.wrapper]
  rfl

end Document

structure Document.Stands (doc : Document) (node : Nat) : Prop where
  nodup : doc.whole.ids.Nodup
  mem : node ∈ doc.whole.ids

/-! ## Annotating -/

namespace Draft

variable {draft : Draft} {node : Nat} {effect : Effect}

section Steps

variable (stands : draft.document.Stands node) (still : effect.Open (draft.document.label node))
  (ref : Ref) (declaration : Declaration)

include stands still

theorem attributes_enact :
    (draft.document.enact node effect).attributes node = effect.label.attributes := by
  rw [Document.attributes, Document.label_enact stands.nodup stands.mem still]

theorem overrideAttribute_enact (name : String) (kind : AttributeOverride) :
    (draft.enact node ref effect).overrideAttribute node ref name kind =
      draft.enact node ref (effect.overrideAttribute draft.settings ref name kind) := by
  unfold overrideAttribute Effect.overrideAttribute enact
  dsimp only
  rw [attributes_enact stands still, Document.mapAttributes,
    Document.relabel_enact stands.nodup still, Registry.changeAll_concat]
  rfl

theorem overrideEach_enact (overrides : List (String × AttributeOverride)) :
    (draft.enact node ref effect).overrideEach node ref overrides =
      draft.enact node ref (effect.overrideEach draft.settings ref overrides) := by
  induction overrides generalizing effect with
  | nil => rfl
  | cons first rest ih =>
      obtain ⟨name, kind⟩ := first
      have goesOn := still.overrideAttribute draft.settings ref name kind
      show ((draft.enact node ref effect).overrideAttribute node ref name kind).overrideEach node
        ref rest = _
      rw [overrideAttribute_enact stands still, ih goesOn]
      rfl

theorem overrideTag_enact :
    (draft.enact node ref effect).overrideTag node ref declaration =
      draft.enact node ref (effect.overrideTag draft.settings ref declaration) := by
  unfold overrideTag Effect.overrideTag
  split
  · unfold enact Document.tag
    dsimp only
    rw [Document.label_enact stands.nodup stands.mem still, Document.setTag,
      Document.relabel_enact stands.nodup still, Registry.changeAll_concat]
    rfl
  · rfl

theorem overrideComponent_enact :
    (draft.enact node ref effect).overrideComponent node ref declaration =
      draft.enact node ref (effect.overrideComponent draft.settings ref declaration) := by
  unfold overrideComponent Effect.overrideComponent
  split
  · unfold enact Document.tag
    dsimp only
    rw [Document.label_enact stands.nodup stands.mem still, Document.setTag,
      Document.relabel_enact stands.nodup still, Registry.changeAll_concat]
    rfl
  · rfl

theorem overrideInner_enact (full : effect.emptied = false) :
    (draft.enact node ref effect).overrideInner node ref declaration =
      draft.enact node ref (effect.overrideInner draft.settings ref declaration
        (draft.document.contentMarkup node)) := by
  unfold overrideInner Effect.overrideInner
  split
  · have emptied : { effect with emptied := effect.label.isElement }.Open
        (draft.document.label node) := ⟨still.wrapper, still.kind⟩
    unfold enact
    dsimp only
    rw [Document.contentMarkup_enact stands.nodup stands.mem still full,
      Document.clear_enact stands.nodup stands.mem still full, Document.mapAttributes,
      Document.relabel_enact stands.nodup emptied, Registry.changeAll_concat]
    rfl
  · rfl

theorem takeWish_enact :
    (draft.enact node ref effect).takeWish node ref =
      draft.enact node ref (effect.takeWish draft.settings) := by
  unfold takeWish Effect.takeWish enact
  dsimp only
  rw [Document.mapAttributes, Document.relabel_enact stands.nodup still,
    Registry.changeAll_concat]
  rfl

theorem surround_enact :
    (draft.enact node ref effect).surround node ref =
      draft.enact node ref (effect.surround draft.settings ref
        ((draft.document.parent? node).map draft.document.tag)) := by
  unfold surround Effect.surround enact
  dsimp only
  rw [Document.above_enact stands.nodup still, Document.wrap_enact stands.nodup still,
    Registry.changeAll_concat]
  rfl

theorem overrideUnrender_enact :
    (draft.enact node ref effect).overrideUnrender node ref declaration =
      draft.enact node ref (effect.overrideUnrender draft.settings ref declaration
        ((draft.document.parent? node).map draft.document.tag)) := by
  unfold overrideUnrender Effect.overrideUnrender
  show (if ((draft.document.enact node effect).attributes node).has
    draft.settings.unrenderAttribute = true then _ else _) = _
  rw [attributes_enact stands still]
  split
  · rw [takeWish_enact stands still, surround_enact stands (still.takeWish draft.settings)]
  · split
    · exact surround_enact stands still ref
    · rfl

end Steps

/-- **Annotating is one edit.** It enacts the effect of the declaration on what it sees of the node.
-/
theorem annotate_eq_enact (stands : draft.document.Stands node) (ref : Ref)
    (declaration : Declaration) :
    draft.annotate node ref declaration =
      draft.enact node ref
        (.ofDeclaration draft.settings ref declaration (draft.document.sight node)) := by
  let seen : Effect := { label := draft.document.label node }
  have start : draft = draft.enact node ref seen := by
    unfold enact
    rw [Document.enact_label node stands.nodup]
    rfl
  have seenOpen : seen.Open (draft.document.label node) := ⟨rfl, rfl⟩
  have attributesOpen := seenOpen.overrideEach draft.settings ref declaration.attributes.toList
  have tagOpen := attributesOpen.overrideTag draft.settings ref declaration
  have componentOpen := tagOpen.overrideComponent draft.settings ref declaration
  have innerOpen := componentOpen.overrideInner draft.settings ref declaration
    (draft.document.contentMarkup node)
  unfold annotate overrideAttributes
  dsimp only
  conv_lhs => rw [start]
  rw [overrideEach_enact stands seenOpen, overrideTag_enact stands attributesOpen,
    overrideComponent_enact stands tagOpen, overrideInner_enact stands componentOpen,
    overrideUnrender_enact stands innerOpen]
  · rfl
  · rw [Effect.emptied_overrideComponent, Effect.emptied_overrideTag, Effect.emptied_overrideEach]

end Draft

end LateMarkup
