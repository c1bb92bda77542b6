import LateMarkup.Proofs.Commutation
import LateMarkup.Proofs.Surroundings

/-!
# Annotating is confined

Annotating a node under a ref changes what is recorded under that ref, the node, and the markup of
the nodes above it, which contains that of the node. Everything else stays as it was
(`Draft.Confined`): the entries of other refs, the markup of every node that is neither the node nor
above it, and what stands around the node in the markup of the document.

Since annotating enacts one effect (`Draft.annotate_eq_enact`), this is shown of the two parts of an
effect. Of its edit, `Document.Numbered.find?_enact` and `Document.around?_enact` say what it
leaves. Of its changes of the registry, one change is considered at a time (`Registry.Change.Adds`).
-/

namespace LateMarkup

/-! ## Registries -/

/-- Whatever is set in the first entry is set in the second. -/
structure Defaults.Within (old new : Defaults) : Prop where
  tag : old.tag.isSome → new.tag.isSome
  component : old.component.isSome → new.component.isSome
  unrender : old.unrender.isSome → new.unrender.isSome

structure Fragments.Within (old new : Fragments) : Prop where
  attributes : ∀ name ∈ old.attributes, name ∈ new.attributes
  inner : old.inner.isSome → new.inner.isSome
  unrender : old.unrender.isSome → new.unrender.isSome
  classes : new.classes = old.classes

theorem Defaults.Within.trans {a b c : Defaults} (hab : a.Within b) (hbc : b.Within c) :
    a.Within c where
  tag h := hbc.tag (hab.tag h)
  component h := hbc.component (hab.component h)
  unrender h := hbc.unrender (hab.unrender h)

theorem Fragments.Within.trans {a b c : Fragments} (hab : a.Within b) (hbc : b.Within c) :
    a.Within c where
  attributes name h := hbc.attributes name (hab.attributes name h)
  inner h := hbc.inner (hab.inner h)
  unrender h := hbc.unrender (hab.unrender h)
  classes := hbc.classes.trans hab.classes

namespace Registry

/-- A registry that differs from another one under `ref` only, and that has lost nothing there. -/
structure GrownAt (ref : Ref) (old new : Registry) : Prop where
  otherDefaults : ∀ other ≠ ref, new.defaults[other]? = old.defaults[other]?
  otherCode : ∀ other ≠ ref, new.code[other]? = old.code[other]?
  defaults : ∀ entry : Defaults, old.defaults[ref]? = some entry →
    ∃ now, new.defaults[ref]? = some now ∧ entry.Within now
  code : ∀ entry : Fragments, old.code[ref]? = some entry →
    ∃ now, new.code[ref]? = some now ∧ entry.Within now

variable {ref : Ref} {registry : Registry}

theorem GrownAt.refl (ref : Ref) (registry : Registry) : GrownAt ref registry registry where
  otherDefaults _ _ := rfl
  otherCode _ _ := rfl
  defaults entry h := ⟨entry, h, ⟨id, id, id⟩⟩
  code entry h := ⟨entry, h, ⟨fun _ => id, id, id, rfl⟩⟩

theorem GrownAt.trans {a b c : Registry} (hab : GrownAt ref a b) (hbc : GrownAt ref b c) :
    GrownAt ref a c where
  otherDefaults other hne := (hbc.otherDefaults other hne).trans (hab.otherDefaults other hne)
  otherCode other hne := (hbc.otherCode other hne).trans (hab.otherCode other hne)
  defaults entry h := by
    obtain ⟨now, hnow, within⟩ := hab.defaults entry h
    obtain ⟨later, hlater, within'⟩ := hbc.defaults now hnow
    exact ⟨later, hlater, within.trans within'⟩
  code entry h := by
    obtain ⟨now, hnow, within⟩ := hab.code entry h
    obtain ⟨later, hlater, within'⟩ := hbc.code now hnow
    exact ⟨later, hlater, within.trans within'⟩

/-- A change by which an entry loses nothing. -/
def Change.Adds : Change → Prop
  | .defaults change => ∀ entry : Defaults, entry.Within (change entry)
  | .code change => ∀ entry : Fragments, entry.Within (change entry)

theorem grownAt_change {change : Change} (adds : change.Adds) :
    GrownAt ref registry (registry.change ref change) := by
  cases change with
  | defaults f =>
      refine ⟨fun other hne => ?_, fun _ _ => rfl, fun entry h => ?_,
        (GrownAt.refl ref registry).code⟩
      · show (registry.defaults.insert ref _)[other]? = _
        simp only [Std.ExtTreeMap.getElem?_insert, Std.LawfulEqCmp.compare_eq_iff_eq,
          if_neg hne.symm]
      · refine ⟨f entry, ?_, adds entry⟩
        show (registry.defaults.insert ref _)[ref]? = _
        rw [Std.ExtTreeMap.getElem?_insert_self, h, Option.getD_some]
  | code f =>
      refine ⟨fun _ _ => rfl, fun other hne => ?_, (GrownAt.refl ref registry).defaults,
        fun entry h => ?_⟩
      · show (registry.code.insert ref _)[other]? = _
        simp only [Std.ExtTreeMap.getElem?_insert, Std.LawfulEqCmp.compare_eq_iff_eq,
          if_neg hne.symm]
      · refine ⟨f entry, ?_, adds entry⟩
        show (registry.code.insert ref _)[ref]? = _
        rw [Std.ExtTreeMap.getElem?_insert_self, h, Option.getD_some]

theorem grownAt_changeAll {changes : List Change} (adds : ∀ change ∈ changes, change.Adds)
    (registry : Registry) : GrownAt ref registry (registry.changeAll ref changes) := by
  induction changes generalizing registry with
  | nil => exact .refl ref registry
  | cons first rest ih =>
      rw [List.forall_mem_cons] at adds
      exact (grownAt_change adds.1).trans (ih adds.2 _)

end Registry

namespace Effect

def Adds (effect : Effect) : Prop := ∀ change ∈ effect.changes, change.Adds

variable {effect : Effect} (settings : Settings) (ref : Ref) (declaration : Declaration)

theorem Adds.concat (h : effect.Adds) {change : Registry.Change} (adds : change.Adds) :
    ∀ later ∈ effect.changes ++ [change], later.Adds := by
  rw [List.forall_mem_append, List.forall_mem_singleton]
  exact ⟨h, adds⟩

theorem Adds.defaults (h : effect.Adds) {change : Defaults → Defaults}
    (adds : ∀ entry : Defaults, entry.Within (change entry)) :
    ∀ later ∈ effect.changes ++ [.defaults change], later.Adds :=
  h.concat adds

theorem Adds.code (h : effect.Adds) {change : Fragments → Fragments}
    (adds : ∀ entry : Fragments, entry.Within (change entry)) :
    ∀ later ∈ effect.changes ++ [.code change], later.Adds :=
  h.concat adds

theorem Adds.overrideEach (h : effect.Adds) (overrides : List (String × AttributeOverride)) :
    (effect.overrideEach settings ref overrides).Adds := by
  induction overrides generalizing effect with
  | nil => exact h
  | cons first rest ih =>
      refine ih (h.code fun entry => ⟨fun name mem => ?_, id, id, rfl⟩)
      exact Std.ExtTreeMap.mem_insert.mpr (Or.inr mem)

theorem Adds.overrideTag (h : effect.Adds) :
    (effect.overrideTag settings ref declaration).Adds := by
  unfold Effect.overrideTag
  split
  · exact h.defaults fun _ => ⟨fun _ => rfl, id, id⟩
  · exact h

theorem Adds.overrideComponent (h : effect.Adds) :
    (effect.overrideComponent settings ref declaration).Adds := by
  unfold Effect.overrideComponent
  split
  · exact h.defaults fun _ => ⟨id, fun _ => rfl, id⟩
  · exact h

theorem Adds.overrideInner (h : effect.Adds) (content : String) :
    (effect.overrideInner settings ref declaration content).Adds := by
  unfold Effect.overrideInner
  split
  · exact h.code fun _ => ⟨fun _ => id, fun _ => rfl, id, rfl⟩
  · exact h

theorem Adds.surround (h : effect.Adds) (above : Option String) :
    (effect.surround settings ref above).Adds :=
  h.code fun _ => ⟨fun _ => id, id, fun _ => rfl, rfl⟩

theorem Adds.overrideUnrender (h : effect.Adds) (above : Option String) :
    (effect.overrideUnrender settings ref declaration above).Adds := by
  unfold Effect.overrideUnrender
  split
  · have wish : (effect.takeWish settings).Adds := h.defaults fun _ => ⟨id, id, fun _ => rfl⟩
    exact wish.surround settings ref above
  · split
    · exact h.surround settings ref above
    · exact h

/-- **Whatever is declared for a node, nothing that was recorded gets lost.** -/
theorem adds_ofDeclaration (sight : Sight) :
    (ofDeclaration settings ref declaration sight).Adds := by
  have seen : ({ label := sight.label } : Effect).Adds := nofun
  have attributes := seen.overrideEach settings ref declaration.attributes.toList
  have tag := attributes.overrideTag settings ref declaration
  have component := tag.overrideComponent settings ref declaration
  have inner := component.overrideInner settings ref declaration sight.content
  exact inner.overrideUnrender settings ref declaration sight.above

/-- What stands in the place of the node: the node, or the wrapper around it. -/
def top (effect : Effect) (node fresh : Nat) : Nat :=
  if effect.wrapper.isSome then fresh else node

theorem put_eq_tree (effect : Effect) (node fresh : Nat) (children : Forest) :
    ∃ label below, effect.put node fresh children = .tree (effect.top node fresh) label below := by
  unfold put top
  cases effect.wrapper with
  | none => exact ⟨_, _, rfl⟩
  | some tag => exact ⟨_, _, rfl⟩

end Effect

/-! ## Documents -/

namespace Forest

theorem exists_parent?_of_mem {id : Nat} {forest : Forest} (mem : id ∈ forest.ids)
    (above : Option Nat) : ∃ p, forest.parent? id above = some p := by
  induction forest generalizing above with
  | nil => cases mem
  | node here l c next ihChildren ihNext =>
      rw [parent?]
      by_cases heq : here = id
      · exact ⟨above, if_pos heq⟩
      · rw [if_neg heq]
        rcases List.mem_cons.mp mem with same | mem
        · exact absurd same.symm heq
        · rcases List.mem_append.mp mem with mem | mem
          · obtain ⟨p, found⟩ := ihChildren mem (some here)
            exact ⟨p, by rw [found, Option.some_or]⟩
          · cases c.parent? id (some here) with
            | some p => exact ⟨p, rfl⟩
            | none => exact ihNext mem above

theorem parent?_edit_wrapped {id top : Nat} {change : Label → Forest → Forest} (hne : top ≠ id)
    (put : ∀ l c, ∃ outer inner below, change l c = tree top outer (tree id inner below))
    (above : Option Nat) (forest : Forest) :
    (forest.edit id change).parent? id above =
      (forest.parent? id above).map fun _ => some top := by
  induction forest generalizing above with
  | nil => rfl
  | node here l c next ihChildren ihNext =>
      by_cases heq : here = id
      · obtain ⟨outer, inner, below, shape⟩ := put l c
        rw [edit, if_pos heq, shape, parent?, if_pos heq]
        show (node top outer (tree id inner below) (nil ++ next)).parent? id above = _
        rw [parent?, if_neg hne, tree, parent?, if_pos rfl]
        rfl
      · rw [edit, if_neg heq, parent?, if_neg heq, ihChildren, ihNext, parent?, if_neg heq,
          Option.map_or]

end Forest

namespace Document

variable {doc : Document} {node x : Nat}

theorem markupOf_eq (mem : x ∈ doc.whole.ids) :
    doc.markupOf x = (Forest.tree x (doc.label x) (doc.below x)).markup := by
  rw [markupOf, find?_eq_some mem]

theorem mem_whole_of_around? {place : String × String} (h : doc.around? node = some place) :
    node ∈ doc.whole.ids :=
  mem_whole_of_mem_roots (Forest.mem_ids_of_around? h)

theorem markup_around {front behind : String} (nodup : doc.whole.ids.Nodup)
    (place : doc.around? node = some (front, behind)) :
    doc.markup = front ++ doc.markupOf node ++ behind := by
  rw [markup_of_around? nodup place, markupOf_eq (mem_whole_of_around? place)]

/-- What an effect puts in the place of a node stands where the node stood. -/
theorem Numbered.around?_enact (h : doc.Numbered) {place : String × String}
    (found : doc.around? node = some place) (effect : Effect) :
    (doc.enact node effect).around? (effect.top node doc.size) = some place := by
  refine Forest.around?_edit (nodup_roots h.nodup) found (fun mem => ?_) fun _ children =>
    effect.put_eq_tree node doc.size children
  have old : effect.top node doc.size ∈ doc.whole.ids := mem_whole_of_mem_roots mem
  unfold Effect.top at old ⊢
  split
  · next wrapped =>
      rw [if_pos wrapped] at old
      exact absurd old h.size_notMem
  · rfl

theorem Numbered.parent?_enact_wrapped (h : doc.Numbered) (hnode : node < doc.size)
    {effect : Effect} (wrapped : effect.wrapper.isSome = true) :
    (doc.enact node effect).parent? node = some doc.size := by
  have put (_ : Label) (c : Forest) : ∃ outer inner below,
      effect.put node doc.size c = .tree doc.size outer (.tree node inner below) := by
    obtain ⟨tag, htag⟩ := Option.isSome_iff_exists.mp wrapped
    rw [Effect.put, htag]
    exact ⟨_, _, _, rfl⟩
  have self := Forest.parent?_edit_wrapped (Nat.ne_of_gt hnode) put none
  obtain ⟨above, found⟩ := Forest.exists_parent?_of_mem ((h.complete node).mpr hnode) none
  rw [whole, Forest.parent?_append] at found
  unfold parent? Document.enact
  dsimp only
  rw [Forest.parent?_append, Forest.parent?_eq_none none (notMem_cut h.nodup), Option.or_none, self,
    self, ← Option.map_or, found]
  rfl

/-- **Every other node keeps its markup**, unless it is above the node. -/
theorem Numbered.markupOf_enact (h : doc.Numbered) (hnode : node < doc.size) (hx : x < doc.size)
    (hne : x ≠ node) (apart : ¬ Relation.TransGen
      (fun child above => doc.parent? child = some above) node x) (effect : Effect) :
    (doc.enact node effect).markupOf x = doc.markupOf x := by
  have notAbove : node ∉ (doc.below x).ids := fun mem => apart (transGen_of_mem_below h.nodup mem)
  rw [markupOf, h.find?_enact hnode hx effect hne notAbove, markupOf]

end Document

/-! ## Annotating -/

/-- A declaration that overrides no attribute, tag, component or inner content, and by which the
node cannot be left out. It may declare classes and properties. -/
structure Declaration.Idle (declaration : Declaration) : Prop where
  attributes : declaration.attributes = ∅
  tag : declaration.tag = false
  component : declaration.component = false
  inner : declaration.inner = false
  unrender : declaration.unrender = false

namespace Draft

variable {draft : Draft} {node : Nat} {ref : Ref}

/-- What annotating a node leaves as it was. -/
structure Confined (draft after : Draft) (node : Nat) (ref : Ref) : Prop where
  /-- The entries of other refs stay, and nothing is lost from those of `ref`. -/
  registry : Registry.GrownAt ref draft.registry after.registry
  /-- Every other node keeps its markup, unless it is above the node. -/
  others : ∀ x < draft.document.size, x ≠ node →
    ¬ Relation.TransGen (fun child above => draft.document.parent? child = some above) node x →
      after.document.markupOf x = draft.document.markupOf x
  /-- The markup around the node stays, where the node stands now or a new wrapper of it. -/
  place : node ∈ draft.document.roots.written → ∃ front behind top,
    draft.document.around? node = some (front, behind) ∧
    draft.document.markup = front ++ draft.document.markupOf node ++ behind ∧
    (top = node ∨ top = draft.document.size ∧ after.document.parent? node = some top) ∧
    after.document.around? top = some (front, behind) ∧
    after.document.markup = front ++ after.document.markupOf top ++ behind

theorem confined_enact (h : draft.document.Numbered) (hnode : node < draft.document.size)
    {effect : Effect} (adds : effect.Adds) :
    Confined draft (draft.enact node ref effect) node ref where
  registry := Registry.grownAt_changeAll adds draft.registry
  others x hx hne apart := h.markupOf_enact hnode hx hne apart effect
  place shown := by
    obtain ⟨front, behind, before⟩ := Forest.exists_around? shown
    have after := h.around?_enact before effect
    refine ⟨front, behind, effect.top node draft.document.size, before,
      Document.markup_around h.nodup before, ?_, after,
      Document.markup_around (h.enact hnode effect).nodup after⟩
    unfold Effect.top
    split
    · next wrapped => exact Or.inr ⟨rfl, h.parent?_enact_wrapped hnode wrapped⟩
    · exact Or.inl rfl

theorem annotate_of_idle {declaration : Declaration} (idle : declaration.Idle)
    (noWish : (draft.document.attributes node).has draft.settings.unrenderAttribute = false) :
    draft.annotate node ref declaration = draft := by
  have attributes : draft.overrideAttributes node ref declaration = draft := by
    rw [overrideAttributes, idle.attributes]
    rfl
  have tag : draft.overrideTag node ref declaration = draft := by
    rw [overrideTag, idle.tag, if_neg Bool.false_ne_true]
  have component : draft.overrideComponent node ref declaration = draft := by
    rw [overrideComponent, idle.component, if_neg Bool.false_ne_true]
  have inner : draft.overrideInner node ref declaration = draft := by
    rw [overrideInner, idle.inner, if_neg Bool.false_ne_true]
  have unrender : draft.overrideUnrender node ref declaration = draft := by
    rw [overrideUnrender, noWish, idle.unrender, if_neg Bool.false_ne_true,
      if_neg Bool.false_ne_true]
  unfold annotate
  dsimp only
  rw [attributes, tag, component, inner, unrender]

/-- **Annotating is confined to its node and its ref.** In every document that operations make, and
whatever is declared, the entries of other refs stay and none of the ref's own is lost, every node
that is neither the annotated one nor above it keeps its markup, and around the node the markup of
the document stays. Where nothing is to be done, nothing is. -/
theorem annotate_confined {operations : List Document.Operation}
    (permitted : Document.PermitsAll {} operations)
    (made : node < (Document.performAll {} operations).size) (settings : Settings)
    (registry : Registry) (ref : Ref) (declaration : Declaration) :
    let draft : Draft := ⟨settings, Document.performAll {} operations, registry⟩
    Confined draft (draft.annotate node ref declaration) node ref ∧
      (declaration.Idle →
        (draft.document.attributes node).has settings.unrenderAttribute = false →
          draft.annotate node ref declaration = draft) := by
  intro draft
  have numbered : draft.document.Numbered := Document.numbered_performAll permitted
  refine ⟨?_, fun idle noWish => annotate_of_idle idle noWish⟩
  rw [annotate_eq_enact (numbered.stands made)]
  exact confined_enact numbered made (Effect.adds_ofDeclaration _ _ _ _)

/-- The first item of a list is emptied and gets a wrapper, between what was around it. -/
theorem annotate_confined_pair :
    let draft : Draft := ⟨{}, Document.performAll {} pair, {}⟩
    let after := draft.annotate 1 ⟨"e0a", Ref.isValid_e0a⟩ { inner := true, unrender := true }
    Document.PermitsAll {} pair ∧ 1 < draft.document.size ∧
      Confined draft after 1 ⟨"e0a", Ref.isValid_e0a⟩ ∧
      draft.document.around? 1 = some ("<ul>", "<li></li></ul>") ∧
      after.document.around? 4 = some ("<ul>", "<li></li></ul>") := by
  intro draft after
  have permitted : Document.PermitsAll {} pair := by decide
  have made : 1 < (Document.performAll {} pair).size := by decide
  exact ⟨permitted, made, (annotate_confined permitted made {} {} _ _).1, by decide, by decide⟩

end Draft

end LateMarkup
