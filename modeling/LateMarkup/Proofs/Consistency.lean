import LateMarkup.Emission
import LateMarkup.Proofs.Construction
import LateMarkup.Proofs.GeneratedCode
import LateMarkup.Proofs.Recording

/-!
# The document and the registry stay consistent

Every marker in the document of a draft has an entry in its registry, and no recorded code brings
another marker along (`Draft.Consistent`). Each of the steps of `Draft.annotate` keeps that, on
whatever node and under whatever ref, so it holds after any run.

Inner content is recorded as markup that may hold markers itself, and its nodes go on living apart
from the document. So the invariant speaks of the trees that were cut out as well: what is captured
from them was backed when it was captured, and entries are never lost.
-/

namespace LateMarkup

/-! ## Documents -/

namespace Registry

variable {registry old new : Registry}

theorem BacksAttribute.grow (grows : old.Grows new) {name value : String}
    (h : old.BacksAttribute name value) : new.BacksAttribute name value := by
  rcases h with ⟨ref, inner, hname, hvalue, proper, holds⟩ | ⟨hname, hvalue⟩
  · exact Or.inl ⟨ref, inner, hname, hvalue, proper, grows _ holds⟩
  · refine Or.inr ⟨hname, hvalue.imp id ?_⟩
    rintro ⟨ref, hvalue, holds⟩
    exact ⟨ref, hvalue, grows _ holds⟩

theorem BacksLabel.grow (grows : old.Grows new) {label : Label} (h : old.BacksLabel label) :
    new.BacksLabel label := by
  cases label with
  | text content => exact h
  | element tag attributes =>
      refine ⟨h.1.imp id ?_, fun pair hpair => (h.2 pair hpair).grow grows⟩
      rintro ⟨ref, htag, holds⟩
      exact ⟨ref, htag, grows _ holds⟩

theorem Backs.grow (grows : old.Grows new) {forest : Forest} (h : old.Backs forest) :
    new.Backs forest :=
  Forest.All.mono h fun _ _ _ hnode => ⟨hnode.1.grow grows, hnode.2⟩

theorem Backs.edit {forest : Forest} (h : registry.Backs forest) {id : Nat}
    {change : Label → Forest → Forest}
    (face : ∀ label children, (change label children).rowText = label.face ∨
      (change label children).rowText = ['<'])
    (put : ∀ label children, registry.BacksLabel label → Unmarked children.rowText →
      registry.Backs children → registry.Backs (change label children)) :
    registry.Backs (forest.edit id change) := by
  apply Forest.All.edit h
  · exact fun label children hnode below => put label children hnode.1 hnode.2 below
  · exact fun _ _ _ hnode =>
      ⟨hnode.1, Forest.unmarked_rowText_edit [] face hnode.2⟩

/-- All markers in a document have entries, also those in the trees that were cut out. -/
structure BacksDocument (registry : Registry) (doc : Document) : Prop where
  roots : registry.Backs doc.roots
  detached : registry.Backs doc.detached
  row : Unmarked doc.roots.rowText

namespace BacksDocument

variable {doc : Document} {id : Nat}

theorem grow (grows : old.Grows new) (h : old.BacksDocument doc) : new.BacksDocument doc :=
  ⟨h.roots.grow grows, h.detached.grow grows, h.row⟩

theorem find? (h : registry.BacksDocument doc) {label : Label} {children : Forest}
    (found : doc.find? id = some (label, children)) :
    registry.BacksLabel label ∧ Unmarked children.rowText ∧ registry.Backs children := by
  have nodes : doc.Every fun _ label children =>
      registry.BacksLabel label ∧ Unmarked children.rowText := ⟨h.roots, h.detached⟩
  obtain ⟨⟨hlabel, row⟩, below⟩ := nodes.find? found
  exact ⟨hlabel, row, below⟩

theorem label (h : registry.BacksDocument doc) (id : Nat) : registry.BacksLabel (doc.label id) := by
  unfold Document.label
  split
  · next found => exact (h.find? found).1
  · exact Unmarked.nil

theorem content (h : registry.BacksDocument doc) (id : Nat) :
    Unmarked (doc.content id).rowText ∧ registry.Backs (doc.content id) := by
  unfold Document.content
  split
  · next found => exact (h.find? found).2
  · exact ⟨Unmarked.nil, trivial⟩

theorem edit (h : registry.BacksDocument doc) {change : Label → Forest → Forest}
    (face : ∀ label children, (change label children).rowText = label.face ∨
      (change label children).rowText = ['<'])
    (put : ∀ label children, registry.BacksLabel label → Unmarked children.rowText →
      registry.Backs children → registry.Backs (change label children)) :
    registry.BacksDocument (doc.edit id change) :=
  ⟨h.roots.edit face put, h.detached.edit face put,
    Forest.unmarked_rowText_edit [] face h.row⟩

theorem mapAttributes (h : registry.BacksDocument doc) {change : Attributes → Attributes}
    (put : ∀ attributes : Attributes,
      (∀ pair ∈ attributes, registry.BacksAttribute pair.1 pair.2) →
        ∀ pair ∈ change attributes, registry.BacksAttribute pair.1 pair.2) :
    registry.BacksDocument (doc.mapAttributes id change) := by
  apply h.edit
  · intro label children
    cases label <;> exact Or.inl (List.append_nil _)
  · intro label children hlabel row below
    refine ⟨⟨?_, row⟩, below, trivial⟩
    cases label with
    | text content => exact hlabel
    | element tag attributes => exact ⟨hlabel.1, put attributes hlabel.2⟩

theorem setTag (h : registry.BacksDocument doc) {tag : String} (free : Unmarked tag.toList) :
    registry.BacksDocument (doc.setTag id tag) := by
  apply h.edit
  · intro label children
    cases label <;> exact Or.inl (List.append_nil _)
  · intro label children hlabel row below
    refine ⟨⟨?_, row⟩, below, trivial⟩
    cases label with
    | text content => exact hlabel
    | element tag attributes => exact ⟨Or.inl free, hlabel.2⟩

theorem clear (h : registry.BacksDocument doc) : registry.BacksDocument (doc.clear id) := by
  unfold Document.clear
  split
  · next found =>
      have emptied : registry.BacksDocument
          (doc.edit id fun label _ => Forest.tree id label .nil) := by
        apply h.edit
        · exact fun label children => Or.inl (List.append_nil _)
        · exact fun label children hlabel _ _ => ⟨⟨hlabel, Unmarked.nil⟩, trivial, trivial⟩
      exact ⟨emptied.roots, Forest.all_append.mpr ⟨emptied.detached, (h.find? found).2.2⟩,
        emptied.row⟩
  · exact h

theorem wrap (h : registry.BacksDocument doc) {tag : String}
    (htag : Unmarked tag.toList ∨
      ∃ ref, tag = Marker.wrapperTag ref ∧ registry.Holds (.opening ref)) :
    registry.BacksDocument (doc.wrap id tag) := by
  have wrapped : registry.BacksDocument (doc.edit id fun label children =>
      Forest.tree doc.size (.element tag []) (Forest.tree id label children)) := by
    apply h.edit
    · exact fun label children => Or.inr rfl
    · intro label children hlabel row below
      have face : Unmarked (Forest.tree id label children).rowText := by
        show Unmarked (label.face ++ [])
        rw [List.append_nil]
        cases label with
        | text content => exact hlabel
        | element tag attributes => exact unmarked_of_breaks (a := ['<']) (by decide)
      exact ⟨⟨⟨htag, nofun⟩, face⟩, ⟨⟨hlabel, row⟩, below, trivial⟩, trivial⟩
  exact ⟨wrapped.roots, wrapped.detached, wrapped.row⟩

end BacksDocument

end Registry

/-! ## Drafts -/

/-- Settings without marker text. -/
structure Settings.Plain (settings : Settings) : Prop where
  dataObject : Unmarked settings.dataObject.toList
  definedHelper : Unmarked settings.definedHelper.toList
  controlFlowTags : ∀ tag ∈ settings.controlFlowTags, Unmarked tag.toList
  unrenderAttribute : Unmarked settings.unrenderAttribute.toList
  rawContentAttribute : Unmarked settings.rawContentAttribute.toList

theorem Settings.plain_default : Settings.Plain {} := by
  constructor <;> decide

theorem Settings.Plain.avoids {settings : Settings} (h : settings.Plain) :
    settings.Avoids Marker.stem.toList :=
  ⟨h.dataObject, h.definedHelper⟩

/-- A name that an attribute can have in markup, without marker text. -/
def PlainName (name : String) : Prop :=
  (name ≠ "" ∧ ∀ c ∈ name.toList, Marker.isNameChar c = true) ∧ Unmarked name.toList

def Declaration.Plain (declaration : Declaration) : Prop :=
  ∀ name ∈ declaration.attributes, PlainName name

theorem Declaration.mem_attributes {declaration : Declaration} {pair : String × AttributeOverride}
    (h : pair ∈ declaration.attributes.toList) : pair.1 ∈ declaration.attributes := by
  rw [Std.ExtTreeMap.mem_iff_isSome_getElem?,
    Std.ExtTreeMap.mem_toList_iff_getElem?_eq_some.mp h]
  rfl

namespace Draft

/-- The invariant of annotating. -/
structure Consistent (draft : Draft) : Prop where
  settings : draft.settings.Plain
  document : draft.registry.BacksDocument draft.document
  registry : draft.registry.Sealed

theorem unmarked_of_spellValue {text : List Char}
    (free : Unmarked (text.flatMap Forest.spellValueChar)) : Unmarked text := by
  rintro ⟨before, behind, rfl⟩
  apply free
  have stem : Marker.stem.toList.flatMap Forest.spellValueChar = Marker.stem.toList := by decide
  rw [List.flatMap_append, List.flatMap_append, stem]
  exact ⟨_, _, rfl⟩

/-- A static value that an override keeps is plain text or the marker of inner content. -/
theorem value_cases {registry : Registry} {label : Label} (backed : registry.BacksLabel label)
    (name : String) :
    Unmarked ((label.attributes.valueOfEither? name).getD "").toList ∨
      ∃ ref, (label.attributes.valueOfEither? name).getD "" = Marker.innerValue ref := by
  cases hvalue : label.attributes.valueOfEither? name with
  | none => exact Or.inl Unmarked.nil
  | some value =>
      obtain ⟨key, hmem⟩ := Attributes.mem_of_valueOfEither? hvalue
      cases label with
      | text content => cases hmem
      | element tag attributes =>
          rcases backed.2 (key, value) hmem with ⟨_, _, -, rfl, -⟩ | ⟨-, free | ⟨ref, rfl, -⟩⟩
          · exact Or.inl Unmarked.nil
          · exact Or.inl (unmarked_of_spellValue free)
          · exact Or.inr ⟨ref, rfl⟩

/-! ## One step -/

variable {draft : Draft} {node : Nat} {ref : Ref} {declaration : Declaration}

theorem consistent_overrideAttribute (h : draft.Consistent) {name : String} (plain : PlainName name)
    (kind : AttributeOverride) : (draft.overrideAttribute node ref name kind).Consistent := by
  have adds := draft.registry.adds_attribute ref name
    (Fragment.ofAttribute draft.settings ref name
      ((draft.document.attributes node).valueOfEither? name) kind
      ((draft.document.attributes node).hasEither name) false)
  refine ⟨h.settings, ?_, adds.sealed h.registry ?_⟩
  · apply (h.document.grow adds.grows).mapAttributes
    intro attributes backed pair hpair
    rcases Attributes.mem_set hpair with rfl | hpair
    · exact Or.inl ⟨ref, name, rfl, rfl, plain.1, adds.holds (by simp)⟩
    · exact backed pair (Attributes.mem_removeEither hpair)
  · intro n code hcode m later
    obtain ⟨rfl, rfl⟩ := Marker.eq_of_only hcode
    exact Registry.shuts_ofAttribute (Site.ne_attribute_of_pass later) h.settings.avoids plain.2
      plain.1.2 (value_cases (h.document.label node) name)

theorem consistent_overrideEach {overrides : List (String × AttributeOverride)}
    (h : draft.Consistent) (plain : ∀ pair ∈ overrides, PlainName pair.1) :
    (draft.overrideEach node ref overrides).Consistent := by
  induction overrides generalizing draft with
  | nil => exact h
  | cons pair overrides ih =>
      have first : (draft.overrideAttribute node ref pair.1 pair.2).Consistent :=
        consistent_overrideAttribute h (plain pair List.mem_cons_self) pair.2
      exact ih first fun other hother => plain other (List.mem_cons_of_mem _ hother)

theorem consistent_overrideAttributes (h : draft.Consistent) (plain : declaration.Plain) :
    (draft.overrideAttributes node ref declaration).Consistent := by
  apply consistent_overrideEach h
  exact fun pair hpair => plain _ (Declaration.mem_attributes hpair)

theorem unmarked_dataExpr {settings : Settings} (plain : settings.Plain) (ref : Ref)
    (part : RuntimeKey.Part) :
    Unmarked (settings.dataExpr (RuntimeKey.part ref part)).toList :=
  avoids_dataExpr apart_stem plain.avoids (RuntimeKey.unmarked_part ref part)

/-- The run-time defaults have nothing to do with markers. -/
theorem consistent_modifyDefaults (h : draft.Consistent) (ref : Ref)
    (change : Defaults → Defaults) :
    { draft with registry := draft.registry.modifyDefaults ref change }.Consistent := by
  have grows : draft.registry.Grows (draft.registry.modifyDefaults ref change) :=
    fun _ holds => holds
  exact ⟨h.settings, h.document.grow grows, h.registry⟩

theorem consistent_setTag (h : draft.Consistent) (node : Nat) {tag : String}
    (free : Unmarked tag.toList) :
    { draft with document := draft.document.setTag node tag }.Consistent :=
  ⟨h.settings, h.document.setTag free, h.registry⟩

theorem consistent_overrideTag (h : draft.Consistent) :
    (draft.overrideTag node ref declaration).Consistent := by
  unfold overrideTag
  split
  · exact consistent_modifyDefaults
      (consistent_setTag h node (unmarked_dataExpr h.settings ref .tag)) ref _
  · exact h

theorem consistent_overrideComponent (h : draft.Consistent) :
    (draft.overrideComponent node ref declaration).Consistent := by
  unfold overrideComponent
  split
  · exact consistent_modifyDefaults
      (consistent_setTag h node (unmarked_dataExpr h.settings ref .component)) ref _
  · exact h

theorem consistent_overrideInner (h : draft.Consistent) :
    (draft.overrideInner node ref declaration).Consistent := by
  unfold overrideInner
  split
  · have adds := draft.registry.adds_inner ref
      (Fragment.ofInner draft.settings ref (draft.document.contentMarkup node))
    refine ⟨h.settings, ?_, adds.sealed h.registry ?_⟩
    · apply (h.document.grow adds.grows).clear.mapAttributes
      intro attributes backed pair hpair
      rcases Attributes.mem_set hpair with rfl | hpair
      · exact Or.inr ⟨h.settings.rawContentAttribute,
          Or.inr ⟨ref, rfl, adds.holds (by simp)⟩⟩
      · exact backed pair hpair
    · intro n code hcode m later
      obtain ⟨rfl, rfl⟩ := Marker.eq_of_only hcode
      have hsite := Site.eq_unrender_of_pass later
      apply Registry.shuts_ofInner hsite h.settings.avoids
      intro hin
      -- A marker in the captured markup had its entry when it was captured.
      obtain ⟨free, backed⟩ := h.document.content node
      exact adds.grows m (Forest.holds_of_infix backed free (by simp [hsite]) hin)
  · exact h

theorem consistent_takeWish (h : draft.Consistent) : (draft.takeWish node ref).Consistent := by
  let document := draft.document.mapAttributes node
    (Attributes.remove draft.settings.unrenderAttribute)
  have removed : { draft with document := document }.Consistent := by
    refine ⟨h.settings, ?_, h.registry⟩
    apply h.document.mapAttributes
    exact fun attributes backed pair hpair => backed pair (Attributes.mem_remove hpair)
  exact consistent_modifyDefaults removed ref _

theorem consistent_surround (h : draft.Consistent) : (draft.surround node ref).Consistent := by
  have adds := draft.registry.adds_guard ref (Fragment.guard draft.settings ref
    ((draft.document.parent? node).map draft.document.tag))
  refine ⟨h.settings, ?_, adds.sealed h.registry ?_⟩
  · apply (h.document.grow adds.grows).wrap
    exact Or.inr ⟨ref, rfl, adds.holds (by simp)⟩
  · -- Wrappers are resolved last, so their code may hold what it likes.
    intro n code hcode m later
    rcases Option.or_eq_some_iff.mp hcode with hopening | ⟨-, hclosing⟩
    · obtain ⟨rfl, -⟩ := Marker.eq_of_only hopening
      exact absurd later (Site.pass_le_unrender m.site)
    · obtain ⟨rfl, -⟩ := Marker.eq_of_only hclosing
      exact absurd later (Site.pass_le_unrender m.site)

theorem consistent_overrideUnrender (h : draft.Consistent) :
    (draft.overrideUnrender node ref declaration).Consistent := by
  unfold overrideUnrender
  split
  · exact consistent_surround (consistent_takeWish h)
  · split
    · exact consistent_surround h
    · exact h

/-- **Annotating a node keeps the invariant.** -/
theorem consistent_annotate (h : draft.Consistent) (node : Nat) (ref : Ref)
    (plain : declaration.Plain) : (draft.annotate node ref declaration).Consistent :=
  consistent_overrideUnrender (consistent_overrideInner (consistent_overrideComponent
    (consistent_overrideTag (consistent_overrideAttributes h plain))))

/-! ## A run -/

/-- A call of `annotate`. -/
structure Step where
  node : Nat
  ref : Ref
  declaration : Declaration

def run (draft : Draft) (steps : List Step) : Draft :=
  steps.foldl (fun draft step => draft.annotate step.node step.ref step.declaration) draft

theorem consistent_run {steps : List Step} (h : draft.Consistent)
    (plain : ∀ step ∈ steps, step.declaration.Plain) : (draft.run steps).Consistent := by
  induction steps generalizing draft with
  | nil => exact h
  | cons step steps ih =>
      have first := consistent_annotate h step.node step.ref (plain step List.mem_cons_self)
      exact ih first fun other hother => plain other (List.mem_cons_of_mem _ hother)

def start (settings : Settings) (doc : Document) : Draft := { settings, document := doc }

theorem consistent_start {settings : Settings} (plain : settings.Plain) {doc : Document}
    (built : doc.Built) (free : Unmarked doc.markup.toList) : (start settings doc).Consistent := by
  have regular := built.regular
  have nodes := Forest.all_plain regular.texts free
  refine ⟨plain, ⟨nodes.mono ?_, ?_, Forest.unmarked_rowText [] free⟩, ?_⟩
  · intro _ label children hnode
    refine ⟨?_, Forest.unmarked_rowText [] hnode.2⟩
    cases label with
    | text content => exact hnode.1
    | element tag attributes =>
        refine ⟨Or.inl hnode.1.1, fun pair hpair => Or.inr ?_⟩
        exact ⟨(hnode.1.2 pair hpair).1, Or.inl (hnode.1.2 pair hpair).2⟩
  · show Registry.Backs _ doc.detached
    rw [regular.detached]
    trivial
  · intro n code hcode
    simp [start, Registry.code?] at hcode

/-- In a consistent draft every marker that is found has an entry. -/
theorem Consistent.found (h : draft.Consistent) {m : Marker}
    (hm : .marker m ∈ Segment.split draft.document.markup.toList) : draft.registry.Holds m :=
  Forest.holds_of_mem_split h.document.roots h.document.row hm

theorem Consistent.resolve_ne_missing (h : draft.Consistent) (ref : Ref) (field : FragmentField) :
    draft.resolve draft.document.markup ≠ .error (.missing ref field) := by
  intro hmissing
  have resolved := Registry.resolve_ne_missing h.registry (fun m hm => h.found hm)
    (fun m later hm => Forest.holds_of_infix h.document.roots h.document.row later hm) ref field
  rw [resolve] at hmissing
  dsimp only [bind, Except.bind] at hmissing
  split at hmissing
  · next error herror =>
      cases hmissing
      exact resolved herror
  · cases hmissing

/-- **Markers and entries stay together.** After any run over a document without marker text, every
marker that is found in its markup has an entry, and resolving it misses none. -/
theorem entries_after_run {settings : Settings} (plain : settings.Plain) {doc : Document}
    (built : doc.Built) (free : Unmarked doc.markup.toList) {steps : List Step}
    (names : ∀ step ∈ steps, step.declaration.Plain) :
    (∀ m, .marker m ∈ Segment.split ((start settings doc).run steps).document.markup.toList →
      ((start settings doc).run steps).registry.Holds m) ∧
    ∀ ref field, ((start settings doc).run steps).resolve
      ((start settings doc).run steps).document.markup ≠ .error (.missing ref field) := by
  have consistent := consistent_run (consistent_start plain built free) names
  exact ⟨fun m hm => consistent.found hm, consistent.resolve_ne_missing⟩

/-- A text resolves if its parts are known, their markers have entries, and filling these in leaves
no marker text. -/
theorem exists_page {draft : Draft} {text : String} {parts : List Segment}
    (split : Segment.split text.toList = parts)
    (holds : ∀ m ∈ Segment.markers parts, draft.registry.Holds m)
    (free : Unmarked (parts.flatMap draft.registry.filled)) :
    ∃ page, draft.resolve text = .ok page := by
  have entries := Registry.holds_of_split draft.registry split holds
  rw [← split] at free
  exact ⟨_, by rw [resolve, Registry.resolve_of_unmarked entries free]; rfl⟩

def paragraph : Document :=
  (((({} : Document).addElement none "p" [("class", "a")]).addText 0 "x").wrap 0 "b")

def everything : Declaration where
  attributes := (∅ : NameMap AttributeOverride).insert "className" .update
  inner := true
  unrender := true

theorem eq_of_mem_everything {name : String} (h : name ∈ everything.attributes) :
    name = "className" := by
  simp [everything] at h
  exact h.symm

theorem plain_everything : everything.Plain := by
  intro name hname
  rw [eq_of_mem_everything hname]
  exact ⟨⟨by decide, by decide⟩, by decide⟩

/-- The paragraph twice under one ref, then its text, and then the wrapper of the first annotation.
-/
def again : List Step :=
  [⟨0, ⟨"e0a", Ref.isValid_e0a⟩, everything⟩, ⟨0, ⟨"e0a", Ref.isValid_e0a⟩, everything⟩,
    ⟨1, ⟨"e0b", Ref.isValid_e0b⟩, everything⟩, ⟨3, ⟨"e0b", Ref.isValid_e0b⟩, everything⟩]

theorem entries_after_again :
    (∀ m, .marker m ∈ Segment.split ((start {} paragraph).run again).document.markup.toList →
      ((start {} paragraph).run again).registry.Holds m) ∧
    ∀ ref field, ((start {} paragraph).run again).resolve
      ((start {} paragraph).run again).document.markup ≠ .error (.missing ref field) := by
  have built : paragraph.Built :=
    .wrap (.text (.element .empty (by simp) _ _) ⟨_, _, _, rfl⟩ _) _ _
  have free : Unmarked paragraph.markup.toList := by decide
  have names : ∀ step ∈ again, step.declaration.Plain := by
    intro step hstep
    simp [again] at hstep
    rcases hstep with rfl | rfl | rfl <;> exact plain_everything
  exact entries_after_run Settings.plain_default built free names

end Draft

end LateMarkup
