import LateMarkup.Proofs.Locality
import LateMarkup.Proofs.Recording

/-!
# Rewriting the attributes of a node

Attributes are overridden one after the other. Each time the node is looked at again, and by then
the attributes before it are gone and their markers stand at the end. What is seen of an attribute
is still what the node had at first (`Draft.overrideAttributes_original`): none of the keys that a
name stands for belongs to another name, and none of them is a marker. So the whole loop comes to
one change of the list, which is `Attributes.rewritten`.
-/

namespace LateMarkup

/-! ## The keys of a name -/

namespace AttributeName

/-- A declared name stands for itself and for its markup spelling. -/
def Spells (name key : String) : Prop := key = name ∨ markup? name = some key

instance (name key : String) : Decidable (Spells name key) :=
  inferInstanceAs (Decidable (key = name ∨ markup? name = some key))

theorem eq_of_markup? {a b markup : String} (ha : markup? a = some markup)
    (hb : markup? b = some markup) : a = b := by
  have table : ∀ pair ∈ spellings, structural? pair.1 = some pair.2 := by decide
  have back {name : String} (h : markup? name = some markup) : structural? markup = some name := by
    obtain ⟨pair, hpair, rfl⟩ := Option.map_eq_some_iff.mp h
    have hname := List.find?_some hpair
    rw [table pair (List.mem_of_find?_eq_some hpair), eq_of_beq hname]
  exact Option.some.inj ((back ha).symm.trans (back hb))

theorem Spells.unmarked {name key : String} (h : Spells name key) (free : Unmarked name.toList) :
    Unmarked key.toList := by
  rcases h with rfl | h
  · exact free
  · exact unmarked_markup h

/-- Names that can be overridden in any order: none is the markup spelling of another one, and none
holds marker text. -/
structure Apart (names : List String) : Prop where
  nodup : names.Nodup
  free : ∀ name ∈ names, Unmarked name.toList
  spellings : ∀ name ∈ names, ∀ other ∈ names, markup? other ≠ some name

theorem Apart.of_append {names more : List String} (apart : Apart (names ++ more)) :
    Apart names where
  nodup := (List.nodup_append.mp apart.nodup).1
  free name hname := apart.free name (List.mem_append_left _ hname)
  spellings name hname other hother :=
    apart.spellings name (List.mem_append_left _ hname) other (List.mem_append_left _ hother)

theorem Apart.eq_of_spells {names : List String} (apart : Apart names) {a b key : String}
    (ha : a ∈ names) (hb : b ∈ names) (hakey : Spells a key) (hbkey : Spells b key) : a = b := by
  rcases hakey with rfl | hakey
  · rcases hbkey with same | hbkey
    · exact same
    · exact absurd hbkey (apart.spellings _ ha _ hb)
  · rcases hbkey with rfl | hbkey
    · exact absurd hakey (apart.spellings _ hb _ ha)
    · exact eq_of_markup? hakey hbkey

theorem Apart.not_spells {names : List String} {name other key : String}
    (apart : Apart (names ++ [name])) (hother : other ∈ names) (hkey : Spells name key) :
    ¬ Spells other key := by
  intro hotherKey
  have last : name ∈ names ++ [name] := List.mem_append_right _ List.mem_cons_self
  obtain rfl := apart.eq_of_spells (List.mem_append_left _ hother) last hotherKey hkey
  exact (List.nodup_append.mp apart.nodup).2.2 _ hother _ List.mem_cons_self rfl

theorem not_spells_marker {name : String} (free : Unmarked name.toList) (ref : Ref)
    (other : String) : ¬ Spells name (Marker.attributeName ref other) :=
  fun h => Marker.not_unmarked_attributeName ref other (h.unmarked free)

end AttributeName

/-! ## Attribute lists -/

namespace Attributes

open AttributeName

variable {attributes : Attributes} {ref : Ref} {names : List String} {name : String}

theorem value?_append (a b : Attributes) (key : String) :
    Attributes.value? key (a ++ b) = (a.value? key).or (b.value? key) := by
  induction a with
  | nil => rfl
  | cons first rest ih =>
      obtain ⟨other, value⟩ := first
      rw [List.cons_append, value?, value?]
      split
      · rfl
      · exact ih

theorem value?_eq_none_iff {key : String} :
    attributes.value? key = none ↔ ∀ pair ∈ attributes, pair.1 ≠ key := by
  induction attributes with
  | nil => simp [value?]
  | cons first rest ih =>
      obtain ⟨other, value⟩ := first
      rw [value?, List.forall_mem_cons, ← ih]
      split
      · next same => simp [same]
      · next differs => simp [differs]

theorem value?_filter (keep : String → Bool) {key : String} (kept : keep key = true)
    (attributes : Attributes) :
    Attributes.value? key (attributes.filter fun pair => keep pair.1) = attributes.value? key := by
  induction attributes with
  | nil => rfl
  | cons first rest ih =>
      obtain ⟨other, value⟩ := first
      rw [value?, List.filter_cons]
      split
      · rw [value?, ih]
      · next dropped =>
          rw [if_neg, ih]
          rintro rfl
          exact dropped kept

theorem hasEither_eq (name : String) (attributes : Attributes) :
    attributes.hasEither name = (attributes.valueOfEither? name).isSome := by
  unfold hasEither valueOfEither?
  rw [Option.isSome_or, Bool.or_comm]
  cases markup? name <;> rfl

theorem removeEither_eq (name : String) (attributes : Attributes) :
    attributes.removeEither name = attributes.filter fun pair => decide ¬ Spells name pair.1 := by
  unfold removeEither remove
  split
  · next markup hmarkup =>
      rw [List.filter_filter]
      apply List.filter_congr
      intro pair _
      rw [Bool.and_comm]
      simp [Spells, hmarkup, bne, Bool.beq_eq_decide_eq, eq_comm]
  · next hmarkup =>
      apply List.filter_congr
      intro pair _
      simp [Spells, hmarkup, bne, Bool.beq_eq_decide_eq]

/-- Attributes without some names, in either spelling, and with a marker for each of the names
behind the others. -/
def rewritten (ref : Ref) (names : List String) (attributes : Attributes) : Attributes :=
  (attributes.filter fun pair => decide (∀ name ∈ names, ¬ Spells name pair.1)) ++
    names.map fun name => (Marker.attributeName ref name, "")

/-- A key that is neither left out nor the name of a marker keeps its value. -/
theorem value?_rewritten {key : String} (kept : ∀ name ∈ names, ¬ Spells name key)
    (free : Unmarked key.toList) (attributes : Attributes) :
    (attributes.rewritten ref names).value? key = attributes.value? key := by
  have markers : Attributes.value? key
      (names.map fun name => (Marker.attributeName ref name, "")) = none := by
    rw [value?_eq_none_iff]
    intro pair hpair heq
    obtain ⟨name, -, rfl⟩ := List.mem_map.mp hpair
    rw [← heq] at free
    exact Marker.not_unmarked_attributeName ref name free
  have keep : decide (∀ name ∈ names, ¬ Spells name key) = true := decide_eq_true kept
  rw [rewritten, value?_append, markers, Option.or_none]
  exact value?_filter (fun key => decide (∀ name ∈ names, ¬ Spells name key)) keep attributes

theorem valueOfEither?_rewritten (apart : AttributeName.Apart (names ++ [name]))
    (attributes : Attributes) :
    (attributes.rewritten ref names).valueOfEither? name = attributes.valueOfEither? name := by
  have free := apart.free name (List.mem_append_right _ List.mem_cons_self)
  have same {key : String} (hkey : Spells name key) :
      (attributes.rewritten ref names).value? key = attributes.value? key :=
    value?_rewritten (fun _ hother => apart.not_spells hother hkey) (hkey.unmarked free) attributes
  unfold valueOfEither?
  rw [same (Or.inl rfl)]
  cases hmarkup : markup? name with
  | none => rfl
  | some markup => rw [Option.bind_some, Option.bind_some, same (Or.inr hmarkup)]

/-- One more name is left out and marked. -/
theorem rewritten_concat (apart : AttributeName.Apart (names ++ [name]))
    (fresh : ∀ pair ∈ attributes, pair.1 ≠ Marker.attributeName ref name) :
    ((attributes.rewritten ref names).removeEither name).set (Marker.attributeName ref name) "" =
      attributes.rewritten ref (names ++ [name]) := by
  have free := apart.free name (List.mem_append_right _ List.mem_cons_self)
  have markers : (names.map fun other => (Marker.attributeName ref other, "")).filter
      (fun pair => decide ¬ Spells name pair.1) =
        names.map fun other => (Marker.attributeName ref other, "") := by
    rw [List.filter_eq_self]
    intro pair hpair
    obtain ⟨other, -, rfl⟩ := List.mem_map.mp hpair
    exact decide_eq_true (not_spells_marker free ref other)
  have others :
      (attributes.filter fun pair => decide (∀ other ∈ names, ¬ Spells other pair.1)).filter
        (fun pair => decide ¬ Spells name pair.1) =
      attributes.filter fun pair => decide (∀ other ∈ names ++ [name], ¬ Spells other pair.1) := by
    rw [List.filter_filter]
    apply List.filter_congr
    intro pair _
    rw [← Bool.decide_and, decide_eq_decide, List.forall_mem_append, List.forall_mem_singleton,
      and_comm]
  rw [removeEither_eq, rewritten, List.filter_append, others, markers, set_of_fresh, rewritten,
    List.map_append, List.append_assoc]
  · rfl
  · rw [List.forall_mem_append]
    refine ⟨fun pair hpair => fresh pair (List.mem_filter.mp hpair).1, fun pair hpair heq => ?_⟩
    obtain ⟨other, hother, rfl⟩ := List.mem_map.mp hpair
    obtain rfl := Marker.attributeName_inj heq
    exact (List.nodup_append.mp apart.nodup).2.2 _ hother _ List.mem_cons_self rfl

theorem not_spells_of_mem_rewritten (free : Unmarked name.toList) (hname : name ∈ names)
    {pair : String × String} (hpair : pair ∈ attributes.rewritten ref names) :
    ¬ Spells name pair.1 := by
  rcases List.mem_append.mp hpair with hpair | hpair
  · exact of_decide_eq_true (List.mem_filter.mp hpair).2 name hname
  · obtain ⟨other, -, rfl⟩ := List.mem_map.mp hpair
    exact not_spells_marker free ref other

end Attributes

/-! ## The attributes of a node -/

namespace Document

theorem find?_relabel (doc : Document) (node : Nat) (change : Label → Label) :
    (doc.relabel node change).find? node =
      (doc.find? node).map fun (label, children) => (change label, children) := by
  have self := Forest.find?_edit_self node fun label children =>
    Forest.find?_tree node (change label) children
  unfold relabel edit find?
  dsimp only
  rw [self, self, Option.map_or]

theorem label_mapAttributes (doc : Document) (node : Nat) (change : Attributes → Attributes) :
    (doc.mapAttributes node change).label node = (doc.label node).mapAttributes change := by
  rw [label, mapAttributes, find?_relabel, label]
  cases doc.find? node <;> rfl

theorem attributes_mapAttributes {doc : Document} {node : Nat}
    (element : (doc.label node).isElement = true) (change : Attributes → Attributes) :
    (doc.mapAttributes node change).attributes node = change (doc.attributes node) := by
  rw [attributes, label_mapAttributes, attributes]
  cases hlabel : doc.label node with
  | element tag attributes => rfl
  | text content =>
      rw [hlabel] at element
      cases element

end Document

namespace Draft

variable {draft : Draft} {node : Nat} {ref : Ref} {old : Attributes} {done : List String}

def attributeCode (settings : Settings) (ref : Ref) (old : Attributes) (name : String)
    (kind : AttributeOverride) : String :=
  Fragment.ofAttribute settings ref name (old.valueOfEither? name) kind (old.hasEither name) false

theorem isElement_overrideAttribute (element : (draft.document.label node).isElement = true)
    (name : String) (kind : AttributeOverride) :
    ((draft.overrideAttribute node ref name kind).document.label node).isElement = true := by
  unfold overrideAttribute
  dsimp only
  rw [Document.label_mapAttributes, Label.isElement_mapAttributes, element]

theorem overrideAttribute_rewritten (element : (draft.document.label node).isElement = true)
    (seen : draft.document.attributes node = old.rewritten ref done) {name : String}
    (apart : AttributeName.Apart (done ++ [name]))
    (fresh : ∀ pair ∈ old, pair.1 ≠ Marker.attributeName ref name) (kind : AttributeOverride) :
    (draft.overrideAttribute node ref name kind).document.attributes node =
        old.rewritten ref (done ++ [name]) ∧
      (draft.overrideAttribute node ref name kind).registry.code? (.attribute ref name) =
        some (attributeCode draft.settings ref old name kind) := by
  constructor
  · unfold overrideAttribute
    dsimp only
    rw [Document.attributes_mapAttributes element, seen, Attributes.rewritten_concat apart fresh]
  · have value : (old.rewritten ref done).valueOfEither? name = old.valueOfEither? name :=
      Attributes.valueOfEither?_rewritten apart old
    unfold overrideAttribute attributeCode
    dsimp only
    rw [Registry.adds_attribute, Marker.only_self, Option.some_or, seen, Attributes.hasEither_eq,
      value, ← Attributes.hasEither_eq]

/-- What is recorded for a name stays as other names are overridden. -/
theorem code?_overrideEach_of_notMem {name : String} {overrides : List (String × AttributeOverride)}
    (other : name ∉ overrides.map Prod.fst) :
    (draft.overrideEach node ref overrides).registry.code? (.attribute ref name) =
      draft.registry.code? (.attribute ref name) := by
  induction overrides generalizing draft with
  | nil => rfl
  | cons first rest ih =>
      rw [List.map_cons, List.mem_cons, not_or] at other
      have kept : (draft.overrideAttribute node ref first.1 first.2).registry.code?
          (.attribute ref name) = draft.registry.code? (.attribute ref name) := by
        unfold overrideAttribute
        dsimp only
        rw [Registry.adds_attribute, Marker.only_of_ne, Option.none_or]
        rintro ⟨⟩
        exact other.1 rfl
      exact (ih other.2).trans kept

/-- A row of names is overridden. The induction is over the names that are left, and `done` are
those that it has behind it. -/
theorem overrideEach_rewritten {overrides : List (String × AttributeOverride)}
    (element : (draft.document.label node).isElement = true)
    (seen : draft.document.attributes node = old.rewritten ref done)
    (apart : AttributeName.Apart (done ++ overrides.map Prod.fst))
    (fresh : ∀ name ∈ overrides.map Prod.fst, ∀ pair ∈ old,
      pair.1 ≠ Marker.attributeName ref name) :
    (draft.overrideEach node ref overrides).document.attributes node =
        old.rewritten ref (done ++ overrides.map Prod.fst) ∧
      ∀ pair ∈ overrides,
        (draft.overrideEach node ref overrides).registry.code? (.attribute ref pair.1) =
          some (attributeCode draft.settings ref old pair.1 pair.2) := by
  induction overrides generalizing draft done with
  | nil =>
      rw [List.map_nil, List.append_nil]
      exact ⟨seen, nofun⟩
  | cons first rest ih =>
      obtain ⟨name, kind⟩ := first
      rw [List.map_cons, List.append_cons] at apart ⊢
      rw [List.map_cons, List.forall_mem_cons] at fresh
      obtain ⟨freshName, fresh⟩ := fresh
      obtain ⟨seenNext, recorded⟩ :=
        overrideAttribute_rewritten element seen apart.of_append freshName kind
      obtain ⟨rewritten, codes⟩ :=
        ih (isElement_overrideAttribute element name kind) seenNext apart fresh
      refine ⟨rewritten, List.forall_mem_cons.mpr ⟨?_, codes⟩⟩
      have new : name ∉ rest.map Prod.fst := by
        intro mem
        exact (List.nodup_append.mp apart.nodup).2.2 name
          (List.mem_append_right _ List.mem_cons_self) name mem rfl
      exact (code?_overrideEach_of_notMem new).trans recorded

/-- **Overridden attributes are read as they were.** The code of every declared name is that of the
value which the node had before any of them was overridden, be it under the one spelling or the
other, and what exists has a value. Of the attributes the others are left, in their order, with a
marker for each declared name behind them. -/
theorem overrideAttributes_original (element : (draft.document.label node).isElement = true)
    (ref : Ref) {declaration : Declaration}
    (names : ∀ name ∈ declaration.attributes, Unmarked name.toList)
    (spellings : ∀ name ∈ declaration.attributes, ∀ other ∈ declaration.attributes,
      AttributeName.markup? other ≠ some name)
    (fresh : ∀ name ∈ declaration.attributes,
      (draft.document.attributes node).has (Marker.attributeName ref name) = false) :
    let old := draft.document.attributes node
    let after := draft.overrideAttributes node ref declaration
    (∀ name kind, declaration.attributes[name]? = some kind →
      after.registry.code[ref]?.bind (·.attributes[name]?) =
          some (attributeCode draft.settings ref old name kind) ∧
        old.hasEither name = (old.valueOfEither? name).isSome) ∧
    after.document.attributes node = old.rewritten ref declaration.attributes.keys ∧
    ∀ name ∈ declaration.attributes, ∀ pair ∈ after.document.attributes node,
      ¬ AttributeName.Spells name pair.1 := by
  intro old after
  have keys : declaration.attributes.toList.map Prod.fst = declaration.attributes.keys :=
    Std.ExtTreeMap.map_fst_toList_eq_keys
  have apart : AttributeName.Apart ([] ++ declaration.attributes.toList.map Prod.fst) := by
    rw [List.nil_append, keys]
    refine ⟨Std.ExtTreeMap.nodup_keys, ?_, ?_⟩
    · exact fun name hname => names name (Std.ExtTreeMap.mem_keys.mp hname)
    · exact fun name hname other hother =>
        spellings name (Std.ExtTreeMap.mem_keys.mp hname) other (Std.ExtTreeMap.mem_keys.mp hother)
  have seen : draft.document.attributes node = old.rewritten ref [] := by
    simp [old, Attributes.rewritten]
  have fresh : ∀ name ∈ declaration.attributes.toList.map Prod.fst, ∀ pair ∈ old,
      pair.1 ≠ Marker.attributeName ref name := by
    rw [keys]
    intro name hname
    have absent := fresh name (Std.ExtTreeMap.mem_keys.mp hname)
    rw [Attributes.has, Option.isSome_eq_false_iff, Option.isNone_iff_eq_none] at absent
    exact Attributes.value?_eq_none_iff.mp absent
  obtain ⟨rewritten, codes⟩ := overrideEach_rewritten element seen apart fresh
  rw [List.nil_append, keys] at rewritten
  change after.document.attributes node = _ at rewritten
  refine ⟨fun name kind declared => ⟨?_, Attributes.hasEither_eq name old⟩, rewritten, ?_⟩
  · exact codes (name, kind) (Std.ExtTreeMap.mem_toList_iff_getElem?_eq_some.mpr declared)
  · intro name hname pair hpair
    rw [rewritten] at hpair
    exact Attributes.not_spells_of_mem_rewritten (names name hname)
      (Std.ExtTreeMap.mem_keys.mpr hname) hpair

/-- A check box that has one attribute under both spellings and another one in markup spelling. -/
def checkBoxDraft : Draft where
  document := ({} : Document).addElement none "input"
    [("readonly", "r"), ("type", "checkbox"), ("checked", "on"), ("readOnly", "R")]

def checkBox : Declaration where
  attributes := (((∅ : NameMap AttributeOverride).insert "title" .update).insert "readOnly"
    .updateDelete).insert "defaultChecked" .update

theorem overrideAttributes_original_checkBox :
    (checkBoxDraft.overrideAttributes 0 ⟨"e0a", Ref.isValid_e0a⟩ checkBox).document.attributes 0 =
      [("type", "checkbox"), ("__OVERRIDE_ATTR__e0a__defaultChecked", ""),
        ("__OVERRIDE_ATTR__e0a__readOnly", ""), ("__OVERRIDE_ATTR__e0a__title", "")] ∧
    (checkBoxDraft.overrideAttributes 0 ⟨"e0a", Ref.isValid_e0a⟩ checkBox).registry.code[
        (⟨"e0a", Ref.isValid_e0a⟩ : Ref)]?.bind (·.attributes["readOnly"]?) =
      some ("\x7b...!d.e0aAttrdelReadOnly && \x7b'readOnly': " ++
        "DS.e(d.e0aAttrReadOnly) ? d.e0aAttrReadOnly : 'r'\x7d\x7d") := by
  have keys : checkBox.attributes.keys = ["defaultChecked", "readOnly", "title"] := by decide
  have names : ∀ name ∈ checkBox.attributes, Unmarked name.toList := by
    intro name hname
    rw [← Std.ExtTreeMap.mem_keys, keys] at hname
    revert name
    decide
  have spellings : ∀ name ∈ checkBox.attributes, ∀ other ∈ checkBox.attributes,
      AttributeName.markup? other ≠ some name := by
    intro name hname other hother
    rw [← Std.ExtTreeMap.mem_keys, keys] at hname hother
    revert name other
    decide
  have fresh : ∀ name ∈ checkBox.attributes, (checkBoxDraft.document.attributes 0).has
      (Marker.attributeName ⟨"e0a", Ref.isValid_e0a⟩ name) = false := by
    intro name hname
    rw [← Std.ExtTreeMap.mem_keys, keys] at hname
    revert name
    decide
  have element : (checkBoxDraft.document.label 0).isElement = true := by decide
  obtain ⟨codes, rewritten, -⟩ :=
    overrideAttributes_original element ⟨"e0a", Ref.isValid_e0a⟩ names spellings fresh
  rw [rewritten, keys, (codes "readOnly" .updateDelete (by decide)).1]
  decide

end Draft

end LateMarkup
