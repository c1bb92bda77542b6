import Mathlib.Data.List.Nodup
import Mathlib.Data.Set.Function
import LateMarkup.Emission
import LateMarkup.Proofs.AttributeMeaning

/-!
# Emitting properties

The overrides of properties are emitted in two stages: first those of the properties that stand in
the markup, then those of the properties that do not. Which stage emits an override is decided by
the declared name, so every override is emitted once. What is written is the sanitized name, so a
property is written twice where two names are told apart only by characters that are dropped
(`Declaration.properties_emitted_once`, `Declaration.property_emitted_twice`).
-/

namespace LateMarkup

def Jsx.Attribute.name : Jsx.Attribute → String
  | assigned name _ => name
  | spread _ name _ => name

theorem Fragment.name_attributeForm (ref : Ref) (name shown value : String) (present : Bool)
    (kind : AttributeOverride) :
    (attributeForm ref name shown value present kind).name = shown := by
  cases kind with
  | update => cases present <;> rfl
  | delete => rfl
  | updateDelete => rfl

namespace Declaration

variable {declaration : Declaration} {settings : Settings} {ref : Ref}
  {existing : List (String × Option String)}

/-! ## What the stages write -/

/-- The overrides of the properties that exist, each with its declared name. The properties come
with their static values. -/
def presentForms (declaration : Declaration) (ref : Ref)
    (existing : List (String × Option String)) : List (String × Jsx.Attribute) :=
  existing.filterMap fun (name, value) => declaration.properties[name]?.map fun kind =>
    (name, Fragment.attributeForm ref name (Fragment.sanitize name) (value.getD "") true kind)

/-- The overrides of the properties that do not exist, each with its declared name. -/
def absentForms (declaration : Declaration) (ref : Ref) (existing : List String) :
    List (String × Jsx.Attribute) :=
  (declaration.properties.toList.filter fun (name, _) => !existing.contains name).map
    fun (name, kind) =>
      (name, Fragment.attributeForm ref name (Fragment.sanitize name) "" false kind)

def absentNames (declaration : Declaration) (existing : List String) : List String :=
  declaration.properties.keys.filter fun name => !existing.contains name

/-- The existing properties that no stage writes. -/
def untouchedProperties (declaration : Declaration) (existing : List String) : List String :=
  existing.filter fun name => !declaration.properties.contains name

/-- The names of all properties that stand in the element in the end. -/
def writtenProperties (declaration : Declaration) (ref : Ref)
    (existing : List (String × Option String)) : List String :=
  (declaration.presentForms ref existing).map (fun (_, form) => form.name) ++
    declaration.untouchedProperties (existing.map Prod.fst) ++
    (declaration.absentForms ref (existing.map Prod.fst)).map fun (_, form) => form.name

theorem presentProperties_eq (declaration : Declaration) (settings : Settings) (ref : Ref)
    (existing : List (String × Option String)) :
    (existing.filterMap fun (name, value) =>
      declaration.presentProperty? settings ref name value) =
      (declaration.presentForms ref existing).map fun (_, form) => form.render settings := by
  rw [presentForms, List.map_filterMap]
  refine List.filterMap_congr fun (name, value) _ => ?_
  show Option.map _ _ = Option.map _ (Option.map _ _)
  rw [Option.map_map]
  rfl

theorem absentProperties_eq (declaration : Declaration) (settings : Settings) (ref : Ref)
    (existing : List String) :
    declaration.absentProperties settings ref existing =
      (declaration.absentForms ref existing).map fun (_, form) => form.render settings := by
  rw [absentProperties, absentForms, List.map_map]
  rfl

/-! ## The declared names -/

theorem map_fst_presentForms : (declaration.presentForms ref existing).map Prod.fst =
    (existing.map Prod.fst).filter fun name => declaration.properties.contains name := by
  rw [← List.filterMap_eq_filter, List.filterMap_map, presentForms, List.map_filterMap]
  refine List.filterMap_congr fun (name, value) _ => ?_
  show Option.map _ (Option.map _ declaration.properties[name]?) =
    Option.guard (fun name => declaration.properties.contains name) name
  rw [Option.guard, Std.ExtTreeMap.contains_eq_isSome_getElem?]
  cases declaration.properties[name]? <;> rfl

theorem map_fst_absentForms (existing : List String) :
    (declaration.absentForms ref existing).map Prod.fst = declaration.absentNames existing := by
  rw [absentForms, absentNames, List.map_map, ← Std.ExtTreeMap.map_fst_toList_eq_keys,
    List.filter_map]
  rfl

/-- Whatever a stage writes, it writes under the sanitized name. -/
theorem map_name_presentForms :
    ((declaration.presentForms ref existing).map fun (_, form) => form.name) =
      ((declaration.presentForms ref existing).map Prod.fst).map Fragment.sanitize := by
  rw [List.map_map]
  refine List.map_congr_left fun emitted mem => ?_
  obtain ⟨⟨name, value⟩, -, found⟩ := List.mem_filterMap.mp mem
  obtain ⟨kind, -, rfl⟩ := Option.map_eq_some_iff.mp found
  exact Fragment.name_attributeForm _ _ _ _ _ _

theorem map_name_absentForms (existing : List String) :
    ((declaration.absentForms ref existing).map fun (_, form) => form.name) =
      ((declaration.absentForms ref existing).map Prod.fst).map Fragment.sanitize := by
  rw [List.map_map]
  refine List.map_congr_left fun emitted mem => ?_
  obtain ⟨⟨name, kind⟩, -, rfl⟩ := List.mem_map.mp mem
  exact Fragment.name_attributeForm _ _ _ _ _ _

theorem mem_absentNames {existing : List String} {name : String} :
    name ∈ declaration.absentNames existing ↔ name ∈ declaration.properties ∧ name ∉ existing := by
  simp [absentNames, Std.ExtTreeMap.mem_keys]

theorem nodup_absentNames (existing : List String) : (declaration.absentNames existing).Nodup :=
  Std.ExtTreeMap.nodup_keys.filter _

/-! ## Overrides and names -/

/-- Every declared override is emitted by one of the stages, and nothing else is. -/
theorem count_forms (distinct : (existing.map Prod.fst).Nodup) (name : String) :
    ((declaration.presentForms ref existing).map Prod.fst).count name +
        ((declaration.absentForms ref (existing.map Prod.fst)).map Prod.fst).count name =
      if name ∈ declaration.properties then 1 else 0 := by
  rw [map_fst_presentForms, map_fst_absentForms, (distinct.filter _).count,
    (nodup_absentNames _).count]
  simp only [List.mem_filter, Std.ExtTreeMap.contains_iff_mem, mem_absentNames]
  by_cases declared : name ∈ declaration.properties <;>
    by_cases present : name ∈ existing.map Prod.fst <;> simp [declared, present]

/-- The properties that stand in the element in the end are those that existed and those that are
declared, under their sanitized names. -/
theorem writtenProperties_perm
    (proper : ∀ name ∈ existing.map Prod.fst, ∀ c ∈ name.toList, Fragment.isNameChar c = true) :
    (declaration.writtenProperties ref existing).Perm
      ((existing.map Prod.fst ++ declaration.absentNames (existing.map Prod.fst)).map
        Fragment.sanitize) := by
  have untouched : declaration.untouchedProperties (existing.map Prod.fst) =
      (declaration.untouchedProperties (existing.map Prod.fst)).map Fragment.sanitize := by
    conv_lhs => rw [← List.map_id' (declaration.untouchedProperties _)]
    exact List.map_congr_left fun name mem =>
      (Fragment.sanitize_eq_self (proper name (List.mem_of_mem_filter mem))).symm
  rw [writtenProperties, map_name_presentForms, map_name_absentForms, untouched,
    map_fst_presentForms, map_fst_absentForms, List.map_append, ← List.map_append]
  exact ((List.filter_append_perm _ _).map _).append_right _

/-- A property is written twice exactly if two of the names become one when they are sanitized. -/
theorem nodup_writtenProperties_iff (distinct : (existing.map Prod.fst).Nodup)
    (proper : ∀ name ∈ existing.map Prod.fst, ∀ c ∈ name.toList, Fragment.isNameChar c = true) :
    (declaration.writtenProperties ref existing).Nodup ↔
      Set.InjOn Fragment.sanitize
        {name | name ∈ existing.map Prod.fst ∨ name ∈ declaration.properties} := by
  have nodup :
      (existing.map Prod.fst ++ declaration.absentNames (existing.map Prod.fst)).Nodup :=
    List.nodup_append'.mpr ⟨distinct, nodup_absentNames _, fun _ present absent =>
      (mem_absentNames.mp absent).2 present⟩
  have mem (name : String) :
      name ∈ existing.map Prod.fst ++ declaration.absentNames (existing.map Prod.fst) ↔
        name ∈ existing.map Prod.fst ∨ name ∈ declaration.properties := by
    rw [List.mem_append, mem_absentNames]
    by_cases present : name ∈ existing.map Prod.fst <;> simp [present]
  rw [(writtenProperties_perm proper).nodup_iff, List.nodup_map_iff_inj_on nodup]
  simp only [mem]
  rfl

/-- What the two stages of properties do to an element with the properties `existing`. -/
structure EmitsOnce (declaration : Declaration) (settings : Settings) (ref : Ref)
    (existing : List (String × Option String)) : Prop where
  /-- The first stage gives the code of the overrides whose properties exist. -/
  present : (existing.filterMap fun (name, value) =>
      declaration.presentProperty? settings ref name value) =
    (declaration.presentForms ref existing).map fun (_, form) => form.render settings
  /-- The second stage gives the code of the overrides whose properties do not exist. -/
  absent : declaration.absentProperties settings ref (existing.map Prod.fst) =
    (declaration.absentForms ref (existing.map Prod.fst)).map fun (_, form) => form.render settings
  /-- Every declared override is emitted by one of the stages, and nothing else is. -/
  once : ∀ name, ((declaration.presentForms ref existing).map Prod.fst).count name +
      ((declaration.absentForms ref (existing.map Prod.fst)).map Prod.fst).count name =
    if name ∈ declaration.properties then 1 else 0
  /-- No property is written twice if sanitizing keeps the names apart, and only then. -/
  distinct : (declaration.writtenProperties ref existing).Nodup ↔
    Set.InjOn Fragment.sanitize
      {name | name ∈ existing.map Prod.fst ∨ name ∈ declaration.properties}

/-- **Every override of a property is emitted once**, in the stage that its declared name belongs
to. Every property is written once, too, if no two of the existing and declared names become one
when they are sanitized. -/
theorem properties_emitted_once (declaration : Declaration) (settings : Settings) (ref : Ref)
    (distinct : (existing.map Prod.fst).Nodup)
    (proper : ∀ name ∈ existing.map Prod.fst, ∀ c ∈ name.toList, Fragment.isNameChar c = true) :
    declaration.EmitsOnce settings ref existing where
  present := presentProperties_eq declaration settings ref existing
  absent := absentProperties_eq declaration settings ref _
  once := count_forms distinct
  distinct := nodup_writtenProperties_iff distinct proper

/-- Overrides of two properties. The name of the second one has a blank in it. -/
def labelled : Declaration where
  properties := ((∅ : NameMap AttributeOverride).insert "data-x" .update).insert "on click" .delete

theorem properties_emitted_once_labelled :
    ([("data-x", some "v"), ("size", none)].map Prod.fst).Nodup ∧
    (∀ name ∈ [("data-x", some "v"), ("size", none)].map Prod.fst,
      ∀ c ∈ name.toList, Fragment.isNameChar c = true) ∧
    labelled.EmitsOnce {} ⟨"e0a", Ref.isValid_e0a⟩ [("data-x", some "v"), ("size", none)] ∧
    labelled.writtenProperties ⟨"e0a", Ref.isValid_e0a⟩ [("data-x", some "v"), ("size", none)] =
      ["data-x", "size", "onclick"] :=
  have distinct : ([("data-x", some "v"), ("size", none)].map Prod.fst).Nodup := by decide
  have proper : ∀ name ∈ [("data-x", some "v"), ("size", none)].map Prod.fst,
      ∀ c ∈ name.toList, Fragment.isNameChar c = true := by decide
  ⟨distinct, proper, properties_emitted_once labelled {} ⟨"e0a", Ref.isValid_e0a⟩ distinct proper,
    by decide⟩

/-- One name that is sanitized to that of a property in the markup. -/
def misspelt : Declaration where
  properties := (∅ : NameMap AttributeOverride).insert "data-x!" .update

/-- A property can be written twice: `data-x` stands in the markup, and the second stage, which
looks for `data-x!` there, adds `data-x` once more. The grammar reads its code in one way, which
binds `data-x` wherever the value is defined. -/
theorem property_emitted_twice :
    misspelt.presentProperty? {} ⟨"e0a", Ref.isValid_e0a⟩ "data-x" (some "v") = none ∧
    misspelt.absentProperties {} ⟨"e0a", Ref.isValid_e0a⟩ ["data-x"] =
      ["\x7b...DS.e(d.e0aAttrDataX) && \x7b'data-x': d.e0aAttrDataX\x7d\x7d"] ∧
    misspelt.writtenProperties ⟨"e0a", Ref.isValid_e0a⟩ [("data-x", some "v")] =
      ["data-x", "data-x"] ∧
    ∀ tree : Jsx.AttributeTree, tree.WellFormed →
      tree.text = "\x7b...DS.e(d.e0aAttrDataX) && \x7b'data-x': d.e0aAttrDataX\x7d\x7d".toList →
      ∀ {V : Type} (runtime : Jsx.Runtime V),
        runtime.defined (.data (runtime.data "e0aAttrDataX")) = true →
        tree.bindings runtime = some [("data-x", .data (runtime.data "e0aAttrDataX"))] := by
  refine ⟨by decide, by decide, by decide, ?_⟩
  have key : Jsx.IsKey "e0aAttrDataX" := ⟨by decide, by decide⟩
  have wf : (Jsx.Attribute.spread (.defined "e0aAttrDataX") "data-x"
      (.data "e0aAttrDataX")).WellFormed := ⟨by decide, key, key⟩
  have code : "\x7b...DS.e(d.e0aAttrDataX) && \x7b'data-x': d.e0aAttrDataX\x7d\x7d" =
      (Jsx.Attribute.spread (.defined "e0aAttrDataX") "data-x" (.data "e0aAttrDataX")).render {} :=
    by decide
  rw [code]
  intro tree proper text V runtime defined
  rw [(Jsx.Attribute.eq_tree_iff wf tree).mp ⟨proper, text⟩, Jsx.Attribute.bindings_tree runtime wf]
  exact congrArg some (if_pos defined)

end Declaration

end LateMarkup
