import Mathlib.Data.List.Forall2
import LateMarkup.Emission
import LateMarkup.Proofs.Recording

/-!
# Emitting classes

Overriding the classes of an element goes through the declared classes once, for their code and to
take them out of the static ones (`Declaration.overrideClasses_eq`), and a second time to record the
code under the ref of the element. The second time name and code are paired anew, and still no class
gets the code of another one (`Declaration.zip_classFragments`). What is not declared stays as it
was, and overriding once more changes nothing (`Page.emitClasses_exact`).
-/

namespace LateMarkup

namespace Declaration

variable {declaration : Declaration} {settings : Settings} {ref : Ref} {name code : String}

/-- The declared classes, each with its code, in the order of their names. -/
def classFragments (declaration : Declaration) (settings : Settings) (ref : Ref) :
    List (String × String) :=
  declaration.classes.toList.map fun (name, action) =>
    (name, Fragment.ofClass settings ref name action)

def remainingClasses (declaration : Declaration) (classes : List String) : List String :=
  classes.filter fun name => !declaration.classes.contains name

/-! ## The loop over the declared classes -/

/-- What the loop adds to the code it starts with, and takes from the classes it starts with. -/
theorem foldl_overrides (overrides : List (String × ClassOverride))
    (fragments classes : List String) :
    overrides.foldl
        (fun (fragments, classes) (name, action) =>
          (fragments ++ [Fragment.ofClass settings ref name action], classes.filter (· != name)))
        (fragments, classes) =
      (fragments ++ overrides.map fun (name, action) => Fragment.ofClass settings ref name action,
        classes.filter fun name => !(overrides.map Prod.fst).contains name) := by
  induction overrides generalizing fragments classes with
  | nil => simp
  | cons first rest ih =>
      obtain ⟨name, action⟩ := first
      rw [List.foldl_cons]
      dsimp only
      rw [ih, List.filter_filter]
      simp [bne, Bool.and_comm]

theorem overrideClasses_eq (classes : List String) :
    declaration.overrideClasses settings ref classes =
      ((declaration.classFragments settings ref).map Prod.snd,
        declaration.remainingClasses classes) := by
  rw [overrideClasses, foldl_overrides, List.nil_append, classFragments, List.map_map,
    Std.ExtTreeMap.map_fst_toList_eq_keys]
  simp only [Std.ExtTreeMap.contains_keys]
  rfl

/-! ## The code of the declared classes -/

theorem map_fst_classFragments (declaration : Declaration) (settings : Settings) (ref : Ref) :
    (declaration.classFragments settings ref).map Prod.fst = declaration.classes.keys := by
  rw [classFragments, List.map_map]
  exact Std.ExtTreeMap.map_fst_toList_eq_keys

/-- Pairing the names with the code once more, each name gets its own code. -/
theorem zip_classFragments (declaration : Declaration) (settings : Settings) (ref : Ref) :
    declaration.classes.keys.zip ((declaration.classFragments settings ref).map Prod.snd) =
      declaration.classFragments settings ref := by
  rw [← map_fst_classFragments declaration settings ref, List.zip_map']
  exact List.map_id _

theorem mem_classFragments :
    (name, code) ∈ declaration.classFragments settings ref ↔
      ∃ action, declaration.classes[name]? = some action ∧
        Fragment.ofClass settings ref name action = code := by
  simp only [classFragments, List.mem_map, Prod.exists, Prod.mk.injEq,
    Std.ExtTreeMap.mem_toList_iff_getElem?_eq_some]
  constructor
  · rintro ⟨_, action, declared, rfl, rfl⟩
    exact ⟨action, declared, rfl⟩
  · rintro ⟨action, declared, rfl⟩
    exact ⟨name, action, declared, rfl, rfl⟩

theorem isEmpty_classFragments :
    (declaration.classFragments settings ref).isEmpty = declaration.classes.isEmpty := by
  rw [classFragments, List.isEmpty_map, Std.ExtTreeMap.isEmpty_toList]

/-- The declared classes, in the order of their names. -/
theorem keys_sorted : declaration.classes.keys.Pairwise (· < ·) :=
  declaration.classes.ordered_keys.imp compareOfLessAndEq_eq_lt.mp

theorem forall₂_classFragments :
    List.Forall₂
      (fun name code => ∃ action, declaration.classes[name]? = some action ∧
        Fragment.ofClass settings ref name action = code)
      declaration.classes.keys ((declaration.classFragments settings ref).map Prod.snd) := by
  rw [← map_fst_classFragments declaration settings ref, List.forall₂_map_left_iff,
    List.forall₂_map_right_iff, List.forall₂_same]
  rintro ⟨name, code⟩ mem
  exact mem_classFragments.mp mem

/-! ## The static classes -/

theorem remainingClasses_sublist (classes : List String) :
    (declaration.remainingClasses classes).Sublist classes :=
  List.filter_sublist

/-- No declared class stays, and every other one stays as often as it is there. -/
theorem count_remainingClasses (classes : List String) (name : String) :
    (declaration.remainingClasses classes).count name =
      if name ∈ declaration.classes then 0 else classes.count name := by
  rw [remainingClasses]
  split
  · next declared =>
      rw [List.count_eq_zero, List.mem_filter]
      rintro ⟨-, undeclared⟩
      rw [Std.ExtTreeMap.contains_iff_mem.mpr declared] at undeclared
      cases undeclared
  · next undeclared =>
      apply List.count_filter
      rwa [Bool.not_eq_true', Bool.eq_false_iff, ne_eq, Std.ExtTreeMap.contains_iff_mem]

theorem remainingClasses_again (classes : List String) :
    declaration.remainingClasses (declaration.remainingClasses classes) =
      declaration.remainingClasses classes := by
  rw [remainingClasses, remainingClasses, List.filter_filter]
  simp only [Bool.and_self]

/-! ## The recorded code -/

/-- A declared class has the code of its override, and every other class what it had before. -/
theorem getElem?_recordClasses (entry : Fragments) (name : String) :
    (entry.recordClasses (declaration.classFragments settings ref)).classes[name]? =
      ((declaration.classes[name]?).map (Fragment.ofClass settings ref name)).or
        entry.classes[name]? := by
  rw [Fragments.recordClasses]
  cases declared : declaration.classes[name]? with
  | some action =>
      have distinct : (declaration.classFragments settings ref).Pairwise
          fun a b => ¬ compare a.1 b.1 = .eq := by
        rw [← List.pairwise_map (R := fun a b => ¬ compare a b = .eq), map_fst_classFragments]
        exact declaration.classes.distinct_keys
      exact Std.ExtTreeMap.getElem?_insertMany_list_of_mem Std.ReflCmp.compare_self distinct
        (mem_classFragments.mpr ⟨action, declared, rfl⟩)
  | none =>
      apply Std.ExtTreeMap.getElem?_insertMany_list_of_contains_eq_false
      rw [map_fst_classFragments, Std.ExtTreeMap.contains_keys,
        Std.ExtTreeMap.contains_eq_isSome_getElem?, declared]
      rfl

theorem recordClasses_again (entry : Fragments) :
    (entry.recordClasses (declaration.classFragments settings ref)).recordClasses
        (declaration.classFragments settings ref) =
      entry.recordClasses (declaration.classFragments settings ref) := by
  have classes : ((entry.recordClasses (declaration.classFragments settings ref)).recordClasses
      (declaration.classFragments settings ref)).classes =
        (entry.recordClasses (declaration.classFragments settings ref)).classes := by
    apply Std.ExtTreeMap.ext_getElem?
    intro name
    rw [getElem?_recordClasses, getElem?_recordClasses, ← Option.or_assoc, Option.or_self]
  exact congrArg (fun classes => { entry with classes }) classes

end Declaration

/-! ## The registry -/

namespace Registry

variable {registry : Registry} {ref : Ref} {change : Fragments → Fragments}

def classFragment? (registry : Registry) (ref : Ref) (name : String) : Option String :=
  registry.code[ref]?.bind (·.classes[name]?)

theorem bind_recordClasses {α : Type} (field : Fragments → Option α) (empty : field {} = none)
    (same : ∀ entry fragments, field (entry.recordClasses fragments) = field entry)
    (fragments : List (String × String)) :
    (registry.modifyCode ref (·.recordClasses fragments)).code[ref]?.bind field =
      registry.code[ref]?.bind field := by
  rw [getElem?_modifyCode, if_pos rfl, Option.bind_some, same]
  cases registry.code[ref]? with
  | none => exact empty
  | some entry => rfl

theorem modifyCode_again (again : ∀ entry, change (change entry) = change entry) :
    (registry.modifyCode ref change).modifyCode ref change = registry.modifyCode ref change := by
  have code : ∀ other : Ref, ((registry.modifyCode ref change).modifyCode ref change).code[other]? =
      (registry.modifyCode ref change).code[other]? := by
    intro other
    rw [getElem?_modifyCode]
    split
    · next own =>
        subst own
        rw [getElem?_modifyCode, if_pos rfl, Option.getD_some, again]
    · rfl
  exact congrArg (fun code => { registry with code }) (Std.ExtTreeMap.ext_getElem? code)

/-- A registry that has the code of the declared classes of one ref, and is otherwise as it was. The
ref has an entry if it had one or if there is a class to record. -/
structure RecordsClasses (settings : Settings) (ref : Ref) (declaration : Declaration)
    (old new : Registry) : Prop where
  declared : ∀ name action, declaration.classes[name]? = some action →
    new.classFragment? ref name = some (Fragment.ofClass settings ref name action)
  undeclared : ∀ name, name ∉ declaration.classes →
    new.classFragment? ref name = old.classFragment? ref name
  attributes : ∀ name, new.attributeFragment ref name = old.attributeFragment ref name
  inner : new.innerFragment ref = old.innerFragment ref
  unrender : new.guardFragment ref = old.guardFragment ref
  entry : ref ∈ new.code ↔ ref ∈ old.code ∨ declaration.classes.isEmpty = false
  otherCode : ∀ other ≠ ref, new.code[other]? = old.code[other]?
  defaults : new.defaults = old.defaults

variable {settings : Settings} {declaration : Declaration}

theorem recordsClasses_of_isEmpty (none : declaration.classes.isEmpty = true) :
    RecordsClasses settings ref declaration registry registry where
  declared name action declared := by
    rw [Std.ExtTreeMap.isEmpty_iff.mp none] at declared
    cases declared
  undeclared _ _ := rfl
  attributes _ := rfl
  inner := rfl
  unrender := rfl
  entry := by simp [none]
  otherCode _ _ := rfl
  defaults := rfl

theorem recordsClasses_modifyCode (some : declaration.classes.isEmpty = false) :
    RecordsClasses settings ref declaration registry
      (registry.modifyCode ref (·.recordClasses (declaration.classFragments settings ref))) := by
  have code : ∀ name, (registry.modifyCode ref
      (·.recordClasses (declaration.classFragments settings ref))).classFragment? ref name =
        ((declaration.classes[name]?).map (Fragment.ofClass settings ref name)).or
          (registry.classFragment? ref name) := by
    intro name
    rw [classFragment?, getElem?_modifyCode, if_pos rfl, Option.bind_some,
      Declaration.getElem?_recordClasses, classFragment?]
    cases registry.code[ref]? with
    | none => rfl
    | some entry => rfl
  constructor
  · intro name action declared
    rw [code, declared]
    rfl
  · intro name undeclared
    rw [code, Std.ExtTreeMap.getElem?_eq_none undeclared]
    rfl
  · intro name
    rw [attributeFragment, attributeFragment,
      bind_recordClasses (·.attributes[name]?) rfl fun _ _ => rfl]
  · rw [innerFragment, innerFragment, bind_recordClasses (·.inner) rfl fun _ _ => rfl]
  · rw [guardFragment, guardFragment, bind_recordClasses (·.unrender) rfl fun _ _ => rfl]
  · rw [mem_code_modifyCode]
    simp [some]
  · intro other different
    rw [getElem?_modifyCode, if_neg different.symm]
  · rfl

end Registry

/-! ## The page -/

namespace Page

variable {page : Page} {ref : Ref} {declaration : Declaration}

/-- The page with the code of the declared classes recorded. -/
def recorded (page : Page) (ref : Ref) (declaration : Declaration) : Page :=
  page.recordClasses ref declaration ((declaration.classFragments page.settings ref).map Prod.snd)

theorem emitClasses_eq (classes : List String) : page.emitClasses ref classes declaration =
    { fragments := (declaration.classFragments page.settings ref).map Prod.snd
      classes := declaration.remainingClasses classes
      page := page.recorded ref declaration } := by
  rw [emitClasses, Declaration.overrideClasses_eq]
  rfl

theorem recorded_of_isEmpty (none : declaration.classes.isEmpty = true) :
    page.recorded ref declaration = page := by
  rw [recorded, recordClasses, List.isEmpty_map]
  exact if_pos (Declaration.isEmpty_classFragments.trans none)

theorem recorded_of_some (some : declaration.classes.isEmpty = false) :
    page.recorded ref declaration =
      { page with
        registry := page.registry.modifyCode ref fun entry =>
          entry.recordClasses (declaration.classFragments page.settings ref) } := by
  rw [recorded, recordClasses, List.isEmpty_map, Declaration.zip_classFragments]
  apply if_neg
  rw [Declaration.isEmpty_classFragments, some]
  exact Bool.false_ne_true

theorem recorded_again : (page.recorded ref declaration).recorded ref declaration =
    page.recorded ref declaration := by
  cases declared : declaration.classes.isEmpty with
  | true => rw [recorded_of_isEmpty declared, recorded_of_isEmpty declared]
  | false =>
      rw [recorded_of_some declared, recorded_of_some declared]
      dsimp only
      rw [Registry.modifyCode_again fun _ => Declaration.recordClasses_again _]

theorem recorded_eq : page.recorded ref declaration =
    { page with registry := (page.recorded ref declaration).registry } := by
  cases declared : declaration.classes.isEmpty with
  | true => rw [recorded_of_isEmpty declared]
  | false => rw [recorded_of_some declared]

theorem recordsClasses_recorded :
    Registry.RecordsClasses page.settings ref declaration page.registry
      (page.recorded ref declaration).registry := by
  cases declared : declaration.classes.isEmpty with
  | true =>
      rw [recorded_of_isEmpty declared]
      exact Registry.recordsClasses_of_isEmpty declared
  | false =>
      rw [recorded_of_some declared]
      exact Registry.recordsClasses_modifyCode declared

theorem emitClasses_again (classes : List String) :
    (page.recorded ref declaration).emitClasses ref (declaration.remainingClasses classes)
        declaration =
      page.emitClasses ref classes declaration := by
  have settings : (page.recorded ref declaration).settings = page.settings := by
    rw [recorded_eq]
  rw [emitClasses_eq, emitClasses_eq, settings, Declaration.remainingClasses_again, recorded_again]

/-- **Overriding classes does exactly what is declared.** There is one code for each declared class,
in the order of the names, and it is that of its override. The static classes that are not declared
stay, in their order and as often as they are there, and no other ones. The page has a registry in
which each declared class of the ref has its own code, and otherwise it is as it was. Overriding
once more with the same declaration gives the same and changes nothing. -/
theorem emitClasses_exact (page : Page) (ref : Ref) (classes : List String)
    (declaration : Declaration) :
    let emission := page.emitClasses ref classes declaration
    (declaration.classes.keys.Pairwise (· < ·) ∧
      List.Forall₂
        (fun name code => ∃ action, declaration.classes[name]? = some action ∧
          Fragment.ofClass page.settings ref name action = code)
        declaration.classes.keys emission.fragments) ∧
    (emission.classes.Sublist classes ∧
      ∀ name, emission.classes.count name =
        if name ∈ declaration.classes then 0 else classes.count name) ∧
    (emission.page = { page with registry := emission.page.registry } ∧
      Registry.RecordsClasses page.settings ref declaration page.registry
        emission.page.registry) ∧
    emission.page.emitClasses ref emission.classes declaration = emission := by
  intro emission
  have is : emission = _ := emitClasses_eq classes
  refine ⟨⟨Declaration.keys_sorted, ?_⟩, ⟨?_, fun name => ?_⟩, ⟨?_, ?_⟩, ?_⟩
  · rw [is]
    exact Declaration.forall₂_classFragments
  · rw [is]
    exact Declaration.remainingClasses_sublist classes
  · rw [is]
    exact Declaration.count_remainingClasses classes name
  · rw [is]
    exact recorded_eq
  · rw [is]
    exact recordsClasses_recorded
  · rw [is]
    exact (emitClasses_again classes).trans (emitClasses_eq classes)

end Page

end LateMarkup
