import LateMarkup.Proofs.Passes

/-! # What recording adds to a registry

Annotating records one fragment at a time. Each recording adds the code of one marker, or of the two
of a wrapper, and leaves the code of all others as it is. -/

namespace LateMarkup

namespace Registry

variable {registry : Registry} {ref : Ref} {m : Marker}

theorem getElem?_modifyCode (registry : Registry) (ref other : Ref)
    (change : Fragments → Fragments) :
    (registry.modifyCode ref change).code[other]? =
      if ref = other then some (change ((registry.code[ref]?).getD {}))
      else registry.code[other]? := by
  show (registry.code.insert ref _)[other]? = _
  rw [Std.ExtTreeMap.getElem?_insert]
  simp only [Std.LawfulEqCmp.compare_eq_iff_eq]

theorem mem_code_modifyCode {change : Fragments → Fragments} {other : Ref} :
    other ∈ (registry.modifyCode ref change).code ↔ ref = other ∨ other ∈ registry.code := by
  rw [Std.ExtTreeMap.mem_iff_isSome_getElem?, getElem?_modifyCode,
    Std.ExtTreeMap.mem_iff_isSome_getElem?]
  by_cases h : ref = other
  · simp [h]
  · simp [h]

theorem holds_congr {other : Registry} (code : registry.code = other.code) :
    registry.Holds m ↔ other.Holds m := by
  rw [Holds, code?, code]
  rfl

theorem mem_code_of_holds (holds : registry.Holds m) : m.ref ∈ registry.code := by
  rw [Std.ExtTreeMap.mem_iff_isSome_getElem?]
  obtain ⟨code, hcode⟩ := Option.isSome_iff_exists.mp holds
  obtain ⟨fragments, hfragments, -⟩ := Option.bind_eq_some_iff.mp hcode
  rw [hfragments]
  rfl

theorem code?_entry (h : ref = m.ref) :
    ((registry.code[ref]?).getD {}).code? m = registry.code? m := by
  rw [code?, ← h]
  cases registry.code[ref]? with
  | none => cases m <;> simp [Fragments.code?]
  | some fragments => rfl

theorem code?_modifyCode (registry : Registry) (ref : Ref) (change : Fragments → Fragments)
    (m : Marker) :
    (registry.modifyCode ref change).code? m =
      if ref = m.ref then (change ((registry.code[ref]?).getD {})).code? m
      else registry.code? m := by
  rw [code?, getElem?_modifyCode]
  split
  · rfl
  · rfl

/-! ## Adding code -/

/-- A registry with the code `fresh`, and otherwise with the code of another one. -/
def Adds (fresh : Marker → Option String) (old new : Registry) : Prop :=
  ∀ m, new.code? m = (fresh m).or (old.code? m)

/-- It is enough to look at the fragments that are changed. -/
theorem adds_modifyCode {fresh : Marker → Option String} {change : Fragments → Fragments}
    (other : ∀ m : Marker, ref ≠ m.ref → fresh m = none)
    (same : ∀ fragments m, ref = m.ref →
      (change fragments).code? m = (fresh m).or (fragments.code? m)) :
    Adds fresh registry (registry.modifyCode ref change) := by
  intro m
  rw [code?_modifyCode]
  by_cases h : ref = m.ref
  · rw [if_pos h, same _ m h, code?_entry h]
  · rw [if_neg h, other m h, Option.none_or]

end Registry

def Marker.only (m : Marker) (code : String) (n : Marker) : Option String :=
  if n = m then some code else none

@[simp] theorem Marker.only_self (m : Marker) (code : String) : m.only code m = some code :=
  if_pos rfl

theorem Marker.only_of_ne {m n : Marker} (h : n ≠ m) (code : String) : m.only code n = none :=
  if_neg h

theorem Marker.only_of_ref_ne {m n : Marker} (h : m.ref ≠ n.ref) (code : String) :
    m.only code n = none := by
  apply only_of_ne
  rintro rfl
  exact h rfl

theorem Marker.eq_of_only {m n : Marker} {code found : String} (h : m.only code n = some found) :
    n = m ∧ code = found := by
  rw [only, Option.ite_none_right_eq_some] at h
  exact ⟨h.1, Option.some.inj h.2⟩

namespace Registry

theorem adds_attribute (registry : Registry) (ref : Ref) (name code : String) :
    Adds (Marker.only (.attribute ref name) code) registry (registry.modifyCode ref fun entry =>
      { entry with attributes := entry.attributes.insert name code }) := by
  apply adds_modifyCode
  · intro m h
    apply Marker.only_of_ref_ne
    exact h
  · rintro fragments m rfl
    rcases m with ⟨ref, key⟩ | ref | ref | ref
    · show (fragments.attributes.insert name code)[key]? =
        (Marker.only (.attribute ref name) code (.attribute ref key)).or fragments.attributes[key]?
      rw [Std.ExtTreeMap.getElem?_insert]
      simp only [Std.LawfulEqCmp.compare_eq_iff_eq]
      by_cases hkey : name = key
      · subst hkey
        rw [if_pos rfl, Marker.only_self, Option.some_or]
      · have hmarker : Marker.attribute ref key ≠ .attribute ref name := by
          intro heq
          cases heq
          exact hkey rfl
        rw [if_neg hkey, Marker.only_of_ne hmarker, Option.none_or]
    · rfl
    · rfl
    · rfl

theorem adds_inner (registry : Registry) (ref : Ref) (code : String) :
    Adds (Marker.only (.inner ref) ("=" ++ code)) registry
      (registry.modifyCode ref fun entry => { entry with inner := some code }) := by
  apply adds_modifyCode
  · intro m h
    apply Marker.only_of_ref_ne
    exact h
  · rintro fragments m rfl
    rcases m with ⟨ref, name⟩ | ref | ref | ref
    · rfl
    · dsimp only [Marker.ref]
      rw [Marker.only_self]
      rfl
    · rfl
    · rfl

theorem adds_guard (registry : Registry) (ref : Ref) (guard : Guard) :
    Adds (fun m => (Marker.only (.opening ref) guard.opening m).or
        (Marker.only (.closing ref) guard.closing m)) registry
      (registry.modifyCode ref fun entry => { entry with unrender := some guard }) := by
  apply adds_modifyCode
  · intro m h
    rw [Option.or_eq_none_iff]
    constructor
    · apply Marker.only_of_ref_ne
      exact h
    · apply Marker.only_of_ref_ne
      exact h
  · rintro fragments m rfl
    rcases m with ⟨ref, name⟩ | ref | ref | ref
    · rfl
    · rfl
    · dsimp only [Marker.ref]
      rw [Marker.only_self]
      rfl
    · dsimp only [Marker.ref]
      rw [Marker.only_self]
      rfl

/-! ## Growing -/

/-- A registry with all entries of another, though perhaps with other code in them. -/
def Grows (old new : Registry) : Prop := ∀ m, old.Holds m → new.Holds m

theorem Shuts.grow {old new : Registry} (grows : old.Grows new) {code : List Char}
    (shut : old.Shuts code m) : new.Shuts code m := by
  intro before behind h
  rcases shut before behind h with h | h | h
  · exact Or.inl h
  · exact Or.inr (Or.inl h)
  · exact Or.inr (Or.inr (grows m h))

namespace Adds

variable {fresh : Marker → Option String} {old new : Registry}

theorem holds_iff (adds : Adds fresh old new) {m : Marker} :
    new.Holds m ↔ (fresh m).isSome = true ∨ old.Holds m := by
  rw [Holds, adds m, Option.isSome_or, Bool.or_eq_true, Holds]

theorem grows (adds : Adds fresh old new) : old.Grows new :=
  fun _ holds => adds.holds_iff.mpr (Or.inr holds)

theorem holds (adds : Adds fresh old new) {m : Marker} (h : (fresh m).isSome = true) :
    new.Holds m :=
  adds.holds_iff.mpr (Or.inl h)

theorem cases_of_code? (adds : Adds fresh old new) {m : Marker} {code : String}
    (h : new.code? m = some code) : fresh m = some code ∨ old.code? m = some code := by
  rw [adds m] at h
  exact (Option.or_eq_some_iff.mp h).imp id And.right

/-- A sealed registry stays sealed when the code that is added is fit for the later passes. -/
theorem sealed (adds : Adds fresh old new) (shut : old.Sealed)
    (fit : ∀ n code, fresh n = some code →
      ∀ m : Marker, n.site.pass < m.site.pass → new.Shuts code.toList m) : new.Sealed := by
  intro n code hcode m later
  rcases adds.cases_of_code? hcode with hfresh | hold
  · exact fit n code hfresh m later
  · exact (shut n code hold m later).grow adds.grows

end Adds

end Registry

end LateMarkup
