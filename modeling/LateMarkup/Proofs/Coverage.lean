import LateMarkup.Proofs.Recording
import LateMarkup.Proofs.Seams

/-!
# What resolving depends on

Resolving asks a registry for the fragments of the markers that it meets, and for nothing else. A
registry that has all the fragments of another one (`Registry.Covers`) answers each of these
questions in the same way, so each pass leaves the same text and the next one meets the same
markers, those that generated code brought in included. Only the report of unused code can tell the
larger registry from the smaller one.
-/

namespace LateMarkup

namespace Registry

/-- A registry with the same text as another one for every fragment of an attribute, of inner
content or of a wrapper that the other one has. It may hold more entries, other code of classes and
other defaults. -/
structure Covers (more less : Registry) : Prop where
  attributes : ∀ ref name code,
    less.attributeFragment ref name = .ok code → more.attributeFragment ref name = .ok code
  inner : ∀ ref code, less.innerFragment ref = .ok code → more.innerFragment ref = .ok code
  unrender : ∀ ref guard,
    less.guardFragment ref = .ok guard → more.guardFragment ref = .ok guard

variable {less more registry : Registry} {site : Site} {m : Marker}

/-! ## One marker -/

theorem Covers.replacement (covers : more.Covers less) {code : String}
    (found : less.replacement m = .ok code) : more.replacement m = .ok code := by
  rcases m with ⟨ref, name⟩ | ref | ref | ref
  · exact covers.attributes ref name code found
  · obtain ⟨inner, hinner, rfl⟩ := map_eq_ok.mp found
    exact map_eq_ok.mpr ⟨inner, covers.inner ref inner hinner, rfl⟩
  · obtain ⟨guard, hguard, rfl⟩ := map_eq_ok.mp found
    exact map_eq_ok.mpr ⟨guard, covers.unrender ref guard hguard, rfl⟩
  · obtain ⟨guard, hguard, rfl⟩ := map_eq_ok.mp found
    exact map_eq_ok.mpr ⟨guard, covers.unrender ref guard hguard, rfl⟩

theorem replacement_eq_ok {code : String} :
    registry.replacement m = .ok code ↔ registry.code? m = some code := by
  rw [replacement_eq]
  cases registry.code? m <;> simp

/-- Whatever has the same code for every marker covers. -/
theorem covers_of_code? (same : ∀ m code, less.code? m = some code → more.code? m = some code) :
    more.Covers less := by
  have exchanged : ∀ {m code}, less.replacement m = .ok code → more.replacement m = .ok code :=
    fun found => replacement_eq_ok.mpr (same _ _ (replacement_eq_ok.mp found))
  constructor
  · intro ref name code found
    have named : less.replacement (.attribute ref name) = .ok code := found
    exact exchanged named
  · intro ref code found
    have inner : less.replacement (.inner ref) = .ok ("=" ++ code) :=
      map_eq_ok.mpr ⟨code, found, rfl⟩
    obtain ⟨now, hnow, hcode⟩ := map_eq_ok.mp (exchanged inner)
    rw [hnow, (String.append_right_inj _).mp hcode]
  · intro ref guard found
    have opening : less.replacement (.opening ref) = .ok guard.opening :=
      map_eq_ok.mpr ⟨guard, found, rfl⟩
    have closing : less.replacement (.closing ref) = .ok guard.closing :=
      map_eq_ok.mpr ⟨guard, found, rfl⟩
    obtain ⟨now, hnow, hopening⟩ := map_eq_ok.mp (exchanged opening)
    obtain ⟨also, halso, hclosing⟩ := map_eq_ok.mp (exchanged closing)
    rw [hnow] at halso
    cases halso
    have whole : now = guard := by
      rw [Guard.mk.injEq]
      exact ⟨hopening, hclosing⟩
    rw [hnow, whole]

/-! ## What keeps a registry covered -/

theorem Covers.trans {most : Registry} (h : most.Covers more) (h' : more.Covers less) :
    most.Covers less where
  attributes ref name code found := h.attributes ref name code (h'.attributes ref name code found)
  inner ref code found := h.inner ref code (h'.inner ref code found)
  unrender ref guard found := h.unrender ref guard (h'.unrender ref guard found)

theorem covers_modifyDefaults (registry : Registry) (ref : Ref) (change : Defaults → Defaults) :
    (registry.modifyDefaults ref change).Covers registry :=
  ⟨fun _ _ _ => id, fun _ _ => id, fun _ _ => id⟩

/-- Markers do not ask for the code of classes, or for anything else that such a change is about. -/
theorem covers_modifyCode {ref : Ref} {change : Fragments → Fragments}
    (same : ∀ fragments m, (change fragments).code? m = fragments.code? m) :
    (registry.modifyCode ref change).Covers registry := by
  apply covers_of_code?
  intro m code held
  rw [code?_modifyCode]
  split
  · next own => rw [same, code?_entry own, held]
  · exact held

/-- Code that is new to a registry takes the place of none. -/
theorem Adds.covers {fresh : Marker → Option String} (adds : Adds fresh less more)
    (new : ∀ m, less.Holds m → fresh m = none) : more.Covers less := by
  apply covers_of_code?
  intro m code held
  rw [adds m, new m (Option.isSome_iff_exists.mpr ⟨code, held⟩), Option.none_or, held]

/-! ## One pass, and all of them -/

theorem Covers.exchange (covers : more.Covers less) {segment : Segment} {text : List Char}
    (done : less.exchange site segment = .ok text) : more.exchange site segment = .ok text := by
  cases segment with
  | text content => exact done
  | marker m =>
      rw [Registry.exchange] at done ⊢
      split at done
      · next own =>
          obtain ⟨code, hcode, rfl⟩ := map_eq_ok.mp done
          rw [if_pos own]
          exact map_eq_ok.mpr ⟨code, covers.replacement hcode, rfl⟩
      · next other =>
          rw [if_neg other]
          exact done

theorem Covers.exchangeAll (covers : more.Covers less) {segments : List Segment}
    {text : List Char} (done : less.exchangeAll site segments = .ok text) :
    more.exchangeAll site segments = .ok text := by
  induction segments generalizing text with
  | nil => exact done
  | cons segment segments ih =>
      obtain ⟨front, hfront, done⟩ := bind_eq_ok.mp done
      obtain ⟨back, hback, done⟩ := bind_eq_ok.mp done
      exact bind_eq_ok.mpr ⟨front, covers.exchange hfront,
        bind_eq_ok.mpr ⟨back, ih hback, done⟩⟩

theorem Covers.substitute (covers : more.Covers less) {text next : List Char}
    (done : less.substitute site text = .ok next) : more.substitute site text = .ok next :=
  covers.exchangeAll done

/-- Passes in a row leave the same text and meet the same markers. What a pass puts in is read by
the next one, so this rests on the texts in between being the same. -/
theorem Covers.passes (covers : more.Covers less) {sites : List Site} {text : List Char}
    {passed : Passed} (done : less.passes sites text = .ok passed) :
    more.passes sites text = .ok passed := by
  induction sites generalizing text passed with
  | nil => exact done
  | cons site sites ih =>
      obtain ⟨next, later, hnext, hlater, rfl⟩ := passes_cons_ok done
      rw [Registry.passes, covers.substitute hnext]
      dsimp only [bind, Except.bind]
      rw [ih hlater]
      rfl

theorem holds_of_met {sites : List Site} {text : List Char} {passed : Passed}
    (done : registry.passes sites text = .ok passed) : ∀ m ∈ passed.met, registry.Holds m := by
  induction sites generalizing text passed with
  | nil =>
      cases done
      nofun
  | cons site sites ih =>
      obtain ⟨next, later, hnext, hlater, rfl⟩ := passes_cons_ok done
      intro m hm
      rcases List.mem_append.mp hm with hm | hm
      · obtain ⟨found, hsite⟩ := Segment.mem_markersAt.mp hm
        exact (substitute_ok hnext).1 m found hsite
      · exact ih hlater m hm

/-! ## Resolving -/

/-- **Resolving depends on the fragments that it uses.** If a text can be resolved with a registry,
it can be resolved with every registry that covers it, and the code is the same. Of the refs that
have code in the larger registry, those are reported that the smaller one reports or does not have.
-/
theorem resolve_of_covers (covers : more.Covers less) {text : String} {resolution : Resolution}
    (done : less.resolve text = .ok resolution) :
    more.resolve text = .ok ⟨resolution.code, more.code.keys.filter fun ref =>
      decide (ref ∈ less.code → ref ∈ resolution.unconsumed)⟩ := by
  rw [resolve_eq_passes] at done ⊢
  obtain ⟨passed, hpassed, done⟩ := bind_eq_ok.mp done
  obtain ⟨_, none, done⟩ := bind_eq_ok.mp done
  cases done
  rw [covers.passes hpassed]
  dsimp only [bind, Except.bind]
  rw [none]
  have met : ∀ ref, ref ∈ passed.met.map Marker.ref → ref ∈ less.code := by
    intro ref hmet
    obtain ⟨m, hm, rfl⟩ := List.mem_map.mp hmet
    exact mem_code_of_holds (holds_of_met hpassed m hm)
  show Except.ok _ = Except.ok _
  congr 2
  apply List.filter_congr
  intro ref _
  rw [Bool.eq_iff_iff]
  simp only [decide_eq_true_iff, List.mem_filter, Std.ExtTreeMap.mem_keys, Bool.not_eq_true',
    Bool.eq_false_iff, ne_eq, List.contains_iff_mem]
  constructor
  · exact fun unmet present => ⟨present, unmet⟩
  · exact fun reported hmet => (reported (met ref hmet)).2 hmet

/-- The code of an attribute that brings in a marker of inner content, whose code brings in one of a
wrapper. -/
def chained : Registry where
  code := (((∅ : RefMap Fragments).insert ⟨"e0a", Ref.isValid_e0a⟩
    { attributes := (∅ : NameMap String).insert "id" "id=\"__OVERRIDE_INNER__e0b\"" }).insert
    ⟨"e0b", Ref.isValid_e0b⟩ { inner := some "\x7b<__OVERRIDE_UNRENDER__e0c>1\x7d" }).insert
    ⟨"e0c", Ref.isValid_e0c⟩ { unrender := some ⟨"!d.k && ", ""⟩ }

/-- `chained` with a default, the code of a class, and an entry of one more node. -/
def enlarged : Registry :=
  ((chained.modifyDefaults ⟨"e0a", Ref.isValid_e0a⟩ fun entry =>
      { entry with tag := some "p" }).modifyCode ⟨"e0a", Ref.isValid_e0a⟩ fun entry =>
      { entry with classes := entry.classes.insert "wide" "w" }).modifyCode
    ⟨"e0d", by decide⟩ fun entry => { entry with inner := some "unused" }

theorem resolve_enlarged :
    enlarged.Covers chained ∧
    chained.resolve "<p __OVERRIDE_ATTR__e0a__id=\"\"></p>" =
      .ok ⟨"<p id=\x7b!d.k && 1\x7d></p>", []⟩ ∧
    enlarged.resolve "<p __OVERRIDE_ATTR__e0a__id=\"\"></p>" =
      .ok ⟨"<p id=\x7b!d.k && 1\x7d></p>", [⟨"e0d", by decide⟩]⟩ := by
  have covers : enlarged.Covers chained := by
    refine (adds_inner _ _ "unused").covers ?_ |>.trans
      ((covers_modifyCode ?_).trans (covers_modifyDefaults _ _ _))
    · intro m held
      apply Marker.only_of_ne
      rintro rfl
      exact absurd held (by decide)
    · intro fragments m
      cases m <;> rfl
  have done : chained.resolve "<p __OVERRIDE_ATTR__e0a__id=\"\"></p>" =
      .ok ⟨"<p id=\x7b!d.k && 1\x7d></p>", []⟩ := by
    decide +kernel
  have reported : (enlarged.code.keys.filter fun ref =>
      decide (ref ∈ chained.code → ref ∈ ([] : List Ref))) = [⟨"e0d", by decide⟩] := by
    decide
  rw [← reported]
  exact ⟨covers, done, resolve_of_covers covers done⟩

end Registry

end LateMarkup
