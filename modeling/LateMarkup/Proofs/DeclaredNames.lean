import LateMarkup.Proofs.Consistency
import LateMarkup.Proofs.KeySeparation
import LateMarkup.Proofs.Seams
import LateMarkup.Proofs.Surroundings

/-!
# Declared names

The name of an overridden attribute is written into its marker as it stands, whatever it is. When
the markup is read again, three things can happen (`Registry.marker_of_resolve`,
`Marker.lead_of_prefix`). The name is found. Or a shorter name is found, behind which the declared
one goes on with `=""`. Or no marker is found, and marker text stays behind a blank, where nothing
removes it and resolving fails.

The second is the one way in which one name stands in for another. Where it is left out, a document
that resolves has each declared name in one marker (`Draft.names_met_once`).
-/

namespace LateMarkup

/-! ## Marker text behind a blank -/

namespace Piece

theorem prefix_shared {p text cs : List Char} (htext : p <+: text) (hcs : p <+: cs) :
    p <+: shared text cs := by
  induction p generalizing text cs with
  | nil => exact List.nil_prefix
  | cons c p ih =>
      obtain ⟨text, rfl⟩ := htext
      obtain ⟨cs, rfl⟩ := hcs
      show c :: p <+: shared (c :: (p ++ text)) (c :: (p ++ cs))
      rw [shared, if_pos rfl, List.cons_prefix_cons]
      exact ⟨rfl, ih (List.prefix_append _ _) (List.prefix_append _ _)⟩

end Piece

namespace Segment

/-- Where marker text starts, there is a marker, or the marker text is passed over. -/
theorem split_stem (rest : List Char) :
    (∃ (m : Marker) (behind : List Char), m.Proper ∧ m.site = .attribute ∧
      Marker.stem.toList ++ rest = m.source ++ behind) ∨
    ∃ passed behind : List Char, Marker.stem.toList <+: passed ∧
      split (Marker.stem.toList ++ rest) = prependText passed (split behind) := by
  obtain ⟨cs, hcs⟩ : ∃ cs, Marker.stem.toList ++ rest = '_' :: cs := ⟨_, rfl⟩
  have whole := flatMap_source_split ('_' :: cs)
  have shape : Shape.ofFront? ('_' :: cs) = some .attribute := rfl
  rw [hcs]
  rw [split_cons] at whole ⊢
  cases hm : (front '_' cs).marker? with
  | some m =>
      left
      simp only [hm] at whole
      rw [List.flatMap_cons, flatMap_source_split] at whole
      have mem : .marker m ∈ split ('_' :: cs) := by
        rw [split_cons, hm]
        exact List.mem_cons_self
      have proper := proper_of_mem_split mem
      refine ⟨m, _, proper, ?_, whole.symm⟩
      by_contra later
      obtain ⟨c, tail, htail, hc, -⟩ := Marker.source_eq_cons later
      rw [source, htail] at whole
      obtain ⟨rfl, -⟩ := List.cons.inj whole
      rcases hc with hc | hc <;> cases hc
  | none =>
      right
      refine ⟨_, _, ?_, rfl⟩
      have shared : Marker.stem.toList <+: Piece.shared "__OVERRIDE_ATTR__e0".toList ('_' :: cs) :=
        Piece.prefix_shared (by decide) (hcs ▸ List.prefix_append _ _)
      rw [front, shape]
      show Marker.stem.toList <+: (Piece.follow Shape.attribute.pieces ('_' :: cs)).followed
      rw [Shape.pieces, Piece.follow]
      split
      · exact shared.trans (List.prefix_append _ _)
      · exact shared

end Segment

namespace Registry

variable {registry : Registry} {site : Site} {text rest out : List Char}

theorem substitute_stem (h : registry.substitute site (Marker.stem.toList ++ rest) = .ok out) :
    Marker.stem.toList <+: out ∨
      site = .attribute ∧ ∃ (m : Marker) (behind : List Char), m.Proper ∧ m.site = .attribute ∧
        Marker.stem.toList ++ rest = m.source ++ behind ∧ registry.Holds m := by
  rcases Segment.split_stem rest with ⟨m, behind, proper, hsite, heq⟩ | ⟨passed, behind, stem, heq⟩
  · rw [heq] at h ⊢
    by_cases same : m.site = site
    · right
      have entries := (substitute_ok h).1 m (by
        rw [Segment.split_marker proper]
        exact List.mem_cons_self) same
      exact ⟨same.symm.trans hsite, m, behind, proper, hsite, rfl, entries⟩
    · left
      rw [substitute_marker proper, exchange, if_neg same] at h
      obtain ⟨front, hfront, h⟩ := bind_eq_ok.mp h
      obtain ⟨back, -, h⟩ := bind_eq_ok.mp h
      cases hfront
      cases h
      have start : Marker.stem.toList <+: m.source := by
        rcases m with ⟨ref, name⟩ | ref | ref | ref
        · rw [Marker.source, Marker.toList_attributeName, List.append_assoc]
          exact List.IsPrefix.trans (by decide) (List.prefix_append "__OVERRIDE_ATTR__".toList _)
        all_goals cases hsite
      exact start.trans (List.prefix_append _ _)
  · left
    have some : passed ≠ [] := fun h => stem_ne_nil (List.prefix_nil.mp (h ▸ stem))
    rw [substitute, heq, exchangeAll_prependText some] at h
    obtain ⟨back, -, rfl⟩ := map_eq_ok.mp h
    exact stem.trans (List.prefix_append _ _)

/-- Marker text behind a blank is read on its own. -/
theorem substitute_blank_stem {before : List Char}
    (h : registry.substitute site (before ++ ' ' :: (Marker.stem.toList ++ rest)) = .ok out) :
    ∃ front back, registry.substitute site (Marker.stem.toList ++ rest) = .ok back ∧
      out = front ++ ' ' :: back := by
  have blank : Seam ' ' := Or.inr (by decide)
  have plain : Unmarked [' '] := unmarked_of_breaks (by decide)
  have stops : Segment.Stops [' '] (Marker.stem.toList ++ rest) := by
    rintro c ⟨⟩
    exact Or.inr (Or.inr ⟨rfl, ' ', rfl, by decide⟩)
  rw [substitute_append blank] at h
  obtain ⟨front, -, h⟩ := bind_eq_ok.mp h
  obtain ⟨blankBack, hback, h⟩ := bind_eq_ok.mp h
  cases h
  rw [← List.singleton_append, substitute_text (List.cons_ne_nil _ _) plain stops,
    map_eq_ok] at hback
  obtain ⟨back, hback, rfl⟩ := hback
  exact ⟨front, back, hback, rfl⟩

/-- The passes behind the first one leave marker text that stands behind a blank. -/
theorem infix_of_substitute_later (later : site ≠ .attribute)
    (h : registry.substitute site text = .ok out) (occurs : ' ' :: Marker.stem.toList <:+: text) :
    ' ' :: Marker.stem.toList <:+: out := by
  obtain ⟨before, behind, rfl⟩ := occurs
  rw [List.append_assoc, List.cons_append] at h
  obtain ⟨front, back, hback, rfl⟩ := substitute_blank_stem h
  obtain ⟨more, rfl⟩ := (substitute_stem hback).resolve_right fun marked => later marked.1
  exact ⟨front, more, by simp⟩

/-- **Marker text behind a blank is a marker**, in every text that resolves, and it has an entry. -/
theorem marker_of_resolve {source : String} {resolution : Resolution}
    (resolved : registry.resolve source = .ok resolution) {before rest : List Char}
    (hsource : source.toList = before ++ ' ' :: (Marker.stem.toList ++ rest)) :
    ∃ (m : Marker) (behind : List Char), m.Proper ∧ m.site = .attribute ∧
      Marker.stem.toList ++ rest = m.source ++ behind ∧ registry.Holds m := by
  obtain ⟨first, hfirst, resolved⟩ := bind_eq_ok.mp resolved
  obtain ⟨second, hsecond, resolved⟩ := bind_eq_ok.mp resolved
  obtain ⟨third, hthird, resolved⟩ := bind_eq_ok.mp resolved
  obtain ⟨_, hnone, -⟩ := bind_eq_ok.mp resolved
  rw [hsource] at hfirst
  obtain ⟨front, back, hback, rfl⟩ := substitute_blank_stem hfirst
  rcases substitute_stem hback with ⟨more, rfl⟩ | ⟨-, marked⟩
  · -- No pass removes the marker text.
    have occurs : ' ' :: Marker.stem.toList <:+: front ++ ' ' :: (Marker.stem.toList ++ more) :=
      ⟨front, more, by simp⟩
    have left := infix_of_substitute_later (by decide) hthird
      (infix_of_substitute_later (by decide) hsecond occurs)
    exact absurd ((List.suffix_cons _ _).isInfix.trans left) (unmarked_of_ensureNone hnone)
  · exact marked

end Registry

/-! ## The name that is read -/

namespace Marker

/-- A name that is read ends where the written one does, or where that goes on with `=""`. -/
theorem lead_of_prefix {lead name behind rest : List Char}
    (plain : ∀ c ∈ lead, isNameChar c = true)
    (same : name ++ '=' :: '"' :: '"' :: rest = lead ++ '=' :: '"' :: '"' :: behind) :
    lead = name ∨ lead ++ ['=', '"', '"'] <+: name := by
  rcases List.append_eq_append_iff.mp same with ⟨more, hlead, hmore⟩ | ⟨more, hname, hmore⟩
  · -- The name that is read would go on with an equals sign.
    cases more with
    | nil => exact Or.inl (by rw [hlead, List.append_nil])
    | cons c more =>
        obtain ⟨rfl, -⟩ := List.cons.inj hmore
        have := plain '=' (by simp [hlead])
        exact absurd this (by decide)
  · match more, hmore with
    | [], _ => exact Or.inl (by rw [hname, List.append_nil])
    | [_], hmore => simp at hmore
    | [_, _], hmore => simp at hmore
    | a :: b :: c :: more, hmore =>
        simp only [List.cons_append, List.cons.injEq] at hmore
        obtain ⟨rfl, rfl, rfl, -⟩ := hmore
        exact Or.inr ⟨more, by simp [hname]⟩

/-- The marker that is read where one was written for a name. -/
theorem lead_of_source {m : Marker} (proper : m.Proper) (site : m.site = .attribute) {ref : Ref}
    {name : String} {behind rest : List Char}
    (same : (attributeName ref name).toList ++ '=' :: '"' :: '"' :: rest = m.source ++ behind) :
    ∃ lead, m = .attribute ref lead ∧
      (lead = name ∨ lead.toList ++ ['=', '"', '"'] <+: name.toList) := by
  rcases m with ⟨other, lead⟩ | other | other | other
  · rw [source, toList_attributeName, toList_attributeName] at same
    simp only [List.append_assoc, List.cons_append, List.nil_append] at same
    obtain ⟨rfl, named⟩ := Ref.eq_of_append (by rintro c ⟨⟩; decide) (by rintro c ⟨⟩; decide)
      (List.append_cancel_left same)
    have names := lead_of_prefix proper.2 (List.append_cancel_left named)
    exact ⟨lead, rfl, names.imp String.toList_inj.mp id⟩
  all_goals cases site

end Marker

/-- **What becomes of a written name** in a text that resolves: it, or a name behind which it goes
on with `=""`, is read, and has an entry. -/
theorem Registry.lead_of_resolve {registry : Registry} {source : String} {resolution : Resolution}
    (resolved : registry.resolve source = .ok resolution) {before rest : List Char} {ref : Ref}
    {name : String} (hsource : source.toList = before ++
      ' ' :: ((Marker.attributeName ref name).toList ++ '=' :: '"' :: '"' :: rest)) :
    ∃ lead, (Marker.attribute ref lead).Proper ∧ registry.Holds (.attribute ref lead) ∧
      (lead = name ∨ lead.toList ++ ['=', '"', '"'] <+: name.toList) := by
  have stem : (Marker.attributeName ref name).toList = Marker.stem.toList ++
      ("ATTR__".toList ++ (ref.text.toList ++ ("__".toList ++ name.toList))) := by
    rw [Marker.toList_attributeName, ← List.append_assoc]
    rfl
  rw [stem, List.append_assoc] at hsource
  obtain ⟨m, behind, proper, site, same, holds⟩ := marker_of_resolve resolved hsource
  rw [← List.append_assoc, ← stem] at same
  obtain ⟨lead, rfl, hlead⟩ := Marker.lead_of_source proper site same
  exact ⟨lead, proper, holds, hlead⟩

/-! ## Attributes with markers -/

/-- A text in which no marker of an attribute starts. -/
def Bare (text : List Char) : Prop := ¬ "__OVERRIDE_ATTR__".toList <:+: text

theorem bare_of_unmarked {text : List Char} (free : Unmarked text) : Bare text :=
  fun h => free (List.IsInfix.trans (by decide) h)

/-- A text that lacks a letter of all markers of attributes. -/
theorem bare_of_notMem {text : List Char} (none : 'A' ∉ text) : Bare text :=
  fun h => none (h.subset (by decide))

theorem bare_append_cons {a b : List Char} {d : Char} (hd : d ∉ "__OVERRIDE_ATTR__".toList) :
    Bare (a ++ d :: b) ↔ Bare a ∧ Bare b := by
  unfold Bare
  rw [infix_append_cons_iff hd, not_or]

theorem bare_innerValue (ref : Ref) :
    Bare ((Marker.innerValue ref).toList.flatMap Forest.spellValueChar) := by
  have href : 'A' ∉ ref.text.toList := fun mem => absurd (Ref.isTailChar_of_mem mem) (by decide)
  apply bare_of_notMem
  rw [Forest.spellValue_innerValue, Marker.toList_innerValue, List.mem_append, not_or]
  exact ⟨by decide, href⟩

theorem not_bare_attributeName (ref : Ref) (name : String) :
    ¬ Bare (Marker.attributeName ref name).toList := by
  rw [Marker.toList_attributeName]
  exact fun h => h (List.prefix_append _ _).isInfix

theorem Segment.markersAt_of_bare {text : List Char} (bare : Bare text) :
    markersAt .attribute (split text) = [] := by
  rw [List.eq_nil_iff_forall_not_mem]
  intro m hm
  obtain ⟨found, site⟩ := mem_markersAt.mp hm
  rcases m with ⟨ref, name⟩ | ref | ref | ref
  · have whole := source_infix_of_mem_split found
    rw [Marker.source, Marker.toList_attributeName, List.append_assoc] at whole
    exact bare ((List.prefix_append _ _).isInfix.trans whole)
  all_goals cases site

namespace Attributes

def nameMarkers : Attributes → List Marker
  | [] => []
  | (name, _) :: rest =>
    ((Marker.ofName? name).map fun (ref, inner) => Marker.attribute ref inner).toList ++
      nameMarkers rest

/-- Attributes that mark overrides of these names in this order, and are bare otherwise. -/
structure Marks (ref : Ref) (names : List String) (attributes : Attributes) : Prop where
  markers : attributes.nameMarkers = names.map (.attribute ref)
  pairs : ∀ pair ∈ attributes, (∃ name ∈ names, pair = (Marker.attributeName ref name, "")) ∨
    Bare pair.1.toList ∧ Bare (pair.2.toList.flatMap Forest.spellValueChar)

variable {ref : Ref} {names : List String} {attributes : Attributes}

theorem ofName?_of_bare {name : String} (bare : Bare name.toList) : Marker.ofName? name = none := by
  rw [Option.eq_none_iff_forall_ne_some]
  rintro ⟨ref, inner⟩ hname
  rw [Marker.ofName?_eq_some_iff.mp hname] at bare
  exact not_bare_attributeName ref inner bare

theorem nameMarkers_append (a b : Attributes) :
    nameMarkers (a ++ b) = nameMarkers a ++ nameMarkers b := by
  induction a with
  | nil => rfl
  | cons first rest ih => rw [List.cons_append, nameMarkers, nameMarkers, ih, List.append_assoc]

theorem nameMarkers_marker (ref : Ref) (name value : String) (rest : Attributes) :
    nameMarkers ((Marker.attributeName ref name, value) :: rest) =
      .attribute ref name :: nameMarkers rest := by
  rw [nameMarkers, Marker.ofName?_eq_some_iff.mpr rfl]
  rfl

theorem exists_of_mem_nameMarkers {attributes : Attributes} {name : String}
    (mem : .attribute ref name ∈ attributes.nameMarkers) :
    ∃ value, (Marker.attributeName ref name, value) ∈ attributes := by
  induction attributes with
  | nil => cases mem
  | cons first rest ih =>
      obtain ⟨key, value⟩ := first
      rw [nameMarkers, List.mem_append, Option.mem_toList, Option.map_eq_some_iff] at mem
      rcases mem with ⟨⟨other, inner⟩, hkey, same⟩ | mem
      · cases same
        obtain rfl := Marker.ofName?_eq_some_iff.mp hkey
        exact ⟨value, List.mem_cons_self⟩
      · obtain ⟨value, hvalue⟩ := ih mem
        exact ⟨value, List.mem_cons_of_mem _ hvalue⟩

theorem nameMarkers_bare {name : String} (bare : Bare name.toList) (value : String)
    (rest : Attributes) : nameMarkers ((name, value) :: rest) = nameMarkers rest := by
  rw [nameMarkers, ofName?_of_bare bare]
  rfl

theorem nameMarkers_remove {name : String} (bare : Bare name.toList) (attributes : Attributes) :
    (attributes.remove name).nameMarkers = attributes.nameMarkers := by
  induction attributes with
  | nil => rfl
  | cons first rest ih =>
      obtain ⟨key, value⟩ := first
      unfold remove at ih ⊢
      rw [List.filter_cons]
      split
      · rw [nameMarkers, nameMarkers, ih]
      · next hkey =>
          have heq : key = name := by simpa using hkey
          rw [nameMarkers_bare (heq ▸ bare), ih]

theorem nameMarkers_set_bare {name : String} (bare : Bare name.toList) (value : String)
    (attributes : Attributes) :
    (attributes.set name value).nameMarkers = attributes.nameMarkers := by
  induction attributes with
  | nil => exact nameMarkers_bare bare value []
  | cons first rest ih =>
      obtain ⟨key, old⟩ := first
      rw [set]
      split
      · rw [nameMarkers, nameMarkers]
      · rw [nameMarkers, nameMarkers, ih]

namespace Marks

theorem of_bare (bare : ∀ pair ∈ attributes, Bare pair.1.toList ∧
    Bare (pair.2.toList.flatMap Forest.spellValueChar)) : attributes.Marks ref [] := by
  refine ⟨?_, fun pair hpair => Or.inr (bare pair hpair)⟩
  induction attributes with
  | nil => rfl
  | cons first rest ih =>
      rw [nameMarkers_bare (bare _ List.mem_cons_self).1]
      exact ih fun pair hpair => bare pair (List.mem_cons_of_mem _ hpair)

theorem remove (h : attributes.Marks ref names) {name : String} (bare : Bare name.toList) :
    (attributes.remove name).Marks ref names :=
  ⟨(nameMarkers_remove bare attributes).trans h.markers,
    fun pair hpair => h.pairs pair (mem_remove hpair)⟩

theorem removeEither (h : attributes.Marks ref names) {name : String}
    (free : Unmarked name.toList) : (attributes.removeEither name).Marks ref names := by
  have first := h.remove (bare_of_unmarked free)
  unfold Attributes.removeEither
  split
  · next other hother =>
      exact first.remove (bare_of_unmarked (AttributeName.unmarked_markup hother))
  · exact first

theorem set_bare (h : attributes.Marks ref names) {name value : String} (bare : Bare name.toList)
    (hvalue : Bare (value.toList.flatMap Forest.spellValueChar)) :
    (attributes.set name value).Marks ref names := by
  refine ⟨(nameMarkers_set_bare bare value attributes).trans h.markers, fun pair hpair => ?_⟩
  rcases mem_set hpair with rfl | hpair
  · exact Or.inr ⟨bare, hvalue⟩
  · exact h.pairs pair hpair

theorem set_marker (h : attributes.Marks ref names) {name : String} (fresh : name ∉ names) :
    (attributes.set (Marker.attributeName ref name) "").Marks ref (names ++ [name]) := by
  have other : ∀ pair ∈ attributes, pair.1 ≠ Marker.attributeName ref name := by
    intro pair hpair heq
    rcases h.pairs pair hpair with ⟨used, hused, rfl⟩ | ⟨bare, -⟩
    · have same := Option.some.inj ((Marker.ofName?_eq_some_iff.mpr rfl).symm.trans
        (Marker.ofName?_eq_some_iff.mpr heq))
      cases same
      exact fresh hused
    · exact not_bare_attributeName ref name (heq ▸ bare)
  rw [set_of_fresh other]
  refine ⟨?_, ?_⟩
  · rw [nameMarkers_append, h.markers, nameMarkers_marker, List.map_append]
    rfl
  · rw [List.forall_mem_append]
    refine ⟨fun pair hpair => (h.pairs pair hpair).imp ?_ id, fun pair hpair => Or.inl ?_⟩
    · rintro ⟨used, hused, heq⟩
      exact ⟨used, List.mem_append_left _ hused, heq⟩
    · exact ⟨name, List.mem_append_right _ List.mem_cons_self, List.mem_singleton.mp hpair⟩

theorem mem (h : attributes.Marks ref names) {name : String} (hname : name ∈ names) :
    (Marker.attributeName ref name, "") ∈ attributes := by
  have marked : Marker.attribute ref name ∈ attributes.nameMarkers := by
    rw [h.markers]
    exact List.mem_map_of_mem hname
  obtain ⟨value, hpair⟩ := exists_of_mem_nameMarkers marked
  rcases h.pairs _ hpair with ⟨used, -, heq⟩ | ⟨bare, -⟩
  · rw [(Prod.mk.inj heq).2] at hpair
    exact hpair
  · exact absurd bare (not_bare_attributeName ref name)

/-- **The attribute pass meets the markers in the names**, when these can be names. -/
theorem markersAt_split (h : attributes.Marks ref names)
    (proper : ∀ name ∈ names, (Marker.attribute ref name).Proper) {before behind : List Char}
    {d : Char} (hd : d = '>' ∨ d = '/') (bareBefore : Bare before) (bareBehind : Bare behind) :
    Segment.markersAt .attribute (Segment.split
      (before ++ ((Forest.attributesMarkup attributes).toList ++ d :: behind))) =
        attributes.nameMarkers := by
  have close : d ∉ "__OVERRIDE_ATTR__".toList := by rcases hd with rfl | rfl <;> decide
  have pairs := h.pairs
  clear h
  induction attributes generalizing before with
  | nil =>
      apply Segment.markersAt_of_bare
      exact (bare_append_cons close).mpr ⟨bareBefore, bareBehind⟩
  | cons first rest ih =>
      obtain ⟨key, value⟩ := first
      have blank : Seam ' ' := Or.inr (by decide)
      have later (before : List Char) (bare : Bare before) :=
        ih bare fun pair hpair => pairs pair (List.mem_cons_of_mem _ hpair)
      rcases pairs _ List.mem_cons_self with ⟨name, hname, heq⟩ | ⟨bareName, bareValue⟩
      · cases heq
        let rest' := (Forest.attributesMarkup rest).toList ++ d :: behind
        have frame :
            (Forest.attributesMarkup ((Marker.attributeName ref name, "") :: rest)).toList ++
              d :: behind = ' ' :: ((Marker.attribute ref name).source ++ rest') := by
          rw [Forest.toList_attributesMarkup_cons, Forest.toList_attributesMarkup_single]
          simp [Marker.source, rest']
        have stops : Segment.Stops [' '] ((Marker.attribute ref name).source ++ rest') := by
          intro c hc
          rw [Marker.source, Marker.toList_attributeName] at hc
          cases hc
          exact Or.inr (Or.inr ⟨rfl, ' ', rfl, by decide⟩)
        rw [frame, Segment.markersAt_append blank, Segment.markersAt_of_bare bareBefore,
          List.nil_append, ← List.singleton_append,
          Segment.markersAt_text (List.cons_ne_nil _ _) (unmarked_of_breaks (by decide)) stops,
          Segment.markersAt_source (.attribute ref name) .attribute (proper name hname) rfl,
          nameMarkers_marker]
        have tail := later [] (bare_of_notMem List.not_mem_nil)
        rw [List.nil_append] at tail
        rw [tail]
      · rw [nameMarkers_bare bareName, Forest.toList_attributesMarkup_cons, List.append_assoc,
          ← List.append_assoc]
        apply later
        rw [Forest.toList_attributesMarkup_single, bare_append_cons (by decide),
          bare_append_cons (by decide), ← List.nil_append ('"' :: _), bare_append_cons (by decide),
          bare_append_cons (by decide)]
        have nothing : Bare [] := bare_of_notMem List.not_mem_nil
        exact ⟨bareBefore, bareName, nothing, bareValue, nothing⟩

end Marks

end Attributes

/-! ## What is written and what is recorded -/

namespace Label

def Marks (ref : Ref) (names : List String) : Label → Prop
  | .element tag attributes => Unmarked tag.toList ∧ attributes.Marks ref names
  | .text _ => False

namespace Marks

variable {ref : Ref} {names more : List String} {label : Label}

theorem attributes (h : label.Marks ref names) : label.attributes.Marks ref names := by
  cases label with
  | text content => cases h
  | element tag attributes => exact h.2

theorem withTag (h : label.Marks ref names) {tag : String} (free : Unmarked tag.toList) :
    (label.withTag tag).Marks ref names := by
  cases label with
  | text content => exact h
  | element old attributes => exact ⟨free, h.2⟩

theorem mapAttributes (h : label.Marks ref names) {change : Attributes → Attributes}
    (step : ∀ attributes : Attributes, attributes.Marks ref names →
      (change attributes).Marks ref more) : (label.mapAttributes change).Marks ref more := by
  cases label with
  | text content => exact h
  | element tag attributes => exact ⟨h.1, step attributes h.2⟩

end Marks

end Label

namespace Effect

variable {settings : Settings} {ref : Ref} {effect : Effect}

theorem marks_overrideEach {names : List String} {overrides : List (String × AttributeOverride)}
    (h : effect.label.Marks ref names) (nodup : (names ++ overrides.map Prod.fst).Nodup)
    (free : ∀ pair ∈ overrides, Unmarked pair.1.toList) :
    (effect.overrideEach settings ref overrides).label.Marks ref
      (names ++ overrides.map Prod.fst) := by
  induction overrides generalizing effect names with
  | nil => rwa [List.map_nil, List.append_nil]
  | cons first rest ih =>
      obtain ⟨name, kind⟩ := first
      have fresh : name ∉ names := fun mem =>
        (List.nodup_append.mp nodup).2.2 name mem name List.mem_cons_self rfl
      have step : (effect.overrideAttribute settings ref name kind).label.Marks ref
          (names ++ [name]) :=
        h.mapAttributes fun _ h => (h.removeEither (free _ List.mem_cons_self)).set_marker fresh
      rw [List.map_cons, List.append_cons] at nodup ⊢
      exact ih step nodup fun pair hpair => free pair (List.mem_cons_of_mem _ hpair)

/-- The declared names, and no others, are marked in the end. -/
theorem marks_ofDeclaration (plain : settings.Plain) (ref : Ref) {declaration : Declaration}
    (free : ∀ name ∈ declaration.attributes, Unmarked name.toList) (sight : Sight)
    (bare : sight.label.Marks ref []) :
    (ofDeclaration settings ref declaration sight).label.Marks ref declaration.attributes.keys := by
  have seen : ({ label := sight.label } : Effect).label.Marks ref [] := bare
  rw [← Std.ExtTreeMap.map_fst_toList_eq_keys]
  apply label_ofDeclaration settings ref declaration sight
  · refine marks_overrideEach seen ?_ fun pair hpair =>
      free pair.1 (Declaration.mem_attributes hpair)
    rw [List.nil_append, Std.ExtTreeMap.map_fst_toList_eq_keys]
    exact Std.ExtTreeMap.nodup_keys
  · exact fun _ h => h.withTag (Draft.unmarked_dataExpr plain ref .tag)
  · exact fun _ h => h.withTag (Draft.unmarked_dataExpr plain ref .component)
  · exact fun _ h => h.mapAttributes fun _ h =>
      h.set_bare (bare_of_unmarked plain.rawContentAttribute) (bare_innerValue ref)
  · exact fun _ h => h.mapAttributes fun _ h =>
      h.remove (bare_of_unmarked plain.unrenderAttribute)

end Effect

namespace Draft

variable {draft : Draft} {node : Nat} {ref other : Ref} {declaration : Declaration} {name : String}

theorem holds_attribute_overrideEach {overrides : List (String × AttributeOverride)}
    (h : (draft.overrideEach node ref overrides).registry.Holds (.attribute other name)) :
    draft.registry.Holds (.attribute other name) ∨ name ∈ overrides.map Prod.fst := by
  induction overrides generalizing draft with
  | nil => exact Or.inl h
  | cons first rest ih =>
      rcases ih h with h | later
      · have adds := draft.registry.adds_attribute ref first.1
          (Fragment.ofAttribute draft.settings ref first.1
            ((draft.document.attributes node).valueOfEither? first.1) first.2
            ((draft.document.attributes node).hasEither first.1) false)
        refine (adds.holds_iff.mp h).symm.imp id fun fresh => ?_
        obtain ⟨code, hcode⟩ := Option.isSome_iff_exists.mp fresh
        cases (Marker.eq_of_only hcode).1
        exact List.mem_cons_self
      · exact Or.inr (List.mem_cons_of_mem _ later)

theorem holds_attribute_annotate
    (h : (draft.annotate node ref declaration).registry.Holds (.attribute other name)) :
    draft.registry.Holds (.attribute other name) ∨ name ∈ declaration.attributes := by
  have surround (draft : Draft)
      (h : (draft.surround node ref).registry.Holds (.attribute other name)) :
      draft.registry.Holds (.attribute other name) :=
    ((draft.registry.adds_guard ref (Fragment.guard draft.settings ref
      ((draft.document.parent? node).map draft.document.tag))).holds_iff.mp h).resolve_left nofun
  have unrender (draft : Draft)
      (h : (draft.overrideUnrender node ref declaration).registry.Holds (.attribute other name)) :
      draft.registry.Holds (.attribute other name) := by
    unfold overrideUnrender at h
    split at h
    · exact surround (draft.takeWish node ref) h
    · split at h
      · exact surround draft h
      · exact h
  have inner (draft : Draft)
      (h : (draft.overrideInner node ref declaration).registry.Holds (.attribute other name)) :
      draft.registry.Holds (.attribute other name) := by
    unfold overrideInner at h
    split at h
    · exact ((draft.registry.adds_inner ref (Fragment.ofInner draft.settings ref
        (draft.document.contentMarkup node))).holds_iff.mp h).resolve_left nofun
    · exact h
  have component (draft : Draft)
      (h : (draft.overrideComponent node ref declaration).registry.Holds (.attribute other name)) :
      draft.registry.Holds (.attribute other name) := by
    unfold overrideComponent at h
    split at h
    · exact h
    · exact h
  have tag (draft : Draft)
      (h : (draft.overrideTag node ref declaration).registry.Holds (.attribute other name)) :
      draft.registry.Holds (.attribute other name) := by
    unfold overrideTag at h
    split at h
    · exact h
    · exact h
  refine (holds_attribute_overrideEach (tag _ (component _ (inner _ (unrender _ h))))).imp id ?_
  rw [Std.ExtTreeMap.map_fst_toList_eq_keys, Std.ExtTreeMap.mem_keys]
  exact id

end Draft

/-! ## One marker for each name -/

theorem bare_wrapperTag (ref : Ref) : Bare (Marker.wrapperTag ref).toList := by
  have href : 'A' ∉ ref.text.toList := fun mem => absurd (Ref.isTailChar_of_mem mem) (by decide)
  apply bare_of_notMem
  rw [Marker.toList_wrapperTag, List.mem_append, not_or]
  exact ⟨by decide, href⟩

namespace Forest

variable {tag : String} {content rest : List Char}

theorem exists_bare_behind (htag : Unmarked tag.toList) {content : String}
    (hcontent : Unmarked content.toList) (hrest : Bare rest) (attributes : Attributes)
    (hollow : Bool) :
    ∃ (d : Char) (behind : List Char), (d = '>' ∨ d = '/') ∧ Bare behind ∧
      (elementMarkup tag attributes hollow content).toList ++ rest =
        '<' :: (tag.toList ++ ((attributesMarkup attributes).toList ++ d :: behind)) := by
  have nothing : Bare [] := bare_of_notMem List.not_mem_nil
  rw [toList_elementMarkup]
  split
  · refine ⟨'/', '>' :: rest, Or.inr rfl, ?_, by simp⟩
    exact (bare_append_cons (a := []) (by decide)).mpr ⟨nothing, hrest⟩
  · refine ⟨'>', content.toList ++ '<' :: ('/' :: (tag.toList ++ '>' :: rest)), Or.inl rfl, ?_,
      by simp⟩
    have slash : Bare ([] ++ '/' :: (tag.toList ++ '>' :: rest)) := by
      rw [bare_append_cons (by decide), bare_append_cons (by decide)]
      exact ⟨nothing, bare_of_unmarked htag, hrest⟩
    exact (bare_append_cons (by decide)).mpr ⟨bare_of_unmarked hcontent, slash⟩

end Forest

/-- What an effect puts in the place of a node is bare around the attributes of the node. -/
theorem Effect.exists_bare_put {effect : Effect} {ref : Ref} {names : List String}
    (marks : effect.label.Marks ref names)
    (wrapper : effect.wrapper = none ∨ effect.wrapper = some (Marker.wrapperTag ref))
    {children : Forest} (content : Unmarked children.markup.toList) {rest : List Char}
    (hrest : Bare rest) (node fresh : Nat) :
    ∃ (front behind : List Char) (d : Char), (d = '>' ∨ d = '/') ∧ Bare front ∧ Bare behind ∧
      (effect.put node fresh children).markup.toList ++ rest =
        '<' :: (front ++ ((Forest.attributesMarkup effect.label.attributes).toList ++
          d :: behind)) := by
  obtain ⟨label, emptied, wrap, changes⟩ := effect
  cases label with
  | text content => cases marks
  | element tag attributes =>
      obtain ⟨htag, -⟩ := marks
      have inside : Unmarked (if emptied then .nil else children : Forest).markup.toList := by
        split
        · exact Unmarked.nil
        · exact content
      unfold put
      generalize (if emptied then .nil else children : Forest) = kept at inside
      rcases wrapper with rfl | rfl
      · obtain ⟨d, behind, hd, hbehind, heq⟩ :=
          Forest.exists_bare_behind htag inside hrest attributes kept.isEmpty
        refine ⟨tag.toList, behind, d, hd, bare_of_unmarked htag, hbehind, ?_⟩
        show (Forest.tree node (.element tag attributes) kept).markup.toList ++ rest =
          '<' :: (tag.toList ++ ((Forest.attributesMarkup attributes).toList ++ d :: behind))
        rw [← heq, Forest.tree, Forest.markup, Forest.markup, String.append_empty]
      · have nothing : Bare [] := bare_of_notMem List.not_mem_nil
        have bareTag := bare_wrapperTag ref
        have slash : Bare ([] ++ '/' :: ((Marker.wrapperTag ref).toList ++ '>' :: rest)) := by
          rw [bare_append_cons (by decide), bare_append_cons (by decide)]
          exact ⟨nothing, bareTag, hrest⟩
        have closing : Bare ([] ++ '<' :: '/' :: ((Marker.wrapperTag ref).toList ++ '>' :: rest)) :=
          (bare_append_cons (by decide)).mpr ⟨nothing, slash⟩
        obtain ⟨d, behind, hd, hbehind, heq⟩ :=
          Forest.exists_bare_behind htag inside closing attributes kept.isEmpty
        refine ⟨(Marker.wrapperTag ref).toList ++ '>' :: '<' :: tag.toList, behind, d, hd, ?_,
          hbehind, ?_⟩
        · have start : Bare ([] ++ '<' :: tag.toList) :=
            (bare_append_cons (by decide)).mpr ⟨nothing, bare_of_unmarked htag⟩
          exact (bare_append_cons (by decide)).mpr ⟨bareTag, start⟩
        · show (Forest.tree fresh (.element (Marker.wrapperTag ref) [])
            (Forest.tree node (.element tag attributes) kept)).markup.toList ++ rest =
              '<' :: (((Marker.wrapperTag ref).toList ++ '>' :: '<' :: tag.toList) ++
                ((Forest.attributesMarkup attributes).toList ++ d :: behind))
          have inner : (Forest.tree node (.element tag attributes) kept).markup =
              Forest.elementMarkup tag attributes kept.isEmpty kept.markup := by
            rw [Forest.tree, Forest.markup, Forest.markup, String.append_empty]
          rw [Forest.tree, Forest.markup, Forest.markup, String.append_empty, inner,
            Forest.toList_elementMarkup, if_neg (Forest.not_void_wrapper _ ref)]
          rw [List.nil_append] at heq
          simp [Forest.attributesMarkup, ← heq]

namespace Document

variable {doc : Document} {node : Nat} {ref : Ref} {names : List String}

theorem marks_of_plain {label : Label} (plain : label.Plain) (element : label.isElement = true)
    (ref : Ref) : label.Marks ref [] := by
  cases label with
  | text content => cases element
  | element tag attributes =>
      refine ⟨plain.1, .of_bare fun pair hpair => ?_⟩
      obtain ⟨hname, hvalue⟩ := plain.2 pair hpair
      exact ⟨bare_of_unmarked hname, bare_of_unmarked hvalue⟩

/-- A written element of a document without marker text, and what an effect writes around its
attributes. -/
theorem exists_bare_around (nodup : doc.whole.ids.Nodup) (free : Unmarked doc.markup.toList)
    (shown : node ∈ doc.roots.written) (element : (doc.label node).isElement = true) :
    (doc.label node).Plain ∧ ∀ effect : Effect, effect.label.Marks ref names →
      (effect.wrapper = none ∨ effect.wrapper = some (Marker.wrapperTag ref)) →
        ∃ (before behind : List Char) (d : Char),
          (d = '>' ∨ d = '/') ∧ Bare before ∧ Bare behind ∧
            (doc.enact node effect).markup.toList = before ++
              ((Forest.attributesMarkup effect.label.attributes).toList ++ d :: behind) := by
  obtain ⟨before, behind, markup, enacted⟩ := exists_around nodup shown
  rw [markup] at free
  have own := free.right.left
  cases hlabel : doc.label node with
  | text content =>
      rw [hlabel] at element
      cases element
  | element tag attributes =>
      rw [hlabel, Forest.tree, Forest.markup, String.toList_append] at own
      obtain ⟨plain, content⟩ := Forest.plain_of_elementMarkup own.left
      refine ⟨plain, fun effect marks wrapper => ?_⟩
      obtain ⟨front, back, d, hd, bareFront, bareBack, heq⟩ := effect.exists_bare_put marks wrapper
        content (bare_of_unmarked free.right.right) node doc.size
      refine ⟨before ++ '<' :: front, back, d, hd, ?_, bareBack, ?_⟩
      · exact (bare_append_cons (by decide)).mpr ⟨bare_of_unmarked free.left, bareFront⟩
      · rw [enacted, heq, List.append_assoc, List.cons_append]

end Document

namespace Draft

/-- **Each declared name has one marker.** When one element of a document without marker text is
annotated and the result resolves, the markers of attributes that are exchanged on the way are those
of the declared names, one for each, provided that no declared name goes on behind another one with
`=""`. -/
theorem names_met_once {settings : Settings} (plain : settings.Plain)
    {operations : List Document.Operation} (permitted : Document.PermitsAll {} operations)
    (free : Unmarked (Document.performAll {} operations).markup.toList) {node : Nat}
    (shown : node ∈ (Document.performAll {} operations).roots.written)
    (element : ((Document.performAll {} operations).label node).isElement = true) (ref : Ref)
    {declaration : Declaration}
    (names : ∀ name ∈ declaration.attributes, Unmarked name.toList)
    (apart : ∀ lead ∈ declaration.attributes, ∀ name ∈ declaration.attributes,
      ¬ lead.toList ++ ['=', '"', '"'] <+: name.toList) {page : Page}
    (resolved : ((start settings (.performAll {} operations)).annotate node ref declaration).resolve
      ((start settings (.performAll {} operations)).annotate node ref declaration).document.markup =
        .ok page) :
    Segment.markersAt .attribute (Segment.split
      ((start settings (.performAll {} operations)).annotate node ref
        declaration).document.markup.toList) =
          declaration.attributes.keys.map (.attribute ref) := by
  have numbered := Document.numbered_performAll permitted
  generalize Document.performAll {} operations = doc at *
  have made : node < doc.size := by
    apply numbered.lt_size
    rw [Document.whole, Forest.ids_append]
    exact List.mem_append_left _ (Forest.mem_ids_of_mem_written shown)
  have stands := numbered.stands made
  obtain ⟨own, around⟩ := Document.exists_bare_around stands.nodup free shown element
  have marks := Effect.marks_ofDeclaration plain ref names (doc.sight node)
    (Document.marks_of_plain own element ref)
  obtain ⟨-, wrapper⟩ := Effect.frame_ofDeclaration settings ref declaration (doc.sight node)
  obtain ⟨before, behind, d, hd, bareBefore, bareBehind, markup⟩ := around _ marks wrapper
  have holds : ∀ name, ((start settings doc).annotate node ref declaration).registry.Holds
      (.attribute ref name) → name ∈ declaration.attributes := fun name h =>
    (holds_attribute_annotate h).resolve_left (by simp [start, Registry.Holds, Registry.code?])
  obtain ⟨resolution, resolved, -⟩ := bind_eq_ok.mp resolved
  rw [annotate_eq_enact stands] at resolved holds ⊢
  have proper : ∀ name ∈ declaration.attributes.keys, (Marker.attribute ref name).Proper := by
    intro name hname
    obtain ⟨left, right, written⟩ := Forest.exists_attribute (marks.attributes.mem hname)
    have hsource : (doc.enact node (.ofDeclaration settings ref declaration
        (doc.sight node))).markup.toList = (before ++ left) ++
          ' ' :: ((Marker.attributeName ref name).toList ++
            '=' :: '"' :: '"' :: (right ++ d :: behind)) := by
      rw [markup, written]
      simp
    obtain ⟨lead, hm, held, hlead⟩ := Registry.lead_of_resolve resolved hsource
    rw [Std.ExtTreeMap.mem_keys] at hname
    rcases hlead with rfl | hlead
    · exact hm
    · exact absurd hlead (apart lead (holds lead held) name hname)
  rw [← marks.attributes.markers,
    ← marks.attributes.markersAt_split proper hd bareBefore bareBehind]
  exact congrArg _ (congrArg _ markup)

def idAndTitle : Declaration where
  attributes := ((∅ : NameMap AttributeOverride).insert "title" .delete).insert "id" .update
  tag := true

def idAndTitleDraft : Draft :=
  (start {} (.performAll {} [.element none "p" []])).annotate 0 ⟨"e0a", Ref.isValid_e0a⟩ idAndTitle

def idAndTitleParts : List Segment :=
  [.text "<d.e0aTag ".toList, .marker (.attribute ⟨"e0a", Ref.isValid_e0a⟩ "id"), .text [' '],
    .marker (.attribute ⟨"e0a", Ref.isValid_e0a⟩ "title"), .text "></d.e0aTag>".toList]

theorem split_idAndTitleDraft :
    Segment.split idAndTitleDraft.document.markup.toList = idAndTitleParts :=
  Segment.split_of_spelled (by decide) (by decide) (by decide)

theorem resolve_idAndTitleDraft :
    ∃ page, idAndTitleDraft.resolve idAndTitleDraft.document.markup = .ok page := by
  have underscore : '_' ∈ Marker.stem.toList := by decide
  have free : Unmarked (idAndTitleParts.flatMap idAndTitleDraft.registry.filled) :=
    unmarked_of_notMem underscore (by decide)
  exact exists_page split_idAndTitleDraft (by decide) free

theorem names_met_once_idAndTitle :
    (∃ page, idAndTitleDraft.resolve idAndTitleDraft.document.markup = .ok page) ∧
    Segment.markersAt .attribute (Segment.split idAndTitleDraft.document.markup.toList) =
      idAndTitle.attributes.keys.map (.attribute ⟨"e0a", Ref.isValid_e0a⟩) := by
  have keys : idAndTitle.attributes.keys = ["id", "title"] := by decide
  have names : ∀ name ∈ idAndTitle.attributes, Unmarked name.toList := by
    intro name hname
    rw [← Std.ExtTreeMap.mem_keys, keys] at hname
    revert name
    decide
  have apart : ∀ lead ∈ idAndTitle.attributes, ∀ name ∈ idAndTitle.attributes,
      ¬ lead.toList ++ ['=', '"', '"'] <+: name.toList := by
    intro lead hlead name hname
    rw [← Std.ExtTreeMap.mem_keys, keys] at hlead hname
    revert lead name
    decide
  obtain ⟨page, resolved⟩ := resolve_idAndTitleDraft
  exact ⟨⟨page, resolved⟩, names_met_once Settings.plain_default (by decide) (by decide) (by decide)
    (by decide) ⟨"e0a", Ref.isValid_e0a⟩ names apart resolved⟩

/-! ### A name that stands in for another -/

/-- An update of the attribute `a`, and of one whose name goes on behind `a` with `=""`. -/
def goingOn : Declaration where
  attributes := ((∅ : NameMap AttributeOverride).insert "a" .update).insert "a=\"\" b" .update

def goingOnDraft : Draft :=
  (start {} (.performAll {} [.element none "p" []])).annotate 0 ⟨"e0a", Ref.isValid_e0a⟩ goingOn

def goingOnParts : List Segment :=
  [.text "<p ".toList, .marker (.attribute ⟨"e0a", Ref.isValid_e0a⟩ "a"), .text [' '],
    .marker (.attribute ⟨"e0a", Ref.isValid_e0a⟩ "a"), .text " b=\"\"></p>".toList]

theorem split_goingOnDraft :
    Segment.split goingOnDraft.document.markup.toList = goingOnParts :=
  Segment.split_of_spelled (by decide) (by decide) (by decide)

/-- A document resolves, and of two declared names the one is met twice and the other never. -/
theorem one_name_met_twice :
    Unmarked (Document.performAll {} [.element none "p" []]).markup.toList ∧
    (∀ name ∈ goingOn.attributes, Unmarked name.toList) ∧ "a=\"\" b" ∈ goingOn.attributes ∧
    (∃ page, goingOnDraft.resolve goingOnDraft.document.markup = .ok page) ∧
    Segment.markersAt .attribute (Segment.split goingOnDraft.document.markup.toList) =
      [.attribute ⟨"e0a", Ref.isValid_e0a⟩ "a", .attribute ⟨"e0a", Ref.isValid_e0a⟩ "a"] := by
  have keys : goingOn.attributes.keys = ["a", "a=\"\" b"] := by decide
  have filled : goingOnParts.flatMap goingOnDraft.registry.filled =
      ("<p \x7b...DS.e(d.e0aAttrA) && \x7b'a': d.e0aAttrA\x7d\x7d " ++
        "\x7b...DS.e(d.e0aAttrA) && \x7b'a': d.e0aAttrA\x7d\x7d b=\"\"></p>").toList := by
    decide
  have free : Unmarked (goingOnParts.flatMap goingOnDraft.registry.filled) := by
    rw [filled]
    have underscore : '_' ∈ Marker.stem.toList := by decide
    exact unmarked_of_notMem underscore (by decide)
  refine ⟨by decide, ?_, ?_, ?_, ?_⟩
  · intro name hname
    rw [← Std.ExtTreeMap.mem_keys, keys] at hname
    revert name
    decide
  · rw [← Std.ExtTreeMap.mem_keys, keys]
    decide
  · exact exists_page split_goingOnDraft (by decide) free
  · rw [split_goingOnDraft]
    decide

end Draft

end LateMarkup
