import LateMarkup.Proofs.Consistency

/-!
# Markup written directly

`Registry.direct` serializes an annotated forest without any markers: where the tree has a marker,
it writes the code from the registry. It never looks at text, so it says what resolving the
serialized forest is meant to give.

It gives what the segments of the forest give when they are filled (`direct_eq`). For resolving it
remains that the filled text holds no marker text. The code of attributes and of inner content
stands between blanks and brackets of tags. That of a wrapper stands beside texts, so it has to keep
apart what is around it, with the help of the element in the wrapper where its closing code is
empty.
-/

namespace LateMarkup

/-! ## The direct serializer -/

namespace Registry

/-- An attribute with the blank before it. An overridden attribute is its code, and raw content is
the code of the inner content. -/
def directAttribute (registry : Registry) (raw name value : String) : Option String :=
  match Marker.ofName? name with
  | some (ref, inner) => (registry.code[ref]?.bind (·.attributes[inner]?)).map (" " ++ ·)
  | none =>
    match Marker.ofValue? value with
    | some ref =>
      if name = raw then (registry.code[ref]?.bind (·.inner)).map (" " ++ name ++ "=" ++ ·)
      else some (Forest.attributesMarkup [(name, value)])
    | none => some (Forest.attributesMarkup [(name, value)])

def directAttributes (registry : Registry) (raw : String) : Attributes → Option String
  | [] => some ""
  | (name, value) :: rest => do
    let front ← registry.directAttribute raw name value
    let back ← registry.directAttributes raw rest
    return front ++ back

def directElement (tag attributes : String) (hollow : Bool) (content : String) : String :=
  if hollow && Forest.voidTags.contains tag then "<" ++ tag ++ attributes ++ "/>"
  else "<" ++ tag ++ attributes ++ ">" ++ content ++ "</" ++ tag ++ ">"

/-- A row of trees, with the code of every marker in its place. A wrapper is the code around its
content. If there is no code for a marker, there is no such text. -/
def direct (registry : Registry) (raw : String) : Forest → Option String
  | .nil => some ""
  | .node _ (.text content) _ next => do
    let behind ← registry.direct raw next
    return Forest.textMarkup content ++ behind
  | .node _ (.element tag attributes) children next => do
    let content ← registry.direct raw children
    let behind ← registry.direct raw next
    match Marker.ofTag? tag with
    | some ref =>
      let guard ← registry.code[ref]?.bind (·.unrender)
      return guard.opening ++ content ++ guard.closing ++ behind
    | none =>
      let written ← registry.directAttributes raw attributes
      return directElement tag written children.isEmpty content ++ behind

end Registry

/-! ## It fills the segments -/

/-- A wrapper has no attributes, and nothing but elements in it. Inner content is marked only where
raw content is. -/
def Label.Orderly (raw : String) (children : Forest) : Label → Prop
  | .element tag attributes =>
    (∀ ref, tag = Marker.wrapperTag ref → attributes = [] ∧ ∀ c ∈ children.rowText, c = '<') ∧
      ∀ pair ∈ attributes, ∀ ref, pair.2 = Marker.innerValue ref → pair.1 = raw
  | .text _ => True

def Forest.Orderly (raw : String) (forest : Forest) : Prop :=
  forest.All fun _ label children => label.Orderly raw children

namespace Registry

variable {registry : Registry} {raw : String}

theorem Holds.exists_code {m : Marker} (holds : registry.Holds m) :
    ∃ code, registry.code? m = some code ∧ registry.filled (.marker m) = code.toList := by
  obtain ⟨code, hcode⟩ := Option.isSome_iff_exists.mp holds
  refine ⟨code, hcode, ?_⟩
  rw [filled, hcode]
  rfl

theorem Holds.exists_inner {ref : Ref} (holds : registry.Holds (.inner ref)) :
    ∃ inner, registry.code[ref]?.bind (·.inner) = some inner ∧
      registry.filled (.marker (.inner ref)) = '=' :: inner.toList := by
  obtain ⟨code, hcode, hfilled⟩ := holds.exists_code
  rw [code?_inner] at hcode
  obtain ⟨inner, hinner, rfl⟩ := Option.map_eq_some_iff.mp hcode
  refine ⟨inner, hinner, ?_⟩
  rw [hfilled, String.toList_append]
  rfl

theorem Holds.exists_guard {ref : Ref} (holds : registry.Holds (.opening ref)) :
    ∃ guard, registry.code[ref]?.bind (·.unrender) = some guard ∧
      registry.filled (.marker (.opening ref)) = guard.opening.toList ∧
      registry.filled (.marker (.closing ref)) = guard.closing.toList := by
  obtain ⟨opening, hopening, hfirst⟩ := holds.exists_code
  obtain ⟨closing, hclosing, hlast⟩ := (registry.holds_closing.mpr holds).exists_code
  rw [code?_opening] at hopening
  rw [code?_closing] at hclosing
  obtain ⟨guard, hguard, rfl⟩ := Option.map_eq_some_iff.mp hopening
  rw [hguard] at hclosing
  cases hclosing
  exact ⟨guard, hguard, hfirst, hlast⟩

theorem directAttribute_eq {name value : String} (backed : registry.BacksAttribute name value)
    (orderly : ∀ ref, value = Marker.innerValue ref → name = raw) :
    registry.directAttribute raw name value =
      some (String.ofList ((Forest.attributePart name value).flatMap registry.filled)) := by
  rcases backed with ⟨ref, inner, rfl, rfl, -, holds⟩ | ⟨hname, hvalue | ⟨ref, rfl, holds⟩⟩
  · obtain ⟨code, hcode, hfilled⟩ := holds.exists_code
    have entry : registry.code[ref]?.bind (·.attributes[inner]?) = some code := hcode
    rw [directAttribute, Marker.ofName?_eq_some_iff.mpr rfl, Forest.attributePart_marker]
    dsimp only
    rw [entry, List.flatMap_cons, List.flatMap_singleton, hfilled]
    simp [filled]
  · rw [directAttribute, Marker.ofName?_of_unmarked hname, Forest.ofValue?_of_unmarked hvalue,
      Forest.attributePart_plain hname hvalue, List.flatMap_singleton]
    simp [filled]
  · obtain ⟨inner, hinner, hfilled⟩ := holds.exists_inner
    rw [directAttribute, Marker.ofName?_of_unmarked hname, Marker.ofValue?_eq_some_iff.mpr rfl,
      Forest.attributePart_inner hname]
    dsimp only
    rw [if_pos (orderly ref rfl), hinner, List.flatMap_cons, List.flatMap_singleton, hfilled]
    simp [filled, ← String.toList_inj]

theorem directAttributes_eq {attributes : Attributes}
    (backed : ∀ pair ∈ attributes, registry.BacksAttribute pair.1 pair.2)
    (orderly : ∀ pair ∈ attributes, ∀ ref, pair.2 = Marker.innerValue ref → pair.1 = raw) :
    registry.directAttributes raw attributes =
      some (String.ofList ((Forest.attributesPart attributes).flatMap registry.filled)) := by
  induction attributes with
  | nil => rfl
  | cons pair attributes ih =>
      obtain ⟨name, value⟩ := pair
      have front := directAttribute_eq (backed _ List.mem_cons_self) (orderly _ List.mem_cons_self)
      have back := ih (fun pair hpair => backed pair (List.mem_cons_of_mem _ hpair))
        fun pair hpair => orderly pair (List.mem_cons_of_mem _ hpair)
      rw [directAttributes, front, back, Forest.attributesPart, List.flatMap_append]
      simp

/-- **Writing directly is filling.** -/
theorem direct_eq {forest : Forest} (backed : registry.Backs forest)
    (orderly : forest.Orderly raw) :
    registry.direct raw forest =
      some (String.ofList (forest.segments.flatMap registry.filled)) := by
  induction forest with
  | nil => rfl
  | node id label children next ihChildren ihNext =>
      obtain ⟨⟨hlabel, -⟩, below, beside⟩ := backed
      obtain ⟨horderly, orderlyBelow, orderlyBeside⟩ := orderly
      have content := ihChildren below orderlyBelow
      have behind := ihNext beside orderlyBeside
      cases label with
      | text content =>
          rw [direct, behind, Forest.segments, List.flatMap_cons]
          simp [filled, Forest.textMarkup]
      | element tag attributes =>
          rw [direct, content, behind]
          simp only [Option.bind_eq_bind, Option.bind_some]
          rcases hlabel.1 with htag | ⟨ref, rfl, holds⟩
          · have written := directAttributes_eq hlabel.2 horderly.2
            rw [Marker.ofTag?_of_unmarked htag]
            dsimp only
            rw [written, Option.bind_some, directElement, Forest.segments]
            split
            · rw [List.flatMap_cons, List.flatMap_append, List.flatMap_cons]
              simp [filled, ← String.toList_inj]
            · rw [Forest.openingPart_eq (Or.inl htag), Forest.closingPart_of_unmarked htag]
              simp [filled, ← String.toList_inj]
          · obtain ⟨guard, hguard, hopening, hclosing⟩ := holds.exists_guard
            obtain ⟨rfl, -⟩ := horderly.1 ref rfl
            rw [Marker.ofTag?_eq_some_iff.mpr rfl]
            dsimp only
            rw [hguard, Option.bind_some, Forest.segments,
              if_neg (Forest.not_void_wrapper children ref), Forest.openingPart_wrapper,
              Forest.closingPart_wrapper]
            simp [hopening, hclosing, ← String.toList_inj]

end Registry

/-! ## What is filled in holds no marker text -/

/-- Code that is fit for the place of a marker: it holds no marker text, and at a wrapper it makes
none with the texts around it. The closing code of a wrapper may be empty. -/
def Marker.Fits (code : List Char) : Marker → Prop
  | .attribute _ _ => Unmarked code
  | .inner _ => Unmarked code
  | .opening _ =>
    ∀ before behind, Unmarked before → Unmarked behind → Unmarked (before ++ (code ++ behind))
  | .closing _ => ∀ behind, Unmarked behind → Unmarked (code ++ behind)

namespace Registry

variable {registry : Registry} {raw : String}

/-- All code is fit for its place. -/
def Clean (registry : Registry) : Prop :=
  ∀ m code, registry.code? m = some code → m.Fits code.toList

theorem Clean.filled (clean : registry.Clean) {m : Marker} (holds : registry.Holds m) :
    m.Fits (registry.filled (.marker m)) := by
  obtain ⟨code, hcode, hfilled⟩ := holds.exists_code
  rw [hfilled]
  exact clean m code hcode

theorem unmarked_attributePart (clean : registry.Clean) {name value : String}
    (backed : registry.BacksAttribute name value) :
    ∃ text, (Forest.attributePart name value).flatMap registry.filled = ' ' :: text ∧
      Unmarked text := by
  rcases backed with ⟨ref, inner, rfl, rfl, -, holds⟩ | ⟨hname, hvalue | ⟨ref, rfl, holds⟩⟩
  · refine ⟨registry.filled (.marker (.attribute ref inner)), ?_, clean.filled holds⟩
    rw [Forest.attributePart_marker, List.flatMap_cons, List.flatMap_singleton]
    rfl
  · refine ⟨name.toList ++ '=' :: '"' :: (value.toList.flatMap Forest.spellValueChar ++ ['"']),
      ?_, ?_⟩
    · rw [Forest.attributePart_plain hname hvalue, List.flatMap_singleton]
      exact Forest.toList_attributesMarkup_single name value
    · rw [unmarked_append_cons (by decide), unmarked_cons (by decide),
        unmarked_append_cons (by decide)]
      exact ⟨hname, hvalue, Unmarked.nil⟩
  · obtain ⟨inner, -, hfilled⟩ := holds.exists_inner
    have fits : Unmarked (registry.filled (.marker (.inner ref))) := clean.filled holds
    rw [hfilled, unmarked_cons (by decide)] at fits
    refine ⟨name.toList ++ '=' :: inner.toList, ?_, ?_⟩
    · rw [Forest.attributePart_inner hname, List.flatMap_cons, List.flatMap_singleton, hfilled]
      rfl
    · exact (unmarked_append_cons (by decide)).mpr ⟨hname, fits⟩

theorem unmarked_attributesPart (clean : registry.Clean) {attributes : Attributes}
    (backed : ∀ pair ∈ attributes, registry.BacksAttribute pair.1 pair.2)
    {before behind : List Char} {c : Char} (hc : Breaks c) (hbefore : Unmarked before)
    (hbehind : Unmarked behind) :
    Unmarked (before ++
      ((Forest.attributesPart attributes).flatMap registry.filled ++ c :: behind)) := by
  induction attributes generalizing before with
  | nil => exact (unmarked_append_cons hc).mpr ⟨hbefore, hbehind⟩
  | cons pair attributes ih =>
      obtain ⟨name, value⟩ := pair
      obtain ⟨text, htext, free⟩ := unmarked_attributePart clean (backed _ List.mem_cons_self)
      rw [Forest.attributesPart, List.flatMap_append, htext, List.append_assoc, List.cons_append,
        unmarked_append_cons (by decide)]
      exact ⟨hbefore, ih (fun pair hpair => backed pair (List.mem_cons_of_mem _ hpair)) free⟩

/-- **Filling makes no marker text.** A forest is filled with code as if its elements were mere
angle brackets. -/
theorem unmarked_filled (clean : registry.Clean) {forest : Forest}
    (backed : registry.Backs forest) (orderly : forest.Orderly raw) (before : List Char)
    {behind : List Char}
    (free : Unmarked (before ++ (forest.rowText ++ behind))) :
    Unmarked (before ++ (forest.segments.flatMap registry.filled ++ behind)) := by
  induction forest generalizing before behind with
  | nil => exact free
  | node id label children next ihChildren ihNext =>
      obtain ⟨⟨hlabel, hrow⟩, below, beside⟩ := backed
      obtain ⟨horderly, orderlyBelow, orderlyBeside⟩ := orderly
      cases label with
      | text content =>
          rw [Forest.rowText, List.append_assoc, ← List.append_assoc] at free
          rw [Forest.segments, List.flatMap_cons, List.append_assoc, ← List.append_assoc]
          exact ihNext beside orderlyBeside _ free
      | element tag attributes =>
          have split : Unmarked before ∧ Unmarked (next.rowText ++ behind) :=
            (unmarked_append_cons (c := '<') (by decide)).mp free
          have afterwards : Unmarked (next.segments.flatMap registry.filled ++ behind) :=
            ihNext beside orderlyBeside [] split.2
          rcases hlabel.1 with htag | ⟨ref, rfl, holds⟩
          · rw [Forest.segments]
            split
            · rw [List.flatMap_cons, List.flatMap_append, List.flatMap_cons]
              simp only [filled, List.cons_append, List.nil_append, List.append_assoc]
              rw [unmarked_append_cons (by decide)]
              refine ⟨split.1, unmarked_attributesPart clean hlabel.2 (by decide) htag ?_⟩
              exact (unmarked_cons (by decide)).mpr afterwards
            · rw [Forest.openingPart_eq (Or.inl htag), Forest.closingPart_of_unmarked htag]
              simp only [List.flatMap_cons, List.flatMap_append, filled, List.cons_append,
                List.nil_append, List.append_assoc]
              rw [unmarked_append_cons (by decide)]
              refine ⟨split.1, unmarked_attributesPart clean hlabel.2 (by decide) htag ?_⟩
              apply ihChildren below orderlyBelow []
              rw [List.nil_append, unmarked_append_cons (by decide), unmarked_cons (by decide),
                unmarked_append_cons (by decide)]
              exact ⟨hrow, htag, afterwards⟩
          · -- The closing code may be empty, so the elements in the wrapper have to part the texts.
            obtain ⟨rfl, elements⟩ := horderly.1 ref rfl
            have opening : (Marker.opening ref).Fits _ := clean.filled holds
            have closing : (Marker.closing ref).Fits _ :=
              clean.filled (registry.holds_closing.mpr holds)
            rw [Forest.segments, if_neg (Forest.not_void_wrapper children ref),
              Forest.openingPart_wrapper, Forest.closingPart_wrapper]
            simp only [List.flatMap_append, List.flatMap_singleton, List.append_assoc]
            apply opening _ _ split.1
            apply ihChildren below orderlyBelow []
            rw [List.nil_append, unmarked_breaks_append fun c hc => ?_]
            · exact closing _ afterwards
            · rw [elements c hc]
              decide

end Registry

/-- What a consistent and orderly draft with clean code is filled with. -/
theorem Draft.Consistent.flatMap_filled_split {draft : Draft} (h : draft.Consistent) :
    (Segment.split draft.document.markup.toList).flatMap draft.registry.filled =
      draft.document.roots.segments.flatMap draft.registry.filled := by
  have split : Segment.split draft.document.markup.toList =
      Segment.joined [] draft.document.roots.segments :=
    Forest.split_markup h.document.roots h.document.row
  rw [split, Registry.flatMap_filled_joined, List.nil_append]

theorem Draft.Consistent.unmarked_filled {draft : Draft} (h : draft.Consistent) {raw : String}
    (orderly : draft.document.roots.Orderly raw) (clean : draft.registry.Clean) :
    Unmarked ((Segment.split draft.document.markup.toList).flatMap draft.registry.filled) := by
  have row : Unmarked ([] ++ (draft.document.roots.rowText ++ [])) := by
    rw [List.nil_append, List.append_nil]
    exact h.document.row
  have unmarked := Registry.unmarked_filled clean h.document.roots orderly [] row
  rw [List.nil_append, List.append_nil] at unmarked
  rwa [h.flatMap_filled_split]

/-- **Resolving is writing directly.** In a consistent and orderly draft with clean code, resolving
the markup succeeds, and gives what is written directly. -/
theorem Draft.Consistent.resolve_eq_direct {draft : Draft} (h : draft.Consistent) {raw : String}
    (orderly : draft.document.roots.Orderly raw) (clean : draft.registry.Clean) :
    ∃ page, draft.resolve draft.document.markup = .ok page ∧
      draft.registry.direct raw draft.document.roots = some page.code := by
  have resolved := Registry.resolve_of_unmarked (fun m hm => h.found hm)
    (h.unmarked_filled orderly clean)
  rw [h.flatMap_filled_split] at resolved
  have direct := Registry.direct_eq h.document.roots orderly
  rw [resolve, resolved]
  exact ⟨_, rfl, direct⟩

end LateMarkup
