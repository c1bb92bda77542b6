import LateMarkup.Forest
import LateMarkup.Proofs.Passes

/-!
# Serialized forests, part by part

`Forest.segments` serializes a forest like `Forest.markup`, but writes markers as markers. It looks
for them in the tree, where they are whole names, values and tags, and never in text. The two agree
on what is written (`flatMap_source_segments`), and for the forests that annotating leaves,
splitting the markup gives back these very segments (`split_markup`).

The induction carries the plain text since the last marker. What may stand in a row of trees is a
matter of that text as a whole, since texts beside each other run together, so the invariant speaks
of the texts of a row in one piece (`rowText`).
-/

namespace LateMarkup

/-! ## Markers in a tree -/

namespace Marker

def ofTag? (tag : String) : Option Ref := do
  let text ← tag.toList.dropPrefix? "__OVERRIDE_UNRENDER__".toList
  Ref.ofString? (String.ofList text)

def ofValue? (value : String) : Option Ref := do
  let text ← value.toList.dropPrefix? "__OVERRIDE_INNER__".toList
  Ref.ofString? (String.ofList text)

def ofName? (name : String) : Option (Ref × String) := do
  let text ← name.toList.dropPrefix? "__OVERRIDE_ATTR__".toList
  let ref ← Ref.ofString? (String.ofList (text.takeWhile (· != '_')))
  let inner ← (text.dropWhile (· != '_')).dropPrefix? "__".toList
  return (ref, String.ofList inner)

theorem ofTag?_eq_some_iff {tag : String} {ref : Ref} :
    ofTag? tag = some ref ↔ tag = wrapperTag ref := by
  unfold ofTag?
  constructor
  · intro h
    obtain ⟨text, htext, href⟩ := Option.bind_eq_some_iff.mp h
    obtain ⟨start, hstart, heq⟩ := List.dropPrefix?_eq_some_iff.mp htext
    rw [Ref.ofString?_eq_some_iff] at href
    have hback : ref.text.toList = text := by
      rw [← href, String.toList_ofList]
    rw [← String.toList_inj, toList_wrapperTag, hback, hstart, eq_of_beq heq]
  · rintro rfl
    refine Option.bind_eq_some_iff.mpr ⟨ref.text.toList, ?_, ?_⟩
    · exact List.dropPrefix?_eq_some_iff.mpr ⟨_, toList_wrapperTag ref, beq_self_eq_true _⟩
    · rw [String.ofList_toList, Ref.ofString?_eq_some_iff]

theorem ofValue?_eq_some_iff {value : String} {ref : Ref} :
    ofValue? value = some ref ↔ value = innerValue ref := by
  unfold ofValue?
  constructor
  · intro h
    obtain ⟨text, htext, href⟩ := Option.bind_eq_some_iff.mp h
    obtain ⟨start, hstart, heq⟩ := List.dropPrefix?_eq_some_iff.mp htext
    rw [Ref.ofString?_eq_some_iff] at href
    have hback : ref.text.toList = text := by
      rw [← href, String.toList_ofList]
    rw [← String.toList_inj, toList_innerValue, hback, hstart, eq_of_beq heq]
  · rintro rfl
    refine Option.bind_eq_some_iff.mpr ⟨ref.text.toList, ?_, ?_⟩
    · exact List.dropPrefix?_eq_some_iff.mpr ⟨_, toList_innerValue ref, beq_self_eq_true _⟩
    · rw [String.ofList_toList, Ref.ofString?_eq_some_iff]

theorem ofName?_eq_some_iff {text name : String} {ref : Ref} :
    ofName? text = some (ref, name) ↔ text = attributeName ref name := by
  unfold ofName?
  constructor
  · intro h
    obtain ⟨behind, hbehind, h⟩ := Option.bind_eq_some_iff.mp h
    obtain ⟨found, href, h⟩ := Option.bind_eq_some_iff.mp h
    obtain ⟨inner, hinner, h⟩ := Option.bind_eq_some_iff.mp h
    obtain ⟨rfl, rfl⟩ := Prod.mk.inj (Option.some.inj h)
    obtain ⟨start, hstart, heq⟩ := List.dropPrefix?_eq_some_iff.mp hbehind
    obtain ⟨between, hbetween, heq'⟩ := List.dropPrefix?_eq_some_iff.mp hinner
    rw [Ref.ofString?_eq_some_iff] at href
    have whole : behind = found.text.toList ++ ("__".toList ++ inner) := by
      rw [← href, String.toList_ofList, ← eq_of_beq heq', ← hbetween,
        List.takeWhile_append_dropWhile]
    have hback : (String.ofList inner).toList = inner := String.toList_ofList
    rw [← String.toList_inj, toList_attributeName, hback, ← whole, hstart, eq_of_beq heq]
  · rintro rfl
    have stop : ∀ c ∈ ("__".toList ++ name.toList).head?, (c != '_') = false := by
      intro c hc
      cases hc
      rfl
    have inside : ∀ c ∈ ref.text.toList, (c != '_') = true := by
      intro c hc
      rw [bne_iff_ne]
      rintro rfl
      cases Ref.isTailChar_of_mem hc
    refine Option.bind_eq_some_iff.mpr ⟨ref.text.toList ++ ("__".toList ++ name.toList), ?_, ?_⟩
    · exact List.dropPrefix?_eq_some_iff.mpr
        ⟨_, toList_attributeName ref name, beq_self_eq_true _⟩
    · rw [takeWhile_append_stop stop, dropWhile_append_stop stop,
        List.takeWhile_eq_self_iff.mpr inside, List.dropWhile_eq_nil_iff.mpr inside,
        List.nil_append, String.ofList_toList]
      refine Option.bind_eq_some_iff.mpr ⟨ref, Ref.ofString?_eq_some_iff.mpr rfl, ?_⟩
      refine Option.bind_eq_some_iff.mpr ⟨name.toList, ?_, ?_⟩
      · exact List.dropPrefix?_eq_some_iff.mpr ⟨_, rfl, beq_self_eq_true _⟩
      · rw [String.ofList_toList]
        rfl

theorem attributeName_inj {ref : Ref} {name other : String}
    (same : attributeName ref name = attributeName ref other) : name = other := by
  have read := ofName?_eq_some_iff.mpr same
  rw [ofName?_eq_some_iff.mpr rfl] at read
  exact congrArg Prod.snd (Option.some.inj read)

theorem not_unmarked_attributeName (ref : Ref) (name : String) :
    ¬ Unmarked (attributeName ref name).toList := by
  rw [toList_attributeName]
  exact fun h => h.left (by decide)

theorem not_unmarked_wrapperTag (ref : Ref) : ¬ Unmarked (wrapperTag ref).toList := by
  rw [toList_wrapperTag]
  exact fun h => h.left (by decide)

theorem not_unmarked_innerValue (ref : Ref) : ¬ Unmarked (innerValue ref).toList := by
  rw [toList_innerValue]
  exact fun h => h.left (by decide)

theorem ofTag?_of_unmarked {tag : String} (free : Unmarked tag.toList) : ofTag? tag = none := by
  rw [Option.eq_none_iff_forall_ne_some]
  intro ref href
  rw [ofTag?_eq_some_iff.mp href] at free
  exact not_unmarked_wrapperTag ref free

theorem ofName?_of_unmarked {name : String} (free : Unmarked name.toList) :
    ofName? name = none := by
  rw [Option.eq_none_iff_forall_ne_some]
  rintro ⟨ref, inner⟩ hname
  rw [ofName?_eq_some_iff.mp hname] at free
  exact not_unmarked_attributeName ref inner free

end Marker

/-! ## Segments -/

namespace Forest

def attributePart (name value : String) : List Segment :=
  match Marker.ofName? name, Marker.ofValue? value with
  | some (ref, inner), _ =>
    if value = "" then [.text [' '], .marker (.attribute ref inner)]
    else [.text (attributesMarkup [(name, value)]).toList]
  | none, some ref => [.text (' ' :: name.toList), .marker (.inner ref)]
  | none, none => [.text (attributesMarkup [(name, value)]).toList]

def attributesPart : Attributes → List Segment
  | [] => []
  | (name, value) :: rest => attributePart name value ++ attributesPart rest

def openingPart (tag : String) (attributes : Attributes) : List Segment :=
  match Marker.ofTag? tag, attributes with
  | some ref, [] => [.marker (.opening ref)]
  | _, attributes => .text ('<' :: tag.toList) :: (attributesPart attributes ++ [.text ['>']])

def closingPart (tag : String) : List Segment :=
  match Marker.ofTag? tag with
  | some ref => [.marker (.closing ref)]
  | none => [.text ('<' :: '/' :: (tag.toList ++ ['>']))]

/-- The markup of a row, with its markers. -/
def segments : Forest → List Segment
  | nil => []
  | node _ (.text content) _ next =>
    .text (content.toList.flatMap spellTextChar) :: next.segments
  | node _ (.element tag attributes) children next =>
    if children.isEmpty && voidTags.contains tag then
      .text ('<' :: tag.toList) ::
        (attributesPart attributes ++ (.text ['/', '>'] :: next.segments))
    else
      openingPart tag attributes ++ (children.segments ++ (closingPart tag ++ next.segments))

/-! ## What the segments spell -/

theorem spellValue_innerValue (ref : Ref) :
    (Marker.innerValue ref).toList.flatMap spellValueChar = (Marker.innerValue ref).toList := by
  have plain : ∀ chars : List Char, (∀ c ∈ chars, c ≠ '&' ∧ c ≠ '"') →
      chars.flatMap spellValueChar = chars := by
    intro chars hchars
    induction chars with
    | nil => rfl
    | cons c chars ih =>
        obtain ⟨hamp, hquote⟩ := hchars c List.mem_cons_self
        rw [List.flatMap_cons, ih fun d hd => hchars d (List.mem_cons_of_mem _ hd),
          spellValueChar, if_neg hamp, if_neg hquote]
        rfl
  apply plain
  intro c hc
  rw [Marker.toList_innerValue, List.mem_append] at hc
  rcases hc with hc | hc
  · revert c
    decide
  · have htail := Ref.isTailChar_of_mem hc
    constructor
    · rintro rfl
      cases htail
    · rintro rfl
      cases htail

theorem ofValue?_of_unmarked {value : String}
    (free : Unmarked (value.toList.flatMap spellValueChar)) : Marker.ofValue? value = none := by
  rw [Option.eq_none_iff_forall_ne_some]
  intro ref href
  rw [Marker.ofValue?_eq_some_iff.mp href, spellValue_innerValue, Marker.toList_innerValue] at free
  exact free.left (by decide)

theorem attributePart_marker (ref : Ref) (inner : String) :
    attributePart (Marker.attributeName ref inner) "" =
      [.text [' '], .marker (.attribute ref inner)] := by
  rw [attributePart, Marker.ofName?_eq_some_iff.mpr rfl]
  rfl

theorem attributePart_inner {name : String} (free : Unmarked name.toList) (ref : Ref) :
    attributePart name (Marker.innerValue ref) =
      [.text (' ' :: name.toList), .marker (.inner ref)] := by
  rw [attributePart, Marker.ofName?_of_unmarked free, Marker.ofValue?_eq_some_iff.mpr rfl]

theorem attributePart_plain {name value : String} (hname : Unmarked name.toList)
    (hvalue : Unmarked (value.toList.flatMap spellValueChar)) :
    attributePart name value = [.text (attributesMarkup [(name, value)]).toList] := by
  rw [attributePart, Marker.ofName?_of_unmarked hname, ofValue?_of_unmarked hvalue]

theorem toList_attributesMarkup_single (name value : String) :
    (attributesMarkup [(name, value)]).toList =
      ' ' :: (name.toList ++ '=' :: '"' :: (value.toList.flatMap spellValueChar ++ ['"'])) := by
  simp [attributesMarkup]

theorem toList_attributesMarkup_cons (name value : String) (rest : Attributes) :
    (attributesMarkup ((name, value) :: rest)).toList =
      (attributesMarkup [(name, value)]).toList ++ (attributesMarkup rest).toList := by
  simp [attributesMarkup]

theorem flatMap_source_attributePart (name value : String) :
    (attributePart name value).flatMap Segment.source =
      (attributesMarkup [(name, value)]).toList := by
  unfold attributePart
  split
  · next ref inner hname =>
      rw [Marker.ofName?_eq_some_iff] at hname
      subst hname
      split
      · next hvalue =>
          subst hvalue
          rw [toList_attributesMarkup_single]
          simp [Segment.source, Marker.source]
      · exact List.append_nil _
  · next ref hname hvalue =>
      rw [Marker.ofValue?_eq_some_iff] at hvalue
      subst hvalue
      rw [toList_attributesMarkup_single, spellValue_innerValue]
      simp [Segment.source, Marker.source]
  · exact List.append_nil _

theorem flatMap_source_attributesPart (attributes : Attributes) :
    (attributesPart attributes).flatMap Segment.source = (attributesMarkup attributes).toList := by
  induction attributes with
  | nil => rfl
  | cons pair rest ih =>
      obtain ⟨name, value⟩ := pair
      rw [attributesPart, List.flatMap_append, flatMap_source_attributePart, ih,
        ← toList_attributesMarkup_cons]

theorem flatMap_source_openingPart (tag : String) (attributes : Attributes) :
    (openingPart tag attributes).flatMap Segment.source =
      '<' :: (tag.toList ++ (attributesMarkup attributes).toList ++ ['>']) := by
  unfold openingPart
  split
  · next ref htag =>
      rw [Marker.ofTag?_eq_some_iff] at htag
      subst htag
      simp [Segment.source, Marker.source, attributesMarkup]
  · simp [Segment.source, flatMap_source_attributesPart]

theorem flatMap_source_closingPart (tag : String) :
    (closingPart tag).flatMap Segment.source = '<' :: '/' :: (tag.toList ++ ['>']) := by
  unfold closingPart
  split
  · next ref htag =>
      rw [Marker.ofTag?_eq_some_iff] at htag
      subst htag
      simp [Segment.source, Marker.source]
  · exact List.append_nil _

theorem flatMap_source_segments (forest : Forest) :
    forest.segments.flatMap Segment.source = forest.markup.toList := by
  induction forest with
  | nil => rfl
  | node id label children next ihChildren ihNext =>
      cases label with
      | text content =>
          rw [segments, List.flatMap_cons, ihNext, markup, String.toList_append]
          simp [Segment.source, textMarkup]
      | element tag attributes =>
          rw [segments, markup, elementMarkup, String.toList_append]
          split
          · rw [List.flatMap_cons, List.flatMap_append, List.flatMap_cons, ihNext,
              flatMap_source_attributesPart]
            simp [Segment.source]
          · rw [List.flatMap_append, List.flatMap_append, List.flatMap_append, ihNext,
              ihChildren, flatMap_source_openingPart, flatMap_source_closingPart]
            simp

/-! ## Forests whose markup can be read -/

end Forest

/-- What a node shows to the texts beside it. -/
def Label.face : Label → List Char
  | .element _ _ => ['<']
  | .text content => content.toList.flatMap Forest.spellTextChar

namespace Forest

def All (P : Nat → Label → Forest → Prop) : Forest → Prop
  | nil => True
  | node id label children next => P id label children ∧ children.All P ∧ next.All P

/-- The texts of a row, with elements as mere angle brackets between them. -/
def rowText : Forest → List Char
  | nil => []
  | node _ label _ next => label.face ++ next.rowText

def lead : Forest → List Char
  | nil => []
  | node _ (.text content) _ next => content.toList.flatMap spellTextChar ++ next.lead
  | node _ (.element _ _) _ _ => []

theorem lead_prefix_rowText (forest : Forest) : forest.lead <+: forest.rowText := by
  induction forest with
  | nil => exact List.prefix_rfl
  | node id label children next _ ih =>
      cases label with
      | text content => exact List.prefix_append_right_inj _ |>.mpr ih
      | element tag attributes => exact List.nil_prefix

end Forest

namespace Registry

/-- An attribute that is a marker, or carries one, or has nothing to do with markers. Each marker
has an entry. -/
def BacksAttribute (registry : Registry) (name value : String) : Prop :=
  (∃ ref inner, name = Marker.attributeName ref inner ∧ value = "" ∧
    (Marker.attribute ref inner).Proper ∧ registry.Holds (.attribute ref inner)) ∨
  Unmarked name.toList ∧
    (Unmarked (value.toList.flatMap Forest.spellValueChar) ∨
      ∃ ref, value = Marker.innerValue ref ∧ registry.Holds (.inner ref))

/-- A node whose markers have entries. -/
def BacksLabel (registry : Registry) : Label → Prop
  | .element tag attributes =>
    (Unmarked tag.toList ∨ ∃ ref, tag = Marker.wrapperTag ref ∧ registry.Holds (.opening ref)) ∧
      ∀ pair ∈ attributes, registry.BacksAttribute pair.1 pair.2
  | .text content => Unmarked (content.toList.flatMap Forest.spellTextChar)

def Backs (registry : Registry) (forest : Forest) : Prop :=
  forest.All fun _ label children => registry.BacksLabel label ∧ Unmarked children.rowText

end Registry

/-- Segments that may stand behind any plain text. -/
def Segment.Blunt (segments : List Segment) : Prop :=
  ∀ before, Inert before → Readable before segments

namespace Forest

open Segment

variable {registry : Registry}

theorem readable_attributesPart {attributes : Attributes} {before : List Char}
    {rest : List Segment} (backed : ∀ pair ∈ attributes, registry.BacksAttribute pair.1 pair.2)
    (blank : ∀ text, Unmarked text → Inert (before ++ ' ' :: text))
    (alone : attributes = [] → Inert before) (blunt : Blunt rest) :
    Readable before (attributesPart attributes ++ rest) := by
  induction attributes generalizing before with
  | nil => exact blunt before (alone rfl)
  | cons pair attributes ih =>
      obtain ⟨name, value⟩ := pair
      have tail : ∀ pair ∈ attributes, registry.BacksAttribute pair.1 pair.2 :=
        fun pair hpair => backed pair (List.mem_cons_of_mem _ hpair)
      -- Behind a marker the text starts anew.
      have fresh : Readable [] (attributesPart attributes ++ rest) := by
        apply ih tail
        · intro text free
          exact .unmarked ((unmarked_cons (by decide)).mpr free)
        · exact fun _ => Inert.nil
      rw [attributesPart, List.append_assoc]
      rcases backed (name, value) List.mem_cons_self with
        ⟨ref, inner, hname, hvalue, proper, -⟩ | ⟨hname, hvalue⟩
      · dsimp only at hname hvalue
        subst hname hvalue
        rw [attributePart_marker]
        refine ⟨blank [] Unmarked.nil, ?_, proper, fresh⟩
        intro _ c hc
        rw [List.getLast?_concat] at hc
        cases hc
        rfl
      · rcases hvalue with hvalue | ⟨ref, hvalue, -⟩
        · have free : Unmarked (name.toList ++ '=' :: '"' ::
              (value.toList.flatMap spellValueChar ++ ['"'])) := by
            rw [unmarked_append_cons (by decide), unmarked_cons (by decide),
              unmarked_append_cons (by decide)]
            exact ⟨hname, hvalue, Unmarked.nil⟩
          rw [attributePart_plain hname hvalue, toList_attributesMarkup_single]
          apply ih tail
          · intro text htext
            rw [List.append_assoc]
            exact blank _ ((unmarked_append_cons (by decide)).mpr ⟨free, htext⟩)
          · exact fun _ => blank _ free
        · dsimp only at hvalue
          subst hvalue
          rw [attributePart_inner hname]
          exact ⟨blank _ hname, fun h => absurd h (by simp [Marker.site]), trivial, fresh⟩

theorem inert_append_close {before text : List Char} (inert : Inert before) (free : Unmarked text) :
    Inert ((before ++ ['>']) ++ text) := by
  rw [List.append_assoc]
  exact inert.append_cons (by decide) free

theorem readable_tag {tag : String} {attributes : Attributes} {before : List Char}
    {rest : List Segment} (backed : registry.BacksLabel (.element tag attributes))
    (plain : Unmarked tag.toList ∨ attributes ≠ []) (inert : Inert before) (blunt : Blunt rest) :
    Readable before (.text ('<' :: tag.toList) :: (attributesPart attributes ++ rest)) := by
  obtain ⟨htag, hattributes⟩ := backed
  have behind : (∀ text, Unmarked text → Inert ((before ++ '<' :: tag.toList) ++ ' ' :: text)) →
      (attributes = [] → Inert (before ++ '<' :: tag.toList)) →
        Readable before (.text ('<' :: tag.toList) :: (attributesPart attributes ++ rest)) :=
    fun blank alone => readable_attributesPart hattributes blank alone blunt
  rcases htag with htag | ⟨ref, rfl, -⟩
  · apply behind
    · intro text htext
      rw [List.append_assoc]
      exact inert.append_cons (by decide) ((unmarked_append_cons (by decide)).mpr ⟨htag, htext⟩)
    · exact fun _ => inert.append_cons (by decide) htag
  · have some : attributes ≠ [] := plain.resolve_left (Marker.not_unmarked_wrapperTag ref)
    apply behind
    · intro text htext
      rw [List.append_assoc]
      exact inert.append_stub ref htext
    · exact fun h => absurd h some

theorem openingPart_eq {tag : String} {attributes : Attributes}
    (plain : Unmarked tag.toList ∨ attributes ≠ []) :
    openingPart tag attributes =
      .text ('<' :: tag.toList) :: (attributesPart attributes ++ [.text ['>']]) := by
  unfold openingPart
  split
  · next ref htag =>
      rcases plain with free | some
      · rw [Marker.ofTag?_of_unmarked free] at htag
        cases htag
      · exact absurd rfl some
  · rfl

theorem openingPart_wrapper (ref : Ref) :
    openingPart (Marker.wrapperTag ref) [] = [.marker (.opening ref)] := by
  unfold openingPart
  rw [Marker.ofTag?_eq_some_iff.mpr rfl]

theorem closingPart_of_unmarked {tag : String} (free : Unmarked tag.toList) :
    closingPart tag = [.text ('<' :: '/' :: (tag.toList ++ ['>']))] := by
  rw [closingPart, Marker.ofTag?_of_unmarked free]

theorem closingPart_wrapper (ref : Ref) :
    closingPart (Marker.wrapperTag ref) = [.marker (.closing ref)] := by
  rw [closingPart, Marker.ofTag?_eq_some_iff.mpr rfl]

theorem unmarked_of_mem_voidTags : ∀ tag ∈ voidTags, Unmarked tag.toList := by decide

theorem not_void_wrapper (children : Forest) (ref : Ref) :
    ¬ (children.isEmpty && voidTags.contains (Marker.wrapperTag ref)) = true := by
  rw [Bool.and_eq_true, List.contains_iff_mem]
  exact fun h => Marker.not_unmarked_wrapperTag ref (unmarked_of_mem_voidTags _ h.2)

theorem readable_openingPart {tag : String} {attributes : Attributes} {before text : List Char}
    {rest : List Segment} (backed : registry.BacksLabel (.element tag attributes))
    (inert : Inert before) (free : Unmarked text)
    (behind : ∀ b, Inert (b ++ text) → Readable b rest) :
    Readable before (openingPart tag attributes ++ rest) := by
  by_cases plain : Unmarked tag.toList ∨ attributes ≠ []
  · rw [openingPart_eq plain, List.cons_append, List.append_assoc]
    apply readable_tag backed plain inert
    exact fun b hb => behind (b ++ ['>']) (inert_append_close hb free)
  · rw [not_or, not_not] at plain
    obtain ⟨hmarked, rfl⟩ := plain
    obtain ⟨ref, rfl, -⟩ := backed.1.resolve_left hmarked
    rw [openingPart_wrapper]
    refine ⟨inert, ?_, trivial, behind [] (.unmarked free)⟩
    exact fun h => absurd h (by simp [Marker.site])

theorem readable_closingPart {tag : String} {attributes : Attributes} {before text : List Char}
    {rest : List Segment} (backed : registry.BacksLabel (.element tag attributes))
    (inert : Inert before) (free : Unmarked text)
    (behind : ∀ b, Inert (b ++ text) → Readable b rest) :
    Readable before (closingPart tag ++ rest) := by
  rcases backed.1 with htag | ⟨ref, rfl, -⟩
  · rw [closingPart_of_unmarked htag]
    apply behind
    have tagged : Inert (before ++ '<' :: '/' :: tag.toList) :=
      inert.append_cons (by decide) ((unmarked_cons (by decide)).mpr htag)
    have closed := inert_append_close tagged free
    rwa [List.append_assoc before, List.cons_append, List.cons_append] at closed
  · rw [closingPart_wrapper]
    exact ⟨inert, fun h => absurd h (by simp [Marker.site]), trivial, behind [] (.unmarked free)⟩

/-- **The markup of a forest can be read.** -/
theorem readable_segments {forest : Forest} (backed : registry.Backs forest)
    (free : Unmarked forest.rowText) {before : List Char} {rest : List Segment}
    (inert : Inert (before ++ forest.lead)) (blunt : Blunt rest) :
    Readable before (forest.segments ++ rest) := by
  -- The texts with which a row starts belong to what stands before it.
  induction forest generalizing before rest with
  | nil =>
      rw [lead, List.append_nil] at inert
      exact blunt before inert
  | node id label children next ihChildren ihNext =>
      obtain ⟨⟨hlabel, hchildren⟩, below, beside⟩ := backed
      cases label with
      | text content =>
          rw [lead, ← List.append_assoc] at inert
          exact ihNext beside free.right inert blunt
      | element tag attributes =>
          have hnext : Unmarked next.rowText := (unmarked_cons (by decide)).mp free
          have nextLead := hnext.of_infix next.lead_prefix_rowText.isInfix
          have childLead := hchildren.of_infix children.lead_prefix_rowText.isInfix
          rw [lead, List.append_nil] at inert
          have afterNext : ∀ b, Inert (b ++ next.lead) → Readable b (next.segments ++ rest) :=
            fun b hb => ihNext beside hnext hb blunt
          rw [segments]
          split
          · next hvoid =>
              rw [Bool.and_eq_true, List.contains_iff_mem] at hvoid
              rw [List.cons_append, List.append_assoc, List.cons_append]
              apply readable_tag hlabel (Or.inl (unmarked_of_mem_voidTags tag hvoid.2)) inert
              intro b hb
              have slash : Inert (b ++ ['/']) := hb.append_cons (by decide) Unmarked.nil
              have closed := inert_append_close slash nextLead
              rw [List.append_assoc b] at closed
              exact afterNext _ closed
          · rw [List.append_assoc, List.append_assoc, List.append_assoc]
            have afterClosing : Blunt (closingPart tag ++ (next.segments ++ rest)) :=
              fun b hb => readable_closingPart hlabel hb nextLead afterNext
            apply readable_openingPart hlabel inert childLead
            exact fun b hb => ihChildren below hchildren hb afterClosing

theorem readable_of_backs {forest : Forest} (backed : registry.Backs forest)
    (free : Unmarked forest.rowText) : Readable [] forest.segments := by
  have alone : Readable [] (forest.segments ++ []) := readable_segments backed free
    (.unmarked (free.of_infix forest.lead_prefix_rowText.isInfix)) (fun b hb => hb)
  rwa [List.append_nil] at alone

/-- The markup of a forest is split into its segments, with plain text joined. -/
theorem split_markup {forest : Forest} (backed : registry.Backs forest)
    (free : Unmarked forest.rowText) :
    Segment.split forest.markup.toList = Segment.joined [] forest.segments := by
  rw [← flatMap_source_segments, Segment.split_source (readable_of_backs backed free)]

/-! ## Every marker has an entry -/

theorem holds_of_mem_attributesPart {attributes : Attributes} {m : Marker}
    (backed : ∀ pair ∈ attributes, registry.BacksAttribute pair.1 pair.2)
    (h : marker m ∈ attributesPart attributes) : registry.Holds m := by
  induction attributes with
  | nil => cases h
  | cons pair attributes ih =>
      obtain ⟨name, value⟩ := pair
      rw [attributesPart, List.mem_append] at h
      rcases h with h | h
      · rcases backed (name, value) List.mem_cons_self with
          ⟨ref, inner, hname, hvalue, -, holds⟩ | ⟨hname, hvalue⟩
        · dsimp only at hname hvalue
          subst hname hvalue
          rw [attributePart_marker] at h
          simp at h
          exact h ▸ holds
        · rcases hvalue with hvalue | ⟨ref, hvalue, holds⟩
          · rw [attributePart_plain hname hvalue] at h
            simp at h
          · dsimp only at hvalue
            subst hvalue
            rw [attributePart_inner hname] at h
            simp at h
            exact h ▸ holds
      · exact ih (fun pair hpair => backed pair (List.mem_cons_of_mem _ hpair)) h

theorem holds_of_mem_openingPart {tag : String} {attributes : Attributes} {m : Marker}
    (backed : registry.BacksLabel (.element tag attributes))
    (h : marker m ∈ openingPart tag attributes) : registry.Holds m := by
  obtain ⟨htag, hattributes⟩ := backed
  unfold openingPart at h
  split at h
  · next ref heq =>
      rw [List.mem_singleton] at h
      cases h
      rcases htag with htag | ⟨other, rfl, holds⟩
      · rw [Marker.ofTag?_of_unmarked htag] at heq
        cases heq
      · rw [Marker.ofTag?_eq_some_iff.mpr rfl] at heq
        cases heq
        exact holds
  · simp only [List.mem_cons, List.mem_append, reduceCtorEq, List.not_mem_nil, false_or,
      or_false] at h
    exact holds_of_mem_attributesPart hattributes h

theorem holds_of_mem_closingPart {tag : String} {attributes : Attributes} {m : Marker}
    (backed : registry.BacksLabel (.element tag attributes)) (h : marker m ∈ closingPart tag) :
    registry.Holds m := by
  rcases backed.1 with htag | ⟨ref, rfl, holds⟩
  · rw [closingPart_of_unmarked htag] at h
    simp at h
  · rw [closingPart_wrapper, List.mem_singleton] at h
    cases h
    exact registry.holds_closing.mpr holds

theorem holds_of_mem_segments {forest : Forest} (backed : registry.Backs forest) {m : Marker}
    (h : marker m ∈ forest.segments) : registry.Holds m := by
  induction forest with
  | nil => cases h
  | node id label children next ihChildren ihNext =>
      obtain ⟨⟨hlabel, -⟩, below, beside⟩ := backed
      cases label with
      | text content =>
          rw [segments, List.mem_cons] at h
          exact ihNext beside (h.resolve_left nofun)
      | element tag attributes =>
          rw [segments] at h
          split at h
          · simp only [List.mem_cons, List.mem_append, reduceCtorEq, false_or] at h
            rcases h with h | h
            · exact holds_of_mem_attributesPart hlabel.2 h
            · exact ihNext beside h
          · rw [List.mem_append, List.mem_append, List.mem_append] at h
            rcases h with h | h | h | h
            · exact holds_of_mem_openingPart hlabel h
            · exact ihChildren below h
            · exact holds_of_mem_closingPart hlabel h
            · exact ihNext beside h

/-- The markers that are found in the markup of a forest have entries. -/
theorem holds_of_mem_split {forest : Forest} (backed : registry.Backs forest)
    (free : Unmarked forest.rowText) {m : Marker}
    (h : marker m ∈ Segment.split forest.markup.toList) : registry.Holds m := by
  rw [split_markup backed free, marker_mem_joined] at h
  exact holds_of_mem_segments backed h

/-- A marker of a later pass that occurs in the markup of a forest has an entry. -/
theorem holds_of_infix {forest : Forest} (backed : registry.Backs forest)
    (free : Unmarked forest.rowText) {m : Marker} (later : m.site ≠ .attribute)
    (h : m.source <:+: forest.markup.toList) : registry.Holds m := by
  rw [← flatMap_source_segments] at h
  exact holds_of_mem_segments backed
    (marker_mem_of_isInfix later (readable_of_backs backed free) h)

end Forest

end LateMarkup
