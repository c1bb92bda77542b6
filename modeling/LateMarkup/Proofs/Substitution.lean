import LateMarkup.Proofs.Splitting
import LateMarkup.Resolution

/-!
# One substitution in place of three

`Registry.resolve` substitutes the markers of one site after the other, and splits the text anew
each time. `Registry.fill` is what one would write down instead: split once, and put the code of
every marker in its place. The two agree whenever the filled text holds no marker text.

Route: a pass turns some markers of the segments into plain text (`settle`). What is filled in stays
the same, so between two markers that are left there is always a stretch of the final text, which
holds no marker text by assumption. Hence the segments stay readable, and the next pass finds them
again (`split_of_readable`). That the attributes go first matters: an attribute marker must stand
behind a blank, and nobody says what an earlier substitution would put before it. Where the text has
such a blank before each of them (`Segment.Spaced`), the passes may come in any order.
-/

namespace LateMarkup

theorem Site.mem_all (site : Site) : site ∈ [Site.attribute, .inner, .unrender] := by
  cases site <;> decide

/-! ## The code of a marker -/

def Marker.field : Marker → FragmentField
  | .attribute _ name => .attribute name
  | .inner _ => .inner
  | .opening _ => .unrender
  | .closing _ => .unrender

def Fragments.code? (fragments : Fragments) : Marker → Option String
  | .attribute _ name => fragments.attributes[name]?
  | .inner _ => fragments.inner.map ("=" ++ ·)
  | .opening _ => fragments.unrender.map (·.opening)
  | .closing _ => fragments.unrender.map (·.closing)

namespace Registry

/-- The code that a registry has for a marker. -/
def code? (registry : Registry) (m : Marker) : Option String :=
  registry.code[m.ref]?.bind (·.code? m)

/-- A registry has an entry for a marker. -/
def Holds (registry : Registry) (m : Marker) : Prop := (registry.code? m).isSome = true

instance (registry : Registry) : DecidablePred registry.Holds :=
  fun m => inferInstanceAs (Decidable ((registry.code? m).isSome = true))

theorem code?_inner (registry : Registry) (ref : Ref) :
    registry.code? (.inner ref) = (registry.code[ref]?.bind (·.inner)).map ("=" ++ ·) := by
  rw [Option.map_bind]
  rfl

theorem code?_opening (registry : Registry) (ref : Ref) :
    registry.code? (.opening ref) = (registry.code[ref]?.bind (·.unrender)).map (·.opening) := by
  rw [Option.map_bind]
  rfl

theorem code?_closing (registry : Registry) (ref : Ref) :
    registry.code? (.closing ref) = (registry.code[ref]?.bind (·.unrender)).map (·.closing) := by
  rw [Option.map_bind]
  rfl

theorem holds_closing (registry : Registry) {ref : Ref} :
    registry.Holds (.closing ref) ↔ registry.Holds (.opening ref) := by
  unfold Holds
  rw [code?_closing, code?_opening, Option.isSome_map, Option.isSome_map]

theorem replacement_eq (registry : Registry) (m : Marker) :
    registry.replacement m =
      match registry.code? m with
      | some code => .ok code
      | none => .error (.missing m.ref m.field) := by
  rcases m with ⟨ref, name⟩ | ref | ref | ref
  · have code : registry.code? (.attribute ref name) =
        registry.code[ref]?.bind (·.attributes[name]?) := rfl
    rw [code, replacement, attributeFragment]
    cases registry.code[ref]?.bind (·.attributes[name]?) <;> rfl
  · rw [code?_inner, replacement, innerFragment]
    cases registry.code[ref]?.bind (·.inner) <;> rfl
  · rw [code?_opening, replacement, guardFragment]
    cases registry.code[ref]?.bind (·.unrender) <;> rfl
  · rw [code?_closing, replacement, guardFragment]
    cases registry.code[ref]?.bind (·.unrender) <;> rfl

/-- The text of segments with the code of every marker in its place, if there is all of it. -/
def fill (registry : Registry) : List Segment → Option (List Char)
  | [] => some []
  | .text content :: rest => (registry.fill rest).map (content ++ ·)
  | .marker m :: rest => do
    let code ← registry.code? m
    let back ← registry.fill rest
    return code.toList ++ back

/-- The text that a marker leaves behind, empty if there is no code for it. -/
def filled (registry : Registry) : Segment → List Char
  | .text content => content
  | .marker m => ((registry.code? m).getD "").toList

theorem fill_eq_flatMap {registry : Registry} {segments : List Segment}
    (entries : ∀ m, .marker m ∈ segments → registry.Holds m) :
    registry.fill segments = some (segments.flatMap registry.filled) := by
  induction segments with
  | nil => rfl
  | cons segment segments ih =>
      have inner := ih fun m hm => entries m (List.mem_cons_of_mem _ hm)
      cases segment with
      | text content => rw [fill, inner]; rfl
      | marker m =>
          obtain ⟨code, hcode⟩ := Option.isSome_iff_exists.mp (entries m List.mem_cons_self)
          rw [fill, inner, List.flatMap_cons, filled, hcode]
          rfl

/-! ## What a pass does to segments -/

/-- A segment after the substitution of one site. -/
def settle (registry : Registry) (site : Site) : Segment → Segment
  | .text content => .text content
  | .marker m => if m.site = site then .text (registry.filled (.marker m)) else .marker m

theorem filled_settle (registry : Registry) (site : Site) (segment : Segment) :
    registry.filled (registry.settle site segment) = registry.filled segment := by
  cases segment with
  | text content => rfl
  | marker m =>
      rw [settle]
      split <;> rfl

theorem marker_mem_map_settle {registry : Registry} {site : Site} {m : Marker}
    {segments : List Segment} :
    .marker m ∈ segments.map (registry.settle site) ↔ .marker m ∈ segments ∧ m.site ≠ site := by
  rw [List.mem_map]
  constructor
  · rintro ⟨segment, hmem, heq⟩
    cases segment with
    | text content => cases heq
    | marker n =>
        rw [settle] at heq
        split at heq
        · cases heq
        · next hsite =>
            cases heq
            exact ⟨hmem, hsite⟩
  · rintro ⟨hmem, hsite⟩
    exact ⟨_, hmem, if_neg hsite⟩

/-- **One pass.** If there is code for every marker of a site, substituting the site settles it. -/
theorem exchangeAll_eq {registry : Registry} {site : Site} {segments : List Segment}
    (entries : ∀ m, .marker m ∈ segments → m.site = site → registry.Holds m) :
    registry.exchangeAll site segments =
      .ok ((segments.map (registry.settle site)).flatMap Segment.source) := by
  induction segments with
  | nil => rfl
  | cons segment segments ih =>
      have back := ih fun m hm => entries m (List.mem_cons_of_mem _ hm)
      have front : registry.exchange site segment =
          .ok (registry.settle site segment).source := by
        cases segment with
        | text content => rfl
        | marker m =>
            rw [exchange, settle, filled]
            by_cases hsite : m.site = site
            · obtain ⟨code, hcode⟩ :=
                Option.isSome_iff_exists.mp (entries m List.mem_cons_self hsite)
              rw [if_pos hsite, if_pos hsite, replacement_eq, hcode]
              rfl
            · rw [if_neg hsite, if_neg hsite]
              rfl
      rw [exchangeAll, front, back]
      rfl

theorem exchangeAll_joined (registry : Registry) (site : Site) (before : List Char)
    (segments : List Segment) :
    registry.exchangeAll site (Segment.joined before segments) =
      (registry.exchangeAll site segments).map (before ++ ·) := by
  have plain : ∀ (before : List Char) (rest : List Segment),
      registry.exchangeAll site (Segment.plain before ++ rest) =
        (registry.exchangeAll site rest).map (before ++ ·) := by
    intro before rest
    unfold Segment.plain
    split
    · next h =>
        subst h
        rw [List.nil_append]
        cases registry.exchangeAll site rest <;> rfl
    · rw [List.singleton_append, exchangeAll]
      cases registry.exchangeAll site rest <;> rfl
  induction segments generalizing before with
  | nil =>
      have alone := plain before []
      rwa [List.append_nil] at alone
  | cons segment segments ih =>
      cases segment with
      | text content =>
          rw [Segment.joined, ih, exchangeAll]
          cases registry.exchangeAll site segments with
          | error error => rfl
          | ok back => exact congrArg _ (List.append_assoc before content back)
      | marker m =>
          have tail : registry.exchangeAll site (Segment.joined [] segments) =
              registry.exchangeAll site segments := by
            rw [ih]
            cases registry.exchangeAll site segments <;> rfl
          rw [Segment.joined, plain, exchangeAll, exchangeAll, tail]

end Registry

namespace Segment

/-! ## The markers among segments -/

def markers (segments : List Segment) : List Marker :=
  segments.filterMap fun
    | .text _ => none
    | .marker m => some m

@[simp] theorem markers_text (content : List Char) (segments : List Segment) :
    markers (text content :: segments) = markers segments := rfl

@[simp] theorem markers_marker (m : Marker) (segments : List Segment) :
    markers (marker m :: segments) = m :: markers segments := rfl

@[simp] theorem markers_append (a b : List Segment) :
    markers (a ++ b) = markers a ++ markers b :=
  List.filterMap_append

theorem mem_markers {m : Marker} {segments : List Segment} :
    m ∈ markers segments ↔ marker m ∈ segments := by
  unfold markers
  rw [List.mem_filterMap]
  constructor
  · rintro ⟨segment, hmem, hsome⟩
    cases segment with
    | text content => cases hsome
    | marker n =>
        cases hsome
        exact hmem
  · exact fun h => ⟨marker m, h, rfl⟩

theorem markers_joined (before : List Char) (segments : List Segment) :
    markers (joined before segments) = markers segments := by
  have plain : ∀ before, markers (plain before) = [] := by
    intro before
    unfold Segment.plain
    split <;> rfl
  induction segments generalizing before with
  | nil => exact plain before
  | cons segment segments ih =>
      cases segment with
      | text content => exact ih (before ++ content)
      | marker m => rw [joined, markers_append, plain, List.nil_append, markers_marker, ih,
          markers_marker]

def markersAt (site : Site) (segments : List Segment) : List Marker :=
  (markers segments).filter fun m => m.site = site

theorem mem_markersAt {site : Site} {m : Marker} {segments : List Segment} :
    m ∈ markersAt site segments ↔ marker m ∈ segments ∧ m.site = site := by
  rw [markersAt, List.mem_filter, mem_markers, decide_eq_true_iff]

theorem map_ref_markersAt (site : Site) (segments : List Segment) :
    (markersAt site segments).map Marker.ref = refs site segments := by
  unfold markersAt refs
  induction segments with
  | nil => rfl
  | cons segment segments ih =>
      cases segment with
      | text content => exact ih
      | marker m =>
          rw [markers_marker]
          by_cases hsite : m.site = site
          · simp [hsite, ih]
          · simp [hsite, ih]

def allRefs (segments : List Segment) : List Ref :=
  segments.filterMap fun
    | .text _ => none
    | .marker m => some m.ref

theorem mem_allRefs {ref : Ref} {segments : List Segment} :
    ref ∈ allRefs segments ↔ ∃ m, marker m ∈ segments ∧ m.ref = ref := by
  unfold allRefs
  rw [List.mem_filterMap]
  constructor
  · rintro ⟨segment, hmem, hsome⟩
    cases segment with
    | text content => cases hsome
    | marker m => exact ⟨m, hmem, Option.some.inj hsome⟩
  · rintro ⟨m, hmem, rfl⟩
    exact ⟨marker m, hmem, rfl⟩

/-! ## What keeps segments readable -/

/-- An attribute marker stands behind plain text that ends with a blank. -/
def Spaced : Segment → Segment → Prop
  | front, marker (.attribute _ _) =>
    ∃ content c, front = text content ∧ content.getLast? = some c ∧ Text.isBlank c = true
  | _, _ => True

/-- Where attribute markers are spaced, it is enough that the filled text holds no marker text. -/
theorem readable_of_spaced (registry : Registry) {before : List Char} {segments : List Segment}
    (proper : ∀ m, marker m ∈ segments → m.Proper) (spaced : segments.IsChain Spaced)
    (first : ∀ m, segments.head? = some (marker m) → Follows before m)
    (free : Unmarked (before ++ segments.flatMap registry.filled)) : Readable before segments := by
  induction segments generalizing before with
  | nil =>
      rw [List.flatMap_nil, List.append_nil] at free
      exact .unmarked free
  | cons segment segments ih =>
      have tail : ∀ m, marker m ∈ segments → m.Proper :=
        fun m hm => proper m (List.mem_cons_of_mem _ hm)
      rw [List.flatMap_cons] at free
      cases segment with
      | text content =>
          rw [← List.append_assoc] at free
          refine ih tail spaced.tail ?_ free
          intro n hhead hsite d hd
          rcases n with ⟨ref, name⟩ | ref | ref | ref
          · obtain ⟨rest, rfl⟩ := List.head?_eq_some_iff.mp hhead
            obtain ⟨_, c, ⟨rfl⟩, hlast, blank⟩ := List.isChain_cons_cons.mp spaced |>.1
            rw [List.getLast?_append, hlast] at hd
            cases hd
            exact blank
          · cases hsite
          · cases hsite
          · cases hsite
      | marker m =>
          -- What is filled in for a marker parts the texts around it.
          refine ⟨.unmarked free.left, first m rfl, proper m List.mem_cons_self,
            ih tail spaced.tail ?_ ?_⟩
          · intro n _ _ c hc
            cases hc
          · rw [List.nil_append]
            exact free.right.right

end Segment

/-! ## The passes in a row -/

namespace Registry

variable {registry : Registry}

/-- What some passes come to: the markers that were exchanged, and the text that they left. -/
structure Passed where
  met : List Marker
  text : List Char

def passes (registry : Registry) : List Site → List Char → Except Error Passed
  | [], text => .ok ⟨[], text⟩
  | site :: sites, text => do
    let next ← registry.substitute site text
    let later ← registry.passes sites next
    return ⟨Segment.markersAt site (Segment.split text) ++ later.met, later.text⟩

/-- Resolving is a pass for each site, and a look at what is left. -/
theorem resolve_eq_passes (registry : Registry) (text : String) :
    registry.resolve text = do
      let passed ← registry.passes [.attribute, .inner, .unrender] text.toList
      Marker.ensureNone passed.text
      return ⟨String.ofList passed.text,
        registry.code.keys.filter fun ref => !(passed.met.map Marker.ref).contains ref⟩ := by
  simp only [resolve, passes, bind, Except.bind, pure, Except.pure]
  cases registry.substitute .attribute text.toList with
  | error error => rfl
  | ok withAttributes =>
      dsimp only
      cases registry.substitute .inner withAttributes with
      | error error => rfl
      | ok withInner =>
          dsimp only
          cases registry.substitute .unrender withInner with
          | error error => rfl
          | ok resolved =>
              dsimp only
              simp only [List.map_append, Segment.map_ref_markersAt, List.append_nil,
                List.append_assoc]

def settleAll (registry : Registry) (sites : List Site) : Segment → Segment
  | .text content => .text content
  | .marker m => if m.site ∈ sites then .text (registry.filled (.marker m)) else .marker m

theorem settleAll_settle (site : Site) (sites : List Site) (segment : Segment) :
    registry.settleAll sites (registry.settle site segment) =
      registry.settleAll (site :: sites) segment := by
  cases segment with
  | text content => rfl
  | marker m =>
      by_cases hsite : m.site = site
      · simp [settle, settleAll, hsite]
      · simp [settle, settleAll, hsite]

/-- With all sites substituted, the text is the filled one. -/
theorem source_settleAll {sites : List Site} (all : ∀ site, site ∈ sites) (segment : Segment) :
    (registry.settleAll sites segment).source = registry.filled segment := by
  cases segment with
  | text content => rfl
  | marker m =>
      rw [settleAll, if_pos (all m.site)]
      rfl

theorem flatMap_filled_settle (site : Site) (segments : List Segment) :
    (segments.map (registry.settle site)).flatMap registry.filled =
      segments.flatMap registry.filled := by
  rw [List.flatMap_map]
  simp only [filled_settle]

theorem markersAt_settle {site other : Site} (h : other ≠ site) (segments : List Segment) :
    Segment.markersAt other (segments.map (registry.settle site)) =
      Segment.markersAt other segments := by
  unfold Segment.markersAt
  induction segments with
  | nil => rfl
  | cons segment segments ih =>
      cases segment with
      | text content => exact ih
      | marker m =>
          rw [List.map_cons, settle, Segment.markers_marker]
          by_cases hsite : m.site = site
          · simp [hsite, Ne.symm h, ih]
          · simp [hsite, ih, List.filter_cons]

theorem spaced_settle (site : Site) {segments : List Segment}
    (spaced : segments.IsChain Segment.Spaced) :
    (segments.map (registry.settle site)).IsChain Segment.Spaced := by
  rw [List.isChain_map]
  refine spaced.imp fun front back h => ?_
  rcases back with content | m
  · trivial
  · rw [settle]
    split
    · trivial
    · rcases m with ⟨ref, name⟩ | ref | ref | ref
      · obtain ⟨content, c, rfl, hlast, blank⟩ := h
        exact ⟨content, c, rfl, hlast, blank⟩
      all_goals trivial

/-- A pass over text that was put together from readable segments. -/
theorem substitute_of_readable {site : Site} {segments : List Segment}
    (readable : Segment.Readable [] segments)
    (entries : ∀ m, .marker m ∈ segments → m.site = site → registry.Holds m) :
    registry.substitute site (segments.flatMap Segment.source) =
      .ok ((segments.map (registry.settle site)).flatMap Segment.source) := by
  rw [substitute, Segment.split_source readable, exchangeAll_joined, exchangeAll_eq entries]
  rfl

theorem passes_cons {site : Site} {sites : List Site} (new : site ∉ sites) {text : List Char}
    {segments : List Segment}
    (pass : registry.substitute site text =
      .ok ((segments.map (registry.settle site)).flatMap Segment.source))
    (met : Segment.markersAt site (Segment.split text) = Segment.markersAt site segments)
    (later : registry.passes sites ((segments.map (registry.settle site)).flatMap Segment.source) =
      .ok ⟨sites.flatMap fun other =>
          Segment.markersAt other (segments.map (registry.settle site)),
        (segments.map (registry.settle site)).flatMap
          fun segment => (registry.settleAll sites segment).source⟩) :
    registry.passes (site :: sites) text =
      .ok ⟨(site :: sites).flatMap fun other => Segment.markersAt other segments,
        segments.flatMap fun segment => (registry.settleAll (site :: sites) segment).source⟩ := by
  have others : (sites.flatMap fun other =>
      Segment.markersAt other (segments.map (registry.settle site))) =
        sites.flatMap fun other => Segment.markersAt other segments := by
    apply List.flatMap_congr
    intro other hother
    apply markersAt_settle
    rintro rfl
    exact new hother
  rw [passes, pass]
  dsimp only [bind, Except.bind]
  rw [later, met, others, List.flatMap_map]
  simp only [settleAll_settle]
  rfl

/-- **Passes over spaced segments.** They come in any order, and each exchanges the markers of its
site. -/
theorem passes_of_spaced {sites : List Site} (distinct : sites.Nodup) {segments : List Segment}
    (proper : ∀ m, .marker m ∈ segments → m.Proper) (spaced : segments.IsChain Segment.Spaced)
    (entries : ∀ m, .marker m ∈ segments → registry.Holds m)
    (free : Unmarked (segments.flatMap registry.filled)) :
    registry.passes sites (segments.flatMap Segment.source) =
      .ok ⟨sites.flatMap fun site => Segment.markersAt site segments,
        segments.flatMap fun segment => (registry.settleAll sites segment).source⟩ := by
  induction sites generalizing segments with
  | nil =>
      rw [passes]
      congr 2
      apply List.flatMap_congr
      intro segment _
      cases segment <;> rfl
  | cons site sites ih =>
      have readable : Segment.Readable [] segments := by
        apply Segment.readable_of_spaced registry proper spaced
        · intro m _ _ c hc
          cases hc
        · exact free
      apply passes_cons (List.nodup_cons.mp distinct).1
      · exact substitute_of_readable readable fun m hm _ => entries m hm
      · rw [Segment.split_source readable, Segment.markersAt, Segment.markers_joined,
          Segment.markersAt]
      · refine ih (List.nodup_cons.mp distinct).2 ?_ (spaced_settle site spaced) ?_ ?_
        · exact fun m hm => proper m (marker_mem_map_settle.mp hm).1
        · exact fun m hm => entries m (marker_mem_map_settle.mp hm).1
        · rwa [flatMap_filled_settle]

/-- When the attributes go first, nothing has to be known of what stands before their markers. -/
theorem passes_attribute_first {sites : List Site} (distinct : (.attribute :: sites).Nodup)
    {text : List Char} (entries : ∀ m, .marker m ∈ Segment.split text → registry.Holds m)
    (free : Unmarked ((Segment.split text).flatMap registry.filled)) :
    registry.passes (.attribute :: sites) text =
      .ok ⟨(.attribute :: sites).flatMap fun site => Segment.markersAt site (Segment.split text),
        (Segment.split text).flatMap
          fun segment => (registry.settleAll (.attribute :: sites) segment).source⟩ := by
  have spaced :
      ((Segment.split text).map (registry.settle .attribute)).IsChain Segment.Spaced := by
    apply List.Pairwise.isChain
    apply List.pairwise_of_forall_mem_list
    rintro front _ (content | m) hm
    · trivial
    · have hsite := (marker_mem_map_settle.mp hm).2
      rcases m with ⟨ref, name⟩ | ref | ref | ref
      · exact absurd rfl hsite
      all_goals trivial
  apply passes_cons (List.nodup_cons.mp distinct).1
  · rw [substitute]
    exact exchangeAll_eq fun m hm _ => entries m hm
  · rfl
  · refine passes_of_spaced (List.nodup_cons.mp distinct).2 ?_ spaced ?_ ?_
    · exact fun m hm => Segment.proper_of_mem_split (marker_mem_map_settle.mp hm).1
    · exact fun m hm => entries m (marker_mem_map_settle.mp hm).1
    · rwa [flatMap_filled_settle]

theorem ensureNone_of_unmarked {text : List Char} (free : Unmarked text) :
    Marker.ensureNone text = .ok () := by
  have none : Marker.leftover? text = none := by
    induction text with
    | nil => rfl
    | cons c cs ih =>
        have hprefix : Marker.stem.toList.isPrefixOf (c :: cs) = false := by
          rw [Bool.eq_false_iff]
          intro h
          exact free (List.isPrefixOf_iff_prefix.mp h).isInfix
        rw [Marker.leftover?, hprefix]
        exact ih (free.of_infix (List.infix_cons List.infix_rfl))
  rw [Marker.ensureNone, none]

/-- What the passes come to, if they leave no marker text. -/
theorem resolve_of_passes {text : String} {passed : Passed}
    (run : registry.passes [.attribute, .inner, .unrender] text.toList = .ok passed)
    (free : Unmarked passed.text) :
    registry.resolve text = .ok ⟨String.ofList passed.text,
      registry.code.keys.filter fun ref => !(passed.met.map Marker.ref).contains ref⟩ := by
  rw [resolve_eq_passes, run]
  dsimp only [bind, Except.bind]
  rw [ensureNone_of_unmarked free]
  rfl

theorem flatMap_filled_joined (before : List Char) (segments : List Segment) :
    (Segment.joined before segments).flatMap registry.filled =
      before ++ segments.flatMap registry.filled := by
  have plain : ∀ before, (Segment.plain before).flatMap registry.filled = before := by
    intro before
    unfold Segment.plain
    split
    · next h => exact h.symm
    · exact List.append_nil before
  induction segments generalizing before with
  | nil => rw [Segment.joined, plain, List.flatMap_nil, List.append_nil]
  | cons segment segments ih =>
      cases segment with
      | text content =>
          rw [Segment.joined, ih, List.flatMap_cons, List.append_assoc]
          rfl
      | marker m => rw [Segment.joined, List.flatMap_append, plain, List.flatMap_cons, ih,
          List.nil_append, List.flatMap_cons]

theorem mem_map_ref_met {sites : List Site} (all : ∀ site, site ∈ sites)
    {segments : List Segment} {ref : Ref} :
    ref ∈ (sites.flatMap fun site => Segment.markersAt site segments).map Marker.ref ↔
      ref ∈ Segment.allRefs segments := by
  rw [Segment.mem_allRefs, List.mem_map]
  simp only [List.mem_flatMap, Segment.mem_markersAt]
  constructor
  · rintro ⟨m, ⟨_, _, hm, _⟩, href⟩
    exact ⟨m, hm, href⟩
  · rintro ⟨m, hm, href⟩
    exact ⟨m, ⟨m.site, all m.site, hm, rfl⟩, href⟩

/-- The three passes fill every marker in. -/
theorem passes_of_unmarked {text : List Char}
    (entries : ∀ m, .marker m ∈ Segment.split text → registry.Holds m)
    (free : Unmarked ((Segment.split text).flatMap registry.filled)) :
    registry.passes [.attribute, .inner, .unrender] text =
      .ok ⟨[Site.attribute, .inner, .unrender].flatMap
          fun site => Segment.markersAt site (Segment.split text),
        (Segment.split text).flatMap registry.filled⟩ := by
  have distinct : [Site.attribute, .inner, .unrender].Nodup := by decide
  rw [passes_attribute_first distinct entries free]
  simp only [source_settleAll Site.mem_all]

/-- Resolving fills every marker in, if the registry has an entry for each and nothing that is
filled in makes new marker text. -/
theorem resolve_of_unmarked {text : String}
    (entries : ∀ m, .marker m ∈ Segment.split text.toList → registry.Holds m)
    (free : Unmarked ((Segment.split text.toList).flatMap registry.filled)) :
    registry.resolve text =
      .ok ⟨String.ofList ((Segment.split text.toList).flatMap registry.filled),
        registry.code.keys.filter fun ref =>
          !(Segment.allRefs (Segment.split text.toList)).contains ref⟩ := by
  rw [resolve_of_passes (passes_of_unmarked entries free) free]
  congr 2
  apply List.filter_congr
  intro ref _
  congr 1
  rw [Bool.eq_iff_iff, List.contains_iff_mem, List.contains_iff_mem]
  exact mem_map_ref_met Site.mem_all

/-- **The three passes are one substitution.** When the registry has an entry for every marker,
there is a text with all markers filled in, and resolving gives that text unless it holds marker
text. -/
theorem resolve_eq_fill {text : String}
    (entries : ∀ m, .marker m ∈ Segment.split text.toList → registry.Holds m) :
    ∃ code, registry.fill (Segment.split text.toList) = some code ∧
      (Unmarked code → registry.resolve text =
        .ok ⟨String.ofList code, registry.code.keys.filter fun ref =>
          !(Segment.allRefs (Segment.split text.toList)).contains ref⟩) := by
  refine ⟨_, fill_eq_flatMap entries, ?_⟩
  intro free
  exact resolve_of_unmarked entries free

/-- The markers that are found in a text have entries if those in its parts have. -/
theorem holds_of_split (registry : Registry) {text : List Char} {parts : List Segment}
    (split : Segment.split text = parts) (holds : ∀ m ∈ Segment.markers parts, registry.Holds m) :
    ∀ m, .marker m ∈ Segment.split text → registry.Holds m := by
  intro m hm
  rw [split] at hm
  exact holds m (Segment.mem_markers.mpr hm)

/-- Each kind of marker once, with the inner content in the wrapper. -/
def wrapped : List Segment :=
  let ref : Ref := ⟨"e0a", Ref.isValid_e0a⟩
  [.marker (.opening ref), .text "<p ".toList, .marker (.attribute ref "id"), .text " html".toList,
    .marker (.inner ref), .text "></p>".toList, .marker (.closing ref)]

theorem split_wrapped :
    Segment.split (String.ofList (wrapped.flatMap Segment.source)).toList = wrapped :=
  Segment.split_of_spelled String.toList_ofList (by decide) (by decide)

/-- Code for each marker of `wrapped`, and for none elsewhere. The opening ends where a marker could
start. -/
def single : Registry where
  code := (∅ : RefMap Fragments).insert ⟨"e0a", Ref.isValid_e0a⟩
    { attributes := (∅ : NameMap String).insert "id" "id=\x7bk\x7d"
      inner := some "\x7b<__OVERRIDE\x7d"
      unrender := some ⟨"\x7bk && <", "\x7d"⟩ }

theorem resolve_wrapped :
    (∀ m, .marker m ∈ Segment.split (String.ofList (wrapped.flatMap Segment.source)).toList →
      single.Holds m) ∧
    Unmarked "\x7bk && <<p id=\x7bk\x7d html=\x7b<__OVERRIDE\x7d></p>\x7d".toList ∧
    (single.resolve (String.ofList (wrapped.flatMap Segment.source))).map (·.code) =
      .ok "\x7bk && <<p id=\x7bk\x7d html=\x7b<__OVERRIDE\x7d></p>\x7d" := by
  have entries := holds_of_split single split_wrapped (by decide)
  have filled : single.fill wrapped =
      some "\x7bk && <<p id=\x7bk\x7d html=\x7b<__OVERRIDE\x7d></p>\x7d".toList := by
    simp [fill, wrapped, code?, Fragments.code?, Marker.ref, single]
  have free : Unmarked "\x7bk && <<p id=\x7bk\x7d html=\x7b<__OVERRIDE\x7d></p>\x7d".toList := by
    decide
  refine ⟨entries, free, ?_⟩
  obtain ⟨code, hcode, hresolve⟩ := resolve_eq_fill entries
  rw [split_wrapped, filled] at hcode
  cases hcode
  rw [hresolve free]
  rfl

end Registry

end LateMarkup
