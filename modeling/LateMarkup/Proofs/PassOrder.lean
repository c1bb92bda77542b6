import LateMarkup.Proofs.Lossless
import LateMarkup.Proofs.Substitution

/-!
# The order of the passes

An attribute marker is found only behind a blank, or behind nothing. A pass that goes before the
attributes could put an underscore there, so in general the attributes have to be substituted first.
In serialized markup a blank stands before every attribute marker, and it is plain text: no marker
ends with one. No pass touches plain text, so there the order makes no difference.
-/

namespace LateMarkup

namespace Marker

/-- A marker ends with a quote or with the bracket of a tag. -/
theorem isBlank_of_mem_getLast?_source {m : Marker} {c : Char} (h : c ∈ m.source.getLast?) :
    Text.isBlank c = false := by
  rcases m with ⟨ref, name⟩ | ref | ref | ref
  all_goals
    simp only [source, List.getLast?_append, List.getLast?_cons_cons, List.getLast?_singleton,
      Option.some_or, Option.mem_some_iff] at h
    subst h
    decide

end Marker

namespace Segment

/-- Each attribute marker of the segments stands directly behind a blank of the text. -/
def BlankBefore (segments : List Segment) : Prop :=
  ∀ before ref name behind, segments = before ++ marker (.attribute ref name) :: behind →
    ∃ c, (before.flatMap source).getLast? = some c ∧ Text.isBlank c = true

/-- Such a blank belongs to the plain text before the marker. -/
theorem isChain_spaced {cs : List Char} (blank : BlankBefore (split cs)) :
    (split cs).IsChain Spaced := by
  rw [List.isChain_iff_forall_rel_of_append_cons_cons]
  intro front back before behind heq
  rcases back with content | ⟨ref, name⟩ | ref | ref | ref
  · trivial
  · obtain ⟨c, hlast, hblank⟩ := blank (before ++ [front]) ref name behind (by simp [heq])
    have some : front.source ≠ [] := by
      apply source_ne_nil_of_mem_split cs
      simp [heq]
    rw [List.flatMap_append, List.flatMap_singleton, List.getLast?_append,
      List.getLast?_eq_some_getLast some, Option.some_or,
      ← List.getLast?_eq_some_getLast some] at hlast
    cases front with
    | text content => exact ⟨content, c, rfl, hlast, hblank⟩
    | marker m =>
        rw [Marker.isBlank_of_mem_getLast?_source (Option.mem_def.mpr hlast)] at hblank
        cases hblank
  all_goals trivial

end Segment

namespace Registry

variable {registry : Registry}

/-- Substituting sites in a row is going through their passes. -/
theorem foldlM_substitute (sites : List Site) (text : List Char) :
    sites.foldlM (fun text site => registry.substitute site text) text =
      (registry.passes sites text).map (·.text) := by
  induction sites generalizing text with
  | nil => rfl
  | cons site sites ih =>
      rw [List.foldlM_cons, passes]
      cases registry.substitute site text with
      | error error => rfl
      | ok next =>
          dsimp only [bind, Except.bind]
          rw [ih]
          cases registry.passes sites next <;> rfl

/-- **The passes come in any order.** If a blank stands before each attribute marker of a text, and
the registry has an entry for every marker, there is a text with all markers filled in at once.
Unless it holds marker text, substituting the three sites one after the other gives that text in any
order, and so does resolving. -/
theorem substitute_of_perm {text : String}
    (blank : Segment.BlankBefore (Segment.split text.toList))
    (entries : ∀ m, .marker m ∈ Segment.split text.toList → registry.Holds m) :
    ∃ code, registry.fill (Segment.split text.toList) = some code ∧
      (Unmarked code →
        (∀ order : List Site, order.Perm [.attribute, .inner, .unrender] →
          order.foldlM (fun text site => registry.substitute site text) text.toList = .ok code) ∧
        (registry.resolve text).map (·.code) = .ok (String.ofList code)) := by
  refine ⟨_, fill_eq_flatMap entries, ?_⟩
  intro free
  constructor
  · intro order perm
    have distinct : order.Nodup := perm.nodup_iff.mpr (by decide)
    have all : ∀ site, site ∈ order := fun site => perm.mem_iff.mpr site.mem_all
    have run := passes_of_spaced distinct
      (fun m hm => Segment.proper_of_mem_split hm) (Segment.isChain_spaced blank) entries free
    rw [Segment.flatMap_source_split] at run
    rw [foldlM_substitute, run]
    simp only [source_settleAll all]
    rfl
  · rw [resolve_of_unmarked entries free]
    rfl

/-- Code that ends where a marker could go on, and no code behind the node. -/
def clinging : Registry where
  code := (∅ : RefMap Fragments).insert ⟨"e0a", Ref.isValid_e0a⟩
    { attributes := (∅ : NameMap String).insert "id" "_"
      inner := some "<__OVERRIDE"
      unrender := some ⟨"</", ""⟩ }

theorem substitute_wrapped :
    Segment.BlankBefore (Segment.split (String.ofList (wrapped.flatMap Segment.source)).toList) ∧
    (∀ m, .marker m ∈ Segment.split (String.ofList (wrapped.flatMap Segment.source)).toList →
      clinging.Holds m) ∧
    Unmarked "</<p _ html=<__OVERRIDE></p>".toList ∧
    [Site.unrender, .inner, .attribute].foldlM (fun text site => clinging.substitute site text)
      (String.ofList (wrapped.flatMap Segment.source)).toList =
        .ok "</<p _ html=<__OVERRIDE></p>".toList := by
  have blank : Segment.BlankBefore wrapped := by
    intro before ref name behind h
    simp [wrapped, List.cons_eq_append_iff] at h
    obtain ⟨rfl, -, -⟩ := h
    exact ⟨' ', by decide, by decide⟩
  have entries := holds_of_split clinging split_wrapped (by decide)
  have filled : clinging.fill wrapped = some "</<p _ html=<__OVERRIDE></p>".toList := by
    simp [fill, wrapped, code?, Fragments.code?, Marker.ref, clinging]
  have free : Unmarked "</<p _ html=<__OVERRIDE></p>".toList := by decide
  rw [← split_wrapped] at blank
  refine ⟨blank, entries, free, ?_⟩
  obtain ⟨code, hcode, hsubstitute⟩ := substitute_of_perm blank entries
  rw [split_wrapped, filled] at hcode
  cases hcode
  exact (hsubstitute free).1 _ (by decide)

end Registry

end LateMarkup
