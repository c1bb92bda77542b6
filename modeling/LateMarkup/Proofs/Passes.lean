import LateMarkup.Proofs.Substitution

/-!
# No pass misses an entry

The second and the third pass search text that nobody has written: markup with generated code in it.
All the same they meet only markers that were in the markup or in the captured content of a node.
The argument looks at where the characters of such a marker can stand at all, which is simpler than
to follow the splitting of the changed text. It does not work for attribute markers, since the name
in one of them may itself look like a marker, but attribute markers are met in the first pass only.
-/

namespace LateMarkup

/-! ## The characters of a marker -/

namespace Marker

/-- A marker of inner content or of a wrapper starts with a character that it does not hold again.
-/
theorem source_eq_cons {m : Marker} (later : m.site ≠ .attribute) :
    ∃ d rest, m.source = d :: rest ∧ (d = '=' ∨ d = '<') ∧ '=' ∉ rest ∧ '<' ∉ rest := by
  have tail : ∀ (ref : Ref) (d : Char), Ref.isTailChar d = false → d ∉ ref.text.toList := by
    intro ref d hd hmem
    rw [Ref.isTailChar_of_mem hmem] at hd
    cases hd
  rcases m with ⟨ref, name⟩ | ref | ref | ref
  · exact absurd rfl later
  · refine ⟨_, _, rfl, Or.inl rfl, ?_, ?_⟩ <;>
      simp [toList_innerValue, tail ref '=' (by decide), tail ref '<' (by decide)]
  · refine ⟨_, _, rfl, Or.inr rfl, ?_, ?_⟩ <;>
      simp [toList_wrapperTag, tail ref '=' (by decide), tail ref '<' (by decide)]
  · refine ⟨_, _, rfl, Or.inr rfl, ?_, ?_⟩ <;>
      simp [toList_wrapperTag, tail ref '=' (by decide), tail ref '<' (by decide)]

/-- A character that no marker of inner content or of a wrapper holds. -/
def Foreign (c : Char) : Prop := c ∉ "=\"<>/_OVERIDNU".toList ∧ Ref.isTailChar c = false

instance (c : Char) : Decidable (Foreign c) := inferInstanceAs (Decidable (_ ∧ _))

/-- What stands around the ref in a marker of inner content or of a wrapper. -/
theorem source_eq_frame {m : Marker} (later : m.site ≠ .attribute) :
    ∃ front back, m.source = front ++ (m.ref.text.toList ++ back) ∧
      ∀ c ∈ front ++ back, c ∈ "=\"<>/_OVERIDNU".toList := by
  rcases m with ⟨ref, name⟩ | ref | ref | ref
  · exact absurd rfl later
  · refine ⟨"=\"__OVERRIDE_INNER__".toList, ['"'], ?_, by decide⟩
    simp [source, toList_innerValue, Marker.ref]
  · refine ⟨"<__OVERRIDE_UNRENDER__".toList, ['>'], ?_, by decide⟩
    simp [source, toList_wrapperTag, Marker.ref]
  · refine ⟨"</__OVERRIDE_UNRENDER__".toList, ['>'], ?_, by decide⟩
    simp [source, toList_wrapperTag, Marker.ref]

theorem Foreign.notMem {m : Marker} (later : m.site ≠ .attribute) {c : Char} (h : Foreign c) :
    c ∉ m.source := by
  obtain ⟨front, back, hsource, fixed⟩ := source_eq_frame later
  rw [hsource, List.mem_append, List.mem_append]
  rintro (hc | hc | hc)
  · exact h.1 (fixed c (List.mem_append_left back hc))
  · have htail := Ref.isTailChar_of_mem hc
    rw [h.2] at htail
    cases htail
  · exact h.1 (fixed c (List.mem_append_right front hc))

theorem foreign_of_isBlank {c : Char} (blank : Text.isBlank c = true) : Foreign c := by
  have fixed : ∀ d ∈ "=\"<>/_OVERIDNU".toList, Text.isBlank d = false := by decide
  refine ⟨fun hc => by simp [fixed c hc] at blank, ?_⟩
  rw [Bool.eq_false_iff]
  intro htail
  unfold Ref.isTailChar Char.isLower Char.isDigit at htail
  simp only [Bool.or_eq_true, Bool.and_eq_true, decide_eq_true_eq, ge_iff_le,
    UInt32.le_iff_toNat_le, Char.reduceVal, UInt32.reduceToNat] at htail
  simp only [Text.isBlank, Char.toNat, Bool.or_eq_true, Bool.and_eq_true, decide_eq_true_eq,
    beq_iff_eq] at blank
  omega

theorem stem_infix_source (m : Marker) : stem.toList <:+: m.source := by
  have attr : stem.toList <:+: "__OVERRIDE_ATTR__".toList := by decide
  have inner : stem.toList <:+: "__OVERRIDE_INNER__".toList := by decide
  have tag : stem.toList <:+: "__OVERRIDE_UNRENDER__".toList := by decide
  rcases m with ⟨ref, name⟩ | ref | ref | ref
  · rw [source, toList_attributeName, List.append_assoc]
    exact List.infix_append_of_infix_left attr
  · rw [source, toList_innerValue, List.cons_append, List.cons_append, List.append_assoc]
    exact List.infix_cons (List.infix_cons (List.infix_append_of_infix_left inner))
  · rw [source, toList_wrapperTag, List.cons_append, List.append_assoc]
    exact List.infix_cons (List.infix_append_of_infix_left tag)
  · rw [source, toList_wrapperTag, List.cons_append, List.cons_append, List.append_assoc]
    exact List.infix_cons (List.infix_cons (List.infix_append_of_infix_left tag))

theorem proper_of_later {m : Marker} (later : m.site ≠ .attribute) : m.Proper := by
  rcases m with ⟨ref, name⟩ | ref | ref | ref
  · exact absurd rfl later
  · trivial
  · trivial
  · trivial

theorem not_source_prefix_quotes {m : Marker} (later : m.site ≠ .attribute) (rest : List Char) :
    ¬ m.source <+: '=' :: '"' :: '"' :: rest := by
  rcases m with ⟨ref, name⟩ | ref | ref | ref
  · exact absurd rfl later
  · simp [source, toList_innerValue]
  · simp [source]
  · simp [source]

theorem notMem_attributeName {ref : Ref} {name : String}
    (proper : (Marker.attribute ref name).Proper) {d : Char} (hd : d = '=' ∨ d = '<') :
    d ∉ (attributeName ref name).toList := by
  have fixed : d ∉ "__OVERRIDE_ATTR__".toList ∧ d ∉ "__".toList ∧ Ref.isTailChar d = false ∧
      isNameChar d = false := by
    rcases hd with rfl | rfl <;> decide
  obtain ⟨hstart, hbetween, htail, hname⟩ := fixed
  rw [toList_attributeName]
  simp only [List.mem_append, not_or]
  refine ⟨hstart, ?_, hbetween, ?_⟩
  · intro hc
    rw [Ref.isTailChar_of_mem hc] at htail
    cases htail
  · intro hc
    rw [proper.2 d hc] at hname
    cases hname

theorem attributeName_ne_nil (ref : Ref) (name : String) :
    (attributeName ref name).toList ≠ [] := by
  simp [toList_attributeName]

theorem notMem_wrapperTag {ref : Ref} {d : Char} (hd : d = '=' ∨ d = '<') :
    d ∉ (wrapperTag ref).toList := by
  have later : (opening ref).site ≠ .attribute := by simp [site]
  obtain ⟨e, rest, heq, -, hequals, hangle⟩ := source_eq_cons later
  rw [source] at heq
  cases heq
  rcases hd with rfl | rfl
  · exact fun h => hequals (List.mem_append_left _ h)
  · exact fun h => hangle (List.mem_append_left _ h)

/-- Two markers that start at one place are the same. -/
theorem eq_of_source_prefix {m n : Marker} (hm : m.Proper) (hn : n.Proper) {rest : List Char}
    (h : m.source <+: n.source ++ rest) : m = n := by
  obtain ⟨behind, h⟩ := h
  obtain ⟨c, cs, hcons⟩ : ∃ c cs, n.source ++ rest = c :: cs := by
    apply List.exists_cons_of_ne_nil
    simp [n.source_ne_nil]
  have front := Segment.front_marker hm (h.trans hcons)
  rw [Segment.front_marker hn hcons] at front
  injection front with same
  exact (Option.some.inj same).symm

end Marker

/-! ## Markers that occur are found -/

namespace Segment

variable {m : Marker}

/-- A stretch of markup that starts with another marker or with text holds no part of a marker that
starts before it. -/
theorem infix_source_append {n : Marker} (later : m.site ≠ .attribute) {before rest : List Char}
    (follows : Follows before n) (h : m.source <:+: before ++ (n.source ++ rest)) :
    m.source <:+: before ∨ m.source <:+: n.source ++ rest := by
  by_cases hsite : n.site = .attribute
  · apply infix_append_of_last _ h
    intro c hc
    exact (Marker.foreign_of_isBlank (follows hsite c hc)).notMem later
  · obtain ⟨d, tail, hm, -, hequals, hangle⟩ := Marker.source_eq_cons later
    obtain ⟨e, behind, hn, he, -⟩ := Marker.source_eq_cons hsite
    rw [hm] at h ⊢
    apply infix_append_of_stop _ h
    intro c hc
    rw [hn] at hc
    cases hc
    rcases he with rfl | rfl
    · exact hequals
    · exact hangle

/-- No marker of inner content or of a wrapper starts behind the first character of a marker. -/
theorem infix_of_infix_tail {n : Marker} (later : m.site ≠ .attribute) (proper : n.Proper)
    {c : Char} {tail rest : List Char} (hn : n.source = c :: tail)
    (h : m.source <:+: tail ++ rest) : m.source <:+: rest := by
  obtain ⟨d, more, hm, hd, -⟩ := Marker.source_eq_cons later
  rw [hm] at h ⊢
  by_cases hsite : n.site = .attribute
  · -- Only here the first character can occur again, and then two quotes stand behind it.
    rcases n with ⟨ref, name⟩ | ref | ref | ref
    · have hname := Marker.notMem_attributeName proper hd
      rw [Marker.source] at hn
      obtain ⟨first, chars, hchars⟩ :=
        List.exists_cons_of_ne_nil (Marker.attributeName_ne_nil ref name)
      rw [hchars, List.cons_append] at hn
      obtain ⟨rfl, rfl⟩ := List.cons.inj hn
      rw [hchars] at hname
      rw [List.append_assoc] at h
      have behind := infix_append_of_head_notMem (List.not_mem_of_not_mem_cons hname) h
      rcases List.infix_cons_iff.mp behind with hpre | hin
      · rw [← hm] at hpre
        exact absurd hpre (Marker.not_source_prefix_quotes later rest)
      · refine infix_append_of_head_notMem (a := ['"', '"']) ?_ hin
        rcases hd with rfl | rfl <;> decide
    · cases hsite
    · cases hsite
    · cases hsite
  · obtain ⟨e, behind, heq, -, hequals, hangle⟩ := Marker.source_eq_cons hsite
    rw [hn] at heq
    cases heq
    apply infix_append_of_head_notMem _ h
    rcases hd with rfl | rfl
    · exact hequals
    · exact hangle

theorem Inert.not_infix {text : List Char} (inert : Inert text) (later : m.site ≠ .attribute) :
    ¬ m.source <:+: text := by
  induction inert with
  | unmarked free => exact fun h => free ((Marker.stem_infix_source m).trans h)
  | @stub before after ref free _ ih =>
      intro h
      obtain ⟨d, more, hm, hd, -, hangle⟩ := Marker.source_eq_cons later
      have htag : d ∉ (Marker.wrapperTag ref).toList := Marker.notMem_wrapperTag hd
      have hsplit : m.source <:+: before ∨
          m.source <:+: '<' :: ((Marker.wrapperTag ref).toList ++ ' ' :: after) := by
        rw [hm] at h ⊢
        apply infix_append_of_stop _ h
        intro c hc
        cases hc
        exact hangle
      rcases hsplit with hbefore | hbehind
      · exact free ((Marker.stem_infix_source m).trans hbefore)
      · rcases List.infix_cons_iff.mp hbehind with hpre | hin
        · obtain ⟨behind, heq⟩ := hpre
          have front := front_marker (Marker.proper_of_later later) heq
          rw [front_stub] at front
          cases front
        · apply ih
          rw [hm] at hin ⊢
          exact infix_append_of_head_notMem htag hin

/-- **What occurs is found.** A marker of inner content or of a wrapper that occurs in readable
segments, anywhere, is one of them. -/
theorem marker_mem_of_isInfix {before : List Char} {segments : List Segment}
    (later : m.site ≠ .attribute) (readable : Readable before segments)
    (h : m.source <:+: before ++ segments.flatMap source) : marker m ∈ segments := by
  induction segments generalizing before with
  | nil =>
      rw [List.flatMap_nil, List.append_nil] at h
      exact absurd h (readable.not_infix later)
  | cons segment segments ih =>
      rw [List.flatMap_cons] at h
      cases segment with
      | text content =>
          rw [← List.append_assoc] at h
          exact List.mem_cons_of_mem _ (ih readable h)
      | marker n =>
          obtain ⟨inert, follows, proper, readable⟩ := readable
          rcases infix_source_append later follows h with hbefore | hbehind
          · exact absurd hbefore (inert.not_infix later)
          · obtain ⟨c, tail, hn⟩ := List.exists_cons_of_ne_nil n.source_ne_nil
            rw [hn, List.cons_append] at hbehind
            rcases List.infix_cons_iff.mp hbehind with hpre | hin
            · rw [← List.cons_append, ← hn] at hpre
              rw [Marker.eq_of_source_prefix (Marker.proper_of_later later) proper hpre]
              exact List.mem_cons_self
            · have hrest := infix_of_infix_tail later proper hn hin
              exact List.mem_cons_of_mem _ (ih readable hrest)

end Segment

/-! ## What one pass leaves to the next -/

def Site.pass : Site → Nat
  | .attribute => 0
  | .inner => 1
  | .unrender => 2

theorem Site.ne_attribute_of_pass {a b : Site} (h : a.pass < b.pass) : b ≠ .attribute := by
  rintro rfl
  exact Nat.not_lt_zero _ h

theorem Site.eq_unrender_of_pass {a : Site} : Site.inner.pass < a.pass → a = .unrender := by
  cases a <;> decide

/-- Wrappers are substituted last. -/
theorem Site.pass_le_unrender (a : Site) : ¬ Site.unrender.pass < a.pass := by
  cases a <;> decide

namespace Registry

variable {registry : Registry}

/-- Whatever stands around `code`, the marker `m` occurs on one side of it, unless it has an entry.
-/
def Shuts (registry : Registry) (code : List Char) (m : Marker) : Prop :=
  ∀ before behind, m.source <:+: before ++ (code ++ behind) →
    m.source <:+: before ∨ m.source <:+: behind ∨ registry.Holds m

/-- No code brings a marker without an entry into a later pass. -/
def Sealed (registry : Registry) : Prop :=
  ∀ n code, registry.code? n = some code →
    ∀ m : Marker, n.site.pass < m.site.pass → registry.Shuts code.toList m

theorem substitute_eq {site : Site} {text : List Char}
    (entries : ∀ m, .marker m ∈ Segment.split text → m.site = site → registry.Holds m) :
    registry.substitute site text =
      .ok (((Segment.split text).map (registry.settle site)).flatMap Segment.source) := by
  rw [substitute, exchangeAll_eq entries]

/-- A marker of a later pass that occurs after a pass has occurred before it, or has an entry. -/
theorem infix_settle (before : List Char) {site : Site} {m : Marker} {segments : List Segment}
    (shut : registry.Sealed) (later : site.pass < m.site.pass)
    (entries : ∀ n, .marker n ∈ segments → n.site = site → registry.Holds n)
    (h : m.source <:+:
      before ++ (segments.map (registry.settle site)).flatMap Segment.source) :
    m.source <:+: before ++ segments.flatMap Segment.source ∨ registry.Holds m := by
  induction segments generalizing before with
  | nil => exact Or.inl h
  | cons segment segments ih =>
      have tail : ∀ n, .marker n ∈ segments → n.site = site → registry.Holds n :=
        fun n hn => entries n (List.mem_cons_of_mem _ hn)
      rw [List.map_cons, List.flatMap_cons] at h
      rw [List.flatMap_cons]
      by_cases hexchanged : ∃ n, segment = .marker n ∧ n.site = site
      · obtain ⟨n, rfl, hsite⟩ := hexchanged
        obtain ⟨code, hcode⟩ :=
          Option.isSome_iff_exists.mp (entries n List.mem_cons_self hsite)
        have hsource : (registry.settle site (.marker n)).source = code.toList := by
          rw [settle, if_pos hsite, filled, hcode]
          rfl
        rw [hsource] at h
        -- Between the texts on its two sides the code is shut, so the marker stands in one of them.
        rcases shut n code hcode m (hsite ▸ later) _ _ h with hbefore | hbehind | holds
        · exact Or.inl (List.infix_append_of_infix_left hbefore)
        · have inner := ih [] tail hbehind
          rw [List.nil_append] at inner
          refine inner.imp (fun hin => ?_) id
          exact List.infix_append_of_infix_right (List.infix_append_of_infix_right hin)
        · exact Or.inr holds
      · have hsource : registry.settle site segment = segment := by
          cases segment with
          | text content => rfl
          | marker n =>
              rw [settle, if_neg]
              exact fun hsite => hexchanged ⟨n, rfl, hsite⟩
        rw [hsource, ← List.append_assoc] at h
        rw [← List.append_assoc]
        exact ih _ tail h

theorem ensureNone_ne_missing (text : List Char) (ref : Ref) (field : FragmentField) :
    Marker.ensureNone text ≠ .error (.missing ref field) := by
  unfold Marker.ensureNone
  split <;> simp

/-- **No pass misses an entry.** When every marker that is found has an entry, and every later
marker that occurs at all, then resolving does not fail for want of one. -/
theorem resolve_ne_missing {text : String} (shut : registry.Sealed)
    (found : ∀ m, .marker m ∈ Segment.split text.toList → registry.Holds m)
    (occurring : ∀ m : Marker, m.site ≠ .attribute → m.source <:+: text.toList →
      registry.Holds m)
    (ref : Ref) (field : FragmentField) :
    registry.resolve text ≠ .error (.missing ref field) := by
  have first : registry.substitute .attribute text.toList = .ok _ :=
    substitute_eq fun m hm _ => found m hm
  generalize hfirst : ((Segment.split text.toList).map _).flatMap Segment.source = withAttributes
    at first
  -- Of the text after a pass it is only used which markers occur in it.
  have afterFirst : ∀ m : Marker, m.site ≠ .attribute → m.source <:+: withAttributes →
      registry.Holds m := by
    intro m later hm
    rw [← hfirst] at hm
    have hpass : Site.attribute.pass < m.site.pass := by
      match hsite : m.site with
      | .attribute => exact absurd hsite later
      | .inner => decide
      | .unrender => decide
    rcases infix_settle [] shut hpass (fun n hn _ => found n hn) hm with hin | holds
    · rw [List.nil_append, Segment.flatMap_source_split] at hin
      exact occurring m later hin
    · exact holds
  have innerEntries : ∀ m, .marker m ∈ Segment.split withAttributes → m.site = .inner →
      registry.Holds m := by
    intro m hm hsite
    exact afterFirst m (by simp [hsite]) (Segment.source_infix_of_mem_split hm)
  have second := substitute_eq innerEntries
  generalize hsecond : ((Segment.split withAttributes).map _).flatMap Segment.source = withInner
    at second
  have guardEntries : ∀ m, .marker m ∈ Segment.split withInner → m.site = .unrender →
      registry.Holds m := by
    intro m hm hsite
    have hin := Segment.source_infix_of_mem_split hm
    rw [← hsecond] at hin
    have hpass : Site.inner.pass < m.site.pass := by
      rw [hsite]
      decide
    rcases infix_settle [] shut hpass innerEntries hin with hin | holds
    · rw [List.nil_append, Segment.flatMap_source_split] at hin
      exact afterFirst m (by simp [hsite]) hin
    · exact holds
  have third := substitute_eq guardEntries
  intro h
  rw [resolve] at h
  dsimp only [bind, Except.bind] at h
  rw [first] at h
  dsimp only at h
  rw [second] at h
  dsimp only at h
  rw [third] at h
  dsimp only at h
  split at h
  · next error herror =>
      cases h
      exact ensureNone_ne_missing _ ref field herror
  · cases h

end Registry

end LateMarkup
