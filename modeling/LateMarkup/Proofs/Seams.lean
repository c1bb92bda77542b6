import LateMarkup.Proofs.MissingEntries

/-!
# Seams

No spelling goes on with a blank or with a `<`. Where one of them stands, serialized text falls
apart: the two sides can be split on their own (`split_append`), and a pass, or all of them, can go
over one side after the other (`substitute_append`, `becomes_append`). So it can be said what stands
in a place of a long text without looking at the rest of it.

All that can be told in this way of wrappers, whose markers start with a `<`, needs no
assumption about the plain text around them. What goes before the next `<` does not matter to them.
-/

namespace LateMarkup

/-- A character that no spelling goes on with. -/
def Seam (c : Char) : Prop := c = '<' ∨ Text.isBlank c = true

/-! ## Following up to a seam -/

namespace Piece

def Avoids (c : Char) : List Piece → Prop
  | [] => True
  | .fixed text :: pieces => c ∉ text ∧ Avoids c pieces
  | .run member :: pieces => member c = false ∧ Avoids c pieces

variable {c : Char} {text cs rest : List Char} {pieces : List Piece}

theorem shared_append_cons (stop : ¬ cs ++ [c] <+: text) :
    shared text (cs ++ c :: rest) = shared text cs := by
  apply shared_append
  intro d hd
  cases hd
  exact stop

/-- What is followed ends before a character that the pieces avoid. -/
theorem follow_append_cons (avoids : Avoids c pieces) (cs rest : List Char) :
    follow pieces (cs ++ c :: rest) =
      ⟨(follow pieces cs).followed, (follow pieces cs).rest ++ c :: rest,
        (follow pieces cs).runs⟩ := by
  induction pieces generalizing cs with
  | nil => rfl
  | cons piece pieces ih =>
      cases piece with
      | fixed text =>
          have stop : ¬ cs ++ [c] <+: text := fun h => avoids.1 (h.subset (by simp))
          have short := List.IsPrefix.length_le <| shared_prefix text cs
          rw [follow, follow, shared_append_cons stop, List.drop_append_of_le_length short]
          split
          · rw [ih avoids.2]
          · rfl
      | run member =>
          have stop : ∀ d ∈ (c :: rest).head?, member d = false := by
            intro d hd
            cases hd
            exact avoids.1
          rw [follow, follow, takeWhile_append_stop stop, dropWhile_append_stop stop]
          split
          · rfl
          · rw [ih avoids.2]

/-- The same for a spelling of which something has been seen already. -/
theorem follow_fixed_append_cons (stop : ¬ cs ++ [c] <+: text) (avoids : Avoids c pieces)
    (rest : List Char) :
    follow (.fixed text :: pieces) (cs ++ c :: rest) =
      ⟨(follow (.fixed text :: pieces) cs).followed,
        (follow (.fixed text :: pieces) cs).rest ++ c :: rest,
        (follow (.fixed text :: pieces) cs).runs⟩ := by
  have short := List.IsPrefix.length_le <| shared_prefix text cs
  rw [follow, follow, shared_append_cons stop, List.drop_append_of_le_length short]
  split
  · rw [follow_append_cons avoids]
  · rfl

end Piece

namespace Seam

variable {c : Char}

theorem ne_slash (seam : Seam c) : c ≠ '/' := by
  rintro rfl
  rcases seam with h | h
  · cases h
  · cases h

/-- A blank is no part of any spelling. -/
theorem notMem_of_isBlank {text : List Char} (none : ∀ d ∈ text, Text.isBlank d = false)
    (blank : Text.isBlank c = true) : c ∉ text := by
  intro mem
  rw [none c mem] at blank
  cases blank

theorem isTailChar (seam : Seam c) : Ref.isTailChar c = false := by
  rcases seam with rfl | blank
  · rfl
  · exact (Marker.foreign_of_isBlank blank).2

theorem isNameChar (seam : Seam c) : Marker.isNameChar c = false := by
  rcases seam with rfl | blank
  · rfl
  · rw [Marker.isNameChar, blank, Bool.or_true]
    rfl

/-- Behind its first character no spelling holds a seam. -/
theorem avoids_pieces (seam : Seam c) (shape : Shape) :
    ∃ text pieces, shape.pieces = .fixed text :: pieces ∧ c ∉ text.tail ∧
      Piece.Avoids c pieces := by
  have absent : ∀ text : List Char, (∀ d ∈ text, d ≠ '<' ∧ Text.isBlank d = false) → c ∉ text := by
    intro text none mem
    rcases seam with rfl | blank
    · exact (none _ mem).1 rfl
    · exact notMem_of_isBlank (fun d hd => (none d hd).2) blank mem
  cases shape
  · exact ⟨_, _, rfl, absent _ (by decide), seam.isTailChar, absent _ (by decide),
      seam.isNameChar, absent _ (by decide), trivial⟩
  all_goals
    exact ⟨_, _, rfl, absent _ (by decide), seam.isTailChar, absent _ (by decide), trivial⟩

end Seam

/-! ## Splitting at a seam -/

theorem Shape.ofFront?_append_cons {c : Char} (hc : c ≠ '/') (d : Char) (cs rest : List Char) :
    ofFront? (d :: (cs ++ c :: rest)) = ofFront? (d :: cs) := by
  by_cases hd : d = '<'
  · subst hd
    -- Only here does the form depend on the character behind the first.
    rcases cs with _ | ⟨e, cs⟩
    · rw [List.nil_append, ofFront?, ofFront?]
      · rintro tail ⟨⟩
      · rintro tail ⟨⟩
        exact hc rfl
    · by_cases he : e = '/'
      · subst he
        rfl
      · rw [List.cons_append, ofFront?, ofFront?]
        · rintro tail ⟨⟩
          exact he rfl
        · rintro tail ⟨⟩
          exact he rfl
  · unfold ofFront?
    split <;> simp_all

theorem Shape.ofFront?_of_isPlain {c : Char} (plain : Segment.isPlain c = true)
    (cs : List Char) : ofFront? (c :: cs) = none := by
  unfold ofFront?
  split <;> simp_all [Segment.isPlain]

namespace Segment

variable {c : Char}

/-- What stands at the front is the same up to a seam, unless there is only plain text, which may
run on over the seam. -/
theorem front_append_cons (seam : Seam c) (d : Char) (cs rest : List Char) :
    (Shape.ofFront? (d :: cs) = none ∧ (∀ e ∈ cs, isPlain e = true) ∧ isPlain c = true) ∨
    front d (cs ++ c :: rest) =
      ⟨(front d cs).marker?, (front d cs).passed, (front d cs).rest ++ c :: rest⟩ := by
  have shape := Shape.ofFront?_append_cons seam.ne_slash d cs rest
  cases hfront : Shape.ofFront? (d :: cs) with
  | none =>
      rw [front, front, shape, hfront]
      by_cases plain : ∀ e ∈ cs, isPlain e = true
      · by_cases hc : isPlain c = true
        · exact Or.inl ⟨rfl, plain, hc⟩
        · have stop : ∀ e ∈ (c :: rest).head?, isPlain e = false := by
            intro e he
            cases he
            exact Bool.eq_false_iff.mpr hc
          right
          rw [takeWhile_append_stop stop, dropWhile_append_stop stop]
      · -- The plain text ends before the seam.
        have behind : cs.dropWhile isPlain ≠ [] := fun h => plain (List.dropWhile_eq_nil_iff.mp h)
        have before : (cs.takeWhile isPlain).length ≠ cs.length := by
          intro h
          apply plain
          rw [← List.takeWhile_eq_self_iff]
          exact (List.takeWhile_prefix _).eq_of_length h
        right
        rw [List.takeWhile_append, if_neg before, List.dropWhile_append,
          if_neg (by simpa using behind)]
  | some form =>
      right
      obtain ⟨text, pieces, hpieces, hc, avoids⟩ := seam.avoids_pieces form
      have stop : ¬ (d :: cs) ++ [c] <+: text := by
        rintro ⟨more, rfl⟩
        exact hc (by simp)
      have trace := Piece.follow_fixed_append_cons stop avoids rest
      rw [← hpieces, List.cons_append] at trace
      rw [front, front, shape, hfront]
      simp only [trace]

theorem joined_prependText (before content : List Char) (segments : List Segment) :
    joined before (prependText content segments) = joined (before ++ content) segments := by
  rcases segments with _ | ⟨content' | m, segments⟩
  · rfl
  · show joined (before ++ (content ++ content')) segments = _
    rw [← List.append_assoc]
    rfl
  · rfl

theorem prependText_joined {content : List Char} (some : content ≠ []) (before : List Char)
    (segments : List Segment) :
    prependText content (joined before segments) = joined (content ++ before) segments := by
  have both (before : List Char) : content ++ before ≠ [] := by simp [some]
  have plain (before : List Char) (rest : List Segment)
      (marked : ∀ t, text t ∉ rest.head?) :
      prependText content (Segment.plain before ++ rest) =
        Segment.plain (content ++ before) ++ rest := by
    unfold Segment.plain
    rw [if_neg (both before)]
    split
    · next h =>
        subst h
        rw [List.append_nil]
        rcases rest with _ | ⟨content' | m, rest⟩
        · rfl
        · exact absurd rfl (marked content')
        · rfl
    · rfl
  induction segments generalizing before with
  | nil =>
      have alone := plain before [] (by simp)
      rwa [List.append_nil, List.append_nil] at alone
  | cons segment segments ih =>
      cases segment with
      | text content' =>
          rw [joined, ih, joined, List.append_assoc]
      | marker m => exact plain before _ (by simp)

theorem joined_split (cs : List Char) : joined [] (split cs) = split cs := by
  fun_induction split cs with
  | case1 => rfl
  | case2 c cs found m hm ih =>
      show marker m :: joined [] _ = _
      rw [ih]
  | case3 c cs found hm ih =>
      have some : found.passed ≠ [] := front_passed_ne_nil c cs
      rw [joined_prependText, List.nil_append]
      conv_rhs => rw [← ih, prependText_joined some, List.append_nil]

theorem joined_prependText_append (content : List Char) (segments after : List Segment) :
    joined [] (prependText content segments ++ after) = joined content (segments ++ after) := by
  rcases segments with _ | ⟨content' | m, segments⟩ <;> rfl

theorem split_of_isPlain {d : Char} {cs : List Char} (shape : Shape.ofFront? (d :: cs) = none)
    (plain : ∀ e ∈ cs, isPlain e = true) : split (d :: cs) = [text (d :: cs)] := by
  rw [split_cons, front, shape]
  simp only [List.takeWhile_eq_self_iff.mpr plain, List.dropWhile_eq_nil_iff.mpr plain]
  rw [split]
  rfl

/-- Plain text in which no marker can start runs on over other such text. -/
theorem split_append_of_isPlain {d : Char} {cs : List Char} (hc : isPlain c = true)
    (shape : Shape.ofFront? (d :: (cs ++ c :: rest)) = none)
    (plain : ∀ e ∈ cs, isPlain e = true) :
    split (d :: (cs ++ c :: rest)) = prependText (d :: cs) (split (c :: rest)) := by
  have passed : (cs ++ c :: rest).takeWhile isPlain = cs ++ c :: rest.takeWhile isPlain := by
    rw [List.takeWhile_append_of_pos plain, List.takeWhile_cons_of_pos hc]
  have behind : (cs ++ c :: rest).dropWhile isPlain = rest.dropWhile isPlain := by
    rw [List.dropWhile_append_of_pos plain, List.dropWhile_cons_of_pos hc]
  rw [split_cons, front, shape, split_cons, front, Shape.ofFront?_of_isPlain hc]
  simp only [passed, behind]
  rw [prependText_prependText]
  rfl

/-- **Splitting at a seam.** The two sides are split on their own. -/
theorem split_append (seam : Seam c) (a b : List Char) :
    split (a ++ c :: b) = joined [] (split a ++ split (c :: b)) := by
  match a with
  | [] =>
      rw [List.nil_append, split, List.nil_append]
      exact (joined_split (c :: b)).symm
  | d :: cs =>
      rcases front_append_cons seam d cs b with ⟨shape, plain, hc⟩ | front
      · have whole := Shape.ofFront?_append_cons seam.ne_slash d cs b
        rw [shape] at whole
        rw [List.cons_append, split_append_of_isPlain hc whole plain, split_of_isPlain shape plain]
        show _ = joined (d :: cs) (split (c :: b))
        conv_lhs => rw [← joined_split (c :: b), prependText_joined (List.cons_ne_nil d cs)]
        rw [List.append_nil]
      · have ih := split_append seam (Segment.front d cs).rest b
        rw [List.cons_append, split_cons, split_cons d cs, front]
        dsimp only
        rw [ih]
        split
        · rfl
        · rw [joined_prependText_append, prependText_joined (front_passed_ne_nil d cs),
            List.append_nil]
termination_by a.length
decreasing_by exact front_rest_length d cs

theorem markersAt_append (seam : Seam c) (site : Site) (a b : List Char) :
    markersAt site (split (a ++ c :: b)) =
      markersAt site (split a) ++ markersAt site (split (c :: b)) := by
  rw [split_append seam, markersAt, markers_joined, markers_append, List.filter_append]
  rfl

theorem markersAt_source (m : Marker) (site : Site) (proper : m.Proper) (hsite : m.site = site)
    (rest : List Char) :
    markersAt site (split (m.source ++ rest)) = m :: markersAt site (split rest) := by
  rw [split_marker proper, markersAt, markers_marker]
  exact List.filter_cons_of_pos (decide_eq_true hsite)

/-- Plain text brings no marker, as long as it does not run together with what is behind it. -/
theorem markersAt_text {text rest : List Char} (some : text ≠ []) (free : Unmarked text)
    (stops : Stops text rest) (site : Site) :
    markersAt site (split (text ++ rest)) = markersAt site (split rest) := by
  rw [split_text some free stops, ← joined_split rest, prependText_joined some, markersAt,
    markersAt, markers_joined, markers_joined]

end Segment

/-! ## A pass at a seam -/

theorem map_eq_ok {α β : Type} {x : Except Error α} {f : α → β} {result : β} :
    x.map f = .ok result ↔ ∃ a, x = .ok a ∧ f a = result := by
  cases x with
  | error error => simp [Except.map]
  | ok a => simp [Except.map]

namespace Registry

variable {registry : Registry} {site : Site} {sites : List Site} {c : Char}

theorem exchangeAll_append (registry : Registry) (site : Site) (a b : List Segment) :
    registry.exchangeAll site (a ++ b) = do
      let front ← registry.exchangeAll site a
      let back ← registry.exchangeAll site b
      return front ++ back := by
  induction a with
  | nil =>
      show registry.exchangeAll site b = _
      cases registry.exchangeAll site b <;> rfl
  | cons segment a ih =>
      rw [List.cons_append, exchangeAll, exchangeAll, ih]
      simp only [bind_assoc, pure_bind, List.append_assoc]

/-- **A pass at a seam.** It goes over the two sides one after the other. -/
theorem substitute_append (seam : Seam c) (a b : List Char) :
    registry.substitute site (a ++ c :: b) = do
      let front ← registry.substitute site a
      let back ← registry.substitute site (c :: b)
      return front ++ back := by
  rw [substitute, Segment.split_append seam, exchangeAll_joined, exchangeAll_append]
  exact congrFun Except.map_id _

theorem exchangeAll_prependText {content : List Char} (some : content ≠ []) (rest : List Char) :
    registry.exchangeAll site (Segment.prependText content (Segment.split rest)) =
      (registry.substitute site rest).map (content ++ ·) := by
  rw [← Segment.joined_split, Segment.prependText_joined some, List.append_nil,
    exchangeAll_joined]
  rfl

/-- A pass leaves plain text, as long as that does not run together with what is behind it. -/
theorem substitute_text {text rest : List Char} (some : text ≠ []) (free : Unmarked text)
    (stops : Segment.Stops text rest) :
    registry.substitute site (text ++ rest) = (registry.substitute site rest).map (text ++ ·) := by
  rw [substitute, Segment.split_text some free stops, exchangeAll_prependText some]

theorem substitute_marker {m : Marker} (proper : m.Proper) (rest : List Char) :
    registry.substitute site (m.source ++ rest) = do
      let front ← registry.exchange site (.marker m)
      let back ← registry.substitute site rest
      return front ++ back := by
  rw [substitute, Segment.split_marker proper]
  rfl

theorem substitute_of_absent {text : List Char}
    (absent : Segment.markersAt site (Segment.split text) = []) :
    registry.substitute site text = .ok text := by
  have none : ∀ m, .marker m ∈ Segment.split text → m.site ≠ site := by
    intro m hm hsite
    have found := Segment.mem_markersAt.mpr ⟨hm, hsite⟩
    rw [absent] at found
    cases found
  have settled : (Segment.split text).map (registry.settle site) = Segment.split text := by
    conv_rhs => rw [← List.map_id (Segment.split text)]
    apply List.map_congr_left
    intro segment hsegment
    cases segment with
    | text content => rfl
    | marker m => exact if_neg (none m hsegment)
  rw [substitute_eq fun m hm hsite => absurd hsite (none m hm), settled,
    Segment.flatMap_source_split]

/-- A pass leaves the first character, if no marker starts with it. -/
theorem cons_of_substitute {c : Char} (plain : Segment.isPlain c = true) {rest out : List Char}
    (h : registry.substitute site (c :: rest) = .ok out) : ∃ back, out = c :: back := by
  rw [substitute, Segment.split_cons, Segment.front, Shape.ofFront?_of_isPlain plain] at h
  dsimp only at h
  rw [exchangeAll_prependText (List.cons_ne_nil _ _), map_eq_ok] at h
  obtain ⟨back, -, rfl⟩ := h
  exact ⟨_, rfl⟩

/-- What the passes for some sites make of a text. -/
def Becomes (registry : Registry) (sites : List Site) (text out : List Char) : Prop :=
  ∃ met, registry.passes sites text = .ok ⟨met, out⟩

theorem becomes_cons {text out : List Char} :
    registry.Becomes (site :: sites) text out ↔
      ∃ next, registry.substitute site text = .ok next ∧ registry.Becomes sites next out := by
  unfold Becomes
  rw [passes]
  constructor
  · rintro ⟨met, h⟩
    obtain ⟨next, hnext, h⟩ := bind_eq_ok.mp h
    obtain ⟨⟨more, text⟩, hlater, h⟩ := bind_eq_ok.mp h
    cases h
    exact ⟨next, hnext, more, hlater⟩
  · rintro ⟨next, hnext, more, hlater⟩
    rw [hnext]
    dsimp only [bind, Except.bind]
    rw [hlater]
    exact ⟨_, rfl⟩

theorem becomes_of_resolve {source : String} {resolution : Resolution}
    (resolved : registry.resolve source = .ok resolution) :
    registry.Becomes [.attribute, .inner, .unrender] source.toList resolution.code.toList := by
  rw [resolve_eq_passes] at resolved
  obtain ⟨⟨met, out⟩, hpasses, resolved⟩ := bind_eq_ok.mp resolved
  obtain ⟨-, -, resolved⟩ := bind_eq_ok.mp resolved
  cases resolved
  rw [String.toList_ofList]
  exact ⟨met, hpasses⟩

/-- **Passes at a blank.** They go over the two sides one after the other. -/
theorem becomes_append {a b out : List Char} (h : registry.Becomes sites (a ++ ' ' :: b) out) :
    ∃ front back, registry.Becomes sites a front ∧ registry.Becomes sites (' ' :: b) back ∧
      out = front ++ back := by
  induction sites generalizing a b with
  | nil =>
      obtain ⟨met, h⟩ := h
      cases h
      exact ⟨a, ' ' :: b, ⟨[], rfl⟩, ⟨[], rfl⟩, rfl⟩
  | cons site sites ih =>
      have blank : Seam ' ' := Or.inr (by decide)
      obtain ⟨next, hnext, later⟩ := becomes_cons.mp h
      rw [substitute_append blank] at hnext
      obtain ⟨first, hfirst, hnext⟩ := bind_eq_ok.mp hnext
      obtain ⟨second, hsecond, hnext⟩ := bind_eq_ok.mp hnext
      cases hnext
      obtain ⟨behind, rfl⟩ := cons_of_substitute (by decide) hsecond
      obtain ⟨front, back, hfront, hback, rfl⟩ := ih later
      exact ⟨front, back, becomes_cons.mpr ⟨first, hfirst, hfront⟩,
        becomes_cons.mpr ⟨_, hsecond, hback⟩, rfl⟩

end Registry

/-! ## Wrappers -/

namespace Marker

/-- The markers of a wrapper start as tags with marker text in their names. -/
theorem bracket_infix {m : Marker} (wrapper : m.site = .unrender) :
    '<' :: stem.toList <:+: m.source ∨ '<' :: '/' :: stem.toList <:+: m.source := by
  have tag (ref : Ref) : stem.toList <+: (wrapperTag ref).toList ++ ['>'] := by
    rw [toList_wrapperTag, List.append_assoc]
    exact List.IsPrefix.trans (by decide) (List.prefix_append "__OVERRIDE_UNRENDER__".toList _)
  rcases m with ⟨ref, name⟩ | ref | ref | ref
  · cases wrapper
  · cases wrapper
  · exact Or.inl (List.cons_prefix_cons.mpr ⟨rfl, tag ref⟩).isInfix
  · refine Or.inr (List.IsPrefix.isInfix ?_)
    exact List.cons_prefix_cons.mpr ⟨rfl, List.cons_prefix_cons.mpr ⟨rfl, tag ref⟩⟩

end Marker

/-- A text in which no tag of a wrapper starts. -/
def Untagged (text : List Char) : Prop :=
  ¬ '<' :: Marker.stem.toList <:+: text ∧ ¬ '<' :: '/' :: Marker.stem.toList <:+: text

theorem untagged_of_unmarked {text : List Char} (free : Unmarked text) : Untagged text :=
  ⟨fun h => free ((List.suffix_cons _ _).isInfix.trans h),
    fun h => free (((List.suffix_cons _ _).trans (List.suffix_cons _ _)).isInfix.trans h)⟩

theorem untagged_of_notMem {text : List Char} (none : '<' ∉ text) : Untagged text :=
  ⟨fun h => none (h.subset List.mem_cons_self), fun h => none (h.subset List.mem_cons_self)⟩

theorem untagged_append_cons {a b : List Char} {d : Char}
    (hd : d ∉ '<' :: '/' :: Marker.stem.toList) :
    Untagged (a ++ d :: b) ↔ Untagged a ∧ Untagged b := by
  have hopen : d ∉ '<' :: Marker.stem.toList := fun h => hd (by
    rcases List.mem_cons.mp h with rfl | h
    · exact List.mem_cons_self
    · exact List.mem_cons_of_mem _ (List.mem_cons_of_mem _ h))
  unfold Untagged
  rw [infix_append_cons_iff hopen, infix_append_cons_iff hd]
  tauto

namespace Segment

variable {a b : List Char}

theorem markersAt_unrender_eq_nil
    (none : ∀ m : Marker, m.site = .unrender → ¬ m.source <:+: a) :
    markersAt .unrender (split a) = [] := by
  rw [List.eq_nil_iff_forall_not_mem]
  intro m hm
  obtain ⟨found, wrapper⟩ := mem_markersAt.mp hm
  exact none m wrapper (source_infix_of_mem_split found)

theorem markersAt_of_untagged (free : Untagged a) : markersAt .unrender (split a) = [] := by
  apply markersAt_unrender_eq_nil
  intro m wrapper h
  rcases Marker.bracket_infix wrapper with tag | tag
  · exact free.1 (tag.trans h)
  · exact free.2 (tag.trans h)

/-- For wrappers only what stands before the next `<` has to be looked at. -/
theorem markersAt_skip (none : ∀ q, '<' ∉ q → q <+: b → markersAt .unrender (split (a ++ q)) = []) :
    markersAt .unrender (split (a ++ b)) = markersAt .unrender (split b) := by
  by_cases more : '<' ∈ b
  · obtain ⟨q, r, rfl, hq⟩ := List.eq_append_cons_of_mem more
    have seam : Seam '<' := Or.inl rfl
    rw [← List.append_assoc, markersAt_append seam, markersAt_append seam,
      none q hq (List.prefix_append _ _), markersAt_of_untagged (untagged_of_notMem hq)]
  · rw [none b more List.prefix_rfl, markersAt_of_untagged (untagged_of_notMem more)]

theorem markersAt_append_of_notMem (none : '<' ∉ a) :
    markersAt .unrender (split (a ++ b)) = markersAt .unrender (split b) := by
  apply markersAt_skip
  intro q hq _
  apply markersAt_of_untagged (untagged_of_notMem _)
  rw [List.mem_append]
  exact not_or.mpr ⟨none, hq⟩

/-- Plain text up to a character at which no tag can have started. -/
theorem markersAt_append_of_untagged {d : Char} (hd : d ∉ '<' :: '/' :: Marker.stem.toList)
    (free : Untagged a) :
    markersAt .unrender (split (a ++ d :: b)) = markersAt .unrender (split b) := by
  have angle : '<' ∉ [d] := by
    rintro mem
    rw [List.mem_singleton] at mem
    exact hd (mem ▸ List.mem_cons_self)
  rw [← markersAt_append_of_notMem (b := b) angle]
  apply markersAt_skip
  intro q hq hprefix
  rcases q with _ | ⟨e, q⟩
  · rw [List.append_nil]
    exact markersAt_of_untagged free
  · obtain ⟨rfl, -⟩ := List.cons_prefix_cons.mp hprefix
    apply markersAt_of_untagged
    rw [untagged_append_cons hd]
    exact ⟨free, untagged_of_notMem (List.not_mem_of_not_mem_cons hq)⟩

end Segment

namespace Registry

variable {registry : Registry} {a b : List Char}

/-- The pass over wrappers leaves a text alone that holds no wrapper and does not end like the start
of one. -/
theorem substitute_unrender_append
    (none : ∀ m : Marker, m.site = .unrender → ¬ m.source <:+: a)
    (last : ∀ c ∈ a.getLast?, ∀ m : Marker, m.site = .unrender → c ∉ m.source) :
    registry.substitute .unrender (a ++ b) =
      (registry.substitute .unrender b).map (a ++ ·) := by
  have alone (q : List Char) (hq : '<' ∉ q) :
      registry.substitute .unrender (a ++ q) = .ok (a ++ q) := by
    apply substitute_of_absent
    apply Segment.markersAt_unrender_eq_nil
    intro m wrapper h
    rcases infix_append_of_last (fun c hc => last c hc m wrapper) h with h | h
    · exact none m wrapper h
    · have tags := untagged_of_notMem hq
      rcases Marker.bracket_infix wrapper with tag | tag
      · exact tags.1 (tag.trans h)
      · exact tags.2 (tag.trans h)
  have plain (q : List Char) (hq : '<' ∉ q) : registry.substitute .unrender q = .ok q :=
    substitute_of_absent (Segment.markersAt_of_untagged (untagged_of_notMem hq))
  by_cases more : '<' ∈ b
  · obtain ⟨q, r, rfl, hq⟩ := List.eq_append_cons_of_mem more
    have seam : Seam '<' := Or.inl rfl
    rw [← List.append_assoc, substitute_append seam, substitute_append seam, alone q hq, plain q hq]
    cases registry.substitute .unrender ('<' :: r) with
    | error error => rfl
    | ok back => exact congrArg Except.ok (List.append_assoc a q back)
  · rw [alone b more, plain b more]
    rfl

end Registry

end LateMarkup
