import Mathlib.Data.List.Chain
import LateMarkup.Proofs.Occurrence
import LateMarkup.Proofs.Spelling

/-! # Splitting what was put together

Text that is put together from markers and plain text is split at the same places again, provided
that the plain text holds no marker text of its own. Two things could go wrong. A failed attempt
could start in the plain text and run on into the marker behind it; it does not, because no spelling
goes on with the first character of a marker, except that an underscore may follow an underscore,
which is why an attribute marker has to stand behind a blank. And a marker could be followed too
far; it is not, because each spelling ends with a character of its own (`front_marker`).

The plain text between two markers may itself come in parts. `Readable` therefore carries the plain
text that was met since the last marker, and `joined` puts the parts together.
-/

namespace LateMarkup

/-! ## Plain text at the front -/

namespace Piece

/-- Where two texts have parted, more text changes nothing. -/
theorem shared_append {text cs rest : List Char}
    (stop : ∀ c ∈ rest.head?, ¬ cs ++ [c] <+: text) :
    shared text (cs ++ rest) = shared text cs := by
  induction text generalizing cs with
  | nil => cases cs <;> cases rest <;> rfl
  | cons t text ih =>
      cases cs with
      | nil =>
          cases rest with
          | nil => rfl
          | cons r rest =>
              have hne : ¬ t = r := by
                rintro rfl
                exact stop t rfl ⟨text, rfl⟩
              simp [shared, hne]
      | cons c cs =>
          by_cases h : t = c
          · subst h
            have inner : shared text (cs ++ rest) = shared text cs := ih fun d hd hpre =>
              stop d hd (List.cons_prefix_cons.mpr ⟨rfl, hpre⟩)
            simp [shared, inner]
          · simp [shared, h]

theorem shared_prefix (text cs : List Char) : shared text cs <+: cs := by
  refine ⟨cs.drop (shared text cs).length, ?_⟩
  exact shared_append_drop text cs

end Piece

namespace Shape

/-- What a spelling starts with: characters that hold the stem, none of them a blank, and behind the
first of them none with which another marker starts, apart from underscores. -/
theorem pieces_eq_fixed_cons (shape : Shape) :
    ∃ text pieces, shape.pieces = .fixed text :: pieces ∧ Marker.stem.toList <:+: text ∧
      (∀ c ∈ text.tail, c ≠ '=' ∧ c ≠ '<') ∧ ∀ c ∈ text, Text.isBlank c = false := by
  cases shape
  all_goals
    refine ⟨_, _, rfl, ?_, ?_, ?_⟩
    all_goals
      simp only [Marker.stem, String.reduceToList]
      decide

end Shape

namespace Segment

/-- What may stand behind plain text so that the two do not run together. -/
def Stops (text rest : List Char) : Prop :=
  ∀ c ∈ rest.head?, c = '=' ∨ c = '<' ∨ c = '_' ∧ ∃ d ∈ text.getLast?, Text.isBlank d = true

theorem Stops.of_append {a b rest : List Char} (h : Stops (a ++ b) rest) (some : b ≠ []) :
    Stops b rest := by
  intro c hc
  have hlast : (a ++ b).getLast? = b.getLast? := by
    rw [List.getLast?_append, List.getLast?_eq_some_getLast some, Option.some_or]
  rw [← hlast]
  exact h c hc

/-- No spelling is followed out of plain text. -/
theorem Stops.not_prefix {shape : Shape} {text spelled rest : List Char} {pieces : List Piece}
    (hpieces : shape.pieces = .fixed spelled :: pieces) (h : Stops text rest) (some : text ≠ []) :
    ∀ c ∈ rest.head?, ¬ text ++ [c] <+: spelled := by
  obtain ⟨_, _, heq, -, interior, blank⟩ := shape.pieces_eq_fixed_cons
  obtain ⟨rfl, rfl⟩ : spelled = _ ∧ pieces = _ := by
    rw [hpieces] at heq
    simpa using heq
  intro c hc hpre
  obtain ⟨t, text, rfl⟩ := List.exists_cons_of_ne_nil some
  obtain ⟨more, rfl⟩ := hpre
  have hinterior := interior c (by simp)
  rcases h c hc with rfl | rfl | ⟨-, d, hd, hblank⟩
  · exact hinterior.1 rfl
  · exact hinterior.2 rfl
  · have hmem : d ∈ t :: text := List.mem_of_getLast? hd
    rw [blank d (List.mem_append_left _ (List.mem_append_left _ hmem))] at hblank
    cases hblank

/-- At the front of plain text no marker is found, and what is passed is plain text. -/
theorem front_text {c : Char} {cs rest : List Char} (free : Unmarked (c :: cs))
    (stops : Stops (c :: cs) rest) :
    ∃ seen behind, seen ++ behind = c :: cs ∧
      front c (cs ++ rest) = ⟨none, seen, behind ++ rest⟩ := by
  unfold front
  split
  · refine ⟨c :: cs.takeWhile isPlain, cs.dropWhile isPlain, by simp, ?_⟩
    have stop : ∀ d ∈ rest.head?, isPlain d = false := by
      intro d hd
      rcases stops d hd with rfl | rfl | ⟨rfl, -⟩ <;> rfl
    rw [takeWhile_append_stop stop, dropWhile_append_stop stop]
  · next shape _ =>
      obtain ⟨spelled, pieces, hpieces, stem, -⟩ := shape.pieces_eq_fixed_cons
      have hshared : Piece.shared spelled (c :: (cs ++ rest)) = Piece.shared spelled (c :: cs) :=
        Piece.shared_append (stops.not_prefix hpieces (List.cons_ne_nil c cs))
      have hpre := Piece.shared_prefix spelled (c :: cs)
      have hne : Piece.shared spelled (c :: cs) ≠ spelled := by
        intro heq
        rw [heq] at hpre
        exact free (stem.trans hpre.isInfix)
      refine ⟨_, _, Piece.shared_append_drop spelled (c :: cs), ?_⟩
      rw [hpieces, Piece.follow, hshared, if_neg hne, ← List.cons_append,
        List.drop_append_of_le_length hpre.length_le]
      rfl

/-! ## Splitting one part off -/

theorem split_cons (c : Char) (cs : List Char) :
    split (c :: cs) =
      match (front c cs).marker? with
      | some m => marker m :: split (front c cs).rest
      | none => prependText (front c cs).passed (split (front c cs).rest) :=
  split.eq_2 c cs

theorem split_marker {m : Marker} (proper : m.Proper) (rest : List Char) :
    split (m.source ++ rest) = marker m :: split rest := by
  obtain ⟨c, cs, h⟩ : ∃ c cs, m.source ++ rest = c :: cs := by
    apply List.exists_cons_of_ne_nil
    simp [m.source_ne_nil]
  rw [h, split_cons, front_marker proper h]

theorem prependText_prependText (a b : List Char) (segments : List Segment) :
    prependText a (prependText b segments) = prependText (a ++ b) segments := by
  rcases segments with _ | ⟨_ | _, segments⟩ <;> simp [prependText]

theorem split_text {text rest : List Char} (some : text ≠ []) (free : Unmarked text)
    (stops : Stops text rest) : split (text ++ rest) = prependText text (split rest) := by
  obtain ⟨c, cs, rfl⟩ := List.exists_cons_of_ne_nil some
  obtain ⟨seen, behind, hwhole, hfront⟩ := front_text free stops
  have hseen : seen ≠ [] := by
    have := front_passed_ne_nil c (cs ++ rest)
    rwa [hfront] at this
  rw [List.cons_append, split_cons, hfront, ← hwhole]
  -- A spelling that breaks off may leave some of the text, which is shorter plain text again.
  by_cases hbehind : behind = []
  · subst hbehind
    simp
  · have shorter : behind.length < (c :: cs).length := by
      rw [← hwhole, List.length_append]
      have := List.length_pos_iff.mpr hseen
      omega
    rw [← hwhole] at free stops
    have ih := split_text hbehind free.right (stops.of_append hbehind)
    simp only [ih]
    exact prependText_prependText seen behind (split rest)
termination_by text.length

/-! ## Text that is passed over

The open tag of a wrapper is a marker only as long as nothing stands in it but its name. With an
attribute it is no marker any more, although it starts like one. -/

/-- Text in which no marker is found: plain text, and between plain texts the starts of tags that
would be markers if no blank stood behind the name. -/
inductive Inert : List Char → Prop
  | unmarked {text : List Char} (free : Unmarked text) : Inert text
  | stub {before after : List Char} (ref : Ref) (free : Unmarked before)
      (inert : Inert (' ' :: after)) :
      Inert (before ++ '<' :: ((Marker.wrapperTag ref).toList ++ ' ' :: after))

@[simp] theorem Inert.nil : Inert [] := .unmarked Unmarked.nil

theorem front_stub (ref : Ref) (rest : List Char) :
    front '<' ((Marker.wrapperTag ref).toList ++ ' ' :: rest) =
      ⟨none, '<' :: (Marker.wrapperTag ref).toList, ' ' :: rest⟩ := by
  have shape : Shape.ofFront? ('<' :: ((Marker.wrapperTag ref).toList ++ ' ' :: rest)) =
      some .opening := by
    rw [Marker.toList_wrapperTag]
    simp only [String.reduceToList, List.cons_append]
    rfl
  have spelled : '<' :: ((Marker.wrapperTag ref).toList ++ ' ' :: rest) =
      "<__OVERRIDE_UNRENDER__e0".toList ++ (ref.tail ++ ' ' :: rest) := by
    rw [Marker.toList_wrapperTag, Ref.toList_text]
    simp only [String.reduceToList, List.cons_append, List.nil_append]
  have stop : ∀ c ∈ (' ' :: rest).head?, Ref.isTailChar c = false := by
    intro c hc
    cases hc
    rfl
  have inside : ∀ c ∈ ref.tail, Ref.isTailChar c = true := fun c hc => Ref.isTailChar_of_mem_tail hc
  have wrapped : '<' :: (Marker.wrapperTag ref).toList =
      "<__OVERRIDE_UNRENDER__e0".toList ++ ref.tail := by
    rw [Marker.toList_wrapperTag, Ref.toList_text]
    simp only [String.reduceToList, List.cons_append, List.nil_append]
  have close : Piece.follow [.fixed ">".toList] (' ' :: rest) = ⟨[], ' ' :: rest, none⟩ := by
    simp [Piece.follow, Piece.shared]
  have trace : Piece.follow Shape.opening.pieces
      ('<' :: ((Marker.wrapperTag ref).toList ++ ' ' :: rest)) =
        ⟨'<' :: (Marker.wrapperTag ref).toList, ' ' :: rest, none⟩ := by
    rw [spelled, wrapped, Shape.pieces, Piece.follow, Piece.shared_self_append, List.drop_left,
      if_pos rfl, Piece.follow, takeWhile_append_stop stop, dropWhile_append_stop stop,
      List.takeWhile_eq_self_iff.mpr inside, List.dropWhile_eq_nil_iff.mpr inside,
      if_neg ref.tail_ne_nil, List.nil_append, close]
    simp
  rw [front, shape]
  simp only [trace, Option.bind_none]

theorem split_inert {text rest : List Char} (some : text ≠ []) (h : Inert text)
    (stops : Stops text rest) : split (text ++ rest) = prependText text (split rest) := by
  induction h with
  | unmarked free => exact split_text some free stops
  | @stub before after ref free inert ih =>
      -- The tag is followed up to the blank, and there plain text goes on.
      have behind : split (' ' :: after ++ rest) = prependText (' ' :: after) (split rest) := by
        refine ih (List.cons_ne_nil _ _) ?_
        rw [← List.cons_append, ← List.append_assoc] at stops
        exact stops.of_append (List.cons_ne_nil _ _)
      have tag : split ('<' :: ((Marker.wrapperTag ref).toList ++ ' ' :: (after ++ rest))) =
          prependText ('<' :: (Marker.wrapperTag ref).toList ++ ' ' :: after) (split rest) := by
        rw [split_cons, front_stub]
        exact (congrArg _ behind).trans (prependText_prependText _ _ _)
      rw [List.append_assoc, List.cons_append, List.append_assoc, List.cons_append]
      by_cases hbefore : before = []
      · subst hbefore
        exact tag
      · rw [split_text hbefore free (by intro c hc; cases hc; exact Or.inr (Or.inl rfl)), tag,
          prependText_prependText]
        rfl

theorem Inert.append_cons {a b : List Char} {c : Char} (h : Inert a) (hc : Breaks c)
    (free : Unmarked b) : Inert (a ++ c :: b) := by
  induction h with
  | unmarked ha => exact .unmarked ((unmarked_append_cons hc).mpr ⟨ha, free⟩)
  | stub ref hbefore _ ih =>
      rw [List.append_assoc, List.cons_append, List.append_assoc]
      exact .stub ref hbefore ih

theorem Inert.append_stub {a b : List Char} (h : Inert a) (ref : Ref) (free : Unmarked b) :
    Inert (a ++ '<' :: ((Marker.wrapperTag ref).toList ++ ' ' :: b)) := by
  induction h with
  | unmarked ha =>
      exact .stub ref ha (.unmarked ((unmarked_cons (by decide)).mpr free))
  | stub other hbefore _ ih =>
      rw [List.append_assoc, List.cons_append, List.append_assoc]
      exact .stub other hbefore ih

/-! ## Splitting many parts -/

/-- Plain text as segments, of which there are none if it is empty. -/
def plain (content : List Char) : List Segment := if content = [] then [] else [text content]

/-- Segments with the plain text between two markers in one piece, behind the plain text `before`.
-/
def joined (before : List Char) : List Segment → List Segment
  | [] => plain before
  | text content :: rest => joined (before ++ content) rest
  | marker m :: rest => plain before ++ marker m :: joined [] rest

/-- A marker that may stand behind plain text: an attribute is written behind a blank. -/
def Follows (before : List Char) (m : Marker) : Prop :=
  m.site = .attribute → ∀ c ∈ before.getLast?, Text.isBlank c = true

/-- Behind the plain text `before`, no marker is found in the plain text between two markers, and
every marker can be told from it. -/
def Readable (before : List Char) : List Segment → Prop
  | [] => Inert before
  | text content :: rest => Readable (before ++ content) rest
  | marker m :: rest => Inert before ∧ Follows before m ∧ m.Proper ∧ Readable [] rest

theorem Follows.stops {before : List Char} {m : Marker} (h : Follows before m)
    (some : before ≠ []) (rest : List Char) : Stops before (m.source ++ rest) := by
  intro c hc
  rcases m with ⟨ref, name⟩ | ref | ref | ref
  · simp only [Marker.source, Marker.toList_attributeName, String.reduceToList, List.cons_append,
      List.head?_cons, Option.mem_some_iff] at hc
    refine Or.inr (Or.inr ⟨hc.symm, before.getLast some, ?_, ?_⟩)
    · exact List.getLast?_eq_some_getLast some
    · exact h rfl _ (List.getLast?_eq_some_getLast some)
  · exact Or.inl (by simpa [Marker.source] using hc.symm)
  · exact Or.inr (Or.inl (by simpa [Marker.source] using hc.symm))
  · exact Or.inr (Or.inl (by simpa [Marker.source] using hc.symm))

theorem split_plain {before : List Char} (inert : Inert before) : split before = plain before := by
  by_cases h : before = []
  · subst h
    rw [split]
    rfl
  · have whole : split (before ++ []) = prependText before (split []) :=
      split_inert h inert (by intro c hc; cases hc)
    rw [List.append_nil] at whole
    rw [whole, split, plain, if_neg h]
    rfl

/-- **Splitting is the inverse of putting together.** Parts that can be told from each other are
found again, with adjacent plain text in one piece. -/
theorem split_of_readable {before : List Char} {segments : List Segment}
    (h : Readable before segments) :
    split (before ++ segments.flatMap source) = joined before segments := by
  -- The text in front grows until a marker ends it.
  induction segments generalizing before with
  | nil =>
      rw [List.flatMap_nil, List.append_nil]
      exact split_plain h
  | cons segment segments ih =>
      rw [List.flatMap_cons]
      cases segment with
      | text content =>
          rw [← List.append_assoc]
          exact ih h
      | marker m =>
          obtain ⟨inert, follows, proper, readable⟩ := h
          have hmarker : split (m.source ++ segments.flatMap source) =
              marker m :: joined [] segments := by
            rw [split_marker proper]
            exact congrArg _ (ih readable)
          show split (before ++ (m.source ++ _)) = plain before ++ marker m :: joined [] segments
          by_cases hbefore : before = []
          · subst hbefore
            exact hmarker
          · rw [split_inert hbefore inert (follows.stops hbefore _), hmarker, plain, if_neg hbefore]
            rfl

theorem split_source {segments : List Segment} (h : Readable [] segments) :
    split (segments.flatMap source) = joined [] segments :=
  split_of_readable h

/-! ## What is found -/

theorem flatMap_source_prependText (content : List Char) (segments : List Segment) :
    (prependText content segments).flatMap source = content ++ segments.flatMap source := by
  rcases segments with _ | ⟨_ | _, segments⟩ <;> simp [prependText, source]

theorem marker_mem_prependText {m : Marker} {content : List Char} {segments : List Segment} :
    marker m ∈ prependText content segments ↔ marker m ∈ segments := by
  rcases segments with _ | ⟨_ | _, segments⟩ <;> simp [prependText]

theorem marker_mem_joined {m : Marker} {before : List Char} {segments : List Segment} :
    marker m ∈ joined before segments ↔ marker m ∈ segments := by
  have notMem_plain : ∀ before, marker m ∉ plain before := by
    intro before h
    unfold plain at h
    split at h <;> simp at h
  induction segments generalizing before with
  | nil => simp [joined, notMem_plain]
  | cons segment segments ih =>
      cases segment with
      | text content => simp [joined, ih]
      | marker n => simp [joined, ih, notMem_plain]

theorem flatMap_source_split (cs : List Char) : (split cs).flatMap source = cs := by
  fun_induction split cs with
  | case1 => rfl
  | case2 c cs found m hm ih =>
      obtain ⟨passed, -⟩ := source_of_front hm
      rw [List.flatMap_cons, ih]
      show m.source ++ _ = _
      rw [← passed]
      exact front_passed_append_rest c cs
  | case3 c cs found _ ih =>
      rw [flatMap_source_prependText, ih]
      exact front_passed_append_rest c cs

theorem source_infix_of_mem_split {cs : List Char} {m : Marker} (h : marker m ∈ split cs) :
    m.source <:+: cs := by
  obtain ⟨before, behind, heq⟩ := List.append_of_mem h
  have whole := flatMap_source_split cs
  rw [heq, List.flatMap_append, List.flatMap_cons, ← List.append_assoc] at whole
  exact ⟨_, _, whole⟩

theorem proper_of_mem_split {cs : List Char} {m : Marker} (h : marker m ∈ split cs) :
    m.Proper := by
  fun_induction split cs with
  | case1 => cases h
  | case2 c cs found n hn ih =>
      rcases List.mem_cons.mp h with heq | h
      · cases heq
        exact (source_of_front hn).2
      · exact ih h
  | case3 c cs found _ ih => exact ih (marker_mem_prependText.mp h)

/-! ## Serialized markup -/

/-- A part of serialized markup: plain text that is not empty and holds no marker text, or a marker
that such markup can hold. -/
def Canonical : Segment → Prop
  | text content => content ≠ [] ∧ Unmarked content
  | marker m => m.Proper

/-- Whether a part may stand before another. Plain text comes in one piece, and before an attribute
marker it ends with a blank. -/
def MayMeet : Segment → Segment → Prop
  | text _, text _ => False
  | text content, marker m => m.site = .attribute → content.getLast?.any Text.isBlank = true
  | marker _, _ => True

instance : DecidablePred Canonical
  | text _ => inferInstanceAs (Decidable (_ ∧ _))
  | marker m => inferInstanceAs (Decidable m.Proper)

instance : DecidableRel MayMeet
  | text _, text _ => inferInstanceAs (Decidable False)
  | text _, marker _ => inferInstanceAs (Decidable (_ → _))
  | marker _, _ => inferInstanceAs (Decidable True)

/-- Canonical parts are readable, and there is nothing to be joined in them. -/
theorem readable_of_canonical : ∀ {segments : List Segment},
    (∀ s ∈ segments, s.Canonical) → segments.IsChain MayMeet →
      Readable [] segments ∧ joined [] segments = segments
  | [], _, _ => ⟨Inert.nil, rfl⟩
  | [text content], canonical, _ => by
      obtain ⟨some, free⟩ := canonical _ List.mem_cons_self
      exact ⟨.unmarked free, if_neg some⟩
  | text _ :: text _ :: _, _, meet => by
      cases meet with
      | cons_cons h _ => exact absurd h id
  | text content :: marker m :: segments, canonical, meet => by
      obtain ⟨some, free⟩ := canonical _ List.mem_cons_self
      have proper : m.Proper := canonical (marker m) (by simp)
      cases meet with
      | cons_cons h meet =>
          have tail : segments.IsChain MayMeet := meet.tail
          obtain ⟨readable, hjoined⟩ :=
            readable_of_canonical (fun s hs => canonical s (by simp [hs])) tail
          have follows : Follows content m := by
            intro hsite c hc
            have blank := h hsite
            rwa [Option.mem_def.mp hc] at blank
          refine ⟨⟨.unmarked free, follows, proper, readable⟩, ?_⟩
          show plain content ++ marker m :: joined [] segments = _
          rw [hjoined, plain, if_neg some]
          rfl
  | marker m :: segments, canonical, meet => by
      have tail : segments.IsChain MayMeet := meet.tail
      obtain ⟨readable, hjoined⟩ :=
        readable_of_canonical (fun s hs => canonical s (by simp [hs])) tail
      refine ⟨⟨Inert.nil, ?_, canonical _ List.mem_cons_self, readable⟩, congrArg _ hjoined⟩
      intro _ c hc
      cases hc

/-- A text is split into the canonical parts that it is spelled with. -/
theorem split_of_spelled {content : List Char} {segments : List Segment}
    (spelled : content = segments.flatMap source) (canonical : ∀ s ∈ segments, s.Canonical)
    (meet : segments.IsChain MayMeet) : split content = segments := by
  obtain ⟨readable, hjoined⟩ := readable_of_canonical canonical meet
  rw [spelled, split_source readable, hjoined]

/-- **The markers of serialized markup are found exactly.** Canonical parts that may stand beside
each other are the parts into which the whole is split. -/
theorem split_canonical {segments : List Segment} (canonical : ∀ s ∈ segments, s.Canonical)
    (meet : segments.IsChain MayMeet) : split (segments.flatMap source) = segments :=
  split_of_spelled rfl canonical meet

/-- Plain text and markers that all but run together: the text stops one character short of the
stem, one ref is the start of the other, and the name holds a marker prefix. -/
def crowded : List Segment :=
  let short : Ref := ⟨"e0a", by decide⟩
  let long : Ref := ⟨"e0a1", by decide⟩
  [text "</__OVERRIDE".toList, marker (.inner short), marker (.closing long),
    text "=\"_ ".toList, marker (.attribute short "x__OVERRIDE_ATTR__e0a1__y"),
    marker (.attribute long "__"), text "<".toList, marker (.opening short)]

theorem split_crowded :
    (∀ s ∈ crowded, s.Canonical) ∧ crowded.IsChain MayMeet ∧
      split (crowded.flatMap source) = crowded := by
  have canonical : ∀ s ∈ crowded, s.Canonical := by decide
  have meet : crowded.IsChain MayMeet := by decide
  exact ⟨canonical, meet, split_canonical canonical meet⟩

end Segment

end LateMarkup
