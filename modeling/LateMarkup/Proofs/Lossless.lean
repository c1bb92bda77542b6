import LateMarkup.Proofs.Splitting

/-!
# The segments of any text

Nothing is known here of the text that is split: it may hold broken markers, markers that are cut
off at its end, and markers that start inside a failed attempt. Still its segments put the text
together again, each marker is spelled in the one way that its form allows, and the plain text
between two markers holds no marker when it is split by itself.

For the markers, `Shape.read?` reads a stretch of text by cutting off what is fixed in it, without a
look at how it was found. That both ways agree (`read?_followed`) says that a spelling which was
followed to its end is never turned down.

For the plain text, what was passed over stays passed over when the text behind it is cut off
(`front_cut`): a spelling broke off because of a character that is either still there or gone.
-/

namespace LateMarkup

/-! ## Reading a spelling -/

namespace Shape

def between? (start stop cs : List Char) : Option Ref := do
  let behind ← cs.dropPrefix? start
  let ref ← behind.dropSuffix? stop
  Ref.ofString? (String.ofList ref)

/-- The marker that a stretch of text spells, read by cutting off what is fixed in its form. -/
def read? : Shape → List Char → Option Marker
  | .attribute, cs => do
    let behind ← cs.dropPrefix? "__OVERRIDE_ATTR__".toList
    let inside ← behind.dropSuffix? "=\"\"".toList
    let (ref, name) ← inside.dropInfix? "__".toList
    return .attribute (← Ref.ofString? (String.ofList ref)) (String.ofList name)
  | .inner, cs => (between? "=\"__OVERRIDE_INNER__".toList "\"".toList cs).map .inner
  | .opening, cs => (between? "<__OVERRIDE_UNRENDER__".toList ">".toList cs).map .opening
  | .closing, cs => (between? "</__OVERRIDE_UNRENDER__".toList ">".toList cs).map .closing

theorem dropPrefix?_eq_some {start cs rest : List Char} :
    cs.dropPrefix? start = some rest ↔ cs = start ++ rest := by
  rw [List.dropPrefix?_eq_some_iff]
  constructor
  · rintro ⟨found, rfl, heq⟩
    rw [eq_of_beq heq]
  · rintro rfl
    exact ⟨start, rfl, beq_self_eq_true start⟩

theorem dropSuffix?_eq_some {stop cs front : List Char} :
    cs.dropSuffix? stop = some front ↔ cs = front ++ stop := by
  rw [List.dropSuffix?_eq_some_iff]
  constructor
  · rintro ⟨found, rfl, heq⟩
    rw [eq_of_beq heq]
  · rintro rfl
    exact ⟨stop, rfl, beq_self_eq_true stop⟩

theorem ofString?_ofList {cs : List Char} {ref : Ref} :
    Ref.ofString? (String.ofList cs) = some ref ↔ cs = ref.text.toList := by
  rw [Ref.ofString?_eq_some_iff, ← String.toList_inj, String.toList_ofList]

theorem between?_eq_some_iff {start stop cs : List Char} {ref : Ref} :
    between? start stop cs = some ref ↔ cs = start ++ (ref.text.toList ++ stop) := by
  simp only [between?, Option.bind_eq_bind, Option.bind_eq_some_iff, dropPrefix?_eq_some,
    dropSuffix?_eq_some, ofString?_ofList]
  constructor
  · rintro ⟨_, rfl, _, rfl, rfl⟩
    rfl
  · rintro rfl
    exact ⟨_, rfl, _, rfl, rfl⟩

theorem dropInfix?_ref (ref : Ref) (name : List Char) :
    (ref.text.toList ++ ("__".toList ++ name)).dropInfix? "__".toList =
      some (ref.text.toList, name) := by
  rw [List.dropInfix?_eq_some_iff]
  constructor
  · exact ⟨"__".toList, (List.append_assoc _ _ _).symm, beq_self_eq_true _⟩
  · intro before between behind heq hbetween
    obtain rfl := eq_of_beq hbetween
    by_contra hshort
    rw [not_le] at hshort
    -- Otherwise the ref would go on with an underscore behind `before`.
    rw [List.append_assoc] at heq
    have hat := congrArg (fun chars => chars[before.length]?) heq
    simp only [List.getElem?_append_left hshort, List.getElem?_append_right (Nat.le_refl _),
      Nat.sub_self] at hat
    have hmem : '_' ∈ ref.text.toList := List.mem_of_getElem? (hat.trans rfl)
    cases Ref.isTailChar_of_mem hmem

theorem read?_attribute {cs : List Char} {ref : Ref} {name : String} :
    read? .attribute cs = some (.attribute ref name) ↔
      cs = (Marker.attribute ref name).source := by
  have hsource : (Marker.attribute ref name).source =
      "__OVERRIDE_ATTR__".toList ++
        ((ref.text.toList ++ ("__".toList ++ name.toList)) ++ "=\"\"".toList) := by
    rw [Marker.source, Marker.toList_attributeName, List.append_assoc]
    rfl
  rw [hsource]
  simp only [read?, Option.bind_eq_bind, Option.bind_eq_some_iff, dropPrefix?_eq_some,
    dropSuffix?_eq_some]
  constructor
  · rintro ⟨_, rfl, inside, rfl, ⟨text, chars⟩, hsplit, found, hfound, heq⟩
    obtain ⟨rfl, rfl⟩ : found = ref ∧ String.ofList chars = name := by
      simpa using heq
    obtain ⟨⟨between, rfl, hbetween⟩, -⟩ := List.dropInfix?_eq_some_iff.mp hsplit
    have htext : text = found.text.toList := ofString?_ofList.mp hfound
    have hchars : (String.ofList chars).toList = chars := String.toList_ofList
    rw [eq_of_beq hbetween, htext, hchars, List.append_assoc found.text.toList]
  · rintro rfl
    refine ⟨_, rfl, _, rfl, _, dropInfix?_ref ref name.toList, ref, ?_, ?_⟩
    · exact ofString?_ofList.mpr rfl
    · rw [String.ofList_toList]
      rfl

/-- **Each marker has one spelling.** A stretch of text is read as a marker of a form exactly if it
is the source of that marker. -/
theorem read?_eq_some_iff {shape : Shape} {cs : List Char} {m : Marker} :
    shape.read? cs = some m ↔ shape = m.shape ∧ cs = m.source := by
  have inner : ∀ ref, (Marker.inner ref).source =
      "=\"__OVERRIDE_INNER__".toList ++ (ref.text.toList ++ "\"".toList) := by
    intro ref
    simp [Marker.source, Marker.toList_innerValue]
  have opening : ∀ ref, (Marker.opening ref).source =
      "<__OVERRIDE_UNRENDER__".toList ++ (ref.text.toList ++ ">".toList) := by
    intro ref
    simp [Marker.source, Marker.toList_wrapperTag]
  have closing : ∀ ref, (Marker.closing ref).source =
      "</__OVERRIDE_UNRENDER__".toList ++ (ref.text.toList ++ ">".toList) := by
    intro ref
    simp [Marker.source, Marker.toList_wrapperTag]
  rcases shape with _ | _ | _ | _
  · rcases m with ⟨ref, name⟩ | ref | ref | ref
    · rw [read?_attribute]
      exact (and_iff_right rfl).symm
    all_goals simp [read?, Marker.shape, Option.bind_eq_some_iff]
  · cases m <;> simp [read?, Marker.shape, between?_eq_some_iff, inner]
  · cases m <;> simp [read?, Marker.shape, between?_eq_some_iff, opening]
  · cases m <;> simp [read?, Marker.shape, between?_eq_some_iff, closing]

end Shape

/-! ## Where text is cut off -/

/-- What is left when a run is dropped starts with a character that the run cannot hold. -/
theorem stop_of_prefix {p : Char → Bool} {cs cut : List Char} (h : cut <+: cs.dropWhile p) :
    ∀ c ∈ cut.head?, p c = false := by
  intro c hc
  have hhead : (cs.dropWhile p).head? = some c := by
    obtain ⟨more, heq⟩ := h
    rw [← heq, List.head?_append, Option.mem_def.mp hc, Option.some_or]
  have hnot := List.head?_dropWhile_not p cs
  rwa [hhead] at hnot

namespace Piece

theorem shared_cut {text cs cut : List Char} (h : cut <+: cs.drop (shared text cs).length) :
    shared text (shared text cs ++ cut) = shared text cs := by
  fun_induction shared text cs with
  | case1 c as bs ih =>
      rw [List.cons_append, shared, if_pos rfl, ih h]
  | case2 a as b bs hne =>
      rcases cut with _ | ⟨c, cut⟩
      · rfl
      · obtain ⟨rfl, -⟩ := List.cons_prefix_cons.mp h
        simp [shared, hne]
  | case3 text cs hnot =>
      rcases text with _ | ⟨a, as⟩
      · rfl
      · rcases cs with _ | ⟨b, bs⟩
        · rw [List.prefix_nil.mp h]
          rfl
        · exact absurd rfl (hnot a as b bs rfl)

theorem shared_prefix_followed (text : List Char) (pieces : List Piece) (cs : List Char) :
    shared text cs <+: (follow (.fixed text :: pieces) cs).followed := by
  rw [follow]
  split
  · exact List.prefix_append _ _
  · exact List.prefix_rfl

/-- A spelling that broke off breaks off at the same place when text behind it is cut off. -/
theorem follow_cut {pieces : List Piece} {cs cut : List Char}
    (broken : (follow pieces cs).runs = none) (h : cut <+: (follow pieces cs).rest) :
    follow pieces ((follow pieces cs).followed ++ cut) =
      ⟨(follow pieces cs).followed, cut, none⟩ := by
  fun_induction follow pieces cs with
  | case1 cs => cases broken
  | case2 text pieces cs seen behind whole trace ih =>
      have inner := ih broken h
      rw [whole, follow, List.append_assoc, shared_self_append, if_pos rfl, List.drop_left, inner]
  | case3 text pieces cs seen behind hne =>
      have same : shared text (seen ++ cut) = seen := shared_cut h
      rw [follow, same, if_neg hne, List.drop_left]
  | case4 member pieces cs seen behind hnil =>
      have stop := stop_of_prefix h
      have hrun : ([] ++ cut).takeWhile member = [] := takeWhile_append_stop stop
      have hrest : ([] ++ cut).dropWhile member = cut := dropWhile_append_stop stop
      rw [List.nil_append] at hrun hrest
      rw [List.nil_append, follow, hrun, hrest, if_pos rfl]
  | case5 member pieces cs seen behind some trace ih =>
      have inner := ih (Option.map_eq_none_iff.mp broken) h
      have inside : ∀ c ∈ seen, member c = true := fun c hc => List.mem_takeWhile_imp hc
      have hprefix : trace.followed ++ cut <+: cs.dropWhile member := by
        show trace.followed ++ cut <+: behind
        rw [← followed_append_rest pieces behind]
        exact (List.prefix_append_right_inj _).mpr h
      have stop := stop_of_prefix hprefix
      rw [List.append_assoc, follow, takeWhile_append_stop stop, dropWhile_append_stop stop,
        List.takeWhile_eq_self_iff.mpr inside, List.dropWhile_eq_nil_iff.mpr inside, if_neg some,
        List.nil_append, inner]
      rfl

end Piece

namespace Shape

theorem ofFront?_cons (c : Char) (cs : List Char) :
    ofFront? (c :: cs) =
      if c = '_' then some .attribute
      else if c = '=' then some .inner
      else if c = '<' then some (if cs.head? = some '/' then .closing else .opening)
      else none := by
  unfold ofFront?
  split
  · next heq => cases heq; rfl
  · next heq => cases heq; rfl
  · next heq => cases heq; rfl
  · next notClosing heq =>
      cases heq
      have hhead : cs.head? ≠ some '/' := by
        intro h
        obtain ⟨more, rfl⟩ := List.head?_eq_some_iff.mp h
        exact notClosing more rfl
      simp [hhead]
  · next notAttribute notInner notClosing notOpening =>
      have hattribute : c ≠ '_' := by rintro rfl; exact notAttribute cs rfl
      have hinner : c ≠ '=' := by rintro rfl; exact notInner cs rfl
      have hopening : c ≠ '<' := by rintro rfl; exact notOpening cs rfl
      simp [hattribute, hinner, hopening]

/-- The form of a marker at the front shows in the first character, but for the slash of a closing
tag. -/
theorem ofFront?_of_prefix {c : Char} {as bs : List Char} (h : as <+: bs)
    (slash : ofFront? (c :: bs) = some .closing → as ≠ []) :
    ofFront? (c :: as) = ofFront? (c :: bs) := by
  obtain ⟨behind, rfl⟩ := h
  rw [ofFront?_cons, ofFront?_cons] at *
  rcases as with _ | ⟨d, as⟩
  · have hhead : c = '<' → behind.head? ≠ some '/' := by
      rintro rfl hslash
      simp [hslash] at slash
    by_cases hc : c = '<'
    · simp [hc, hhead hc]
    · simp [hc]
  · rfl

end Shape

namespace Segment

theorem exists_ref_of_tail {tail : List Char} (some : tail ≠ [])
    (inside : ∀ c ∈ tail, Ref.isTailChar c = true) : ∃ ref : Ref, ref.tail = tail := by
  have valid : Ref.isValid (String.ofList ('e' :: '0' :: tail)).toList = true := by
    rw [String.toList_ofList]
    simpa [Ref.isValid, some] using inside
  refine ⟨⟨_, valid⟩, ?_⟩
  rw [Ref.tail, String.toList_ofList]
  rfl

theorem exists_ref_of_fits {start stop : List Char} {runs : List (List Char)}
    (fits : Piece.Fits [.fixed start, .run Ref.isTailChar, .fixed stop] runs) :
    ∃ ref : Ref, runs = [ref.tail] := by
  rcases runs with _ | ⟨tail, _ | ⟨other, runs⟩⟩
  · exact fits.elim
  · obtain ⟨ref, rfl⟩ := exists_ref_of_tail fits.1 fits.2.1
    exact ⟨ref, rfl⟩
  · exact fits.2.2.elim

theorem exists_marker_of_fits {shape : Shape} {runs : List (List Char)}
    (fits : Piece.Fits shape.pieces runs) : ∃ m : Marker, m.shape = shape ∧ m.runs = runs := by
  rcases shape with _ | _ | _ | _
  · rcases runs with _ | ⟨tail, _ | ⟨name, _ | ⟨other, runs⟩⟩⟩
    · exact fits.elim
    · exact fits.2.2.elim
    · obtain ⟨ref, rfl⟩ := exists_ref_of_tail fits.1 fits.2.1
      refine ⟨.attribute ref (String.ofList name), rfl, ?_⟩
      rw [Marker.runs, String.toList_ofList]
    · exact fits.2.2.2.2.elim
  · obtain ⟨ref, rfl⟩ := exists_ref_of_fits fits
    exact ⟨.inner ref, rfl, rfl⟩
  · obtain ⟨ref, rfl⟩ := exists_ref_of_fits fits
    exact ⟨.opening ref, rfl, rfl⟩
  · obtain ⟨ref, rfl⟩ := exists_ref_of_fits fits
    exact ⟨.closing ref, rfl, rfl⟩

/-- Where a spelling was followed to its end, there is a marker, and it is the one that is read off
the characters that were followed. -/
theorem exists_marker_of_runs {shape : Shape} {cs : List Char} {runs : List (List Char)}
    (h : (Piece.follow shape.pieces cs).runs = some runs) :
    ∃ m, shape.marker? runs = some m ∧
      shape.read? (Piece.follow shape.pieces cs).followed = some m := by
  obtain ⟨followed, fits⟩ := Piece.fill_of_follow _ _ runs h
  obtain ⟨m, rfl, rfl⟩ := exists_marker_of_fits fits
  refine ⟨m, Shape.marker?_eq_some_iff.mpr ⟨rfl, rfl⟩, ?_⟩
  rw [Shape.read?_eq_some_iff, followed]
  exact ⟨rfl, m.source_eq_fill.symm⟩

theorem front_of_none {c : Char} {cs : List Char} (h : Shape.ofFront? (c :: cs) = none) :
    front c cs = ⟨none, c :: cs.takeWhile isPlain, cs.dropWhile isPlain⟩ := by
  rw [front, h]

theorem front_of_some {c : Char} {cs : List Char} {shape : Shape}
    (h : Shape.ofFront? (c :: cs) = some shape) :
    front c cs = ⟨(Piece.follow shape.pieces (c :: cs)).runs.bind shape.marker?,
      (Piece.follow shape.pieces (c :: cs)).followed,
      (Piece.follow shape.pieces (c :: cs)).rest⟩ := by
  rw [front, h]

/-- The slash of a closing tag is always followed. -/
theorem followed_closing {c : Char} {cs : List Char}
    (h : Shape.ofFront? (c :: cs) = some .closing) :
    ∃ more, (Piece.follow Shape.closing.pieces (c :: cs)).followed = c :: '/' :: more := by
  rw [Shape.ofFront?_cons] at h
  have hc : c = '<' := by
    by_contra hne
    simp [hne] at h
    split at h <;> simp_all
  subst hc
  have hslash : cs.head? = some '/' := by
    by_contra hne
    simp [hne] at h
  obtain ⟨behind, rfl⟩ := List.head?_eq_some_iff.mp hslash
  obtain ⟨more, hmore⟩ : Piece.shared "</__OVERRIDE_UNRENDER__e0".toList ('<' :: '/' :: behind) <+:
      (Piece.follow Shape.closing.pieces ('<' :: '/' :: behind)).followed :=
    Piece.shared_prefix_followed _ _ _
  rw [← hmore]
  simp [Piece.shared]

/-- What was passed over at a front without a marker is passed over again when the text behind it
is cut off. -/
theorem front_cut {c : Char} {cs cut : List Char} (unmarked : (front c cs).marker? = none)
    (h : cut <+: (front c cs).rest) :
    ∃ tail, (front c cs).passed ++ cut = c :: tail ∧
      front c tail = ⟨none, (front c cs).passed, cut⟩ := by
  cases hshape : Shape.ofFront? (c :: cs) with
  | none =>
      rw [front_of_none hshape] at h ⊢
      have stop := stop_of_prefix h
      have inside : ∀ d ∈ cs.takeWhile isPlain, isPlain d = true :=
        fun d hd => List.mem_takeWhile_imp hd
      have hprefix : cs.takeWhile isPlain ++ cut <+: cs := by
        have hcut : _ <+: cs.takeWhile isPlain ++ cs.dropWhile isPlain :=
          (List.prefix_append_right_inj _).mpr h
        rwa [List.takeWhile_append_dropWhile] at hcut
      have hagain : Shape.ofFront? (c :: (cs.takeWhile isPlain ++ cut)) = none := by
        rw [Shape.ofFront?_of_prefix hprefix (by simp [hshape]), hshape]
      refine ⟨cs.takeWhile isPlain ++ cut, rfl, ?_⟩
      rw [front_of_none hagain, takeWhile_append_stop stop, dropWhile_append_stop stop,
        List.takeWhile_eq_self_iff.mpr inside, List.dropWhile_eq_nil_iff.mpr inside,
        List.nil_append]
  | some shape =>
      have whole := front_passed_append_rest c cs
      have nonempty := front_passed_ne_nil c cs
      rw [front_of_some hshape] at unmarked h whole nonempty ⊢
      dsimp only at unmarked h whole nonempty ⊢
      -- Had the spelling been followed to its end, there would be a marker.
      have broken : (Piece.follow shape.pieces (c :: cs)).runs = none := by
        cases hruns : (Piece.follow shape.pieces (c :: cs)).runs with
        | none => rfl
        | some runs =>
            obtain ⟨m, hm, -⟩ := exists_marker_of_runs hruns
            rw [hruns, Option.bind_some, hm] at unmarked
            cases unmarked
      have cutOff := Piece.follow_cut broken h
      obtain ⟨d, seen, hseen⟩ := List.exists_cons_of_ne_nil nonempty
      rw [hseen, List.cons_append] at whole
      obtain ⟨rfl, hbehind⟩ := List.cons.inj whole
      rw [hseen, List.cons_append] at cutOff
      have hprefix : seen ++ cut <+: cs := by
        rw [← hbehind]
        exact (List.prefix_append_right_inj _).mpr h
      have slash : Shape.ofFront? (d :: cs) = some .closing → seen ++ cut ≠ [] := by
        intro hclosing
        obtain ⟨more, hmore⟩ := followed_closing hclosing
        rw [hshape] at hclosing
        cases hclosing
        rw [hseen] at hmore
        cases hmore
        exact List.cons_ne_nil _ _
      have hagain : Shape.ofFront? (d :: (seen ++ cut)) = some shape := by
        rw [Shape.ofFront?_of_prefix hprefix slash, hshape]
      refine ⟨seen ++ cut, by rw [hseen, List.cons_append], ?_⟩
      rw [front_of_some hagain, cutOff, hseen, Option.bind_none]

/-! ## Plain text by itself -/

/-- What was passed over can be split off from whatever part of the text behind it. -/
theorem split_passed {c : Char} {cs cut : List Char} (none : (front c cs).marker? = none)
    (h : cut <+: (front c cs).rest) :
    split ((front c cs).passed ++ cut) = prependText (front c cs).passed (split cut) := by
  obtain ⟨tail, hwhole, hfront⟩ := front_cut none h
  rw [hwhole, split_cons, hfront]

/-- Plain text that was found is found again when it stands alone. -/
theorem split_of_text_mem (cs : List Char) :
    ∀ content, text content ∈ split cs → split content = [text content] := by
  fun_induction split cs with
  | case1 =>
      intro content h
      cases h
  | case2 c cs found m hm ih =>
      intro content h
      rcases List.mem_cons.mp h with heq | h
      · cases heq
      · exact ih content h
  | case3 c cs found unmarked ih =>
      intro content h
      have whole := flatMap_source_split found.rest
      have alone : split found.passed = [text found.passed] := by
        have cut := split_passed unmarked (List.nil_prefix (l := found.rest))
        rw [List.append_nil, split] at cut
        exact cut
      -- The text reaches up to the next marker, or to the end.
      rcases hsplit : split found.rest with _ | ⟨after | m, behind⟩
      · rw [hsplit] at h
        obtain rfl : content = found.passed := by simpa [prependText] using h
        exact alone
      · rw [hsplit] at h whole ih
        rcases List.mem_cons.mp h with heq | h
        · cases heq
          have cut : after <+: found.rest := ⟨_, whole⟩
          have joined := split_passed unmarked cut
          rw [ih after List.mem_cons_self] at joined
          exact joined
        · exact ih content (List.mem_cons_of_mem _ h)
      · rw [hsplit] at h ih
        rcases List.mem_cons.mp h with heq | h
        · cases heq
          exact alone
        · exact ih content h

/-! ## All segments of a text -/

theorem source_ne_nil_of_mem_split (cs : List Char) : ∀ s ∈ split cs, s.source ≠ [] := by
  fun_induction split cs with
  | case1 =>
      intro s hs
      cases hs
  | case2 c cs found m hm ih =>
      rintro s (_ | ⟨_, hs⟩)
      · exact m.source_ne_nil
      · exact ih s hs
  | case3 c cs found unmarked ih =>
      have some : found.passed ≠ [] := front_passed_ne_nil c cs
      rcases hsplit : split found.rest with _ | ⟨after | m, behind⟩ <;> rw [hsplit] at ih
      · rintro s (_ | ⟨_, hs⟩)
        · exact some
        · cases hs
      · rintro s (_ | ⟨_, hs⟩)
        · show found.passed ++ after ≠ []
          simp [some]
        · exact ih s (List.mem_cons_of_mem _ hs)
      · rintro s (_ | ⟨_, hs⟩)
        · exact some
        · exact ih s hs

/-- Two segments of which one is a marker. -/
def Parted : Segment → Segment → Prop
  | text _, text _ => False
  | _, _ => True

theorem isChain_split (cs : List Char) : (split cs).IsChain Parted := by
  fun_induction split cs with
  | case1 => exact .nil
  | case2 c cs found m hm ih =>
      rcases hsplit : split found.rest with _ | ⟨s, behind⟩
      · exact .singleton _
      · rw [hsplit] at ih
        exact .cons_cons trivial ih
  | case3 c cs found unmarked ih =>
      rcases hsplit : split found.rest with _ | ⟨after | m, behind⟩
      · exact .singleton _
      · rw [hsplit] at ih
        -- The longer text stands where the shorter one stood.
        rcases behind with _ | ⟨s, behind⟩
        · exact .singleton _
        · cases ih with
          | cons_cons parted ih =>
              refine .cons_cons ?_ ih
              cases s with
              | text content => exact parted
              | marker m => trivial
      · rw [hsplit] at ih
        exact .cons_cons trivial ih

/-- **Splitting is lossless and sound.** For any text, the segments spell the text; none is empty,
and no two plain texts touch; a marker stands where its one spelling stands, with a name that markup
can hold; wherever a spelling is followed to its end, it is read as a marker; and plain text that
was found is plain text by itself. -/
theorem split_sound (cs : List Char) :
    (split cs).flatMap source = cs ∧
    (∀ s ∈ split cs, s.source ≠ []) ∧
    (split cs).IsChain Parted ∧
    (∀ before m behind, split cs = before ++ marker m :: behind →
      cs = before.flatMap source ++ (m.source ++ behind.flatMap source) ∧
        m.Proper ∧ m.shape.read? m.source = some m) ∧
    (∀ place, place <:+ cs → ∀ (shape : Shape) runs,
      (Piece.follow shape.pieces place).runs = some runs → ∃ m, shape.marker? runs = some m ∧
        shape.read? (Piece.follow shape.pieces place).followed = some m) ∧
    ∀ content, text content ∈ split cs → split content = [text content] := by
  refine ⟨flatMap_source_split cs, source_ne_nil_of_mem_split cs, isChain_split cs, ?_, ?_,
    split_of_text_mem cs⟩
  · intro before m behind heq
    have whole := flatMap_source_split cs
    rw [heq, List.flatMap_append, List.flatMap_cons] at whole
    have hmem : marker m ∈ split cs := by
      rw [heq]
      exact List.mem_append_right before List.mem_cons_self
    exact ⟨whole.symm, proper_of_mem_split hmem, Shape.read?_eq_some_iff.mpr ⟨rfl, rfl⟩⟩
  · intro place _ shape runs hruns
    exact exists_marker_of_runs hruns

end Segment

end LateMarkup
