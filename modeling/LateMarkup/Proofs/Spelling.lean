import Mathlib.Data.List.TakeWhile
import LateMarkup.Proofs.Occurrence
import LateMarkup.Segment

/-! # Spellings and the markers they spell

A spelling is followed as far as the text agrees with it, and it never has to go back. So whoever
follows the spelling of a marker from its first character meets exactly that marker, whatever stands
behind it (`front_marker`), and a marker that is found is spelled by the characters that were passed
(`source_of_front`). Both directions go through `Piece.fill`, which writes a spelling out with given
characters in its runs.
-/

namespace LateMarkup

/-! ## Prefixes of a class -/

section TakeWhile

variable {p : Char → Bool} {run rest : List Char}

theorem takeWhile_append_stop (stop : ∀ c ∈ rest.head?, p c = false) :
    (run ++ rest).takeWhile p = run.takeWhile p := by
  induction run with
  | nil =>
      cases rest with
      | nil => rfl
      | cons c rest => simp [stop c rfl]
  | cons c run ih =>
      rw [List.cons_append, List.takeWhile_cons, List.takeWhile_cons, ih]

theorem dropWhile_append_stop (stop : ∀ c ∈ rest.head?, p c = false) :
    (run ++ rest).dropWhile p = run.dropWhile p ++ rest := by
  induction run with
  | nil =>
      cases rest with
      | nil => rfl
      | cons c rest => simp [stop c rfl]
  | cons c run ih =>
      rw [List.cons_append, List.dropWhile_cons, List.dropWhile_cons, ih]
      split <;> rfl

/-- A run of a class ends where the class ends. -/
theorem eq_of_append_stop {other behind : List Char} (hrun : ∀ c ∈ run, p c = true)
    (hother : ∀ c ∈ other, p c = true) (hrest : ∀ c ∈ rest.head?, p c = false)
    (hbehind : ∀ c ∈ behind.head?, p c = false) (same : run ++ rest = other ++ behind) :
    run = other ∧ rest = behind := by
  have runs : run = other := by
    calc run
      _ = (run ++ rest).takeWhile p := by
        rw [takeWhile_append_stop hrest, List.takeWhile_eq_self_iff.mpr hrun]
      _ = (other ++ behind).takeWhile p := by rw [same]
      _ = other := by rw [takeWhile_append_stop hbehind, List.takeWhile_eq_self_iff.mpr hother]
  subst runs
  exact ⟨rfl, List.append_cancel_left same⟩

end TakeWhile

/-! ## Writing a spelling out -/

namespace Piece

/-- A spelling with these characters in its runs. -/
def fill : List Piece → List (List Char) → List Char
  | .fixed text :: pieces, runs => text ++ fill pieces runs
  | .run _ :: pieces, chars :: runs => chars ++ fill pieces runs
  | _, _ => []

/-- There are characters for each run of a spelling, and they are of its class. -/
def Fits : List Piece → List (List Char) → Prop
  | [], [] => True
  | .fixed _ :: pieces, runs => Fits pieces runs
  | .run member :: pieces, chars :: runs =>
      chars ≠ [] ∧ (∀ c ∈ chars, member c = true) ∧ Fits pieces runs
  | _, _ => False

/-- After each run stands a character that the run cannot hold. -/
def Bounded : List Piece → Prop
  | [] => True
  | .fixed _ :: pieces => Bounded pieces
  | .run member :: .fixed (c :: text) :: pieces =>
      member c = false ∧ Bounded (.fixed (c :: text) :: pieces)
  | _ => False

theorem shared_self_append (text rest : List Char) : shared text (text ++ rest) = text := by
  induction text with
  | nil => cases rest <;> rfl
  | cons c text ih => simp [shared, ih]

theorem follow_fill {pieces : List Piece} {runs : List (List Char)} (bounded : Bounded pieces)
    (fits : Fits pieces runs) (rest : List Char) :
    follow pieces (fill pieces runs ++ rest) = ⟨fill pieces runs, rest, some runs⟩ := by
  fun_induction fill pieces runs with
  | case1 text pieces runs ih =>
      rw [follow, List.append_assoc, shared_self_append, List.drop_left, ih bounded fits]
      simp
  | case2 member pieces chars runs ih =>
      obtain ⟨some, inside, fits⟩ := fits
      cases pieces with
      | nil => cases bounded
      | cons piece pieces =>
          rcases piece with (_ | ⟨c, text⟩) | other
          · cases bounded
          · obtain ⟨outside, bounded⟩ := bounded
            -- The run ends where its characters end, whatever stands behind the spelling.
            have stop : ∀ d ∈ (fill (.fixed (c :: text) :: pieces) runs ++ rest).head?,
                member d = false := by
              intro d hd
              simp [fill] at hd
              rwa [← hd]
            rw [follow, List.append_assoc, takeWhile_append_stop stop, dropWhile_append_stop stop,
              List.takeWhile_eq_self_iff.mpr inside, List.dropWhile_eq_nil_iff.mpr inside,
              List.nil_append, ih bounded fits, if_neg some]
            rfl
          · cases bounded
  | case3 pieces runs notFixed notRun =>
      cases pieces with
      | nil =>
          cases runs with
          | nil => rfl
          | cons chars runs => cases fits
      | cons piece pieces =>
          cases piece with
          | fixed text => exact absurd rfl (notFixed text pieces)
          | run member =>
              cases runs with
              | nil => cases fits
              | cons chars runs => exact absurd rfl (notRun member pieces chars runs rfl)

/-- A spelling that was followed to its end is written out in what was followed. -/
theorem fill_of_follow (pieces : List Piece) (cs : List Char) :
    ∀ runs, (follow pieces cs).runs = some runs →
      (follow pieces cs).followed = fill pieces runs ∧ Fits pieces runs := by
  fun_induction follow pieces cs with
  | case1 cs =>
      intro runs h
      obtain rfl : [] = runs := Option.some.inj h
      exact ⟨rfl, trivial⟩
  | case2 text pieces cs seen behind whole trace ih =>
      intro runs h
      obtain ⟨followed, fits⟩ := ih runs h
      refine ⟨?_, fits⟩
      rw [fill, ← followed, ← whole]
  | case3 => intro runs h; cases h
  | case4 => intro runs h; cases h
  | case5 member pieces cs seen behind some trace ih =>
      intro runs h
      obtain ⟨inner, hinner, rfl⟩ := Option.map_eq_some_iff.mp h
      obtain ⟨followed, fits⟩ := ih inner hinner
      refine ⟨?_, some, fun c hc => List.mem_takeWhile_imp hc, fits⟩
      rw [fill, ← followed]

end Piece

/-! ## Refs behind their opening -/

namespace Ref

def tail (ref : Ref) : List Char := ref.text.toList.drop 2

theorem toList_text (ref : Ref) : ref.text.toList = 'e' :: '0' :: ref.tail := by
  have valid := ref.valid
  unfold tail
  unfold isValid at valid
  split at valid
  · next h => rw [h]; rfl
  · cases valid

theorem tail_ne_nil (ref : Ref) : ref.tail ≠ [] := by
  have valid := ref.valid
  rw [toList_text] at valid
  intro h
  simp [isValid, h] at valid

theorem isTailChar_of_mem_tail {ref : Ref} {c : Char} (h : c ∈ ref.tail) : isTailChar c = true := by
  have valid := ref.valid
  rw [toList_text] at valid
  simp only [isValid, Bool.and_eq_true, List.all_eq_true] at valid
  exact valid.2 c h

theorem isTailChar_of_mem {ref : Ref} {c : Char} (h : c ∈ ref.text.toList) :
    isTailChar c = true := by
  rw [toList_text] at h
  rcases List.mem_cons.mp h with rfl | h
  · rfl
  · rcases List.mem_cons.mp h with rfl | h
    · rfl
    · exact isTailChar_of_mem_tail h

theorem ofString?_eq_some_iff {text : String} {ref : Ref} :
    ofString? text = some ref ↔ text = ref.text := by
  unfold ofString?
  constructor
  · intro h
    split at h
    · cases h; rfl
    · cases h
  · rintro rfl
    rw [dif_pos ref.valid]

end Ref

/-! ## Markers -/

namespace Marker

/-- The markers that serialized markup can hold: the name in an attribute marker is not empty, and
none of its characters ends an attribute name. -/
def Proper : Marker → Prop
  | .attribute _ name => name ≠ "" ∧ ∀ c ∈ name.toList, isNameChar c = true
  | _ => True

instance : DecidablePred Proper
  | .attribute _ _ => inferInstanceAs (Decidable (_ ∧ _))
  | .inner _ => inferInstanceAs (Decidable True)
  | .opening _ => inferInstanceAs (Decidable True)
  | .closing _ => inferInstanceAs (Decidable True)

def shape : Marker → Shape
  | .attribute _ _ => .attribute
  | .inner _ => .inner
  | .opening _ => .opening
  | .closing _ => .closing

def runs : Marker → List (List Char)
  | .attribute ref name => [ref.tail, name.toList]
  | .inner ref => [ref.tail]
  | .opening ref => [ref.tail]
  | .closing ref => [ref.tail]

theorem toList_attributeName (ref : Ref) (name : String) :
    (attributeName ref name).toList =
      "__OVERRIDE_ATTR__".toList ++ (ref.text.toList ++ ("__".toList ++ name.toList)) := by
  unfold attributeName
  simp only [String.toList_append, List.append_assoc]

theorem toList_innerValue (ref : Ref) :
    (innerValue ref).toList = "__OVERRIDE_INNER__".toList ++ ref.text.toList := by
  unfold innerValue
  exact String.toList_append

theorem toList_wrapperTag (ref : Ref) :
    (wrapperTag ref).toList = "__OVERRIDE_UNRENDER__".toList ++ ref.text.toList := by
  unfold wrapperTag
  exact String.toList_append

theorem source_eq_fill (m : Marker) : m.source = Piece.fill m.shape.pieces m.runs := by
  cases m <;>
    simp only [source, toList_attributeName, toList_innerValue, toList_wrapperTag,
      Ref.toList_text, shape, runs, Shape.pieces, Piece.fill, String.reduceToList,
      List.cons_append, List.nil_append, List.append_assoc, List.append_nil]

theorem source_ne_nil (m : Marker) : m.source ≠ [] := by
  rw [source_eq_fill]
  cases m <;> simp [shape, Shape.pieces, Piece.fill]

theorem fits_runs {m : Marker} (proper : m.Proper) : Piece.Fits m.shape.pieces m.runs := by
  have tail : ∀ ref : Ref, ref.tail ≠ [] ∧ ∀ c ∈ ref.tail, Ref.isTailChar c = true :=
    fun ref => ⟨ref.tail_ne_nil, fun c hc => Ref.isTailChar_of_mem_tail hc⟩
  rcases m with ⟨ref, name⟩ | ref | ref | ref
  · refine ⟨(tail ref).1, (tail ref).2, ?_, proper.2, trivial⟩
    intro h
    exact proper.1 (String.toList_eq_nil_iff.mp h)
  · exact ⟨(tail ref).1, (tail ref).2, trivial⟩
  · exact ⟨(tail ref).1, (tail ref).2, trivial⟩
  · exact ⟨(tail ref).1, (tail ref).2, trivial⟩

end Marker

namespace Shape

theorem bounded_pieces (shape : Shape) : Piece.Bounded shape.pieces := by
  cases shape <;> simp [pieces, Piece.Bounded] <;> decide

theorem refOfTail?_eq_some_iff {tail : List Char} {ref : Ref} :
    refOfTail? tail = some ref ↔ tail = ref.tail := by
  unfold refOfTail?
  rw [Ref.ofString?_eq_some_iff, ← String.toList_inj, String.toList_ofList, Ref.toList_text]
  simp

/-- The form and the runs of a marker determine it. -/
theorem marker?_eq_some_iff {shape : Shape} {runs : List (List Char)} {m : Marker} :
    shape.marker? runs = some m ↔ shape = m.shape ∧ runs = m.runs := by
  constructor
  · intro h
    unfold marker? at h
    split at h
    · obtain ⟨ref, href, rfl⟩ := Option.map_eq_some_iff.mp h
      rw [refOfTail?_eq_some_iff.mp href]
      exact ⟨rfl, by simp [Marker.runs]⟩
    · obtain ⟨ref, href, rfl⟩ := Option.map_eq_some_iff.mp h
      rw [refOfTail?_eq_some_iff.mp href]
      exact ⟨rfl, rfl⟩
    · obtain ⟨ref, href, rfl⟩ := Option.map_eq_some_iff.mp h
      rw [refOfTail?_eq_some_iff.mp href]
      exact ⟨rfl, rfl⟩
    · obtain ⟨ref, href, rfl⟩ := Option.map_eq_some_iff.mp h
      rw [refOfTail?_eq_some_iff.mp href]
      exact ⟨rfl, rfl⟩
    · cases h
  · rintro ⟨rfl, rfl⟩
    have tail : ∀ ref : Ref, refOfTail? ref.tail = some ref :=
      fun ref => refOfTail?_eq_some_iff.mpr rfl
    cases m <;> simp [marker?, Marker.shape, Marker.runs, tail]

theorem ofFront?_source (m : Marker) (rest : List Char) :
    ofFront? (m.source ++ rest) = some m.shape := by
  cases m
  all_goals
    simp only [Marker.source, Marker.toList_attributeName, Marker.toList_wrapperTag,
      String.reduceToList, List.cons_append, List.nil_append, ofFront?, Marker.shape]
  -- A `<` opens two forms, and the match still has to look at the character behind it.
  rfl

end Shape

/-! ## The front of a text -/

namespace Segment

/-- The marker that a text starts with is at its front. -/
theorem front_marker {m : Marker} (proper : m.Proper) {c : Char} {cs rest : List Char}
    (h : m.source ++ rest = c :: cs) : front c cs = ⟨some m, m.source, rest⟩ := by
  have shape := Shape.ofFront?_source m rest
  have trace := Piece.follow_fill m.shape.bounded_pieces (Marker.fits_runs proper) rest
  rw [← Marker.source_eq_fill, h] at trace
  rw [h] at shape
  rw [front, shape]
  simp only [trace, Option.bind_some]
  rw [Shape.marker?_eq_some_iff.mpr ⟨rfl, rfl⟩]

/-- A marker at the front of a text is spelled by the characters that are passed. -/
theorem source_of_front {c : Char} {cs : List Char} {m : Marker}
    (h : (front c cs).marker? = some m) : (front c cs).passed = m.source ∧ m.Proper := by
  unfold front at h ⊢
  split at h
  · cases h
  · next shape hshape =>
      obtain ⟨runs, hruns, hm⟩ := Option.bind_eq_some_iff.mp h
      obtain ⟨followed, fits⟩ := Piece.fill_of_follow _ _ runs hruns
      obtain ⟨rfl, rfl⟩ := Shape.marker?_eq_some_iff.mp hm
      refine ⟨followed.trans m.source_eq_fill.symm, ?_⟩
      rcases m with ⟨ref, name⟩ | ref | ref | ref
      · obtain ⟨-, -, some, inside, -⟩ := fits
        refine ⟨?_, inside⟩
        rintro rfl
        exact some String.toList_empty
      · trivial
      · trivial
      · trivial

end Segment

end LateMarkup
