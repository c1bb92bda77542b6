import LateMarkup.Marker

/-! # Segments of serialized text

Serialized text is read from left to right as markers and the plain text between them. A marker is
sought only where one can start: at an underscore, an equals sign or a `<`. From there the text is
followed for as long as it agrees with the spelling of a marker. If it agrees to the end, it is a
marker. If it stops agreeing, all that was followed is plain text and the search goes on behind it,
so a marker that starts inside a failed attempt is not found.

The pieces of a spelling are so made that following it never has to go back: no run can hold the
character with which the next piece starts.
-/

namespace LateMarkup

/-! ## Following a spelling -/

inductive Piece where
  | fixed (text : List Char)
  /-- As many characters of a class as there are, but at least one. -/
  | run (member : Char → Bool)

/-- How far a text follows a spelling. -/
structure Trace where
  /-- The characters that agree with the spelling. -/
  followed : List Char
  rest : List Char
  /-- The characters of each run in the spelling, if the spelling was followed to its end. -/
  runs : Option (List (List Char))

namespace Piece

/-- The characters in which two texts agree, from their start up to the first difference. -/
def shared : List Char → List Char → List Char
  | a :: as, b :: bs => if a = b then a :: shared as bs else []
  | _, _ => []

def follow : List Piece → List Char → Trace
  | [], cs => ⟨[], cs, some []⟩
  | .fixed text :: pieces, cs =>
    let seen := shared text cs
    let behind := cs.drop seen.length
    if seen = text then
      let trace := follow pieces behind
      ⟨seen ++ trace.followed, trace.rest, trace.runs⟩
    else ⟨seen, behind, none⟩
  | .run member :: pieces, cs =>
    let seen := cs.takeWhile member
    let behind := cs.dropWhile member
    if seen = [] then ⟨[], behind, none⟩
    else
      let trace := follow pieces behind
      ⟨seen ++ trace.followed, trace.rest, trace.runs.map (seen :: ·)⟩

theorem shared_append_drop (text cs : List Char) :
    shared text cs ++ cs.drop (shared text cs).length = cs := by
  fun_induction shared text cs with
  | case1 as b bs ih => simp [ih]
  | case2 => simp
  | case3 => simp

/-- Following a spelling loses nothing of the text. -/
theorem followed_append_rest (pieces : List Piece) (cs : List Char) :
    (follow pieces cs).followed ++ (follow pieces cs).rest = cs := by
  fun_induction follow pieces cs with
  | case1 => rfl
  | case2 text pieces cs seen behind h trace ih =>
    simp only [List.append_assoc, trace, ih, behind, seen]
    exact shared_append_drop text cs
  | case3 text pieces cs seen behind h => exact shared_append_drop text cs
  | case4 member pieces cs seen behind h =>
    have whole : seen ++ behind = cs := List.takeWhile_append_dropWhile
    simpa [h] using whole
  | case5 member pieces cs seen behind h trace ih =>
    simp only [List.append_assoc, trace, ih, behind, seen]
    exact List.takeWhile_append_dropWhile

end Piece

/-! ## The spellings of the markers -/

/-- The four forms of a marker. -/
inductive Shape where
  | attribute
  | inner
  | opening
  | closing
deriving DecidableEq, Repr

namespace Shape

/-- The only form that a marker at the start of a text can have, if one can stand there at all. -/
def ofFront? : List Char → Option Shape
  | '_' :: _ => some .attribute
  | '=' :: _ => some .inner
  | '<' :: '/' :: _ => some .closing
  | '<' :: _ => some .opening
  | _ => none

def pieces : Shape → List Piece
  | .attribute =>
    [.fixed "__OVERRIDE_ATTR__e0".toList, .run Ref.isTailChar, .fixed "__".toList,
      .run Marker.isNameChar, .fixed "=\"\"".toList]
  | .inner => [.fixed "=\"__OVERRIDE_INNER__e0".toList, .run Ref.isTailChar, .fixed "\"".toList]
  | .opening => [.fixed "<__OVERRIDE_UNRENDER__e0".toList, .run Ref.isTailChar, .fixed ">".toList]
  | .closing => [.fixed "</__OVERRIDE_UNRENDER__e0".toList, .run Ref.isTailChar, .fixed ">".toList]

def refOfTail? (tail : List Char) : Option Ref :=
  Ref.ofString? (String.ofList ('e' :: '0' :: tail))

def marker? : Shape → List (List Char) → Option Marker
  | .attribute, [tail, name] => (refOfTail? tail).map (.attribute · (String.ofList name))
  | .inner, [tail] => (refOfTail? tail).map .inner
  | .opening, [tail] => (refOfTail? tail).map .opening
  | .closing, [tail] => (refOfTail? tail).map .closing
  | _, _ => none

/-- At least one character is followed where a marker can start. -/
theorem followed_ne_nil {cs : List Char} {shape : Shape} (h : ofFront? cs = some shape) :
    (Piece.follow shape.pieces cs).followed ≠ [] := by
  unfold ofFront? at h
  split at h <;> cases h <;> simp [pieces, Piece.follow, Piece.shared] <;> split <;> simp_all

end Shape

/-! ## Splitting -/

/-- A stretch of serialized text. -/
inductive Segment where
  | text (content : List Char)
  | marker (marker : Marker)
deriving DecidableEq

namespace Segment

def source : Segment → List Char
  | text content => content
  | marker m => m.source

structure Front where
  marker? : Option Marker
  /-- The characters of the marker, or those that are passed over as plain text. -/
  passed : List Char
  rest : List Char

def isPlain (c : Char) : Bool := !(c == '_' || c == '=' || c == '<')

/-- The front of the text `c :: cs`. Where no marker can start, it is all plain text up to the next
place where one can. -/
def front (c : Char) (cs : List Char) : Front :=
  match Shape.ofFront? (c :: cs) with
  | none => ⟨none, c :: cs.takeWhile isPlain, cs.dropWhile isPlain⟩
  | some shape =>
    let trace := Piece.follow shape.pieces (c :: cs)
    ⟨trace.runs.bind shape.marker?, trace.followed, trace.rest⟩

theorem front_passed_append_rest (c : Char) (cs : List Char) :
    (front c cs).passed ++ (front c cs).rest = c :: cs := by
  unfold front
  split
  · simp
  · exact Piece.followed_append_rest _ _

theorem front_passed_ne_nil (c : Char) (cs : List Char) : (front c cs).passed ≠ [] := by
  unfold front
  split
  · simp
  · next shape h => exact Shape.followed_ne_nil h

theorem front_rest_length (c : Char) (cs : List Char) :
    (front c cs).rest.length < (c :: cs).length := by
  have whole := congrArg List.length (front_passed_append_rest c cs)
  have some := List.length_pos_iff.2 (front_passed_ne_nil c cs)
  simp only [List.length_append] at whole
  omega

/-- Puts plain text before segments; it becomes one with a text segment that it touches. -/
def prependText (content : List Char) : List Segment → List Segment
  | text after :: rest => text (content ++ after) :: rest
  | rest => text content :: rest

/-- The markers of a text and the plain text between them. -/
def split : List Char → List Segment
  | [] => []
  | c :: cs =>
    let found := front c cs
    match found.marker? with
    | some m => marker m :: split found.rest
    | none => prependText found.passed (split found.rest)
termination_by cs => cs.length
decreasing_by all_goals exact front_rest_length c cs

end Segment

end LateMarkup
