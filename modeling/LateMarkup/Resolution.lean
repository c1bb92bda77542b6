import LateMarkup.Registry
import LateMarkup.Segment

/-! # Resolving serialized text

Resolving exchanges every marker of a serialized document for the code that the registry holds. The
markers of attributes, of inner content and of wrappers are substituted one kind after the other,
each in the text that the one before has left, so code that is put in early is itself searched for
the later kinds. In the end no marker text may be left.
-/

namespace LateMarkup

namespace Registry

def replacement (registry : Registry) : Marker → Except Error String
  | .attribute ref name => registry.attributeFragment ref name
  | .inner ref => (registry.innerFragment ref).map ("=" ++ ·)
  | .opening ref => (registry.guardFragment ref).map (·.opening)
  | .closing ref => (registry.guardFragment ref).map (·.closing)

/-- The text that takes the place of a segment when the markers of one site are substituted. -/
def exchange (registry : Registry) (site : Site) : Segment → Except Error (List Char)
  | .text content => .ok content
  | .marker m =>
    if m.site = site then (registry.replacement m).map String.toList else .ok m.source

/-- The text that takes the place of a row of segments. The first marker without a fragment ends the
attempt. -/
def exchangeAll (registry : Registry) (site : Site) : List Segment → Except Error (List Char)
  | [] => .ok []
  | segment :: segments => do
    let front ← registry.exchange site segment
    let back ← registry.exchangeAll site segments
    return front ++ back

def substitute (registry : Registry) (site : Site) (text : List Char) :
    Except Error (List Char) :=
  registry.exchangeAll site (Segment.split text)

end Registry

def Segment.refs (site : Site) (segments : List Segment) : List Ref :=
  segments.filterMap fun
    | .text _ => none
    | .marker m => if m.site = site then some m.ref else none

/-! ## Left-over marker text -/

namespace Marker

/-- Whether a character ends the stretch that is shown of left-over marker text. -/
def endsExcerpt (c : Char) : Bool :=
  c == '"' || c == '>' || c == '=' || Text.isBlank c

def leftover? : List Char → Option (List Char)
  | [] => none
  | c :: cs =>
    if stem.toList.isPrefixOf (c :: cs) then
      some ((c :: cs).takeWhile fun c => !endsExcerpt c)
    else leftover? cs

/-- Succeeds when a text holds no marker text, well formed or not. -/
def ensureNone (text : List Char) : Except Error Unit :=
  match leftover? text with
  | some excerpt => .error (.unresolved (String.ofList excerpt))
  | none => .ok ()

end Marker

/-! ## All markers -/

/-- A text without markers, and what became of the registry on the way. -/
structure Resolution where
  code : String
  /-- The refs with code in the registry of which no marker was met. -/
  unconsumed : List Ref
deriving DecidableEq

def Registry.resolve (registry : Registry) (text : String) : Except Error Resolution := do
  let serialized := text.toList
  let withAttributes ← registry.substitute .attribute serialized
  let withInner ← registry.substitute .inner withAttributes
  let resolved ← registry.substitute .unrender withInner
  Marker.ensureNone resolved
  let met :=
    Segment.refs .attribute (Segment.split serialized) ++
      Segment.refs .inner (Segment.split withAttributes) ++
      Segment.refs .unrender (Segment.split withInner)
  return ⟨String.ofList resolved, registry.code.keys.filter fun ref => !met.contains ref⟩

end LateMarkup
