import LateMarkup.Proofs.MissingEntries
import LateMarkup.Proofs.Passes

/-!
# Resolved text

Resolving succeeds only if no marker text is left, well formed or not. Such a text is all plain text
to whoever splits it again (`Segment.split_of_unmarked`): each segment spells a part of the text, a
marker would bring the stem of all markers with it, and plain text is never parted. So no registry
can change it any more, and resolving it a second time uses up nothing.
-/

namespace LateMarkup

/-! ## Text without marker text -/

namespace Segment

/-- Text without marker text is one plain piece. -/
theorem split_of_unmarked {text : List Char} (free : Unmarked text) :
    split text = plain text := by
  by_cases empty : text = []
  · subst empty
    simp [plain, split]
  · have stops : Stops text [] := by simp [Stops]
    have joined := split_text empty free stops
    rw [List.append_nil] at joined
    rw [joined, plain, if_neg empty, split]
    rfl

theorem refs_plain (site : Site) (text : List Char) : refs site (plain text) = [] := by
  unfold plain
  split <;> rfl

end Segment

namespace Registry

variable {registry : Registry}

theorem substitute_of_unmarked {text : List Char} (free : Unmarked text) (site : Site) :
    registry.substitute site text = .ok text := by
  rw [substitute, Segment.split_of_unmarked free]
  unfold Segment.plain
  split
  · next empty => rw [empty, exchangeAll]
  · rw [exchangeAll, exchangeAll]
    show Except.ok (text ++ []) = _
    rw [List.append_nil]

theorem resolve_plain {text : String} (free : Unmarked text.toList) :
    registry.resolve text = .ok ⟨text, registry.code.keys⟩ := by
  have pass (site : Site) : registry.substitute site text.toList = .ok text.toList :=
    substitute_of_unmarked free site
  have unused : (registry.code.keys.filter fun ref => !([] : List Ref).contains ref) =
      registry.code.keys := List.filter_eq_self.mpr fun _ _ => rfl
  simp only [resolve, pass, bind, Except.bind, pure, Except.pure,
    Segment.split_of_unmarked free, Segment.refs_plain, List.append_nil, unused,
    String.ofList_toList, ensureNone_of_unmarked free]

/-! ## The text that resolving gives -/

theorem unmarked_of_resolve {text : String} {resolution : Resolution}
    (done : registry.resolve text = .ok resolution) : Unmarked resolution.code.toList := by
  rw [resolve_eq_passes] at done
  obtain ⟨passed, -, done⟩ := bind_eq_ok.mp done
  obtain ⟨_, none, done⟩ := bind_eq_ok.mp done
  cases done
  rw [String.toList_ofList]
  exact unmarked_of_ensureNone none

/-- **Resolved text is left alone.** Whatever the text and the registry were that it came from, each
pass and all of them together give it back as it is, with any registry, and none of the code in
that registry is used. -/
theorem resolve_again {text : String} {resolution : Resolution}
    (done : registry.resolve text = .ok resolution) (other : Registry) :
    (∀ site, other.substitute site resolution.code.toList = .ok resolution.code.toList) ∧
      other.resolve resolution.code = .ok ⟨resolution.code, other.code.keys⟩ := by
  have free := unmarked_of_resolve done
  exact ⟨substitute_of_unmarked free, resolve_plain free⟩

/-- The code of `single` breaks off in the middle of a marker, and has an entry for every marker of
the text it came from. -/
theorem resolve_again_wrapped :
    single.resolve (String.ofList (wrapped.flatMap Segment.source)) =
      .ok ⟨"\x7bk && <<p id=\x7bk\x7d html=\x7b<__OVERRIDE\x7d></p>\x7d", []⟩ ∧
    (∀ site, single.substitute site
      "\x7bk && <<p id=\x7bk\x7d html=\x7b<__OVERRIDE\x7d></p>\x7d".toList =
        .ok "\x7bk && <<p id=\x7bk\x7d html=\x7b<__OVERRIDE\x7d></p>\x7d".toList) ∧
    single.resolve "\x7bk && <<p id=\x7bk\x7d html=\x7b<__OVERRIDE\x7d></p>\x7d" =
      .ok ⟨"\x7bk && <<p id=\x7bk\x7d html=\x7b<__OVERRIDE\x7d></p>\x7d", single.code.keys⟩ := by
  have entries := holds_of_split single split_wrapped (by decide)
  have filled : wrapped.flatMap single.filled =
      "\x7bk && <<p id=\x7bk\x7d html=\x7b<__OVERRIDE\x7d></p>\x7d".toList := by
    simp [Registry.filled, wrapped, code?, Fragments.code?, Marker.ref, single]
  have met : (single.code.keys.filter fun ref => !(Segment.allRefs wrapped).contains ref) = [] := by
    rw [List.filter_eq_nil_iff]
    intro ref mem
    have key : ⟨"e0a", Ref.isValid_e0a⟩ = ref := by
      simpa [single] using mem
    subst key
    decide
  rw [← split_wrapped] at filled
  have done := resolve_of_unmarked entries (by rw [filled]; decide)
  rw [filled, split_wrapped, met, String.ofList_toList] at done
  exact ⟨done, resolve_again done single⟩

end Registry

end LateMarkup
