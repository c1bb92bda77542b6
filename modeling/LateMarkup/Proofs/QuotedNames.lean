import LateMarkup.Annotation
import LateMarkup.Proofs.AttributeMeaning
import LateMarkup.Proofs.LiteralReading

/-!
# Names between quotes

A spread attribute has its name between single quotes, and the name of an overridden attribute is
put there as it stands. A marker takes no name with a quote or a line break in it, so of all that a
literal can stumble over only the backslash is left. A name without one is read as it is. A
backslash is read together with the character behind it, so a name with one is never read as that
name, and at its end the backslash takes the closing quote with it
(`Fragment.quoted_name_read_iff`, `Draft.name_takes_quote`).
-/

namespace LateMarkup

namespace Jsx.Literal

variable {quote : Char} {cs text rest : List Char}

/-! ### Escapes -/

/-- What is read of a closed literal stands before the quote that closes it, and is shorter where
something is escaped. -/
theorem exists_of_scan_closed (h : scan quote cs = (text, .closed rest)) :
    ∃ body, cs = body ++ quote :: rest ∧ text.length ≤ body.length ∧
      ('\\' ∈ body → text.length < body.length) := by
  fun_induction scan quote cs generalizing text with
  | case1 => cases h
  | case2 => cases h
  | case3 escaped behind ih =>
      generalize reading : scan quote behind = inner at h
      obtain ⟨inner, ending⟩ := inner
      cases h
      obtain ⟨body, rfl, length, -⟩ := ih reading
      refine ⟨'\\' :: escaped :: body, rfl, ?_, fun _ => ?_⟩ <;>
        simp only [List.length_cons] <;> omega
  | case4 behind escape =>
      cases h
      exact ⟨[], rfl, Nat.le_refl _, fun mem => (List.not_mem_nil mem).elim⟩
  | case5 => cases h
  | case6 => cases h
  | case7 c behind escape other line dollar ih =>
      generalize reading : scan quote behind = inner at h
      obtain ⟨inner, ending⟩ := inner
      cases h
      obtain ⟨body, rfl, length, shorter⟩ := ih reading
      refine ⟨c :: body, rfl, Nat.succ_le_succ length, fun mem => ?_⟩
      exact Nat.succ_lt_succ (shorter (List.mem_of_ne_of_mem (Ne.symm escape) mem))

theorem length_of_value? (h : value? cs = some text) :
    text.length ≤ cs.length ∧ ('\\' ∈ cs → text.length < cs.length) := by
  fun_induction value? cs generalizing text with
  | case1 =>
      cases h
      exact ⟨Nat.le_refl _, fun mem => (List.not_mem_nil mem).elim⟩
  | case2 c behind ih =>
      obtain ⟨d, -, h⟩ := Option.bind_eq_some_iff.mp h
      obtain ⟨inner, found, rfl⟩ := Option.map_eq_some_iff.mp h
      have length := (ih found).1
      refine ⟨?_, fun _ => ?_⟩ <;> simp only [List.length_cons] <;> omega
  | case3 => cases h
  | case4 c behind single escape ih =>
      obtain ⟨inner, found, rfl⟩ := Option.map_eq_some_iff.mp h
      obtain ⟨length, shorter⟩ := ih found
      refine ⟨Nat.succ_le_succ length, fun mem => ?_⟩
      have other : c ≠ '\\' := fun same => escape (Or.inl same)
      exact Nat.succ_lt_succ (shorter (List.mem_of_ne_of_mem other.symm mem))

/-! ### Texts that are put between quotes as they are -/

section Plain

variable (clean : ∀ c ∈ text, c ∉ ['\'', '\n', '\r'])

include clean

theorem encode_of_clean (plain : '\\' ∉ text) : encode '\'' text = text := by
  refine encode_eq_self fun c mem escaped => ?_
  rcases List.mem_cons.mp escaped with rfl | escaped
  · exact plain mem
  · exact clean c mem escaped

/-- Of all that a literal can stumble over, a clean text can only have the backslash. -/
theorem scan_eq_closed_iff (behind : List Char) :
    scan '\'' (text ++ '\'' :: behind) = (text, .closed behind) ↔ '\\' ∉ text := by
  constructor
  · intro reading escape
    obtain ⟨body, same, -, shorter⟩ := exists_of_scan_closed reading
    obtain rfl := List.append_cancel_right same
    exact Nat.lt_irrefl _ (shorter escape)
  · intro plain
    apply eq_of_closed?
    rw [← read?_eq_closed?]
    conv_lhs => rw [← encode_of_clean clean plain]
    exact read?_encode (by decide) text behind

theorem value?_eq_some_self_iff : value? text = some text ↔ '\\' ∉ text := by
  constructor
  · exact fun value escape => Nat.lt_irrefl _ ((length_of_value? value).2 escape)
  · intro plain
    conv_lhs => rw [← encode_of_clean clean plain]
    exact value?_encode text

end Plain

end Jsx.Literal

/-! ## Names of overridden attributes -/

namespace Fragment

variable {settings : Settings} {ref : Ref} {name : String} {kind : AttributeOverride}
  {present : Bool}

/-- A name that a marker takes has no quote and no line break in it. -/
theorem clean_of_isNameChar (chars : ∀ c ∈ name.toList, Marker.isNameChar c = true) :
    ∀ c ∈ name.toList, c ∉ ['\'', '\n', '\r'] := by
  have outside : ∀ c ∈ ['\'', '\n', '\r'], Marker.isNameChar c = false := by decide
  intro c mem unclean
  have other := outside c unclean
  rw [chars c mem] at other
  cases other

/-- All code but that for the update of an attribute that is there spreads the attribute in. -/
theorem exists_spread (ref : Ref) (name shown value : String)
    (spread : kind = .update → present = false) :
    ∃ test content, attributeForm ref name shown value present kind =
      .spread test shown content := by
  cases kind with
  | update =>
      rw [spread rfl]
      exact ⟨_, _, rfl⟩
  | delete => exact ⟨_, _, rfl⟩
  | updateDelete => exact ⟨_, _, rfl⟩

/-- **A name between quotes is read as itself exactly if there is no backslash in it.** The name of
a spread attribute stands between two single quotes. Read from behind the first of them, the literal
is closed by the second one and has the name as its text if no backslash is in the name, and not
otherwise. -/
theorem quoted_name_read_iff (settings : Settings) (ref : Ref)
    (admitted : name ≠ "" ∧ ∀ c ∈ name.toList, Marker.isNameChar c = true) (value : Option String)
    (spread : kind = .update → present = false) :
    ∃ (test : Jsx.Test) (content : Jsx.Value) (behind : String),
      attributeForm ref name name (value.getD "") present kind = .spread test name content ∧
      behind = ": " ++ content.render settings ++ "\x7d\x7d" ∧
      ofAttribute settings ref name value kind present false =
        "\x7b..." ++ test.render settings ++ " && \x7b" ++ "'" ++ name ++ "'" ++ behind ∧
      (Jsx.Literal.scan '\'' (name ++ "'" ++ behind).toList =
        (name.toList, .closed behind.toList) ↔ '\\' ∉ name.toList) ∧
      (Jsx.Literal.value? name.toList = some name.toList ↔ '\\' ∉ name.toList) := by
  have clean := clean_of_isNameChar admitted.2
  obtain ⟨test, content, form⟩ := exists_spread ref name name (value.getD "") spread
  refine ⟨test, content, _, form, rfl, ?_, ?_, Jsx.Literal.value?_eq_some_self_iff clean⟩
  · show (attributeForm ref name name (value.getD "") present kind).render settings = _
    rw [form, Jsx.Attribute.render, ← String.toList_inj]
    simp
  · rw [← Jsx.Literal.scan_eq_closed_iff clean (": " ++ content.render settings ++
      "\x7d\x7d").toList]
    simp

theorem quoted_name_read_iff_accented :
    ("$\x7bé`" ≠ "" ∧ ∀ c ∈ "$\x7bé`".toList, Marker.isNameChar c = true) ∧
    (AttributeOverride.delete = .update → true = false) ∧
    ofAttribute {} ⟨"e0a", Ref.isValid_e0a⟩ "$\x7bé`" (some "x") .delete true false =
      "\x7b...!d.e0aAttrdel && \x7b" ++ "'" ++ "$\x7bé`" ++ "'" ++ ": 'x'\x7d\x7d" ∧
    Jsx.Literal.scan '\'' ("$\x7bé`" ++ "'" ++ ": 'x'\x7d\x7d").toList =
      ("$\x7bé`".toList, .closed ": 'x'\x7d\x7d".toList) := by
  have admitted : "$\x7bé`" ≠ "" ∧ ∀ c ∈ "$\x7bé`".toList, Marker.isNameChar c = true := by decide
  have spread : AttributeOverride.delete = .update → true = false := nofun
  obtain ⟨test, content, behind, form, rest, -, reading, -⟩ :=
    quoted_name_read_iff {} ⟨"e0a", Ref.isValid_e0a⟩ admitted (some "x") spread
  have shown : behind = ": 'x'\x7d\x7d" := by
    rw [rest, ← (Jsx.Attribute.spread.inj form).2.2]
    decide
  rw [shown] at reading
  exact ⟨admitted, spread, by decide, reading.mpr (by decide)⟩

end Fragment

namespace Draft

/-- A paragraph in which an attribute with a backslash at the end of its name can be left out. -/
def backslashDraft : Draft :=
  Draft.annotate ⟨{}, Document.addElement {} none "p" [], {}⟩ 0 ⟨"e0a", Ref.isValid_e0a⟩
    { attributes := (∅ : NameMap AttributeOverride).insert "a\\" .delete }

/-- A name can take the closing quote with it: the literal goes on to the next quote, which is the
first one of the value. -/
theorem name_takes_quote :
    ("a\\" ≠ "" ∧ ∀ c ∈ "a\\".toList, Marker.isNameChar c = true) ∧
    backslashDraft.registry.attributeFragment ⟨"e0a", Ref.isValid_e0a⟩ "a\\" =
      .ok ("\x7b...!d.e0aAttrdelA && \x7b" ++ "'" ++ "a\\" ++ "'" ++ ": ''\x7d\x7d") ∧
    Jsx.Literal.scan '\'' ("a\\" ++ "'" ++ ": ''\x7d\x7d").toList =
      ("a': ".toList, .closed "'\x7d\x7d".toList) :=
  ⟨by decide, by decide, by decide +kernel⟩

end Draft

end LateMarkup
