import LateMarkup.Proofs.KeySeparation

/-!
# Hyphenated names can be read back

A label has no hyphens: `a-bc` becomes `ABc`, and `ab-c` becomes `AbC`. For names that are words of
small letters, digits and underscores with single hyphens between them, nothing is lost by that. A
word starts with a letter, so it starts with a capital in the label, and there are no other
capitals. Whoever puts a hyphen before each of them and writes it small has the name again, behind
one hyphen more (`flatMap_respell_label`).
-/

namespace LateMarkup.RuntimeKey

/-! ## Words and names -/

def isWordChar (c : Char) : Bool := c.isLower || c.isDigit || c == '_'

/-- A word is a small letter with small letters, digits and underscores behind it. -/
def isWord : List Char → Bool
  | [] => false
  | c :: tail => c.isLower && tail.all isWordChar

/-- A name that is made of words with a hyphen between each two of them. -/
def IsHyphenated (name : String) : Prop :=
  ∃ words : List (List Char), words ≠ [] ∧ (∀ word ∈ words, isWord word = true) ∧
    name.toList = ['-'].intercalate words

/-- How a character of a label stood in the name. -/
def respell (c : Char) : List Char := if c.isUpper then ['-', c.toLower] else [c]

/-! ## One word -/

variable {c : Char} {word tail : List Char}

theorem isLabelChar_of_isWordChar (h : isWordChar c = true) : isLabelChar c = true := by
  unfold isWordChar at h
  unfold isLabelChar Char.isAlphanum Char.isAlpha
  simp only [Bool.or_eq_true] at h ⊢
  rcases h with (lower | digit) | underscore
  · exact Or.inl (Or.inl (Or.inr lower))
  · exact Or.inl (Or.inr digit)
  · exact Or.inr underscore

theorem ne_hyphen_of_isWordChar (h : isWordChar c = true) : c ≠ '-' := by
  rintro rfl
  exact absurd h (by decide)

theorem isUpper_of_isWordChar (h : isWordChar c = true) : c.isUpper = false := by
  unfold isWordChar at h
  simp only [Bool.or_eq_true] at h
  rcases h with (lower | digit) | underscore
  · unfold Char.isLower at lower
    unfold Char.isUpper
    simp [UInt32.le_iff_toNat_le] at lower ⊢
    omega
  · unfold Char.isDigit at digit
    unfold Char.isUpper
    simp [UInt32.le_iff_toNat_le] at digit ⊢
    omega
  · simp [beq_iff_eq.mp underscore]

/-- A small letter is read back from its capital. -/
theorem respell_toUpper (lower : c.isLower = true) : respell c.toUpper = ['-', c] := by
  have letters : ∀ n ∈ List.range' 97 26,
      respell (Char.ofNat n).toUpper = ['-', Char.ofNat n] := by decide
  have range : c.toNat ∈ List.range' 97 26 := by
    unfold Char.isLower at lower
    simp [UInt32.le_iff_toNat_le] at lower
    rw [List.mem_range'_1]
    omega
  simpa using letters c.toNat range

theorem labelChars_append_of_isWordChar (chars : ∀ c ∈ tail, isWordChar c = true)
    (rest : List Char) : labelChars false (tail ++ rest) = tail ++ labelChars false rest := by
  induction tail with
  | nil => rfl
  | cons c tail ih =>
      rw [List.forall_mem_cons] at chars
      rw [List.cons_append, labelChars, if_neg (ne_hyphen_of_isWordChar chars.1),
        if_pos (isLabelChar_of_isWordChar chars.1), ih chars.2]
      rfl

theorem flatMap_respell_of_isWordChar (chars : ∀ c ∈ tail, isWordChar c = true) :
    tail.flatMap respell = tail := by
  induction tail with
  | nil => rfl
  | cons c tail ih =>
      rw [List.forall_mem_cons] at chars
      rw [List.flatMap_cons, ih chars.2, respell, isUpper_of_isWordChar chars.1]
      rfl

/-- A word that starts in the label is read back with a hyphen before it. -/
theorem flatMap_respell_word (h : isWord word = true) (rest : List Char) :
    (labelChars true (word ++ rest)).flatMap respell =
      '-' :: (word ++ (labelChars false rest).flatMap respell) := by
  cases word with
  | nil => cases h
  | cons c tail =>
      rw [isWord, Bool.and_eq_true, List.all_eq_true] at h
      obtain ⟨lower, chars⟩ := h
      have first : isWordChar c = true := by
        rw [isWordChar, lower]
        rfl
      rw [List.cons_append, labelChars, if_neg (ne_hyphen_of_isWordChar first),
        if_pos (isLabelChar_of_isWordChar first), if_pos rfl,
        labelChars_append_of_isWordChar chars, List.flatMap_cons, respell_toUpper lower,
        List.flatMap_append,
        flatMap_respell_of_isWordChar chars]
      rfl

/-! ## All words -/

/-- The label of a name is read back as the name, with a hyphen before it. -/
theorem flatMap_respell_words {words : List (List Char)} (some : words ≠ [])
    (h : ∀ word ∈ words, isWord word = true) :
    (labelChars true (['-'].intercalate words)).flatMap respell =
      '-' :: ['-'].intercalate words := by
  induction words with
  | nil => exact absurd rfl some
  | cons word words ih =>
      rw [List.forall_mem_cons] at h
      by_cases last : words = []
      · subst last
        have read := flatMap_respell_word h.1 []
        rw [List.append_nil] at read
        rw [List.intercalate_singleton, read, labelChars, List.flatMap_nil, List.append_nil]
      · have behind : labelChars false ('-' :: ['-'].intercalate words) =
            labelChars true (['-'].intercalate words) := by
          rw [labelChars, if_pos rfl]
        rw [List.intercalate_cons_of_ne_nil last, List.append_assoc, List.singleton_append,
          flatMap_respell_word h.1, behind, ih last h.2]

theorem flatMap_respell_label {name : String} (h : IsHyphenated name) :
    (label name).toList.flatMap respell = '-' :: name.toList := by
  obtain ⟨words, some, hwords, spelled⟩ := h
  rw [label, String.toList_ofList, spelled, flatMap_respell_words some hwords]

theorem eq_of_label {a b : String} (ha : IsHyphenated a) (hb : IsHyphenated b)
    (same : label a = label b) : a = b := by
  have read := congrArg (fun text => text.toList.flatMap respell) same
  rw [flatMap_respell_label ha, flatMap_respell_label hb] at read
  exact String.toList_inj.mp (List.cons.inj read).2

/-- **Hyphenated names have labels and keys of their own.** -/
theorem hyphenated_apart (ref : Ref) (subject : Subject) {a b : String} (ha : IsHyphenated a)
    (hb : IsHyphenated b) (differ : a ≠ b) :
    label a ≠ label b ∧ value ref subject a ≠ value ref subject b ∧
      deletion ref subject a ≠ deletion ref subject b := by
  have labels : label a ≠ label b := fun same => differ (eq_of_label ha hb same)
  refine ⟨labels, ?_, ?_⟩
  · exact fun same => labels ((String.append_right_inj _).mp same)
  · exact fun same => labels ((String.append_right_inj _).mp same)

/-- Without the hyphens these two would be one. -/
theorem hyphenated_apart_shifted :
    IsHyphenated "a-b_c" ∧ IsHyphenated "ab_-c" ∧ "a-b_c" ≠ "ab_-c" ∧
    value ⟨"e0a", Ref.isValid_e0a⟩ .attribute "a-b_c" ≠
      value ⟨"e0a", Ref.isValid_e0a⟩ .attribute "ab_-c" ∧
    deletion ⟨"e0a", Ref.isValid_e0a⟩ .attribute "a-b_c" ≠
      deletion ⟨"e0a", Ref.isValid_e0a⟩ .attribute "ab_-c" := by
  have early : IsHyphenated "a-b_c" := ⟨["a".toList, "b_c".toList], by decide, by decide, by decide⟩
  have late : IsHyphenated "ab_-c" := ⟨["ab_".toList, "c".toList], by decide, by decide, by decide⟩
  have differ : "a-b_c" ≠ "ab_-c" := by decide
  exact ⟨early, late, differ,
    (hyphenated_apart ⟨"e0a", Ref.isValid_e0a⟩ .attribute early late differ).2⟩

end LateMarkup.RuntimeKey
