import LateMarkup.Proofs.GeneratedCode

/-!
# Run-time keys are kept apart

A key is a ref, a word and perhaps a label, run together without a separator. It can be taken apart
all the same. A ref holds no capitals and every word starts with one, so the ref ends where the word
begins (`Ref.eq_of_append`). No word is the beginning of another, and no label starts with a small
letter, so what stands behind a ref is the word and the label of one topic only
(`Topic.eq_of_spelling`).
-/

namespace LateMarkup

/-! ## The end of the ref -/

/-- A ref ends before the first character that no ref can hold. -/
theorem Ref.eq_of_append {a b : Ref} {x y : List Char}
    (hx : ∀ c ∈ x.head?, isTailChar c = false) (hy : ∀ c ∈ y.head?, isTailChar c = false)
    (same : a.text.toList ++ x = b.text.toList ++ y) : a = b ∧ x = y := by
  obtain ⟨texts, rest⟩ := eq_of_append_stop (fun _ => isTailChar_of_mem)
    (fun _ => isTailChar_of_mem) hx hy same
  exact ⟨ext_text (String.toList_inj.mp texts), rest⟩

namespace RuntimeKey

/-! ## The beginning of the label -/

theorem isLower_toUpper (c : Char) : c.toUpper.isLower = false := by
  unfold Char.toUpper
  split
  · next hlower =>
      have small : ∀ valid, Char.isLower ⟨c.val + ('A'.val - 'a'.val), valid⟩ = false := by
        intro valid
        unfold Char.isLower
        simp only [ge_iff_le, UInt32.le_iff_toNat_le, Char.reduceVal, UInt32.toNat_add,
          UInt32.toNat_sub, UInt32.reduceToNat, Bool.and_eq_false_iff,
          decide_eq_false_iff_not] at hlower ⊢
        omega
      exact small _
  · next hother =>
      unfold Char.isLower
      rw [Bool.and_eq_false_iff, decide_eq_false_iff_not, decide_eq_false_iff_not]
      exact not_and_or.mp hother

/-- The first character of a label was written as a capital, if it was a letter. -/
theorem isLower_head_label {name : String} :
    ∀ c ∈ (label name).toList.head?, c.isLower = false := by
  have chars : ∀ cs : List Char, ∀ c ∈ (labelChars true cs).head?, c.isLower = false := by
    intro cs
    induction cs with
    | nil => nofun
    | cons d rest ih =>
        rw [labelChars]
        split
        · exact ih
        · split
          · intro c hc
            obtain rfl : d.toUpper = c := by simpa using hc
            exact isLower_toUpper d
          · exact ih
  rw [label, String.toList_ofList]
  exact chars name.toList

/-! ## Topics -/

/-- What a key is about, apart from the node. -/
inductive Topic where
  | value (subject : Subject) (label : List Char)
  | deletion (subject : Subject) (label : List Char)
  | part (p : Part)

namespace Topic

def spelling : Topic → List Char
  | value subject label => subject.word.toList ++ label
  | deletion subject label => subject.word.toList ++ ("del".toList ++ label)
  | part p => p.word.toList

/-- The label of a topic does not start with a small letter. -/
def Proper : Topic → Prop
  | value _ label => ∀ c ∈ label.head?, c.isLower = false
  | deletion _ label => ∀ c ∈ label.head?, c.isLower = false
  | part _ => True

theorem isTailChar_head_spelling (topic : Topic) :
    ∀ c ∈ topic.spelling.head?, Ref.isTailChar c = false := by
  cases topic with
  | value subject label => cases subject <;> simp [spelling, Subject.word] <;> decide
  | deletion subject label => cases subject <;> simp [spelling, Subject.word] <;> decide
  | part p => cases p <;> simp [spelling, Part.word] <;> decide

theorem spelling_value_ne_deletion {s t : Subject} {a b : List Char} (proper : (value s a).Proper) :
    (value s a).spelling ≠ (deletion t b).spelling := by
  intro same
  have removal : a = "del".toList ++ b := by
    cases s <;> cases t <;> simp_all [spelling, Subject.word]
  rw [removal] at proper
  exact absurd (proper 'd' rfl) (by decide)

theorem spelling_part_ne_subject (p : Part) (subject : Subject) (rest : List Char) :
    (part p).spelling ≠ subject.word.toList ++ rest := by
  cases p <;> cases subject <;> simp [spelling, Part.word, Subject.word]

/-- Words and labels can be told apart. -/
theorem eq_of_spelling {a b : Topic} (ha : a.Proper) (hb : b.Proper)
    (same : a.spelling = b.spelling) : a = b := by
  -- Topics of two kinds never agree; topics of one kind agree in the word and then in the label.
  cases a with
  | value s x =>
      cases b with
      | value t y =>
          cases s <;> cases t <;> simp_all [spelling, Subject.word]
      | deletion t y => exact absurd same (spelling_value_ne_deletion ha)
      | part p => exact absurd same.symm (spelling_part_ne_subject p s x)
  | deletion s x =>
      cases b with
      | value t y => exact absurd same.symm (spelling_value_ne_deletion hb)
      | deletion t y =>
          cases s <;> cases t <;> simp_all [spelling, Subject.word]
      | part p => exact absurd same.symm (spelling_part_ne_subject p s _)
  | part p =>
      cases b with
      | value t y => exact absurd same (spelling_part_ne_subject p t y)
      | deletion t y => exact absurd same (spelling_part_ne_subject p t _)
      | part q =>
          cases p <;> cases q <;> simp_all [spelling, Part.word]

end Topic

def key (ref : Ref) (topic : Topic) : List Char := ref.text.toList ++ topic.spelling

theorem toList_value (ref : Ref) (subject : Subject) (name : String) :
    (value ref subject name).toList = key ref (.value subject (label name).toList) := by
  simp [value, key, Topic.spelling]

theorem toList_deletion (ref : Ref) (subject : Subject) (name : String) :
    (deletion ref subject name).toList = key ref (.deletion subject (label name).toList) := by
  simp [deletion, key, Topic.spelling]

theorem toList_part (ref : Ref) (p : Part) : (part ref p).toList = key ref (.part p) := by
  simp [part, key, Topic.spelling]

/-- Different nodes or topics have different keys. -/
theorem key_inj {r₁ r₂ : Ref} {t₁ t₂ : Topic} (h₁ : t₁.Proper) (h₂ : t₂.Proper) :
    key r₁ t₁ = key r₂ t₂ ↔ r₁ = r₂ ∧ t₁ = t₂ := by
  constructor
  · intro same
    obtain ⟨refs, spellings⟩ := Ref.eq_of_append t₁.isTailChar_head_spelling
      t₂.isTailChar_head_spelling same
    exact ⟨refs, Topic.eq_of_spelling h₁ h₂ spellings⟩
  · rintro ⟨rfl, rfl⟩
    rfl

theorem isLabelChar_of_mem_key {ref : Ref} {topic : Topic}
    (hlabel : ∀ c ∈ topic.spelling, isLabelChar c = true) :
    ∀ c ∈ key ref topic, isLabelChar c = true := by
  intro c hc
  rcases List.mem_append.mp hc with hc | hc
  · have tail := Ref.isTailChar_of_mem hc
    rw [Ref.isTailChar, Bool.or_eq_true] at tail
    unfold isLabelChar Char.isAlphanum Char.isAlpha
    rcases tail with lower | digit
    · simp [lower]
    · simp [digit]
  · exact hlabel c hc

theorem isLabelChar_of_mem_word (subject : Subject) :
    ∀ c ∈ subject.word.toList, isLabelChar c = true := by
  cases subject <;> decide

/-- A text that can be a key of a node. -/
def Belongs (ref : Ref) (text : String) : Prop :=
  (∀ c ∈ text.toList, isLabelChar c = true) ∧ ref.text.toList <+: text.toList

theorem belongs_value (ref : Ref) (subject : Subject) (name : String) :
    Belongs ref (value ref subject name) := by
  rw [Belongs, toList_value]
  refine ⟨isLabelChar_of_mem_key fun c hc => ?_, List.prefix_append _ _⟩
  rcases List.mem_append.mp hc with hc | hc
  · exact isLabelChar_of_mem_word subject c hc
  · exact isLabelChar_of_mem_label hc

theorem belongs_deletion (ref : Ref) (subject : Subject) (name : String) :
    Belongs ref (deletion ref subject name) := by
  rw [Belongs, toList_deletion]
  refine ⟨isLabelChar_of_mem_key fun c hc => ?_, List.prefix_append _ _⟩
  rcases List.mem_append.mp hc with hc | hc
  · exact isLabelChar_of_mem_word subject c hc
  · rcases List.mem_append.mp hc with hc | hc
    · exact (by decide : ∀ c ∈ "del".toList, isLabelChar c = true) c hc
    · exact isLabelChar_of_mem_label hc

theorem belongs_part (ref : Ref) (p : Part) : Belongs ref (part ref p) := by
  rw [Belongs, toList_part]
  refine ⟨isLabelChar_of_mem_key ?_, List.prefix_append _ _⟩
  cases p <;> decide

/-- **Keys tell what they are about.** A key belongs to its node. Two keys of named topics agree
only if they have the same role, node, subject and label, two keys of parts only if they are of the
same part of the same node, and a key of a named topic is never that of a part. -/
theorem keys_apart (r₁ r₂ : Ref) (s₁ s₂ : Subject) (n₁ n₂ : String) (p₁ p₂ : Part) :
    (Belongs r₁ (value r₁ s₁ n₁) ∧ Belongs r₁ (deletion r₁ s₁ n₁) ∧ Belongs r₁ (part r₁ p₁)) ∧
    value r₁ s₁ n₁ ≠ deletion r₂ s₂ n₂ ∧
    (value r₁ s₁ n₁ = value r₂ s₂ n₂ ↔ r₁ = r₂ ∧ s₁ = s₂ ∧ label n₁ = label n₂) ∧
    (deletion r₁ s₁ n₁ = deletion r₂ s₂ n₂ ↔ r₁ = r₂ ∧ s₁ = s₂ ∧ label n₁ = label n₂) ∧
    (value r₁ s₁ n₁ ≠ part r₂ p₂ ∧ deletion r₁ s₁ n₁ ≠ part r₂ p₂) ∧
    (part r₁ p₁ = part r₂ p₂ ↔ r₁ = r₂ ∧ p₁ = p₂) := by
  have values : ∀ s n, (Topic.value s (label n).toList).Proper := fun _ _ => isLower_head_label
  have deletions : ∀ s n, (Topic.deletion s (label n).toList).Proper :=
    fun _ _ => isLower_head_label
  have parts : ∀ p, (Topic.part p).Proper := fun _ => trivial
  refine ⟨⟨belongs_value _ _ _, belongs_deletion _ _ _, belongs_part _ _⟩, ?_⟩
  simp only [ne_eq, ← String.toList_inj, toList_value, toList_deletion, toList_part]
  rw [key_inj (values _ _) (deletions _ _), key_inj (values _ _) (values _ _),
    key_inj (deletions _ _) (deletions _ _), key_inj (values _ _) (parts p₂),
    key_inj (deletions _ _) (parts p₂), key_inj (parts p₁) (parts p₂)]
  simp

end RuntimeKey

end LateMarkup
