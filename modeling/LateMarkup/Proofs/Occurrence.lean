import Mathlib.Data.List.Infix
import LateMarkup.Marker

/-! # Where a pattern can occur

Serialized markup and generated code are put together from parts that somebody else has written:
tags, attribute values, texts, names from the settings. Between two such parts there is nearly
always a character that no marker holds, such as a blank or an angle bracket, so a marker that
occurs in the whole occurs in one of the parts. The lemmas here say so for any pattern, and then for
the stem that all markers share.
-/

namespace LateMarkup

/-- What is said of every character of a text is decided along the text, and not along all
characters that there are. -/
instance (priority := high) decidableForallMem {text : List Char} {P : Char → Prop}
    [DecidablePred P] : Decidable (∀ c ∈ text, P c) :=
  List.decidableBAll P text

/-! ## Patterns and separators -/

theorem infix_append_cons_iff {p a b : List Char} {d : Char} (h : d ∉ p) :
    p <:+: a ++ d :: b ↔ p <:+: a ∨ p <:+: b := by
  constructor
  · intro hp
    rcases List.infix_append_iff_ne_nil.mp hp with ha | hb | ⟨l, r, -, hr, rfl, -, hpre⟩
    · exact Or.inl ha
    · rcases List.infix_cons_iff.mp hb with hpre | hb
      · cases p with
        | nil => exact Or.inl List.nil_infix
        | cons e p =>
            have he : e = d := (List.cons_prefix_cons.mp hpre).1
            exact absurd (he ▸ List.mem_cons_self) h
      · exact Or.inr hb
    · -- Across the seam the pattern would hold the separator.
      cases r with
      | nil => exact absurd rfl hr
      | cons e r =>
          have he : e = d := (List.cons_prefix_cons.mp hpre).1
          subst he
          exact absurd (List.mem_append_right _ List.mem_cons_self) h
  · rintro (ha | hb)
    · exact List.infix_append_of_infix_left ha
    · exact List.infix_append_of_infix_right (List.infix_cons hb)

theorem infix_cons_iff_of_notMem {p b : List Char} {d : Char} (h : d ∉ p) (some : p ≠ []) :
    p <:+: d :: b ↔ p <:+: b := by
  have hs := infix_append_cons_iff (a := []) (b := b) h
  rw [List.nil_append, List.infix_nil] at hs
  rw [hs]
  exact or_iff_right some

/-- A pattern that ends in a character which the second part lacks stands in the first part. -/
theorem infix_append_of_last_notMem {p a b : List Char} {e : Char} (h : e ∉ b)
    (hp : p ++ [e] <:+: a ++ b) : p ++ [e] <:+: a := by
  rcases List.infix_append_iff_ne_nil.mp hp with ha | hb | ⟨l, r, -, hr, heq, -, hpre⟩
  · exact ha
  · exact absurd (hb.subset (by simp)) h
  · obtain ⟨r, f, rfl⟩ := List.eq_nil_or_concat r |>.resolve_left hr
    rw [List.concat_eq_append, ← List.append_assoc] at heq
    have hef : e = f := by simpa using (List.append_inj' heq rfl).2
    subst hef
    exact absurd (hpre.subset (by simp)) h

/-- A pattern whose first character the first part lacks stands in the second part. -/
theorem infix_append_of_head_notMem {p a b : List Char} {e : Char} (h : e ∉ a)
    (hp : e :: p <:+: a ++ b) : e :: p <:+: b := by
  rcases List.infix_append_iff_ne_nil.mp hp with ha | hb | ⟨l, r, hl, -, heq, hsuf, -⟩
  · exact absurd (ha.subset List.mem_cons_self) h
  · exact hb
  · obtain ⟨f, l, rfl⟩ := List.exists_cons_of_ne_nil hl
    cases heq
    exact absurd (hsuf.subset List.mem_cons_self) h

/-- A pattern does not reach out of the first part when it goes on nowhere as the second one starts.
-/
theorem infix_append_of_stop {p a b : List Char} {e : Char} (stop : ∀ c ∈ b.head?, c ∉ p)
    (hp : e :: p <:+: a ++ b) : e :: p <:+: a ∨ e :: p <:+: b := by
  rcases List.infix_append_iff_ne_nil.mp hp with ha | hb | ⟨l, r, hl, hr, heq, -, hpre⟩
  · exact Or.inl ha
  · exact Or.inr hb
  · obtain ⟨f, l, rfl⟩ := List.exists_cons_of_ne_nil hl
    obtain ⟨c, r, rfl⟩ := List.exists_cons_of_ne_nil hr
    obtain ⟨more, rfl⟩ := hpre
    cases heq
    exact absurd (List.mem_append_right l List.mem_cons_self) (stop c rfl)

/-- A pattern does not reach out of a part that ends in a character which the pattern lacks. -/
theorem infix_append_of_last {p a b : List Char} (stop : ∀ c ∈ a.getLast?, c ∉ p)
    (hp : p <:+: a ++ b) : p <:+: a ∨ p <:+: b := by
  rcases List.eq_nil_or_concat a with rfl | ⟨a, c, rfl⟩
  · exact Or.inr hp
  · rw [List.concat_eq_append] at hp stop ⊢
    have hc : c ∉ p := stop c (by simp)
    rw [List.append_assoc, List.singleton_append, infix_append_cons_iff hc] at hp
    rcases hp with ha | hb
    · exact Or.inl (List.infix_append_of_infix_left ha)
    · exact Or.inr hb

/-! ## Text without marker text -/

/-- A text in which no marker starts, well formed or not. -/
def Unmarked (text : List Char) : Prop := ¬ Marker.stem.toList <:+: text

instance (text : List Char) : Decidable (Unmarked text) :=
  inferInstanceAs (Decidable (¬ _))

/-- A character that keeps the marker text before it and behind it apart. -/
def Breaks (c : Char) : Prop := c ∉ Marker.stem.toList

instance (c : Char) : Decidable (Breaks c) := inferInstanceAs (Decidable (_ ∉ _))

theorem stem_ne_nil : Marker.stem.toList ≠ [] := by decide

/-- A text that lacks a character of all markers. -/
theorem unmarked_of_notMem {c : Char} (hc : c ∈ Marker.stem.toList) {text : List Char}
    (absent : c ∉ text) : Unmarked text :=
  fun h => absent (h.subset hc)

namespace Unmarked

@[simp] theorem nil : Unmarked [] := by
  intro h
  exact stem_ne_nil (List.infix_nil.mp h)

theorem of_infix {a b : List Char} (hb : Unmarked b) (h : a <:+: b) : Unmarked a :=
  fun hs => hb (hs.trans h)

theorem left {a b : List Char} (h : Unmarked (a ++ b)) : Unmarked a :=
  h.of_infix List.infix_append_left

theorem right {a b : List Char} (h : Unmarked (a ++ b)) : Unmarked b :=
  h.of_infix List.infix_append_right

end Unmarked

theorem unmarked_append_cons {a b : List Char} {c : Char} (h : Breaks c) :
    Unmarked (a ++ c :: b) ↔ Unmarked a ∧ Unmarked b := by
  unfold Unmarked
  rw [infix_append_cons_iff h, not_or]

theorem unmarked_cons {b : List Char} {c : Char} (h : Breaks c) :
    Unmarked (c :: b) ↔ Unmarked b := by
  unfold Unmarked
  rw [infix_cons_iff_of_notMem h stem_ne_nil]

/-- Characters that break marker text hold none. -/
theorem unmarked_of_breaks {a : List Char} (h : ∀ c ∈ a, Breaks c) : Unmarked a := by
  induction a with
  | nil => exact Unmarked.nil
  | cons c a ih =>
      rw [unmarked_cons (h c List.mem_cons_self)]
      exact ih fun d hd => h d (List.mem_cons_of_mem _ hd)

theorem unmarked_breaks_append {a b : List Char} (h : ∀ c ∈ a, Breaks c) :
    Unmarked (a ++ b) ↔ Unmarked b := by
  induction a with
  | nil => rfl
  | cons c a ih =>
      rw [List.cons_append, unmarked_cons (h c List.mem_cons_self)]
      exact ih fun d hd => h d (List.mem_cons_of_mem _ hd)

end LateMarkup
