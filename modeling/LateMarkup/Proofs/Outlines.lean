import LateMarkup.Proofs.Nesting

/-!
# Markup has one reading

Two forests with the same markup have the same outline: the same elements around each other, with
the same attributes and the same texts between them. The numbers of the nodes are not written, an
empty text leaves no trace, and of texts that touch nobody can tell where one ends, so the outline
is without all that.

Route: `Forest.outline_eq` compares two rows that are written before two remainders, each of which
is empty or goes on with a closing tag. Going along the first row (`Forest.charwise`), what its next
character belongs to has to be found at the front of the second row as well. For a character of a
text that is `exists_behind_char`, for an element `exists_element`, and at the end of the row
`outline_of_closes`. They go past empty texts of the second row.
-/

namespace LateMarkup

/-! ## Outlines -/

/-- What a row of trees shows: texts that are not empty and do not touch, and elements. -/
inductive Outline where
  | nil
  | text (content : String) (next : Outline)
  | element (tag : String) (attributes : Attributes) (children next : Outline)
deriving DecidableEq, Repr

namespace Outline

/-- Puts a text before a row. An empty text is dropped, and before another text the two become one.
-/
def prependText (content : String) : Outline → Outline
  | .text after next => .text (content ++ after) next
  | row => if content = "" then row else .text content row

theorem prependText_empty (row : Outline) : row.prependText "" = row := by
  cases row <;> simp [prependText]

theorem prependText_append (a b : String) (row : Outline) :
    row.prependText (a ++ b) = (row.prependText b).prependText a := by
  cases row with
  | text after next => simp [prependText, String.append_assoc]
  | nil =>
      by_cases hb : b = ""
      · simp [prependText, hb]
      · simp [prependText, hb]
  | element tag attributes children next =>
      by_cases hb : b = ""
      · simp [prependText, hb]
      · simp [prependText, hb]

end Outline

namespace Forest

def outline : Forest → Outline
  | nil => .nil
  | node _ (.text content) _ next => next.outline.prependText content
  | node _ (.element tag attributes) children next =>
    .element tag attributes children.outline next.outline

/-! ## Names -/

def endsName (c : Char) : Bool :=
  Text.isBlank c || c == '"' || c == '=' || c == '<' || c == '>' || c == '/' || c == '&'

/-- A name that a tag can hold. -/
structure IsName (name : String) : Prop where
  nonempty : name ≠ ""
  plain : ∀ c ∈ name.toList, endsName c = false

instance (name : String) : Decidable (IsName name) :=
  decidable_of_iff (name ≠ "" ∧ ∀ c ∈ name.toList, endsName c = false)
    ⟨fun h => ⟨h.1, h.2⟩, fun h => ⟨h.1, h.2⟩⟩

/-- A name ends at the first character that no name holds. -/
theorem IsName.eq_of_append {name other : String} (hname : IsName name) (hother : IsName other)
    {rest behind : List Char} (hrest : ∀ c ∈ rest.head?, endsName c = true)
    (hbehind : ∀ c ∈ behind.head?, endsName c = true)
    (same : name.toList ++ rest = other.toList ++ behind) : name = other ∧ rest = behind := by
  have parts := eq_of_append_stop (p := fun c => !endsName c) (by simpa using hname.plain)
    (by simpa using hother.plain) (by simpa using hrest) (by simpa using hbehind) same
  exact ⟨String.toList_inj.mp parts.1, parts.2⟩

end Forest

def Label.Named : Label → Prop
  | .element tag attributes => Forest.IsName tag ∧ ∀ pair ∈ attributes, Forest.IsName pair.1
  | .text _ => True

namespace Forest

/-- Every node that is written has names that a tag can hold. -/
abbrev Named (forest : Forest) : Prop := forest.AllShown fun _ => Label.Named

instance : DecidablePred Label.Named
  | .element _ _ => inferInstanceAs (Decidable (_ ∧ _))
  | .text _ => inferInstanceAs (Decidable True)

instance decidableNamed : DecidablePred Named
  | nil => inferInstanceAs (Decidable True)
  | node _ label children next =>
    have : Decidable children.Named := decidableNamed children
    have : Decidable next.Named := decidableNamed next
    inferInstanceAs (Decidable (label.Named ∧ (label.isElement = true → children.Named) ∧ _))

/-! ## Characters -/

theorem spellTextChar_inj {c d : Char} {t u : List Char}
    (same : spellTextChar c ++ t = spellTextChar d ++ u) : c = d ∧ t = u := by
  unfold spellTextChar at same
  split_ifs at same <;> simp at same <;> grind

theorem spellValueChar_inj {c d : Char} {t u : List Char}
    (same : spellValueChar c ++ t = spellValueChar d ++ u) : c = d ∧ t = u := by
  unfold spellValueChar at same
  split_ifs at same <;> simp at same <;> grind

/-- No character of a value is written with a quote, so the first one ends the value. -/
theorem spellValue_ne_quote (c : Char) (t u : List Char) : spellValueChar c ++ t ≠ '"' :: u := by
  unfold spellValueChar
  split_ifs <;> simp_all

theorem value_inj {v w t u : List Char}
    (same : v.flatMap spellValueChar ++ '"' :: t = w.flatMap spellValueChar ++ '"' :: u) :
    v = w ∧ t = u := by
  induction v generalizing w with
  | nil =>
      cases w with
      | nil => simpa using same
      | cons d w =>
          rw [List.flatMap_cons, List.append_assoc] at same
          exact absurd same.symm (spellValue_ne_quote _ _ _)
  | cons c v ih =>
      cases w with
      | nil =>
          rw [List.flatMap_cons, List.append_assoc] at same
          exact absurd same (spellValue_ne_quote _ _ _)
      | cons d w =>
          rw [List.flatMap_cons, List.append_assoc, List.flatMap_cons, List.append_assoc] at same
          obtain ⟨chars, left⟩ := spellValueChar_inj same
          obtain ⟨values, ends⟩ := ih left
          exact ⟨by rw [chars, values], ends⟩

/-! ## Attributes -/

def EndsTag (rest : List Char) : Prop := rest.head? = some '>' ∨ rest.head? = some '/'

theorem EndsTag.head_endsName {rest : List Char} (h : EndsTag rest) :
    ∀ c ∈ rest.head?, endsName c = true := by
  rcases h with h | h <;> rw [h] <;> rintro c ⟨⟩ <;> decide

theorem EndsTag.ne_blank {rest : List Char} (h : EndsTag rest) (behind : List Char) :
    ' ' :: behind ≠ rest := by
  rintro rfl
  rcases h with h | h <;> cases h

theorem toList_attributesMarkup_eq (name value : String) (rest : Attributes) :
    (attributesMarkup ((name, value) :: rest)).toList = ' ' :: (name.toList ++ '=' :: '"' ::
      (value.toList.flatMap spellValueChar ++ '"' :: (attributesMarkup rest).toList)) := by
  rw [toList_attributesMarkup_cons, toList_attributesMarkup_single]
  simp

theorem attributes_inj {a b : Attributes} {rest behind : List Char}
    (ha : ∀ pair ∈ a, IsName pair.1) (hb : ∀ pair ∈ b, IsName pair.1)
    (hrest : EndsTag rest) (hbehind : EndsTag behind)
    (same : (attributesMarkup a).toList ++ rest = (attributesMarkup b).toList ++ behind) :
    a = b ∧ rest = behind := by
  induction a generalizing b with
  | nil =>
      cases b with
      | nil => exact ⟨rfl, same⟩
      | cons first b =>
          rw [toList_attributesMarkup_eq] at same
          exact absurd same.symm (hrest.ne_blank _)
  | cons first a ih =>
      obtain ⟨name, value⟩ := first
      rw [List.forall_mem_cons] at ha
      cases b with
      | nil =>
          rw [toList_attributesMarkup_eq] at same
          exact absurd same (hbehind.ne_blank _)
      | cons second b =>
          obtain ⟨other, content⟩ := second
          rw [List.forall_mem_cons] at hb
          rw [toList_attributesMarkup_eq, toList_attributesMarkup_eq] at same
          simp only [List.cons_append, List.append_assoc, List.cons.injEq, true_and] at same
          have stop (t : List Char) : ∀ c ∈ ('=' :: t).head?, endsName c = true := by
            rintro c ⟨⟩
            decide
          obtain ⟨names, left⟩ := ha.1.eq_of_append hb.1 (stop _) (stop _) same
          simp only [List.cons.injEq, true_and] at left
          obtain ⟨values, left⟩ := value_inj left
          obtain ⟨others, ends⟩ := ih ha.2 hb.2 left
          exact ⟨by rw [show name = other from names, String.toList_inj.mp values, others], ends⟩

/-- Behind the tag there are attributes or its end. -/
theorem head_endsName (attributes : Attributes) {rest : List Char} (h : EndsTag rest) :
    ∀ c ∈ ((attributesMarkup attributes).toList ++ rest).head?, endsName c = true := by
  cases attributes with
  | nil => exact h.head_endsName
  | cons first attributes =>
      rw [toList_attributesMarkup_eq]
      rintro c ⟨⟩
      decide

/-! ## What is at the front of a row -/

/-- What can stand behind a row: nothing, or a closing tag. -/
def Closes (rest : List Char) : Prop := rest = [] ∨ ∃ tag, rest = '<' :: '/' :: tag

/-- Going along a row, and along each text in it character by character. -/
@[elab_as_elim]
theorem charwise {P : Forest → Prop} (nil : P nil)
    (skip : ∀ id children next, P next → P (node id (.text (String.ofList [])) children next))
    (char : ∀ id c cs children next, P (node id (.text (String.ofList cs)) children next) →
      P (node id (.text (String.ofList (c :: cs))) children next))
    (element : ∀ id tag attributes children next, P children → P next →
      P (node id (.element tag attributes) children next)) (forest : Forest) : P forest := by
  induction forest with
  | nil => exact nil
  | node id label children next ihChildren ihNext =>
      cases label with
      | element tag attributes => exact element id tag attributes children next ihChildren ihNext
      | text content =>
          rw [← String.ofList_toList (s := content)]
          induction content.toList with
          | nil => exact skip id children next ihNext
          | cons c cs ih => exact char id c cs children next ih

section Front

variable (id : Nat) (c : Char) (cs : List Char) (children next : Forest)

theorem toList_markup_text_nil :
    (node id (.text (String.ofList [])) children next).markup.toList = next.markup.toList := by
  simp [markup, textMarkup]

/-- A text that starts with a character has that character in front. -/
theorem toList_markup_text_cons :
    (node id (.text (String.ofList (c :: cs))) children next).markup.toList =
      spellTextChar c ++ (node id (.text (String.ofList cs)) children next).markup.toList := by
  simp [markup, textMarkup]

theorem outline_text_nil :
    (node id (.text (String.ofList [])) children next).outline = next.outline :=
  Outline.prependText_empty next.outline

theorem outline_text_cons :
    (node id (.text (String.ofList (c :: cs))) children next).outline =
      (node id (.text (String.ofList cs)) children next).outline.prependText
        (String.singleton c) := by
  have whole : String.ofList (c :: cs) = String.singleton c ++ String.ofList cs := by
    rw [← String.toList_inj]
    simp
  rw [outline, outline, whole, Outline.prependText_append]

theorem toList_markup_element (tag : String) (attributes : Attributes) :
    (node id (.element tag attributes) children next).markup.toList =
      '<' :: (tag.toList ++ ((attributesMarkup attributes).toList ++
        ((if children.isEmpty && voidTags.contains tag then ['/', '>']
          else '>' :: (children.markup.toList ++ '<' :: '/' :: (tag.toList ++ ['>']))) ++
            next.markup.toList))) := by
  rw [markup, String.toList_append, toList_elementMarkup]
  simp only [List.cons_append, List.append_assoc]

end Front

theorem spellTextChar_ne_angle (c : Char) (t u : List Char) : spellTextChar c ++ t ≠ '<' :: u := by
  unfold spellTextChar
  split_ifs <;> simp_all

theorem not_closes_spellTextChar (c : Char) (t : List Char) : ¬ Closes (spellTextChar c ++ t) := by
  rintro (h | ⟨tag, h⟩)
  · unfold spellTextChar at h
    split_ifs at h <;> simp at h
  · exact spellTextChar_ne_angle _ _ _ h

theorem IsName.ne_slash {tag : String} (h : IsName tag) (rest behind : List Char) :
    tag.toList ++ rest ≠ '/' :: behind := by
  intro same
  obtain ⟨c, cs, hcs⟩ := List.exists_cons_of_ne_nil
    (fun empty => h.nonempty (String.toList_eq_nil_iff.mp empty) : tag.toList ≠ [])
  rw [hcs] at same
  cases same
  have plain := h.plain '/' (by rw [hcs]; exact List.mem_cons_self)
  revert plain
  decide

theorem IsName.not_closes {tag : String} (h : IsName tag) (rest : List Char) :
    ¬ Closes ('<' :: (tag.toList ++ rest)) := by
  rintro (none | ⟨behind, closing⟩)
  · cases none
  · exact h.ne_slash rest behind (List.cons.inj closing).2

/-- Where a closing tag comes at once, or nothing at all, there is nothing in the row. -/
theorem outline_of_closes {forest : Forest} (named : forest.Named) {rest : List Char}
    (closes : Closes (forest.markup.toList ++ rest)) :
    forest.outline = .nil ∧ forest.markup.toList = [] := by
  induction forest using charwise with
  | nil => exact ⟨rfl, rfl⟩
  | skip id children next ih =>
      rw [toList_markup_text_nil] at closes ⊢
      rw [outline_text_nil]
      exact ih named.2.2 closes
  | char id c cs children next =>
      rw [toList_markup_text_cons, List.append_assoc] at closes
      exact absurd closes (not_closes_spellTextChar _ _)
  | element id tag attributes children next =>
      rw [toList_markup_element] at closes
      simp only [List.cons_append, List.append_assoc] at closes
      exact absurd closes (named.1.1.not_closes _)

/-- Where a character of a text comes first, the row starts with that character, and what is behind
it is a row again. -/
theorem exists_behind_char {forest : Forest} (named : forest.Named) {c : Char}
    {rest behind : List Char} (closes : Closes rest)
    (same : spellTextChar c ++ behind = forest.markup.toList ++ rest) :
    ∃ row : Forest, row.Named ∧ forest.outline = row.outline.prependText (String.singleton c) ∧
      behind = row.markup.toList ++ rest := by
  induction forest using charwise with
  | nil =>
      have front : Closes (spellTextChar c ++ behind) := by
        rw [same]
        exact closes
      exact absurd front (not_closes_spellTextChar _ _)
  | skip id children next ih =>
      rw [toList_markup_text_nil] at same
      rw [outline_text_nil]
      exact ih named.2.2 same
  | char id d cs children next =>
      rw [toList_markup_text_cons, List.append_assoc] at same
      obtain ⟨chars, left⟩ := spellTextChar_inj same
      rw [chars]
      exact ⟨node id (.text (String.ofList cs)) children next, named,
        outline_text_cons _ _ _ _ _, left⟩
  | element id tag attributes children next =>
      rw [toList_markup_element] at same
      exact absurd same (spellTextChar_ne_angle _ _ _)

/-- Where a tag comes first that is no closing tag, the row starts with an element. -/
theorem exists_element {forest : Forest} (named : forest.Named) {rest behind : List Char}
    (closes : Closes rest) (opening : ¬ Closes ('<' :: behind))
    (same : '<' :: behind = forest.markup.toList ++ rest) :
    ∃ id tag attributes children next,
      (node id (.element tag attributes) children next).Named ∧
      forest.outline = (node id (.element tag attributes) children next).outline ∧
      '<' :: behind = (node id (.element tag attributes) children next).markup.toList ++ rest := by
  induction forest using charwise with
  | nil =>
      rw [same] at opening
      exact absurd closes opening
  | skip id children next ih =>
      rw [toList_markup_text_nil] at same
      rw [outline_text_nil]
      exact ih named.2.2 same
  | char id c cs children next =>
      rw [toList_markup_text_cons, List.append_assoc] at same
      exact absurd same.symm (spellTextChar_ne_angle _ _ _)
  | element id tag attributes children next =>
      exact ⟨id, tag, attributes, children, next, named, rfl, same⟩

/-! ## Two rows -/

theorem outline_of_isEmpty {forest : Forest} (empty : forest.isEmpty = true) :
    forest.outline = .nil := by
  cases forest with
  | nil => rfl
  | node id label children next => cases empty

theorem endsTag_ite (hollow : Bool) (inside rest : List Char) :
    EndsTag ((if hollow then ['/', '>'] else '>' :: inside) ++ rest) := by
  cases hollow
  · exact Or.inl rfl
  · exact Or.inr rfl

/-- **Rows with the same markup have the same outline**, and end at the same place. -/
theorem outline_eq {a b : Forest} (ha : a.Named) (hb : b.Named) {rest behind : List Char}
    (hrest : Closes rest) (hbehind : Closes behind)
    (same : a.markup.toList ++ rest = b.markup.toList ++ behind) :
    a.outline = b.outline ∧ rest = behind := by
  induction a using charwise generalizing b rest behind with
  | nil =>
      have front : Closes (b.markup.toList ++ behind) := by
        rw [← same]
        exact hrest
      obtain ⟨shape, none⟩ := outline_of_closes hb front
      rw [none] at same
      exact ⟨shape.symm, same⟩
  | skip id children next ih =>
      rw [toList_markup_text_nil] at same
      rw [outline_text_nil]
      exact ih ha.2.2 hb hrest hbehind same
  | char id c cs children next ih =>
      rw [toList_markup_text_cons, List.append_assoc] at same
      obtain ⟨row, hrow, shape, left⟩ := exists_behind_char hb hbehind same
      obtain ⟨shapes, ends⟩ := ih ha hrow hrest hbehind left
      rw [outline_text_cons, shapes, shape]
      exact ⟨rfl, ends⟩
  | element id tag attributes children next ihChildren ihNext =>
      obtain ⟨⟨htag, hattributes⟩, inside, beside⟩ := ha
      rw [toList_markup_element] at same
      simp only [List.cons_append, List.append_assoc] at same
      obtain ⟨_, tag', attributes', children', next', hnode, shape, left⟩ :=
        exists_element hb hbehind (htag.not_closes _) same
      obtain ⟨⟨htag', hattributes'⟩, inside', beside'⟩ := hnode
      rw [toList_markup_element] at left
      simp only [List.cons_append, List.append_assoc, List.cons.injEq, true_and] at left
      obtain ⟨sameTag, afterTag⟩ := htag.eq_of_append htag'
        (head_endsName _ (endsTag_ite _ _ _)) (head_endsName _ (endsTag_ite _ _ _)) left
      subst sameTag
      obtain ⟨sameAttributes, afterAttributes⟩ := attributes_inj hattributes hattributes'
        (endsTag_ite _ _ _) (endsTag_ite _ _ _) afterTag
      rw [shape, outline, outline, ← sameAttributes]
      -- Either both are written without a closing tag or both with one.
      cases hollow : children.isEmpty && voidTags.contains tag with
      | true =>
          cases hollow' : children'.isEmpty && voidTags.contains tag with
          | true =>
              rw [hollow, hollow'] at afterAttributes
              simp only [if_true, List.cons_append, List.nil_append, List.cons.injEq,
                true_and] at afterAttributes
              obtain ⟨shapes, ends⟩ := ihNext beside beside' hrest hbehind afterAttributes
              rw [outline_of_isEmpty (Bool.and_eq_true_iff.mp hollow).1,
                outline_of_isEmpty (Bool.and_eq_true_iff.mp hollow').1, shapes]
              exact ⟨rfl, ends⟩
          | false =>
              rw [hollow, hollow'] at afterAttributes
              cases afterAttributes
      | false =>
          cases hollow' : children'.isEmpty && voidTags.contains tag with
          | true =>
              rw [hollow, hollow'] at afterAttributes
              cases afterAttributes
          | false =>
              rw [hollow, hollow'] at afterAttributes
              simp only [Bool.false_eq_true, if_false, List.cons_append, List.append_assoc,
                List.cons.injEq, true_and] at afterAttributes
              obtain ⟨below, afterChildren⟩ := ihChildren (inside rfl) (inside' rfl)
                (Or.inr ⟨_, rfl⟩) (Or.inr ⟨_, rfl⟩) afterAttributes
              simp only [List.cons.injEq, true_and, List.append_cancel_left_eq,
                List.nil_append] at afterChildren
              obtain ⟨shapes, ends⟩ := ihNext beside beside' hrest hbehind afterChildren
              rw [below, shapes]
              exact ⟨rfl, ends⟩

end Forest

namespace Document

/-- **The markup of a document has one reading**: two documents with the same markup have the same
elements around each other, with the same attributes and the same texts between them. No text and
no attribute value, whatever it contains, can pass for structure. -/
theorem outline_eq_of_markup_eq {a b : Document} (ha : a.roots.Named) (hb : b.roots.Named)
    (same : a.markup = b.markup) : a.roots.outline = b.roots.outline := by
  refine (Forest.outline_eq ha hb (Or.inl rfl) (Or.inl rfl) ?_).1
  rw [List.append_nil, List.append_nil]
  exact congrArg String.toList same

/-- A text in three pieces of which one is empty, and the same text in one piece. -/
theorem outline_eq_of_markup_eq_pieces :
    let box := [Operation.element none "p" [("title", "\"<b>")], .element (some 0) "br" []]
    let pieces := performAll {} (box ++ [.text 0 "a<", .text 0 "", .text 0 "&lt;"])
    let whole := performAll {} (box ++ [.text 0 "a<&lt;"])
    pieces.roots ≠ whole.roots ∧ pieces.roots.Named ∧ whole.roots.Named ∧
      pieces.markup = whole.markup ∧ pieces.roots.outline = whole.roots.outline := by
  intro box pieces whole
  have hpieces : pieces.roots.Named := by decide
  have hwhole : whole.roots.Named := by decide
  have same : pieces.markup = whole.markup := by decide
  exact ⟨by decide, hpieces, hwhole, same, outline_eq_of_markup_eq hpieces hwhole same⟩

end Document

end LateMarkup
