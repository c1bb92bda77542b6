import LateMarkup.Annotation
import LateMarkup.Proofs.Passes

/-!
# Marker text in generated code

A fragment is put together from names of the settings, run-time keys, attribute names and static
text between punctuation. A pattern that holds none of that punctuation occurs in the fragment only
if it occurs in one of the parts, and literals keep it as it is. Two patterns matter here: the stem
of a marker, and the stem behind one of the characters before which it stands in the later markers.
-/

namespace LateMarkup

/-! ## Literals -/

namespace Jsx.Literal

/-- A character is written as itself, or as a backslash and one more character, which is itself
again unless it was a line break. -/
theorem spell_cases (quote c : Char) (next : Option Char) :
    spell quote c next = [c] ∨ ∃ d, spell quote c next = ['\\', d] ∧
      (d = c ∨ quote ≠ backtick ∧ (d = 'n' ∨ d = 'r')) := by
  unfold spell
  split
  · next h => exact Or.inr ⟨'\\', rfl, Or.inl h.symm⟩
  · split
    · next h => exact Or.inr ⟨'n', rfl, Or.inr ⟨h.2, Or.inl rfl⟩⟩
    · split
      · next h => exact Or.inr ⟨'r', rfl, Or.inr ⟨h.2, Or.inr rfl⟩⟩
      · split
        · next h => exact Or.inr ⟨'$', rfl, Or.inl h.1.symm⟩
        · split
          · exact Or.inr ⟨c, rfl, Or.inl rfl⟩
          · exact Or.inl rfl

theorem prefix_of_encode {quote : Char} {p text : List Char} (escape : '\\' ∉ p)
    (h : p <+: encode quote text) : p <+: text := by
  induction text generalizing p with
  | nil => exact h
  | cons c rest ih =>
      cases p with
      | nil => exact List.nil_prefix
      | cons e p =>
          rw [encode] at h
          rcases spell_cases quote c rest.head? with hplain | ⟨d, hescaped, -⟩
          · rw [hplain, List.singleton_append, List.cons_prefix_cons] at h
            obtain ⟨rfl, h⟩ := h
            exact List.cons_prefix_cons.mpr ⟨rfl, ih (List.not_mem_of_not_mem_cons escape) h⟩
          · rw [hescaped, List.cons_append, List.cons_prefix_cons] at h
            exact absurd (h.1 ▸ List.mem_cons_self) escape

/-- A pattern without backslashes that occurs in a literal occurs in the text. Outside template
literals it must not hold the letters that stand for line breaks either. -/
theorem infix_of_encode {quote : Char} {p text : List Char} (escape : '\\' ∉ p)
    (breaks : quote = backtick ∨ 'n' ∉ p ∧ 'r' ∉ p) (h : p <:+: encode quote text) :
    p <:+: text := by
  by_cases hp : p = []
  · subst hp
    exact List.nil_infix
  induction text with
  | nil => exact h
  | cons c rest ih =>
      rw [encode] at h
      rcases spell_cases quote c rest.head? with hplain | ⟨d, hescaped, hd⟩
      · rw [hplain, List.singleton_append] at h
        rcases List.infix_cons_iff.mp h with hpre | hin
        · have hencoded : p <+: encode quote (c :: rest) := by
            rwa [encode, hplain, List.singleton_append]
          exact (prefix_of_encode escape hencoded).isInfix
        · exact List.infix_cons (ih hin)
      · rw [hescaped, List.cons_append, List.singleton_append,
          infix_cons_iff_of_notMem escape hp] at h
        rcases List.infix_cons_iff.mp h with hpre | hin
        · obtain ⟨e, p, rfl⟩ := List.exists_cons_of_ne_nil hp
          obtain ⟨rfl, htail⟩ := List.cons_prefix_cons.mp hpre
          -- The pattern starts behind the backslash: with an escaped character, or with the letter
          -- for a line break.
          rcases hd with rfl | ⟨hquote, hletter⟩
          · have inner := prefix_of_encode (List.not_mem_of_not_mem_cons escape) htail
            exact (List.cons_prefix_cons.mpr ⟨rfl, inner⟩).isInfix
          · obtain ⟨hn, hr⟩ := breaks.resolve_left hquote
            rcases hletter with rfl | rfl
            · exact absurd List.mem_cons_self hn
            · exact absurd List.mem_cons_self hr
        · exact List.infix_cons (ih hin)

end Jsx.Literal

/-! ## Patterns apart from the punctuation of code -/

/-- The characters between the parts of generated code, and those of escapes. -/
def punctuation : List Char := " .()?:'`\x7b\x7d!&=\\nr".toList

/-- A pattern that shares nothing with the punctuation of generated code. -/
def Apart (p : List Char) : Prop := p ≠ [] ∧ ∀ c ∈ punctuation, c ∉ p

instance (p : List Char) : Decidable (Apart p) := inferInstanceAs (Decidable (_ ∧ _))

def Avoids (p text : List Char) : Prop := ¬ p <:+: text

theorem apart_stem : Apart Marker.stem.toList := by decide

section Avoids

variable {p : List Char}

theorem avoids_append_cons (apart : Apart p) {c : Char} (hc : c ∈ punctuation)
    {a b : List Char} : Avoids p (a ++ c :: b) ↔ Avoids p a ∧ Avoids p b := by
  unfold Avoids
  rw [infix_append_cons_iff (apart.2 c hc), not_or]

theorem avoids_cons (apart : Apart p) {c : Char} (hc : c ∈ punctuation)
    {b : List Char} : Avoids p (c :: b) ↔ Avoids p b := by
  unfold Avoids
  rw [infix_cons_iff_of_notMem (apart.2 c hc) apart.1]

theorem avoids_nil (apart : Apart p) : Avoids p [] :=
  fun h => apart.1 (List.infix_nil.mp h)

theorem avoids_encode (apart : Apart p) {quote : Char} {text : List Char} (h : Avoids p text) :
    Avoids p (Jsx.Literal.encode quote text) := by
  intro hin
  refine h (Jsx.Literal.infix_of_encode ?_ (Or.inr ⟨?_, ?_⟩) hin)
  · exact apart.2 _ (by decide)
  · exact apart.2 _ (by decide)
  · exact apart.2 _ (by decide)

variable {settings : Settings}

/-- The names that generated code takes from the settings do not hold a pattern. -/
def Settings.Avoids (p : List Char) (settings : Settings) : Prop :=
  LateMarkup.Avoids p settings.dataObject.toList ∧
    LateMarkup.Avoids p settings.definedHelper.toList

theorem avoids_dataExpr (apart : Apart p) (names : settings.Avoids p) {key : String}
    (hkey : Avoids p key.toList) : Avoids p (settings.dataExpr key).toList := by
  have code : (settings.dataExpr key).toList = settings.dataObject.toList ++ '.' :: key.toList := by
    simp [Settings.dataExpr]
  rw [code, avoids_append_cons apart (by decide)]
  exact ⟨names.1, hkey⟩

theorem avoids_definedExpr (apart : Apart p) (names : settings.Avoids p) {expression : String}
    (h : Avoids p expression.toList) : Avoids p (settings.definedExpr expression).toList := by
  have code : (settings.definedExpr expression).toList =
      settings.definedHelper.toList ++ '(' :: (expression.toList ++ [')']) := by
    simp [Settings.definedExpr]
  rw [code, avoids_append_cons apart (by decide), avoids_append_cons apart (by decide)]
  exact ⟨names.2, h, avoids_nil apart⟩

theorem avoids_choose (apart : Apart p) (names : settings.Avoids p) {key otherwise : String}
    (hkey : Avoids p key.toList) (hotherwise : Avoids p otherwise.toList) :
    Avoids p (Jsx.choose settings key otherwise).toList := by
  have code : (Jsx.choose settings key otherwise).toList =
      (settings.definedExpr (settings.dataExpr key)).toList ++ ' ' :: ([] ++ '?' :: ([] ++ ' ' ::
        ((settings.dataExpr key).toList ++ ' ' :: ([] ++ ':' :: ([] ++ ' ' ::
          otherwise.toList))))) := by
    simp [Jsx.choose]
  have hdata := avoids_dataExpr apart names hkey
  rw [code]
  simp only [avoids_append_cons apart (by decide : ' ' ∈ _),
    avoids_append_cons apart (by decide : '?' ∈ _), avoids_append_cons apart (by decide : ':' ∈ _)]
  exact ⟨avoids_definedExpr apart names hdata, avoids_nil apart, avoids_nil apart, hdata,
    avoids_nil apart, avoids_nil apart, hotherwise⟩

theorem avoids_single (apart : Apart p) {text : String} (h : Avoids p text.toList) :
    Avoids p (Jsx.Literal.single text).toList := by
  have code : (Jsx.Literal.single text).toList =
      '\'' :: (Jsx.Literal.encode '\'' text.toList ++ '\'' :: []) := by
    simp [Jsx.Literal.single, Jsx.Literal.body]
  rw [code, avoids_cons apart (by decide), avoids_append_cons apart (by decide)]
  exact ⟨avoids_encode apart h, avoids_nil apart⟩

def Jsx.Value.Avoids (p : List Char) : Jsx.Value → Prop
  | .data key => LateMarkup.Avoids p key.toList
  | .literal text => LateMarkup.Avoids p text.toList
  | .choice key text => LateMarkup.Avoids p key.toList ∧ LateMarkup.Avoids p text.toList

def Jsx.Test.Avoids (p : List Char) : Jsx.Test → Prop
  | .defined key => LateMarkup.Avoids p key.toList
  | .kept key => LateMarkup.Avoids p key.toList

theorem avoids_value (apart : Apart p) (names : settings.Avoids p) {value : Jsx.Value}
    (h : value.Avoids p) : Avoids p (value.render settings).toList := by
  cases value with
  | data key => exact avoids_dataExpr apart names h
  | literal text => exact avoids_single apart h
  | choice key text => exact avoids_choose apart names h.1 (avoids_single apart h.2)

theorem avoids_test (apart : Apart p) (names : settings.Avoids p) {test : Jsx.Test}
    (h : test.Avoids p) : Avoids p (test.render settings).toList := by
  cases test with
  | defined key => exact avoids_definedExpr apart names (avoids_dataExpr apart names h)
  | kept key =>
      have code : (Jsx.Test.render settings (.kept key)).toList =
          '!' :: (settings.dataExpr key).toList := by
        simp [Jsx.Test.render]
      rw [code, avoids_cons apart (by decide)]
      exact avoids_dataExpr apart names h

end Avoids

/-! ## The frame of a fragment -/

namespace Jsx.Attribute

def front : Jsx.Attribute → List Char
  | assigned name _ => name.toList ++ ['=']
  | spread _ _ _ => []

def inside (settings : Settings) : Jsx.Attribute → List Char
  | assigned _ value => (value.render settings).toList
  | spread test name value =>
      '.' :: '.' :: '.' :: ((test.render settings).toList ++ ' ' :: '&' :: '&' :: ' ' :: '\x7b' ::
        '\'' :: (name.toList ++ '\'' :: ':' :: ' ' ::
          ((value.render settings).toList ++ '\x7d' :: [])))

theorem toList_render (settings : Settings) (form : Jsx.Attribute) :
    (form.render settings).toList =
      form.front ++ '\x7b' :: (form.inside settings ++ ['\x7d']) := by
  cases form <;> simp [render, front, inside]

def Avoids (p : List Char) : Jsx.Attribute → Prop
  | assigned _ value => value.Avoids p
  | spread test name value => test.Avoids p ∧ LateMarkup.Avoids p name.toList ∧ value.Avoids p

theorem avoids_inside {p : List Char} {settings : Settings} (apart : Apart p)
    (names : settings.Avoids p) {form : Jsx.Attribute} (h : form.Avoids p) :
    LateMarkup.Avoids p (form.inside settings) := by
  cases form with
  | assigned name value => exact avoids_value apart names h
  | spread test name value =>
      obtain ⟨htest, hname, hvalue⟩ := h
      rw [inside, avoids_cons apart (by decide), avoids_cons apart (by decide),
        avoids_cons apart (by decide), avoids_append_cons apart (by decide),
        avoids_cons apart (by decide), avoids_cons apart (by decide),
        avoids_cons apart (by decide), avoids_cons apart (by decide),
        avoids_cons apart (by decide), avoids_append_cons apart (by decide),
        avoids_cons apart (by decide), avoids_cons apart (by decide),
        avoids_append_cons apart (by decide)]
      exact ⟨avoids_test apart names htest, hname, avoids_value apart names hvalue,
        avoids_nil apart⟩

end Jsx.Attribute

/-! ## Run-time keys -/

namespace RuntimeKey

theorem isLabelChar_toUpper {c : Char} (h : isLabelChar c = true) :
    isLabelChar c.toUpper = true := by
  unfold Char.toUpper
  split
  · next hlower =>
      have upper : ∀ valid, Char.isUpper ⟨c.val + ('A'.val - 'a'.val), valid⟩ = true := by
        intro valid
        unfold Char.isUpper
        simp only [ge_iff_le, UInt32.le_iff_toNat_le, Char.reduceVal, UInt32.toNat_add,
          UInt32.toNat_sub, UInt32.reduceToNat, decide_eq_true_eq] at hlower ⊢
        omega
      unfold isLabelChar Char.isAlphanum Char.isAlpha
      simp only [Bool.or_eq_true]
      exact Or.inl (Or.inl (Or.inl (upper _)))
  · exact h

theorem isLabelChar_of_mem_label {name : String} {c : Char} (h : c ∈ (label name).toList) :
    isLabelChar c = true := by
  have chars : ∀ (cs : List Char) (fresh : Bool),
      c ∈ labelChars fresh cs → isLabelChar c = true := by
    intro cs
    induction cs with
    | nil => intro fresh h; cases h
    | cons d rest ih =>
        intro fresh h
        rw [labelChars] at h
        split at h
        · exact ih true h
        · split at h
          · next hd =>
              rcases List.mem_cons.mp h with rfl | h
              · split
                · exact isLabelChar_toUpper hd
                · exact hd
              · exact ih false h
          · exact ih fresh h
  rw [label, String.toList_ofList] at h
  exact chars _ true h

section

variable {p : List Char} {e : Char} {ref : Ref} {name : String}

/-- A pattern in a key stands in the label, if it starts with none of the characters before the
label. -/
theorem avoids_key {word : List Char} (head : Ref.isTailChar e = false ∧ e ∉ word)
    (hlabel : Avoids (e :: p) (label name).toList) :
    Avoids (e :: p) ((ref.text.toList ++ word) ++ (label name).toList) := by
  intro h
  refine hlabel (infix_append_of_head_notMem ?_ h)
  rw [List.mem_append, not_or]
  refine ⟨fun hc => ?_, head.2⟩
  rw [Ref.isTailChar_of_mem hc] at head
  cases head.1

theorem avoids_value (head : Ref.isTailChar e = false ∧ e ∉ "Attr".toList)
    (hlabel : Avoids (e :: p) (label name).toList) :
    Avoids (e :: p) (value ref .attribute name).toList := by
  have key : (value ref .attribute name).toList =
      (ref.text.toList ++ "Attr".toList) ++ (label name).toList := by
    simp [value, Subject.word]
  rw [key]
  exact avoids_key head hlabel

theorem avoids_deletion (head : Ref.isTailChar e = false ∧ e ∉ "Attrdel".toList)
    (hlabel : Avoids (e :: p) (label name).toList) :
    Avoids (e :: p) (deletion ref .attribute name).toList := by
  have key : (deletion ref .attribute name).toList =
      (ref.text.toList ++ "Attrdel".toList) ++ (label name).toList := by
    simp [deletion, Subject.word]
  rw [key]
  exact avoids_key head hlabel

theorem unmarked_part (ref : Ref) (word : Part) : Unmarked (part ref word).toList := by
  have outside : '_' ∉ (part ref word).toList := by
    rw [part, String.toList_append, List.mem_append, not_or]
    constructor
    · intro hc
      cases Ref.isTailChar_of_mem hc
    · cases word <;> decide
  intro h
  exact outside (h.subset (by decide))

end

end RuntimeKey

/-! ## Fragments -/

namespace Fragment

variable {p : List Char} {e : Char} {settings : Settings}

theorem front_attributeForm (ref : Ref) (name shown value : String) (present : Bool)
    (kind : AttributeOverride) :
    (attributeForm ref name shown value present kind).front = [] ∨
      (attributeForm ref name shown value present kind).front = shown.toList ++ ['='] := by
  cases kind with
  | update =>
      cases present with
      | true => exact Or.inr rfl
      | false => exact Or.inl rfl
  | delete => exact Or.inl rfl
  | updateDelete => exact Or.inl rfl

theorem toList_ofAttribute (settings : Settings) (ref : Ref) (name : String)
    (value : Option String) (kind : AttributeOverride) (present : Bool) :
    (ofAttribute settings ref name value kind present false).toList =
      (attributeForm ref name name (value.getD "") present kind).front ++ '\x7b' ::
        ((attributeForm ref name name (value.getD "") present kind).inside settings ++ ['\x7d']) :=
  Jsx.Attribute.toList_render settings _

/-- The code of an attribute does not hold a pattern between its braces, if none of its parts does.
-/
theorem avoids_inside {ref : Ref} {name value : String} {kind : AttributeOverride} {present : Bool}
    (apart : Apart (e :: p)) (head : Ref.isTailChar e = false ∧ e ∉ "Attrdel".toList)
    (names : settings.Avoids (e :: p)) (hlabel : Avoids (e :: p) (RuntimeKey.label name).toList)
    (hname : Avoids (e :: p) name.toList) (hvalue : Avoids (e :: p) value.toList) :
    Avoids (e :: p) ((attributeForm ref name name value present kind).inside settings) := by
  have inner : e ∉ "Attr".toList := fun h => head.2 (List.mem_append_left "del".toList h)
  have hkey : Avoids (e :: p) (RuntimeKey.value ref .attribute name).toList :=
    RuntimeKey.avoids_value ⟨head.1, inner⟩ hlabel
  have hdeletion : Avoids (e :: p) (RuntimeKey.deletion ref .attribute name).toList :=
    RuntimeKey.avoids_deletion head hlabel
  apply Jsx.Attribute.avoids_inside apart names
  cases kind with
  | update =>
      cases present with
      | true => exact ⟨hkey, hvalue⟩
      | false => exact ⟨hkey, hname, hkey⟩
  | delete => exact ⟨hdeletion, hname, hvalue⟩
  | updateDelete => exact ⟨hdeletion, hname, hkey, hvalue⟩

/-! ### Without marker text -/

theorem unmarked_ofAttribute {ref : Ref} {name : String} {value : Option String}
    {kind : AttributeOverride} {present : Bool} (names : settings.Avoids Marker.stem.toList)
    (hlabel : Unmarked (RuntimeKey.label name).toList) (hname : Unmarked name.toList)
    (hvalue : Unmarked (value.getD "").toList) :
    Unmarked (ofAttribute settings ref name value kind present false).toList := by
  -- Keys are apart from the stem by its first character, so that character is split off.
  have stem : Marker.stem.toList = '_' :: "_OVERRIDE_".toList := by decide
  have inside : Unmarked ((attributeForm ref name name (value.getD "") present kind).inside
      settings) := by
    unfold Unmarked at hlabel hname hvalue ⊢
    rw [stem] at names hlabel hname hvalue ⊢
    exact avoids_inside (by decide) (by decide) names hlabel hname hvalue
  have front : Unmarked (attributeForm ref name name (value.getD "") present kind).front := by
    rcases front_attributeForm ref name name (value.getD "") present kind with h | h
    · rw [h]
      exact Unmarked.nil
    · rw [h, unmarked_append_cons (by decide)]
      exact ⟨hname, Unmarked.nil⟩
  rw [toList_ofAttribute, unmarked_append_cons (by decide), unmarked_append_cons (by decide)]
  exact ⟨front, inside, Unmarked.nil⟩

theorem toList_ofInner (settings : Settings) (ref : Ref) (markup : String) :
    (ofInner settings ref markup).toList =
      '\x7b' :: ('\x7b' :: ("__html".toList ++ ':' :: ([] ++ ' ' ::
        ((Jsx.choose settings (RuntimeKey.part ref .inner) (Jsx.Literal.template markup)).toList ++
          '\x7d' :: []))) ++ ['\x7d']) := by
  simp [ofInner]

theorem unmarked_ofInner {ref : Ref} {markup : String}
    (names : settings.Avoids Marker.stem.toList) (free : Unmarked markup.toList) :
    Unmarked (ofInner settings ref markup).toList := by
  have content : Avoids Marker.stem.toList (Jsx.Literal.template markup).toList := by
    have code : (Jsx.Literal.template markup).toList = Jsx.Literal.backtick ::
        (Jsx.Literal.encode Jsx.Literal.backtick markup.toList ++ Jsx.Literal.backtick :: []) := by
      simp [Jsx.Literal.template, Jsx.Literal.body, Jsx.Literal.backtick]
    rw [code, avoids_cons apart_stem (by decide), avoids_append_cons apart_stem (by decide)]
    exact ⟨avoids_encode apart_stem free, avoids_nil apart_stem⟩
  have choice : Unmarked (Jsx.choose settings (RuntimeKey.part ref .inner)
      (Jsx.Literal.template markup)).toList :=
    avoids_choose apart_stem names (RuntimeKey.unmarked_part ref .inner) content
  rw [toList_ofInner, unmarked_cons (by decide), List.cons_append, unmarked_cons (by decide),
    List.append_assoc, List.cons_append, unmarked_append_cons (by decide), List.nil_append,
    List.cons_append, unmarked_cons (by decide), List.append_assoc,
    List.cons_append, unmarked_append_cons (by decide)]
  exact ⟨by decide, choice, unmarked_of_breaks (by decide)⟩

/-- The code before a node keeps apart what stands around it. -/
theorem unmarked_guard_opening {ref : Ref} {parentTag : Option String}
    (names : settings.Avoids Marker.stem.toList) {before behind : List Char}
    (hbefore : Unmarked before) (hbehind : Unmarked behind) :
    Unmarked (before ++ ((guard settings ref parentTag).opening.toList ++ behind)) := by
  have data : Unmarked (settings.dataExpr (RuntimeKey.part ref .unrender)).toList :=
    avoids_dataExpr apart_stem names (RuntimeKey.unmarked_part ref .unrender)
  have test : ∀ before, Unmarked before → Unmarked (before ++ '!' ::
      ((settings.dataExpr (RuntimeKey.part ref .unrender)).toList ++
        ' ' :: '&' :: '&' :: ' ' :: behind)) := by
    intro before hbefore
    rw [unmarked_append_cons (by decide), unmarked_append_cons (by decide),
      unmarked_cons (by decide), unmarked_cons (by decide), unmarked_cons (by decide)]
    exact ⟨hbefore, data, hbehind⟩
  unfold guard
  split
  · have whole := test before hbefore
    simpa using whole
  · have whole := test (before ++ ['\x7b'])
      ((unmarked_append_cons (by decide)).mpr ⟨hbefore, Unmarked.nil⟩)
    simpa using whole

theorem unmarked_guard_closing {ref : Ref} {parentTag : Option String} {behind : List Char}
    (hbehind : Unmarked behind) :
    Unmarked ((guard settings ref parentTag).closing.toList ++ behind) := by
  unfold guard
  split
  · exact hbehind
  · have whole := (unmarked_cons (c := '\x7d') (by decide)).mpr hbehind
    simpa using whole

end Fragment

/-! ## Markers of later passes -/

namespace Marker

/-- Before the stem of a later marker stands a quote, an angle bracket or a slash. -/
theorem guarded_infix_source {m : Marker} (later : m.site ≠ .attribute) :
    ∃ e ∈ ['"', '<', '/'], e :: stem.toList <:+: m.source := by
  have inner : stem.toList <+: "__OVERRIDE_INNER__".toList := by decide
  have tag : stem.toList <+: "__OVERRIDE_UNRENDER__".toList := by decide
  rcases m with ⟨ref, name⟩ | ref | ref | ref
  · exact absurd rfl later
  · refine ⟨'"', by simp, ?_⟩
    rw [source, toList_innerValue, List.cons_append, List.cons_append, List.append_assoc]
    apply List.infix_cons
    exact (List.cons_prefix_cons.mpr ⟨rfl, inner.trans (List.prefix_append _ _)⟩).isInfix
  · refine ⟨'<', by simp, ?_⟩
    rw [source, toList_wrapperTag, List.cons_append, List.append_assoc]
    exact (List.cons_prefix_cons.mpr ⟨rfl, tag.trans (List.prefix_append _ _)⟩).isInfix
  · refine ⟨'/', by simp, ?_⟩
    rw [source, toList_wrapperTag, List.cons_append, List.cons_append, List.append_assoc]
    apply List.infix_cons
    exact (List.cons_prefix_cons.mpr ⟨rfl, tag.trans (List.prefix_append _ _)⟩).isInfix

theorem source_eq_concat {m : Marker} (later : m.site ≠ .attribute) :
    ∃ chars e, m.source = chars ++ [e] ∧ (e = '"' ∨ e = '>') := by
  rcases m with ⟨ref, name⟩ | ref | ref | ref
  · exact absurd rfl later
  · exact ⟨_, '"', rfl, Or.inl rfl⟩
  · exact ⟨_, '>', rfl, Or.inr rfl⟩
  · exact ⟨_, '>', rfl, Or.inr rfl⟩

end Marker

theorem Unmarked.avoids_cons {text : List Char} (free : Unmarked text) (e : Char) :
    Avoids (e :: Marker.stem.toList) text :=
  fun h => free ((List.suffix_cons e _).isInfix.trans h)

namespace Registry

variable {registry : Registry} {settings : Settings} {m : Marker}

/-- Code in braces shuts out a marker that does not occur between them. -/
theorem shuts_braced (later : m.site ≠ .attribute) {front inside : List Char}
    (hfront : '"' ∉ front ∧ '>' ∉ front) (hinside : m.source <:+: inside → registry.Holds m) :
    registry.Shuts (front ++ '\x7b' :: (inside ++ ['\x7d'])) m := by
  intro before behind h
  have hopen : '\x7b' ∉ m.source := Marker.Foreign.notMem later (by decide)
  have hclose : '\x7d' ∉ m.source := Marker.Foreign.notMem later (by decide)
  rw [List.append_assoc, List.cons_append, List.append_assoc, ← List.append_assoc before,
    infix_append_cons_iff hopen, List.singleton_append, infix_append_cons_iff hclose] at h
  rcases h with hbefore | hin | hbehind
  · obtain ⟨chars, e, hm, he⟩ := Marker.source_eq_concat later
    rw [hm] at hbefore ⊢
    refine Or.inl (infix_append_of_last_notMem ?_ hbefore)
    rcases he with rfl | rfl
    · exact hfront.1
    · exact hfront.2
  · exact Or.inr (Or.inr (hinside hin))
  · exact Or.inr (Or.inl hbehind)

/-- The code of an attribute brings in no later marker, even where the static value is one itself.
-/
theorem shuts_ofAttribute (later : m.site ≠ .attribute) {ref : Ref} {name : String}
    {value : Option String} {kind : AttributeOverride} {present : Bool}
    (names : settings.Avoids Marker.stem.toList) (hname : Unmarked name.toList)
    (chars : ∀ c ∈ name.toList, Marker.isNameChar c = true)
    (hvalue : Unmarked (value.getD "").toList ∨ ∃ r, value.getD "" = Marker.innerValue r) :
    registry.Shuts (Fragment.ofAttribute settings ref name value kind present false).toList m := by
  rw [Fragment.toList_ofAttribute]
  apply shuts_braced later
  · have outside : ∀ c, Marker.isNameChar c = false → c ∉ name.toList := by
      intro c hc hmem
      rw [chars c hmem] at hc
      cases hc
    rcases Fragment.front_attributeForm ref name name (value.getD "") present kind with h | h
    · rw [h]
      exact ⟨List.not_mem_nil, List.not_mem_nil⟩
    · rw [h]
      simp only [List.mem_append, not_or]
      exact ⟨⟨outside _ (by decide), by decide⟩, ⟨outside _ (by decide), by decide⟩⟩
  · intro hin
    -- The stem itself may stand in the value, but not with what a marker has before it.
    obtain ⟨e, he, hguarded⟩ := Marker.guarded_infix_source later
    have facts : ∀ e ∈ ['"', '<', '/'], Apart (e :: Marker.stem.toList) ∧
        Ref.isTailChar e = false ∧ e ∉ "Attrdel".toList ∧ RuntimeKey.isLabelChar e = false ∧
          e ∉ "__OVERRIDE_INNER__".toList := by decide
    obtain ⟨apart, htail, hword, hlabelChar, hinner⟩ := facts e he
    refine absurd (hguarded.trans hin) (Fragment.avoids_inside apart ⟨htail, hword⟩ ?_ ?_ ?_ ?_)
    · exact ⟨Unmarked.avoids_cons names.1 e, Unmarked.avoids_cons names.2 e⟩
    · intro h
      rw [RuntimeKey.isLabelChar_of_mem_label (h.subset List.mem_cons_self)] at hlabelChar
      cases hlabelChar
    · exact hname.avoids_cons e
    · rcases hvalue with free | ⟨r, hr⟩
      · exact free.avoids_cons e
      · intro h
        have hmem := h.subset List.mem_cons_self
        rw [hr, Marker.toList_innerValue, List.mem_append] at hmem
        rcases hmem with hmem | hmem
        · exact hinner hmem
        · rw [Ref.isTailChar_of_mem hmem] at htail
          cases htail

/-- The code of inner content brings in those wrapper markers that stand in the content. -/
theorem shuts_ofInner (later : m.site = .unrender) {ref : Ref} {markup : String}
    (names : settings.Avoids Marker.stem.toList)
    (held : m.source <:+: markup.toList → registry.Holds m) :
    registry.Shuts ("=" ++ Fragment.ofInner settings ref markup).toList m := by
  have hsite : m.site ≠ .attribute := by simp [later]
  have foreign : ∀ {c : Char}, Marker.Foreign c → c ∉ m.source :=
    fun h => Marker.Foreign.notMem hsite h
  have key := RuntimeKey.unmarked_part ref .inner
  have hdata := avoids_dataExpr apart_stem names key
  have hdefined := avoids_definedExpr apart_stem names hdata
  have stemless : ∀ {text : List Char}, Unmarked text → ¬ m.source <:+: text :=
    fun free h => free ((Marker.stem_infix_source m).trans h)
  have code : ("=" ++ Fragment.ofInner settings ref markup).toList =
      ['='] ++ (Fragment.ofInner settings ref markup).toList := String.toList_append
  have choice : (Jsx.choose settings (RuntimeKey.part ref .inner)
      (Jsx.Literal.template markup)).toList =
        (settings.definedExpr (settings.dataExpr (RuntimeKey.part ref .inner))).toList ++ ' ' ::
          ([] ++ '?' :: ([] ++ ' ' :: ((settings.dataExpr (RuntimeKey.part ref .inner)).toList ++
            ' ' :: ([] ++ ':' :: ([] ++ ' ' :: ([] ++ Jsx.Literal.backtick ::
              (Jsx.Literal.encode Jsx.Literal.backtick markup.toList ++
                Jsx.Literal.backtick :: []))))))) := by
    simp [Jsx.choose, Jsx.Literal.template, Jsx.Literal.body, Jsx.Literal.backtick]
  rw [code, Fragment.toList_ofInner]
  apply shuts_braced hsite ⟨by decide, by decide⟩
  intro hin
  rw [infix_cons_iff_of_notMem (foreign (by decide)) m.source_ne_nil, choice] at hin
  simp only [infix_append_cons_iff (foreign (by decide : Marker.Foreign ':')),
    infix_append_cons_iff (foreign (by decide : Marker.Foreign ' ')),
    infix_append_cons_iff (foreign (by decide : Marker.Foreign '?')),
    infix_append_cons_iff (foreign (by decide : Marker.Foreign Jsx.Literal.backtick)),
    infix_append_cons_iff (foreign (by decide : Marker.Foreign '\x7d')),
    List.infix_nil, m.source_ne_nil, stemless (by decide : Unmarked "__html".toList),
    false_or, or_false] at hin
  rcases hin with hin | hin | hin
  · exact absurd hin (stemless hdefined)
  · exact absurd hin (stemless hdata)
  · exact held (Jsx.Literal.infix_of_encode (foreign (by decide)) (Or.inl rfl) hin)

end Registry

end LateMarkup
