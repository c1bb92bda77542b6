import Mathlib.Tactic.SplitIfs
import LateMarkup.Json.Printer
import LateMarkup.Json.Reader
import LateMarkup.Proofs.Spelling

/-!
# How JSON tokens are written

A row of tokens can be written in many ways: with white space anywhere between them, with any
character of a string written by its number, and with numbers of any form. `Token.Spells` says how a
single token can be written and `Token.Written` how a row of them can. However it is done, the
tokens of the text are those that it was made of (`Token.tokens_of_written`).

A number has no mark at its end, so it is read as far as it goes. In a row of tokens where no two
numbers touch (`Token.Separate`) it goes no further than it should.
-/

namespace LateMarkup.Json

namespace Token

/-! ## Strings -/

/-- The characters that can be written as a backslash and one other character, behind that one. -/
def shortEscapes : List (Char × Char) :=
  [('"', '"'), ('\\', '\\'), ('/', '/'), ('b', '\x08'), ('f', '\x0c'), ('n', '\n'), ('r', '\r'),
    ('t', '\t')]

inductive StringUnit.Spells : StringUnit → List Char → Prop
  | plain {c : Char} : c ≠ '"' → c ≠ '\\' → ¬ c < ' ' → Spells (.char c) [c]
  | short {name c : Char} : (name, c) ∈ shortEscapes → Spells (.char c) ['\\', name]
  | code {a b c d : Char} {n : Nat} : Text.Hex.value? [a, b, c, d] = some n →
      n < 0xD800 ∨ 0xDFFF < n → Spells (.char (Char.ofNat n)) ['\\', 'u', a, b, c, d]
  | surrogate {a b c d : Char} {n : Nat} : Text.Hex.value? [a, b, c, d] = some n →
      0xD800 ≤ n → n ≤ 0xDFFF → Spells (.surrogate n) ['\\', 'u', a, b, c, d]

inductive Body : List StringUnit → List Char → Prop
  | nil : Body [] []
  | cons {unit : StringUnit} {units : List StringUnit} {word body : List Char} :
      unit.Spells word → Body units body → Body (unit :: units) (word ++ body)

/-- The text that units stand for. Two surrogates can stand for one character; otherwise a surrogate
stands for nothing. -/
inductive Denotes : List StringUnit → List Char → Prop
  | nil : Denotes [] []
  | char {c : Char} {units : List StringUnit} {cs : List Char} :
      Denotes units cs → Denotes (.char c :: units) (c :: cs)
  | pair {high low : Nat} {units : List StringUnit} {cs : List Char} :
      high < 0xDC00 → 0xDC00 ≤ low → Denotes units cs →
        Denotes (.surrogate high :: .surrogate low :: units)
          (Char.ofNat (0x10000 + (high - 0xD800) * 0x400 + (low - 0xDC00)) :: cs)

theorem characters?_eq_some_iff {units : List StringUnit} {cs : List Char} :
    characters? units = some cs ↔ Denotes units cs := by
  constructor
  · intro found
    fun_induction characters? units generalizing cs with
    | case1 =>
        cases found
        exact .nil
    | case2 c units ih =>
        obtain ⟨rest, behind, rfl⟩ := Option.map_eq_some_iff.mp found
        exact .char (ih behind)
    | case3 high low units pair ih =>
        obtain ⟨rest, behind, rfl⟩ := Option.map_eq_some_iff.mp found
        exact .pair pair.1 pair.2 (ih behind)
    | case4 => cases found
    | case5 => cases found
  · intro denotes
    induction denotes with
    | nil => rfl
    | char _ ih => rw [characters?, ih, Option.map_some]
    | pair high low _ ih => rw [characters?, if_pos ⟨high, low⟩, ih, Option.map_some]

theorem escaped?_of_mem : ∀ pair ∈ shortEscapes,
    pair.1 ≠ 'u' ∧ escaped? pair.1 = some pair.2 := by
  decide

theorem stringBody?_escape {e d : Char} (plain : e ≠ 'u') (escaped : escaped? e = some d)
    (cs : List Char) : stringBody? ('\\' :: e :: cs) =
      (stringBody? cs).map fun (units, rest) => (.char d :: units, rest) := by
  rw [stringBody?]
  · rw [escaped]
    cases stringBody? cs <;> rfl
  · intro a b c d rest h
    exact absurd h plain

theorem stringBody?_plain {c : Char} (quote : c ≠ '"') (escape : c ≠ '\\') (control : ¬ c < ' ')
    (cs : List Char) : stringBody? (c :: cs) =
      (stringBody? cs).map fun (units, rest) => (.char c :: units, rest) := by
  rw [stringBody?]
  · rw [if_neg (not_or.mpr ⟨escape, control⟩)]
    cases stringBody? cs <;> rfl
  · exact quote
  · intro a b c d rest h
    exact absurd h escape
  · intro e rest h
    exact absurd h escape

theorem stringBody?_unit {unit : StringUnit} {word : List Char} (spells : unit.Spells word)
    (cs : List Char) : stringBody? (word ++ cs) =
      (stringBody? cs).map fun (units, rest) => (unit :: units, rest) := by
  have code {a b c d : Char} (unit : StringUnit) (found : hexUnit? a b c d = some unit) :
      stringBody? ('\\' :: 'u' :: a :: b :: c :: d :: cs) =
        (stringBody? cs).map fun (units, rest) => (unit :: units, rest) := by
    rw [stringBody?, found]
    cases stringBody? cs <;> rfl
  cases spells with
  | plain quote escape control => exact stringBody?_plain quote escape control cs
  | short mem =>
      obtain ⟨other, escaped⟩ := escaped?_of_mem _ mem
      exact stringBody?_escape other escaped cs
  | @code a b c d n value outside =>
      have char : ¬ (0xD800 ≤ n ∧ n ≤ 0xDFFF) := by omega
      refine code _ ?_
      rw [hexUnit?, value]
      exact congrArg some (if_neg char)
  | surrogate value low high =>
      refine code _ ?_
      rw [hexUnit?, value]
      exact congrArg some (if_pos ⟨low, high⟩)

theorem stringBody?_body {units : List StringUnit} {body : List Char} (h : Body units body)
    (rest : List Char) : stringBody? (body ++ '"' :: rest) = some (units, rest) := by
  induction h with
  | nil => rfl
  | cons spells _ ih => rw [List.append_assoc, stringBody?_unit spells, ih, Option.map_some]

/-! ## Numbers -/

def AreDigits (cs : List Char) : Prop := cs ≠ [] ∧ ∀ c ∈ cs, c.isDigit = true

def IsWhole (cs : List Char) : Prop := cs = ['0'] ∨ AreDigits cs ∧ cs.head? ≠ some '0'

/-- A point with digits, or nothing. -/
def IsFraction (cs : List Char) : Prop := cs = [] ∨ ∃ digits, AreDigits digits ∧ cs = '.' :: digits

def AreSigned (cs : List Char) : Prop :=
  ∃ sign digits, sign ∈ [[], ['+'], ['-']] ∧ AreDigits digits ∧ cs = sign ++ digits

def IsExponent (cs : List Char) : Prop :=
  cs = [] ∨ ∃ mark signed, (mark = 'e' ∨ mark = 'E') ∧ AreSigned signed ∧ cs = mark :: signed

def IsUnsigned (cs : List Char) : Prop :=
  ∃ whole fraction exponent, IsWhole whole ∧ IsFraction fraction ∧ IsExponent exponent ∧
    cs = whole ++ (fraction ++ exponent)

def IsNumber (cs : List Char) : Prop := IsUnsigned cs ∨ ∃ rest, IsUnsigned rest ∧ cs = '-' :: rest

def continues (c : Char) : Bool := c.isDigit || c == '.' || c == 'e' || c == 'E'

/-- A text with which a number does not go on. -/
def Ends (rest : List Char) : Prop := ∀ c ∈ rest.head?, continues c = false

section Numbers

variable {cs rest : List Char}

theorem Ends.of_continues {c : Char} (h : continues c = false) (rest : List Char) :
    Ends (c :: rest) := by
  rintro d ⟨⟩
  exact h

theorem digits?_append (h : AreDigits cs) (stop : ∀ c ∈ rest.head?, c.isDigit = false) :
    digits? (cs ++ rest) = some (cs, rest) := by
  rw [digits?, takeWhile_append_stop stop, dropWhile_append_stop stop,
    List.takeWhile_eq_self_iff.mpr h.2, List.dropWhile_eq_nil_iff.mpr h.2]
  obtain ⟨c, cs, rfl⟩ := List.exists_cons_of_ne_nil h.1
  rfl

theorem Ends.stop (ends : Ends rest) : ∀ c ∈ rest.head?, c.isDigit = false := by
  intro c hc
  have none := ends c hc
  simp only [continues, Bool.or_eq_false_iff] at none
  exact none.1.1.1

theorem whole?_append (h : IsWhole cs) (stop : ∀ c ∈ rest.head?, c.isDigit = false) :
    whole? (cs ++ rest) = some (cs, rest) := by
  rcases h with rfl | ⟨digits, lead⟩
  · rfl
  · obtain ⟨c, cs, rfl⟩ := List.exists_cons_of_ne_nil digits.1
    have other : c ≠ '0' := fun h => lead (by rw [h, List.head?_cons])
    rw [List.cons_append, whole?, ← List.cons_append, digits?_append digits stop]
    exact fun _ heq => other (List.cons.inj heq).1

theorem fraction?_append (h : IsFraction cs) (ends : ∀ c ∈ rest.head?, c.isDigit = false)
    (point : rest.head? ≠ some '.') : fraction? (cs ++ rest) = some (cs, rest) := by
  rcases h with rfl | ⟨digits, hdigits, rfl⟩
  · rw [List.nil_append, fraction?]
    rintro behind rfl
    exact point rfl
  · rw [List.cons_append, fraction?, digits?_append hdigits ends, Option.map_some]

theorem signedDigits?_append (h : AreSigned cs) (stop : ∀ c ∈ rest.head?, c.isDigit = false) :
    signedDigits? (cs ++ rest) = some (cs, rest) := by
  obtain ⟨sign, digits, hsign, hdigits, rfl⟩ := h
  have read := digits?_append hdigits stop
  rw [List.append_assoc]
  simp only [List.mem_cons, List.not_mem_nil, or_false] at hsign
  rcases hsign with rfl | rfl | rfl
  · obtain ⟨c, cs, rfl⟩ := List.exists_cons_of_ne_nil hdigits.1
    have digit : c.isDigit = true := hdigits.2 c List.mem_cons_self
    rw [List.nil_append, signedDigits?, read, List.nil_append]
    · rintro behind heq
      rw [(List.cons.inj heq).1] at digit
      exact absurd digit (by decide)
    · rintro behind heq
      rw [(List.cons.inj heq).1] at digit
      exact absurd digit (by decide)
  · show signedDigits? ('+' :: (digits ++ rest)) = _
    rw [signedDigits?, read]
    rfl
  · show signedDigits? ('-' :: (digits ++ rest)) = _
    rw [signedDigits?, read]
    rfl

theorem exponent?_append (h : IsExponent cs) (ends : Ends rest) :
    exponent? (cs ++ rest) = some (cs, rest) := by
  rcases h with rfl | ⟨mark, signed, hmark, hsigned, rfl⟩
  · rw [List.nil_append, exponent?]
    · rintro behind rfl
      exact absurd (ends 'e' rfl) (by decide)
    · rintro behind rfl
      exact absurd (ends 'E' rfl) (by decide)
  · have read := signedDigits?_append hsigned ends.stop
    rcases hmark with rfl | rfl
    · rw [List.cons_append, exponent?, read, Option.map_some]
    · rw [List.cons_append, exponent?, read, Option.map_some]

/-- What follows the whole part of a number is no digit, and what follows the fraction no point. -/
theorem IsExponent.head (h : IsExponent cs) (ends : Ends rest) :
    (∀ c ∈ (cs ++ rest).head?, c.isDigit = false) ∧ (cs ++ rest).head? ≠ some '.' := by
  rcases h with rfl | ⟨mark, signed, hmark, -, rfl⟩
  · refine ⟨ends.stop, fun point => ?_⟩
    exact absurd (ends '.' point) (by decide)
  · rcases hmark with rfl | rfl
    · exact ⟨by rintro c ⟨⟩; decide, by simp⟩
    · exact ⟨by rintro c ⟨⟩; decide, by simp⟩

theorem unsigned?_append (h : IsUnsigned cs) (ends : Ends rest) :
    unsigned? (cs ++ rest) = some (cs, rest) := by
  obtain ⟨whole, fraction, exponent, hwhole, hfraction, hexponent, rfl⟩ := h
  obtain ⟨stop, point⟩ := hexponent.head ends
  have stopWhole : ∀ c ∈ (fraction ++ (exponent ++ rest)).head?, c.isDigit = false := by
    rcases hfraction with rfl | ⟨digits, -, rfl⟩
    · exact stop
    · rintro c ⟨⟩
      decide
  rw [unsigned?, List.append_assoc, List.append_assoc, whole?_append hwhole stopWhole]
  simp only [Option.bind_eq_bind, Option.bind_some, fraction?_append hfraction stop point,
    exponent?_append hexponent ends]
  rw [List.append_assoc]
  rfl

/-- The first character of a number decides that it is one. -/
theorem first_digit {c : Char} (digit : c.isDigit = true) (cs : List Char) :
    first c cs = ofNumber [] (unsigned? (c :: cs)) := by
  unfold first
  split
  case h_12 => rfl
  all_goals exact absurd digit (by decide)

theorem IsUnsigned.exists_digit (h : IsUnsigned cs) :
    ∃ c rest, cs = c :: rest ∧ c.isDigit = true := by
  obtain ⟨whole, fraction, exponent, hwhole, -, -, rfl⟩ := h
  rcases hwhole with rfl | ⟨digits, -⟩
  · exact ⟨'0', _, rfl, rfl⟩
  · obtain ⟨c, cs, rfl⟩ := List.exists_cons_of_ne_nil digits.1
    exact ⟨c, _, rfl, digits.2 c List.mem_cons_self⟩

end Numbers

/-! ## Tokens -/

def spelling : Token → List Char
  | openBrace => ['\x7b']
  | closeBrace => ['\x7d']
  | openBracket => ['[']
  | closeBracket => [']']
  | colon => [':']
  | comma => [',']
  | null => ['n', 'u', 'l', 'l']
  | bool true => ['t', 'r', 'u', 'e']
  | bool false => ['f', 'a', 'l', 's', 'e']
  | number literal => literal.toList
  | string text => quote (text.getD "")
  | broken => []

/-- How a token can be written. A broken one cannot. -/
def Spells : Token → List Char → Prop
  | number literal, word => word = literal.toList ∧ IsNumber word
  | string text, word => ∃ units body, Body units body ∧ word = '"' :: (body ++ ['"']) ∧
      match text with
      | some text => Denotes units text.toList
      | none => ∀ cs, ¬ Denotes units cs
  | broken, _ => False
  | token, word => word = token.spelling

def isNumber : Token → Bool
  | number _ => true
  | _ => false

theorem isSpace_digit {c : Char} (digit : c.isDigit = true) : isSpace c = false := by
  unfold isSpace
  simp only [Bool.or_eq_false_iff, beq_eq_false_iff_ne]
  refine ⟨⟨⟨?_, ?_⟩, ?_⟩, ?_⟩
  all_goals rintro rfl; exact absurd digit (by decide)

/-- A token is read however it is written, and nothing behind it is taken. -/
theorem Spells.first {token : Token} {word : List Char} (spells : token.Spells word)
    {rest : List Char} (ends : token.isNumber = true → Ends rest) :
    ∃ c cs, word ++ rest = c :: cs ∧ isSpace c = false ∧ first c cs = (token, rest) := by
  cases token with
  | bool value =>
      cases value <;> (obtain rfl := spells; exact ⟨_, _, rfl, rfl, rfl⟩)
  | number literal =>
      obtain ⟨rfl, number⟩ := spells
      rcases number with unsigned | ⟨digits, unsigned, whole⟩
      · obtain ⟨c, cs, shape, digit⟩ := unsigned.exists_digit
        refine ⟨c, cs ++ rest, by rw [shape, List.cons_append], isSpace_digit digit, ?_⟩
        rw [first_digit digit, ← List.cons_append, ← shape, unsigned?_append unsigned (ends rfl),
          ofNumber, List.nil_append, String.ofList_toList]
      · refine ⟨'-', digits ++ rest, by rw [whole, List.cons_append], rfl, ?_⟩
        show ofNumber ['-'] (unsigned? (digits ++ rest)) = _
        rw [unsigned?_append unsigned (ends rfl), ofNumber, List.singleton_append, ← whole,
          String.ofList_toList]
  | string text =>
      obtain ⟨units, body, hbody, rfl, denotes⟩ := spells
      refine ⟨'"', body ++ '"' :: rest, by simp, rfl, ?_⟩
      show ofString (stringBody? (body ++ '"' :: rest)) = _
      rw [stringBody?_body hbody, ofString]
      cases text with
      | some text =>
          rw [characters?_eq_some_iff.mpr denotes, Option.map_some, String.ofList_toList]
      | none =>
          cases found : characters? units with
          | none => rfl
          | some cs => exact absurd (characters?_eq_some_iff.mp found) (denotes cs)
  | broken => exact spells.elim
  | _ =>
      obtain rfl := spells
      exact ⟨_, _, rfl, rfl, rfl⟩

theorem Spells.ne_broken {token : Token} {word : List Char} (spells : token.Spells word) :
    token ≠ broken := by
  rintro rfl
  exact spells

theorem tokens_spells {token : Token} {word rest : List Char} (spells : token.Spells word)
    (ends : token.isNumber = true → Ends rest) :
    tokens (word ++ rest) = token :: tokens rest := by
  obtain ⟨c, cs, text, dark, taken⟩ := spells.first ends
  rw [text, tokens, if_neg (by rw [dark]; exact Bool.false_ne_true)]
  simp only [taken]
  rw [if_neg spells.ne_broken]

/-! ### Printed tokens -/

/-- A token that has one spelling when it is printed. -/
def Plain : Token → Prop
  | number _ => False
  | string none => False
  | broken => False
  | _ => True

theorem value?_control : ∀ n < 32, Text.Hex.value? ['0', '0', Text.Hex.digit (n / 16),
    Text.Hex.digit (n % 16)] = some n := by
  decide

/-- A printed character is written in one of the ways. -/
theorem spells_spellChar (c : Char) : (StringUnit.char c).Spells (spellChar c) := by
  unfold spellChar shortEscape
  split_ifs with mark back form feed turn tab control
  · rcases mark with rfl | rfl <;> exact .short (by decide)
  · subst back; exact .short (by decide)
  · subst form; exact .short (by decide)
  · subst feed; exact .short (by decide)
  · subst turn; exact .short (by decide)
  · subst tab; exact .short (by decide)
  · have small : c.toNat < 32 := control
    have code := StringUnit.Spells.code (value?_control c.toNat small) (by omega)
    rwa [Char.ofNat_toNat] at code
  · obtain ⟨quote, escape⟩ := not_or.mp mark
    exact .plain quote escape control

theorem Plain.spells {token : Token} (plain : token.Plain) : token.Spells token.spelling := by
  cases token with
  | bool value => cases value <;> rfl
  | number literal => exact plain.elim
  | string text =>
      cases text with
      | none => exact plain.elim
      | some text =>
          refine ⟨text.toList.map .char, text.toList.flatMap spellChar, ?_, rfl, ?_⟩
          · induction text.toList with
            | nil => exact .nil
            | cons c cs ih => exact .cons (spells_spellChar c) ih
          · show Denotes _ _
            induction text.toList with
            | nil => exact .nil
            | cons c cs ih => exact .char ih
  | broken => exact plain.elim
  | _ => rfl

/-! ## Rows of tokens -/

theorem tokens_space {space : List Char} (blank : ∀ c ∈ space, isSpace c = true) (cs : List Char) :
    tokens (space ++ cs) = tokens cs := by
  induction space with
  | nil => rfl
  | cons c space ih =>
      rw [List.forall_mem_cons] at blank
      rw [List.cons_append, tokens, if_pos blank.1, ih blank.2]

/-- How a row of tokens can be written before a text, with white space before each of them. -/
inductive Written (rest : List Char) : List Token → List Char → Prop
  | done : Written rest [] rest
  | next {space : List Char} (blank : ∀ c ∈ space, isSpace c = true) {token : Token}
      {word : List Char} (spells : token.Spells word) {tokens : List Token} {cs : List Char}
      (behind : Written rest tokens cs) : Written rest (token :: tokens) (space ++ (word ++ cs))

theorem Written.word {rest cs : List Char} {token : Token} {word : List Char}
    {tokens : List Token} (spells : token.Spells word) (behind : Written rest tokens cs) :
    Written rest (token :: tokens) (word ++ cs) := by
  have none : ∀ c ∈ ([] : List Char), isSpace c = true := nofun
  exact .next none spells behind

def Follow (tokens : List Token) : Prop := ∀ token ∈ tokens.head?, token.isNumber = false

/-- Tokens of which no two that touch are numbers. -/
def Separate : List Token → Prop
  | [] => True
  | token :: tokens => (token.isNumber = true → Follow tokens) ∧ Separate tokens

theorem Follow.cons {token : Token} (other : token.isNumber = false) (tokens : List Token) :
    Follow (token :: tokens) := by
  rintro first ⟨⟩
  exact other

theorem Separate.cons {token : Token} {tokens : List Token} (other : token.isNumber = false)
    (separate : Separate tokens) : Separate (token :: tokens) := by
  refine ⟨fun number => ?_, separate⟩
  rw [other] at number
  cases number

theorem ends_space {space : List Char} (blank : ∀ c ∈ space, isSpace c = true) {cs : List Char}
    (ends : Ends cs) : Ends (space ++ cs) := by
  cases space with
  | nil => exact ends
  | cons c space =>
      refine Ends.of_continues ?_ _
      have spaces : ∀ c ∈ [' ', '\t', '\n', '\r'], continues c = false := by decide
      apply spaces
      have hc := blank c List.mem_cons_self
      simpa [isSpace, or_assoc] using hc

/-- No token but a number goes on with a number. -/
theorem Spells.ends {token : Token} {word : List Char} (spells : token.Spells word)
    (other : token.isNumber = false) (cs : List Char) : Ends (word ++ cs) := by
  cases token with
  | number literal => cases other
  | bool value => cases value <;> (obtain rfl := spells; exact .of_continues (by decide) _)
  | string text =>
      obtain ⟨units, body, -, rfl, -⟩ := spells
      exact .of_continues (by decide) _
  | broken => exact spells.elim
  | _ =>
      obtain rfl := spells
      exact .of_continues (by decide) _

theorem Written.ends {rest cs : List Char} {tokens : List Token} (written : Written rest tokens cs)
    (follow : Follow tokens) (ends : tokens = [] → Ends rest) : Ends cs := by
  cases written with
  | done => exact ends rfl
  | next blank spells _ => exact ends_space blank (spells.ends (follow _ rfl) _)

theorem Written.broken_notMem {rest cs : List Char} {tokens : List Token}
    (written : Written rest tokens cs) : broken ∉ tokens := by
  induction written with
  | done => exact List.not_mem_nil
  | next _ spells _ ih =>
      rw [List.mem_cons, not_or]
      exact ⟨spells.ne_broken.symm, ih⟩

/-- **The tokens of a text are those that it was made of**, however they are written. If the last
of them is a number, it must not go on behind. -/
theorem tokens_of_written {rest cs : List Char} {ts : List Token} (written : Written rest ts cs)
    (separate : Separate ts)
    (ends : ∀ token ∈ ts.getLast?, token.isNumber = true → Ends rest) :
    tokens cs = ts ++ tokens rest := by
  induction written with
  | done => rfl
  | @next _ blank token _ spells ts _ behind ih =>
      obtain ⟨follow, separate⟩ := separate
      have later : ∀ last ∈ ts.getLast?, last.isNumber = true → Ends rest := by
        intro last hlast
        apply ends last
        rw [List.getLast?_cons, Option.mem_def.mp hlast]
        rfl
      have stop (number : token.isNumber = true) : Ends _ :=
        behind.ends (follow number) fun none => ends token (by rw [none]; rfl) number
      rw [tokens_space blank, tokens_spells spells stop, ih separate later, List.cons_append]

end Token

end LateMarkup.Json
