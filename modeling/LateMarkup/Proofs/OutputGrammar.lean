import LateMarkup.Fragment
import LateMarkup.Proofs.Spelling

/-!
# The grammar of generated attributes

Generated code is read by others, so what it means is laid down here without looking at how it is
made. The grammar has string literals, look-ups `d.key`, calls `DS.e(..)`, negations, choices
`a ? b : c` and parentheses; an attribute is assigned, or spread under a condition. A tree keeps all
that its text does not determine on its own, so the text of a tree is a function
(`AttributeTree.text`), and the grammar is unambiguous if that function is injective on the trees of
the grammar (`AttributeTree.eq_of_text`).

Of the literals the grammar asks only that they are closed by the quote after them. It has more of
them than have a value, and so it rules out more readings than it has to.
-/

namespace LateMarkup.Jsx

/-! ## Literals -/

namespace Literal

/-- What can stand between two single quotes: every quote in it comes behind a backslash, and no
backslash is left over. -/
def isBody : List Char → Bool
  | [] => true
  | ['\\'] => false
  | '\\' :: _ :: rest => isBody rest
  | c :: rest => c != '\'' && isBody rest

/-- The character that a backslash and one more character stand for. There is none where the
backslash starts an escape by number or continues the line. -/
def escaped? (c : Char) : Option Char :=
  if c = 'b' then some '\x08'
  else if c = 'f' then some '\x0c'
  else if c = 'n' then some '\n'
  else if c = 'r' then some '\r'
  else if c = 't' then some '\t'
  else if c = 'v' then some '\x0b'
  else if c = 'x' ∨ c = 'u' ∨ c.isDigit then none
  else if c = '\n' ∨ c = '\r' ∨ c = '\u2028' ∨ c = '\u2029' then none
  else some c

def value? : List Char → Option (List Char)
  | [] => some []
  | '\\' :: c :: rest => (escaped? c).bind fun d => (value? rest).map (d :: ·)
  | c :: rest => if c = '\\' ∨ c = '\n' ∨ c = '\r' then none else (value? rest).map (c :: ·)

theorem isBody_cons {c : Char} (hc : c ≠ '\\') (rest : List Char) :
    isBody (c :: rest) = (c != '\'' && isBody rest) := by
  rw [isBody]
  · exact fun h => absurd h hc
  · exact fun _ _ h => absurd h hc

theorem value?_cons {c : Char} (escape : c ≠ '\\') (feed : c ≠ '\n') (turn : c ≠ '\r')
    (rest : List Char) : value? (c :: rest) = (value? rest).map (c :: ·) := by
  rw [value?]
  · simp [escape, feed, turn]
  · exact fun _ _ h => absurd h escape

/-- A literal is closed by the first quote that stands behind a body. -/
theorem eq_of_body {a b r s : List Char} (ha : isBody a = true) (hb : isBody b = true)
    (same : a ++ '\'' :: r = b ++ '\'' :: s) : a = b ∧ r = s := by
  induction a using isBody.induct generalizing b with
  | case1 =>
      cases b with
      | nil => exact ⟨rfl, (List.cons.inj same).2⟩
      | cons c b =>
          obtain ⟨rfl, -⟩ := List.cons.inj same
          rw [isBody_cons (by decide)] at hb
          cases hb
  | case2 => cases ha
  | case3 e a ih =>
      match b with
      | [] => cases (List.cons.inj same).1
      | [c] =>
          obtain ⟨rfl, -⟩ := List.cons.inj same
          cases hb
      | c :: d :: b =>
          have closed : isBody a = true := ha
          simp only [List.cons_append, List.cons.injEq] at same
          obtain ⟨rfl, rfl, behind⟩ := same
          have closed' : isBody b = true := hb
          obtain ⟨rfl, rest⟩ := ih closed closed' behind
          exact ⟨rfl, rest⟩
  | case4 c a single escape ih =>
      have plain : c ≠ '\\' := by
        rintro rfl
        cases a with
        | nil => exact single rfl rfl
        | cons e a => exact escape e a rfl rfl
      rw [isBody_cons plain, Bool.and_eq_true, bne_iff_ne] at ha
      cases b with
      | nil => exact absurd (List.cons.inj same).1 ha.1
      | cons d b =>
          obtain ⟨rfl, behind⟩ := List.cons.inj same
          rw [isBody_cons plain, Bool.and_eq_true] at hb
          obtain ⟨rfl, rest⟩ := ih ha.2 hb.2 behind
          exact ⟨rfl, rest⟩

end Literal

/-! ## Expressions -/

inductive Expression where
  /-- What the run-time data has under a key: `d.key`. -/
  | lookup (key : List Char)
  | literal (body : List Char)
  /-- Whether a value is defined: `DS.e(..)`. -/
  | defined (inner : Expression)
  /-- The negation of an operand: `!..`. -/
  | not (inner : Expression)
  | group (inner : Expression)
  /-- One of two expressions: `test ? yes : no`. -/
  | choice (test yes no : Expression)
deriving DecidableEq, Repr

namespace Expression

/-- An expression that can be negated or tested without parentheses. -/
def isOperand : Expression → Bool
  | choice _ _ _ => false
  | _ => true

def WellFormed : Expression → Prop
  | lookup key => key ≠ [] ∧ ∀ c ∈ key, RuntimeKey.isLabelChar c = true
  | literal body => Literal.isBody body = true
  | defined inner => inner.WellFormed
  | not inner => inner.isOperand = true ∧ inner.WellFormed
  | group inner => inner.WellFormed
  | choice test yes no =>
    test.isOperand = true ∧ test.WellFormed ∧ yes.WellFormed ∧ no.WellFormed

def text : Expression → List Char
  | lookup key => 'd' :: '.' :: key
  | literal body => '\'' :: (body ++ ['\''])
  | defined inner => 'D' :: 'S' :: '.' :: 'e' :: '(' :: (inner.text ++ [')'])
  | not inner => '!' :: inner.text
  | group inner => '(' :: (inner.text ++ [')'])
  | choice test yes no =>
    test.text ++ (' ' :: '?' :: ' ' :: (yes.text ++ (' ' :: ':' :: ' ' :: no.text)))

/-! ### One reading -/

/-- A text that no key goes on in. -/
def EndsKey (rest : List Char) : Prop :=
  ∀ c ∈ rest.head?, RuntimeKey.isLabelChar c = false

def Ends (rest : List Char) : Prop := EndsKey rest ∧ ∀ behind, rest ≠ ' ' :: '?' :: behind

/-- Whatever operand stands where this one does is this one. -/
def OneOperand (a : Expression) : Prop :=
  ∀ (b : Expression) (r s : List Char), b.WellFormed → b.isOperand = true → EndsKey r →
    EndsKey s → a.text ++ r = b.text ++ s → a = b ∧ r = s

/-- Whatever expression stands where this one does is this one. -/
def One (a : Expression) : Prop :=
  ∀ (b : Expression) (r s : List Char), b.WellFormed → Ends r → Ends s →
    a.text ++ r = b.text ++ s → a = b ∧ r = s

variable {a b : Expression}

theorem oneOperand_lookup {key : List Char}
    (chars : ∀ c ∈ key, RuntimeKey.isLabelChar c = true) : (lookup key).OneOperand := by
  intro b r s wf operand hr hs same
  cases b with
  | lookup other =>
      obtain ⟨rfl, rest⟩ :=
        eq_of_append_stop chars wf.2 hr hs (List.cons.inj (List.cons.inj same).2).2
      exact ⟨rfl, rest⟩
  | choice _ _ _ => cases operand
  | _ => cases (List.cons.inj same).1

theorem oneOperand_literal {body : List Char} (closed : Literal.isBody body = true) :
    (literal body).OneOperand := by
  intro b r s wf operand _ _ same
  cases b with
  | literal other =>
      have same : body ++ '\'' :: r = other ++ '\'' :: s := by simpa [text] using same
      obtain ⟨rfl, rest⟩ := Literal.eq_of_body closed wf same
      exact ⟨rfl, rest⟩
  | choice _ _ _ => cases operand
  | _ => cases (List.cons.inj same).1

theorem ends_close (rest : List Char) : Ends (')' :: rest) := by
  refine ⟨?_, nofun⟩
  rintro c ⟨⟩
  decide

theorem ends_brace (rest : List Char) : Ends ('\x7d' :: rest) := by
  refine ⟨?_, nofun⟩
  rintro c ⟨⟩
  decide

theorem ends_colon (rest : List Char) : Ends (' ' :: ':' :: rest) := by
  refine ⟨?_, nofun⟩
  rintro c ⟨⟩
  decide

theorem endsKey_blank (rest : List Char) : EndsKey (' ' :: rest) := by
  rintro c ⟨⟩
  decide

/-- What is closed by a parenthesis ends there. -/
theorem eq_of_closed {r s : List Char} (one : a.One) (wf : b.WellFormed)
    (same : a.text ++ ')' :: r = b.text ++ ')' :: s) : a = b ∧ r = s := by
  obtain ⟨rfl, rest⟩ := one b _ _ wf (ends_close r) (ends_close s) same
  exact ⟨rfl, (List.cons.inj rest).2⟩

theorem oneOperand_defined (one : a.One) : (defined a).OneOperand := by
  intro b r s wf operand _ _ same
  cases b with
  | defined inner =>
      have same : a.text ++ ')' :: r = inner.text ++ ')' :: s := by simpa [text] using same
      obtain ⟨rfl, rest⟩ := eq_of_closed (b := inner) one wf same
      exact ⟨rfl, rest⟩
  | choice _ _ _ => cases operand
  | _ => cases (List.cons.inj same).1

theorem oneOperand_group (one : a.One) : (group a).OneOperand := by
  intro b r s wf operand _ _ same
  cases b with
  | group inner =>
      have same : a.text ++ ')' :: r = inner.text ++ ')' :: s := by simpa [text] using same
      obtain ⟨rfl, rest⟩ := eq_of_closed (b := inner) one wf same
      exact ⟨rfl, rest⟩
  | choice _ _ _ => cases operand
  | _ => cases (List.cons.inj same).1

theorem oneOperand_not (one : a.OneOperand) : (not a).OneOperand := by
  intro b r s wf operand hr hs same
  cases b with
  | not inner =>
      obtain ⟨rfl, rest⟩ := one inner r s wf.2 wf.1 hr hs (List.cons.inj same).2
      exact ⟨rfl, rest⟩
  | choice _ _ _ => cases operand
  | _ => cases (List.cons.inj same).1

/-- Behind an operand there is no choice where the expression ends. -/
theorem one_of_oneOperand (one : a.OneOperand) : a.One := by
  intro b r s wf hr hs same
  cases hb : b.isOperand with
  | true => exact one b r s wf hb hr.1 hs.1 same
  | false =>
      cases b with
      | choice test yes no =>
          obtain ⟨operand, wfTest, -⟩ := wf
          rw [text, List.append_assoc] at same
          obtain ⟨-, rest⟩ := one test _ _ wfTest operand hr.1 (endsKey_blank _) same
          exact absurd rest (hr.2 _)
      | _ => cases hb

theorem one_choice {test yes no : Expression} (oneTest : test.OneOperand)
    (oneYes : yes.One) (oneNo : no.One) : (choice test yes no).One := by
  intro b r s wf hr hs same
  have split : ∀ t y n : Expression, ∀ rest : List Char, (choice t y n).text ++ rest =
      t.text ++ ' ' :: '?' :: ' ' :: (y.text ++ ' ' :: ':' :: ' ' :: (n.text ++ rest)) := by
    simp [text]
  rw [split] at same
  cases hb : b.isOperand with
  | true =>
      obtain ⟨-, rest⟩ := oneTest b _ _ wf hb (endsKey_blank _) hs.1 same
      exact absurd rest.symm (hs.2 _)
  | false =>
      cases b with
      | choice test' yes' no' =>
          obtain ⟨operand, wfTest, wfYes, wfNo⟩ := wf
          rw [split] at same
          obtain ⟨tests, same₁⟩ :=
            oneTest test' _ _ wfTest operand (endsKey_blank _) (endsKey_blank _) same
          simp only [List.cons.injEq, true_and] at same₁
          obtain ⟨yeses, same₂⟩ := oneYes yes' _ _ wfYes (ends_colon _) (ends_colon _) same₁
          simp only [List.cons.injEq, true_and] at same₂
          obtain ⟨nos, rest⟩ := oneNo no' _ _ wfNo hr hs same₂
          exact ⟨by rw [tests, yeses, nos], rest⟩
      | _ => cases hb

/-- Every expression can be read in one way only, and so can every operand. -/
theorem one_and_oneOperand (a : Expression) (wf : a.WellFormed) :
    a.One ∧ (a.isOperand = true → a.OneOperand) := by
  have both : ∀ {e : Expression}, e.OneOperand → e.One ∧ (e.isOperand = true → e.OneOperand) :=
    fun one => ⟨one_of_oneOperand one, fun _ => one⟩
  induction a with
  | lookup key => exact both (oneOperand_lookup wf.2)
  | literal body => exact both (oneOperand_literal wf)
  | defined inner ih => exact both (oneOperand_defined (ih wf).1)
  | not inner ih => exact both (oneOperand_not ((ih wf.2).2 wf.1))
  | group inner ih => exact both (oneOperand_group (ih wf).1)
  | choice test yes no ihTest ihYes ihNo =>
      obtain ⟨operand, wfTest, wfYes, wfNo⟩ := wf
      exact ⟨one_choice ((ihTest wfTest).2 operand) (ihYes wfYes).1 (ihNo wfNo).1, nofun⟩

theorem one (wf : a.WellFormed) : a.One := (one_and_oneOperand a wf).1

theorem oneOperand (wf : a.WellFormed) (operand : a.isOperand = true) : a.OneOperand :=
  (one_and_oneOperand a wf).2 operand

end Expression

/-! ## Attributes -/

inductive AttributeTree where
  | assigned (name : List Char) (value : Expression)
  /-- An attribute that is there if the test holds. The test and what it guards may stand between
  parentheses, and the name is the body of a literal. -/
  | spread (grouped : Bool) (test : Expression) (name : List Char) (value : Expression)
deriving DecidableEq, Repr

namespace AttributeTree

def WellFormed : AttributeTree → Prop
  | assigned name value =>
    name ≠ [] ∧ (∀ c ∈ name, Fragment.isNameChar c = true) ∧ value.WellFormed
  | spread _ test name value =>
    (test.isOperand = true ∧ test.WellFormed) ∧ Literal.isBody name = true ∧ value.WellFormed

def guarded (name : List Char) (value : Expression) : List Char :=
  ' ' :: '&' :: '&' :: ' ' :: '\x7b' :: '\'' ::
    (name ++ '\'' :: ':' :: ' ' :: (value.text ++ ['\x7d']))

def text : AttributeTree → List Char
  | assigned name value => name ++ '=' :: '\x7b' :: (value.text ++ ['\x7d'])
  | spread false test name value =>
    '\x7b' :: '.' :: '.' :: '.' :: (test.text ++ (guarded name value ++ ['\x7d']))
  | spread true test name value =>
    '\x7b' :: '.' :: '.' :: '.' :: '(' :: (test.text ++ (guarded name value ++ [')', '\x7d']))

variable {a b : AttributeTree}

theorem ends_guarded (name : List Char) (value : Expression) (rest : List Char) :
    Expression.Ends (guarded name value ++ rest) := by
  refine ⟨Expression.endsKey_blank _, ?_⟩
  intro behind same
  cases (List.cons.inj (List.cons.inj same).2).1

theorem eq_of_assigned {n m : List Char} {v w : Expression} (hn : (assigned n v).WellFormed)
    (hm : (assigned m w).WellFormed) (same : (assigned n v).text = (assigned m w).text) :
    n = m ∧ v = w := by
  have stop : ∀ rest : List Char, ∀ c ∈ ('=' :: rest).head?, Fragment.isNameChar c = false := by
    rintro rest c ⟨⟩
    decide
  obtain ⟨names, rest⟩ := eq_of_append_stop hn.2.1 hm.2.1 (stop _) (stop _) same
  simp only [List.cons.injEq, true_and] at rest
  obtain ⟨values, -⟩ := Expression.one hn.2.2 w _ _ hm.2.2 (Expression.ends_brace [])
    (Expression.ends_brace []) rest
  exact ⟨names, values⟩

/-- A test with what it guards can be read in one way only. -/
theorem eq_of_condition {t u : Expression} {n m : List Char} {v w : Expression} {r s : List Char}
    (ht : (spread true t n v).WellFormed) (hu : (spread true u m w).WellFormed)
    (same : t.text ++ (guarded n v ++ r) = u.text ++ (guarded m w ++ s)) :
    t = u ∧ n = m ∧ v = w := by
  obtain ⟨⟨operandT, wfT⟩, hn, hv⟩ := ht
  obtain ⟨⟨operandU, wfU⟩, hm, hw⟩ := hu
  obtain ⟨tests, behind⟩ := Expression.oneOperand wfT operandT u _ _ wfU operandU
    (Expression.endsKey_blank _) (Expression.endsKey_blank _) same
  have quoted : n ++ '\'' :: (':' :: ' ' :: (v.text ++ '\x7d' :: r)) =
      m ++ '\'' :: (':' :: ' ' :: (w.text ++ '\x7d' :: s)) := by
    simpa [guarded] using behind
  obtain ⟨names, rest⟩ := Literal.eq_of_body hn hm quoted
  simp only [List.cons.injEq, true_and] at rest
  obtain ⟨values, -⟩ := Expression.one hv w _ _ hw (Expression.ends_brace r)
    (Expression.ends_brace s) rest
  exact ⟨tests, names, values⟩

/-- Parentheses around the whole condition are not those of a test. -/
theorem grouped_ne {t u : Expression} {n m : List Char} {v w : Expression}
    (ht : (spread true t n v).WellFormed) (hu : (spread false u m w).WellFormed) :
    (spread true t n v).text ≠ (spread false u m w).text := by
  intro same
  have same : '(' :: (t.text ++ (guarded n v ++ [')', '\x7d'])) =
      u.text ++ (guarded m w ++ ['\x7d']) := by
    simpa [text] using same
  obtain ⟨operand, wf⟩ := hu.1
  cases u with
  | group inner =>
      have same : t.text ++ (guarded n v ++ [')', '\x7d']) =
          inner.text ++ ')' :: (guarded m w ++ ['\x7d']) := by
        simpa [Expression.text] using same
      obtain ⟨-, rest⟩ := Expression.one ht.1.2 inner _ _ wf (ends_guarded _ _ _)
        (Expression.ends_close _) same
      cases (List.cons.inj rest).1
  | choice _ _ _ => cases operand
  | _ => cases (List.cons.inj same).1

/-- **The grammar is unambiguous.** Two attributes with one text are the same. -/
theorem eq_of_text (ha : a.WellFormed) (hb : b.WellFormed) (same : a.text = b.text) : a = b := by
  -- A spread starts with a brace, which is in no name.
  have brace : ∀ {n : List Char} {v : Expression} {rest : List Char},
      (assigned n v).WellFormed → (assigned n v).text ≠ '\x7b' :: rest := by
    intro n v rest wf same
    obtain ⟨some, chars, -⟩ := wf
    obtain ⟨c, n, rfl⟩ := List.exists_cons_of_ne_nil some
    obtain ⟨rfl, -⟩ := List.cons.inj same
    exact absurd (chars _ List.mem_cons_self) (by decide)
  cases a with
  | assigned n v =>
      cases b with
      | assigned m w =>
          obtain ⟨rfl, rfl⟩ := eq_of_assigned ha hb same
          rfl
      | spread grouped u m w => cases grouped <;> exact absurd same (brace ha)
  | spread grouped t n v =>
      cases b with
      | assigned m w => cases grouped <;> exact absurd same.symm (brace hb)
      | spread grouped' u m w =>
          have grouping : grouped = grouped' := by
            cases grouped with
            | false =>
                cases grouped' with
                | false => rfl
                | true => exact absurd same.symm (grouped_ne hb ha)
            | true =>
                cases grouped' with
                | false => exact absurd same (grouped_ne ha hb)
                | true => rfl
          subst grouping
          have parts : t = u ∧ n = m ∧ v = w := by
            cases grouped with
            | false => exact eq_of_condition ha hb (by simpa [text] using same)
            | true => exact eq_of_condition ha hb (by simpa [text] using same)
          obtain ⟨rfl, rfl, rfl⟩ := parts
          rfl

end AttributeTree

end LateMarkup.Jsx
