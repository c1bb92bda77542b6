import LateMarkup.Proofs.JsonTexts

/-!
# Reading JSON texts back

A value is written as a row of tokens (`Json.toTokens`). However these are written, the reader makes
the value of them again (`Json.read_of_written`): `Json.takeAll_toTokens` says so of the tokens, and
`Json.separate_toTokens` that they come out of the text as they went in.

Printing a value lays out its tokens with white space between them (`Json.laid_print`). Where the
white space stands and how much there is does not matter (`Json.read_of_laid`). Numbers are left out
of this, since nothing here prints them.
-/

namespace LateMarkup.Json

namespace Token

/-! ## Printed texts -/

/-- A text of tokens, with white space around them. -/
inductive Laid : List Token → List Char → Prop
  | done {space : List Char} (blank : ∀ c ∈ space, isSpace c = true) : Laid [] space
  | next {space : List Char} (blank : ∀ c ∈ space, isSpace c = true) (token : Token)
      {tokens : List Token} {cs : List Char} (rest : Laid tokens cs) :
      Laid (token :: tokens) (space ++ (token.spelling ++ cs))

theorem Laid.word {ts : List Token} {cs : List Char} (token : Token) (laid : Laid ts cs) :
    Laid (token :: ts) (token.spelling ++ cs) := by
  have blank : ∀ c ∈ ([] : List Char), isSpace c = true := nofun
  exact .next blank token laid

theorem Laid.space {ts : List Token} {cs space : List Char}
    (blank : ∀ c ∈ space, isSpace c = true) (laid : Laid ts cs) : Laid ts (space ++ cs) := by
  cases laid with
  | done inner => exact .done (List.forall_mem_append.mpr ⟨blank, inner⟩)
  | next inner token rest =>
      rw [← List.append_assoc]
      exact .next (List.forall_mem_append.mpr ⟨blank, inner⟩) token rest

theorem Laid.written {ts : List Token} {cs : List Char} (laid : Laid ts cs)
    (plain : ∀ token ∈ ts, token.Plain) :
    ∃ space, (∀ c ∈ space, isSpace c = true) ∧ Written space ts cs := by
  induction laid with
  | @done space blank => exact ⟨space, blank, .done⟩
  | next blank token _ ih =>
      rw [List.forall_mem_cons] at plain
      obtain ⟨behind, hbehind, written⟩ := ih plain.2
      exact ⟨behind, hbehind, .next blank plain.1.spells written⟩

end Token

/-! ## Values as tokens -/

mutual

/-- The tokens of a value. A cut is a broken token. -/
def toTokens : Json → List Token
  | null => [.null]
  | bool value => [.bool value]
  | number literal => [.number literal]
  | string text => [.string text]
  | array [] => [.openBracket, .closeBracket]
  | array (item :: items) =>
    .openBracket :: (item.toTokens ++ (itemTokens items ++ [.closeBracket]))
  | object [] => [.openBrace, .closeBrace]
  | object ((key, value) :: members) =>
    .openBrace :: .string key :: .colon ::
      (value.toTokens ++ (memberTokens members ++ [.closeBrace]))
  | cut => [.broken]

def itemTokens : List Json → List Token
  | [] => []
  | item :: items => .comma :: (item.toTokens ++ itemTokens items)

def memberTokens : List Member → List Token
  | [] => []
  | (key, value) :: members =>
    .comma :: .string key :: .colon :: (value.toTokens ++ memberTokens members)

end

/-! ### Printing -/

theorem blank_newLine (depth : Nat) : ∀ c ∈ newLine depth, Token.isSpace c = true := by
  intro c hc
  rcases List.mem_cons.mp hc with rfl | hc
  · rfl
  · rw [List.eq_of_mem_replicate hc]
    rfl

open Token in
theorem laid_key (key : Option String) {ts : List Token} {cs : List Char} (laid : Laid ts cs) :
    Laid (.string key :: .colon :: ts) (quote (key.getD "") ++ ([':', ' '] ++ cs)) := by
  have blank : ∀ c ∈ [' '], isSpace c = true := List.forall_mem_singleton.mpr rfl
  exact .word (.string key) (.word .colon (.space blank laid))

open Token in
mutual

/-- **Printing lays out the tokens of a value.** -/
theorem laid_print (depth : Nat) : ∀ (value : Json) {ts : List Token} {cs : List Char},
    Laid ts cs → Laid (value.toTokens ++ ts) (print depth value ++ cs)
  | null, _, _, laid => .word .null laid
  | bool true, _, _, laid => .word (.bool true) laid
  | bool false, _, _, laid => .word (.bool false) laid
  | number literal, _, _, laid => .word (.number literal) laid
  | string text, _, _, laid => .word (.string text) laid
  | array [], _, _, laid => .word .openBracket (.word .closeBracket laid)
  | array (item :: items), ts, cs, laid => by
      have closed := Laid.space (blank_newLine depth) (.word .closeBracket laid)
      have inner := laid_print (depth + 1) item (laid_printItems (depth + 1) items closed)
      have opened := Laid.word .openBracket (.space (blank_newLine (depth + 1)) inner)
      simpa [toTokens, print, spelling] using opened
  | object [], _, _, laid => .word .openBrace (.word .closeBrace laid)
  | object ((key, value) :: members), ts, cs, laid => by
      have closed := Laid.space (blank_newLine depth) (.word .closeBrace laid)
      have inner := laid_print (depth + 1) value (laid_printMembers (depth + 1) members closed)
      have opened := Laid.word .openBrace
        (.space (blank_newLine (depth + 1)) (laid_key key inner))
      simpa [toTokens, print, spelling] using opened
  | cut, _, _, laid => .word .broken laid

theorem laid_printItems (depth : Nat) : ∀ (items : List Json) {ts : List Token} {cs : List Char},
    Laid ts cs → Laid (itemTokens items ++ ts) (printItems depth items ++ cs)
  | [], _, _, laid => laid
  | item :: items, ts, cs, laid => by
      have inner := laid_print depth item (laid_printItems depth items laid)
      have next := Laid.word .comma (.space (blank_newLine depth) inner)
      simpa [itemTokens, printItems, spelling] using next

theorem laid_printMembers (depth : Nat) : ∀ (members : List Member) {ts : List Token}
    {cs : List Char}, Laid ts cs →
      Laid (memberTokens members ++ ts) (printMembers depth members ++ cs)
  | [], _, _, laid => laid
  | (key, value) :: members, ts, cs, laid => by
      have inner := laid_print depth value (laid_printMembers depth members laid)
      have next := Laid.word .comma (.space (blank_newLine depth) (laid_key key inner))
      simpa [memberTokens, printMembers, spelling] using next

end

/-! ### Reading -/

namespace Reader

theorem takeAll_append (reader : Reader) (a b : List Token) :
    reader.takeAll (a ++ b) = (reader.takeAll a).takeAll b := by
  induction a generalizing reader with
  | nil => rfl
  | cons token a ih => exact ih _

theorem takeAll_firstItem (outer : List Frame) (item : Json) (rest : List Token) :
    (firstItem outer).takeAll (item.toTokens ++ rest) =
      (value (.array [] :: outer)).takeAll (item.toTokens ++ rest) := by
  cases item with
  | array items => cases items <;> rfl
  | object members => cases members <;> rfl
  | _ => rfl

end Reader

open Reader in
mutual

/-- **The tokens of a value are read as the value.** -/
theorem takeAll_toTokens : ∀ (v : Json) (outer : List Frame), .broken ∉ v.toTokens →
    (Reader.value outer).takeAll v.toTokens = complete v outer
  | null, _, _ => rfl
  | bool _, _, _ => rfl
  | number _, _, _ => rfl
  | string _, _, _ => rfl
  | array [], _, _ => rfl
  | array (item :: items), outer, whole => by
      simp only [toTokens, List.mem_cons, List.mem_append, not_or] at whole
      obtain ⟨-, hitem, hitems, -⟩ := whole
      show (firstItem outer).takeAll (item.toTokens ++ (itemTokens items ++ [.closeBracket])) = _
      rw [takeAll_firstItem, takeAll_append, takeAll_toTokens item _ hitem, takeAll_append]
      show ((afterItem [item] outer).takeAll (itemTokens items)).takeAll [.closeBracket] = _
      rw [takeAll_itemTokens items _ outer hitems]
      show complete (.array (items.reverse ++ [item]).reverse) outer = _
      simp
  | object [], _, _ => rfl
  | object ((name, v) :: members), outer, whole => by
      simp only [toTokens, List.mem_cons, List.mem_append, not_or] at whole
      obtain ⟨-, -, -, hvalue, hmembers, -⟩ := whole
      show (Reader.value (.object [] name :: outer)).takeAll
        (v.toTokens ++ (memberTokens members ++ [.closeBrace])) = _
      rw [takeAll_append, takeAll_toTokens v _ hvalue, takeAll_append]
      show ((afterMember [(name, v)] outer).takeAll (memberTokens members)).takeAll
        [.closeBrace] = _
      rw [takeAll_memberTokens members _ outer hmembers]
      show complete (.object (members.reverse ++ [(name, v)]).reverse) outer = _
      simp
  | cut, _, whole => absurd List.mem_cons_self whole

theorem takeAll_itemTokens : ∀ (items before : List Json) (outer : List Frame),
    .broken ∉ itemTokens items →
      (afterItem before outer).takeAll (itemTokens items) =
        afterItem (items.reverse ++ before) outer
  | [], _, _, _ => rfl
  | item :: items, before, outer, whole => by
      simp only [itemTokens, List.mem_cons, List.mem_append, not_or] at whole
      obtain ⟨-, hitem, hitems⟩ := whole
      show (Reader.value (.array before :: outer)).takeAll (item.toTokens ++ itemTokens items) = _
      rw [takeAll_append, takeAll_toTokens item _ hitem]
      show (afterItem (item :: before) outer).takeAll (itemTokens items) = _
      rw [takeAll_itemTokens items _ outer hitems]
      simp

theorem takeAll_memberTokens : ∀ (members before : List Member) (outer : List Frame),
    .broken ∉ memberTokens members →
      (afterMember before outer).takeAll (memberTokens members) =
        afterMember (members.reverse ++ before) outer
  | [], _, _, _ => rfl
  | (name, v) :: members, before, outer, whole => by
      simp only [memberTokens, List.mem_cons, List.mem_append, not_or] at whole
      obtain ⟨-, -, -, hvalue, hmembers⟩ := whole
      show (Reader.value (.object before name :: outer)).takeAll
        (v.toTokens ++ memberTokens members) = _
      rw [takeAll_append, takeAll_toTokens v _ hvalue]
      show (afterMember ((name, v) :: before) outer).takeAll (memberTokens members) = _
      rw [takeAll_memberTokens members _ outer hmembers]
      simp

end

/-! ### Tokens that touch -/

section Values

open Token

theorem follow_itemTokens (items : List Json) {ts : List Token} (follow : Follow ts) :
    Follow (itemTokens items ++ ts) := by
  cases items with
  | nil => exact follow
  | cons item items => exact .cons rfl _

theorem follow_memberTokens (members : List Member) {ts : List Token} (follow : Follow ts) :
    Follow (memberTokens members ++ ts) := by
  cases members with
  | nil => exact follow
  | cons member members => exact .cons rfl _

mutual

/-- In the tokens of a value no two numbers touch. -/
theorem separate_toTokens : ∀ (value : Json) {ts : List Token}, Follow ts → Separate ts →
    Separate (value.toTokens ++ ts)
  | null, _, _, behind => .cons rfl behind
  | bool _, _, _, behind => .cons rfl behind
  | number _, _, follow, behind => ⟨fun _ => follow, behind⟩
  | string _, _, _, behind => .cons rfl behind
  | array [], _, _, behind => .cons rfl (.cons rfl behind)
  | array (item :: items), ts, _, behind => by
      have closed : Separate (.closeBracket :: ts) := .cons rfl behind
      have inner := separate_itemTokens items (.cons rfl ts) closed
      have first := separate_toTokens item (follow_itemTokens items (.cons rfl ts)) inner
      have opened : Separate (.openBracket :: _) := .cons rfl first
      simpa [toTokens] using opened
  | object [], _, _, behind => .cons rfl (.cons rfl behind)
  | object ((key, value) :: members), ts, _, behind => by
      have closed : Separate (.closeBrace :: ts) := .cons rfl behind
      have inner := separate_memberTokens members (.cons rfl ts) closed
      have first := separate_toTokens value (follow_memberTokens members (.cons rfl ts)) inner
      have opened : Separate (.openBrace :: .string key :: .colon :: _) :=
        .cons rfl (.cons rfl (.cons rfl first))
      simpa [toTokens] using opened
  | cut, _, _, behind => .cons rfl behind

theorem separate_itemTokens : ∀ (items : List Json) {ts : List Token}, Follow ts → Separate ts →
    Separate (itemTokens items ++ ts)
  | [], _, _, behind => behind
  | item :: items, ts, follow, behind => by
      have inner := separate_itemTokens items follow behind
      have first := separate_toTokens item (follow_itemTokens items follow) inner
      have next : Separate (.comma :: _) := .cons rfl first
      simpa [itemTokens] using next

theorem separate_memberTokens : ∀ (members : List Member) {ts : List Token}, Follow ts →
    Separate ts → Separate (memberTokens members ++ ts)
  | [], _, _, behind => behind
  | (key, value) :: members, ts, follow, behind => by
      have inner := separate_memberTokens members follow behind
      have first := separate_toTokens value (follow_memberTokens members follow) inner
      have next : Separate (.comma :: .string key :: .colon :: _) :=
        .cons rfl (.cons rfl (.cons rfl first))
      simpa [memberTokens] using next

end

end Values

/-! ### Texts -/

def Written (value : Json) (text : String) : Prop :=
  ∃ space, (∀ c ∈ space, Token.isSpace c = true) ∧
    Token.Written space value.toTokens text.toList

theorem tokens_blank {space : List Char} (blank : ∀ c ∈ space, Token.isSpace c = true) :
    Token.tokens space = [] := by
  have nothing := Token.tokens_space blank []
  rwa [List.append_nil, Token.tokens] at nothing

/-- **However a value is written, it is read.** -/
theorem read_of_written {value : Json} {text : String} (written : Written value text) :
    read text = ⟨value, true⟩ := by
  obtain ⟨space, blank, written⟩ := written
  have separate : Token.Separate (value.toTokens ++ []) := separate_toTokens value nofun trivial
  rw [List.append_nil] at separate
  have ends : Token.Ends space := by
    have none : Token.Ends [] := nofun
    rw [← List.append_nil space]
    exact Token.ends_space blank none
  rw [read, Token.tokens_of_written written separate fun _ _ _ => ends, tokens_blank blank,
    List.append_nil, takeAll_toTokens value [] written.broken_notMem]
  rfl

/-- A value without numbers, whose strings are texts. -/
def Plain (value : Json) : Prop := ∀ token ∈ value.toTokens, token.Plain

/-- **White space does not matter.** A text of the tokens of a value is read as the value. -/
theorem read_of_laid {value : Json} (plain : value.Plain) {text : String}
    (laid : Token.Laid value.toTokens text.toList) : read text = ⟨value, true⟩ :=
  read_of_written (laid.written plain)

theorem laid_pretty (value : Json) : Token.Laid value.toTokens value.pretty.toList := by
  have nothing : Token.Laid [] [] := .done nofun
  have laid := laid_print 0 value nothing
  rwa [List.append_nil, List.append_nil, ← String.toList_ofList (l := print 0 value)] at laid

def compact (value : Json) : String := String.ofList (value.toTokens.flatMap Token.spelling)

theorem laid_compact (value : Json) : Token.Laid value.toTokens value.compact.toList := by
  rw [compact, String.toList_ofList]
  induction value.toTokens with
  | nil => exact .done nofun
  | cons token tokens ih => exact .word token ih

end LateMarkup.Json
