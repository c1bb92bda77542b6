import LateMarkup.Proofs.JsonReading

/-!
# Texts that are known up to a key

How a text goes on decides much about its value, and perhaps it does not go on as JSON at all. But
whatever was read stays read. `Reader.CanBe` says which values can still come of a reader, it gets
fewer with each token (`Reader.canBe_take`), and in the end the value is one of them
(`canBe_read`).

A text leads to a key (`LeadsTo`) when it opens arrays and objects one inside the other, each behind
items or members that are written to their ends, and then has the key in the innermost object. So
the value of such a text has the key at that place (`lies_of_leadsTo`), whatever the text holds
behind the key.
-/

namespace LateMarkup.Json

/-! ## What can come of a reader -/

/-- A value with one that satisfies `P` where the innermost of the open brackets has its value. -/
def Under : List Frame → (Json → Prop) → Json → Prop
  | [], P => P
  | .array items :: outer, P => Under outer fun value =>
    ∃ item more, P item ∧ value = .array (items.reverse ++ item :: more)
  | .object members name :: outer, P => Under outer fun value =>
    ∃ item more, P item ∧ value = .object (members.reverse ++ (name, item) :: more)

theorem Under.mono {outer : List Frame} {P Q : Json → Prop} {whole : Json}
    (h : Under outer P whole) (hPQ : ∀ value, P value → Q value) : Under outer Q whole := by
  induction outer generalizing P Q with
  | nil => exact hPQ whole h
  | cons frame outer ih =>
      cases frame with
      | array items =>
          exact ih h fun _ ⟨item, more, hitem, shape⟩ => ⟨item, more, hPQ item hitem, shape⟩
      | object members name =>
          exact ih h fun _ ⟨item, more, hitem, shape⟩ => ⟨item, more, hPQ item hitem, shape⟩

namespace Reader

theorem under_close {P : Json → Prop} {inner : Json} (h : P inner) (outer : List Frame) :
    Under outer P (close inner outer) := by
  induction outer generalizing P inner with
  | nil => exact h
  | cons frame outer ih =>
      cases frame with
      | array items => exact ih ⟨inner, [], h, rfl⟩
      | object members name => exact ih ⟨inner, [], h, rfl⟩

/-- The values that can still come of a reader. -/
def CanBe : Reader → Json → Prop
  | value outer => Under outer fun _ => True
  | firstItem outer => Under outer fun array => ∃ items, array = .array items
  | afterItem items outer => Under outer fun array => ∃ more, array = .array (items.reverse ++ more)
  | firstKey outer => Under outer fun object => ∃ members, object = .object members
  | key members outer =>
    Under outer fun object => ∃ more, object = .object (members.reverse ++ more)
  | colon members name outer =>
    Under outer fun object =>
      ∃ value more, object = .object (members.reverse ++ (name, value) :: more)
  | afterMember members outer =>
    Under outer fun object => ∃ more, object = .object (members.reverse ++ more)
  | done whole _ => (· = whole)

theorem canBe_abandon (reader : Reader) : reader.CanBe reader.abandon := by
  cases reader with
  | value outer => exact under_close trivial outer
  | firstItem outer => exact under_close ⟨_, rfl⟩ outer
  | afterItem items outer => exact under_close ⟨_, rfl⟩ outer
  | firstKey outer => exact under_close ⟨_, rfl⟩ outer
  | key members outer => exact under_close ⟨_, rfl⟩ outer
  | colon members name outer => exact under_close ⟨_, [], rfl⟩ outer
  | afterMember members outer => exact under_close ⟨_, rfl⟩ outer
  | done whole clean => rfl

variable {outer : List Frame} {whole : Json}

theorem under_of_complete {P : Json → Prop} {inner : Json} (hP : P inner)
    (h : (complete inner outer).CanBe whole) : Under outer P whole := by
  cases outer with
  | nil =>
      obtain rfl := h
      exact hP
  | cons frame outer =>
      cases frame with
      | array items =>
          have can : (afterItem (inner :: items) outer).CanBe whole := h
          show Under outer _ whole
          refine Under.mono can ?_
          rintro _ ⟨more, rfl⟩
          exact ⟨inner, more, hP, by simp⟩
      | object members name =>
          have can : (afterMember ((name, inner) :: members) outer).CanBe whole := h
          show Under outer _ whole
          refine Under.mono can ?_
          rintro _ ⟨more, rfl⟩
          exact ⟨inner, more, hP, by simp⟩

theorem under_of_takeValue {token : Token} (h : (takeValue outer token).CanBe whole) :
    Under outer (fun _ => True) whole := by
  cases token with
  | null | bool _ | number _ | string _ => exact under_of_complete trivial h
  | openBracket =>
      have can : (firstItem outer).CanBe whole := h
      exact Under.mono can fun _ _ => trivial
  | openBrace =>
      have can : (firstKey outer).CanBe whole := h
      exact Under.mono can fun _ _ => trivial
  | _ =>
      obtain rfl := h
      exact under_close trivial outer

theorem canBe_of_takeKey {members : List Member} {token : Token}
    (h : (takeKey members outer token).CanBe whole) : (key members outer).CanBe whole := by
  cases token with
  | string text =>
      have can : (colon members text outer).CanBe whole := h
      exact Under.mono can fun _ ⟨_, more, shape⟩ => ⟨_, shape⟩
  | _ =>
      obtain rfl := h
      exact canBe_abandon (key members outer)

/-- **What can come of a reader after a token could have come of it before.** -/
theorem canBe_of_take {reader : Reader} {token : Token} (h : (reader.take token).CanBe whole) :
    reader.CanBe whole := by
  unfold take at h
  split at h
  · exact under_of_takeValue h
  · exact under_of_complete ⟨[], rfl⟩ h
  · next outer _ =>
      have can : Under (.array [] :: outer) (fun _ => True) whole := under_of_takeValue h
      show Under outer _ whole
      rw [Under] at can
      exact Under.mono can fun _ ⟨item, more, _, shape⟩ => ⟨_, shape⟩
  · exact Under.mono h fun _ ⟨item, more, _, shape⟩ => ⟨_, shape⟩
  · exact under_of_complete ⟨[], by simp⟩ h
  · exact under_of_complete ⟨[], rfl⟩ h
  · exact Under.mono (canBe_of_takeKey h) fun _ ⟨more, shape⟩ => ⟨_, shape⟩
  · exact canBe_of_takeKey h
  · exact Under.mono h fun _ ⟨item, more, _, shape⟩ => ⟨item, more, shape⟩
  · exact h
  · exact under_of_complete ⟨[], by simp⟩ h
  · obtain rfl := h
    exact canBe_abandon _

theorem canBe_of_takeAll {reader : Reader} {tokens : List Token}
    (h : (reader.takeAll tokens).CanBe whole) : reader.CanBe whole := by
  induction tokens generalizing reader with
  | nil => exact h
  | cons token tokens ih => exact canBe_of_take (ih h)

end Reader

theorem canBe_read (text : String) :
    ((Reader.value []).takeAll (Token.tokens text.toList)).CanBe (read text).value := by
  unfold read
  split
  · next shape =>
      rw [shape]
      rfl
  · exact Reader.canBe_abandon _

/-! ## Ways to a key -/

/-- One step into a value: to the item behind others, or to the member behind others. -/
inductive Step where
  | item (before : List Json)
  | member (before : List Member) (key : Option String)

def itemsBefore (items : List Json) : List Token :=
  items.flatMap fun item => item.toTokens ++ [.comma]

def membersBefore (members : List Member) : List Token :=
  members.flatMap fun (key, value) => .string key :: .colon :: (value.toTokens ++ [.comma])

namespace Step

def tokens : Step → List Token
  | item before => .openBracket :: itemsBefore before
  | member before key => .openBrace :: (membersBefore before ++ [.string key, .colon])

def frame : Step → Frame
  | item before => .array before.reverse
  | member before key => .object before.reverse key

/-- A value with one that satisfies `P` at the end of a way, which starts at the outermost step. -/
def Lies : List Step → (Json → Prop) → Json → Prop
  | [], P, value => P value
  | item before :: way, P, value =>
    ∃ inner more, Lies way P inner ∧ value = .array (before ++ inner :: more)
  | member before key :: way, P, value =>
    ∃ inner more, Lies way P inner ∧ value = .object (before ++ (key, inner) :: more)

def frames (outer : List Frame) (way : List Step) : List Frame :=
  way.foldl (fun outer step => step.frame :: outer) outer

theorem under_frames {way : List Step} {outer : List Frame} {P : Json → Prop} {whole : Json}
    (h : Under (frames outer way) P whole) : Under outer (Lies way P) whole := by
  induction way generalizing outer with
  | nil => exact h
  | cons step way ih =>
      have inner : Under (step.frame :: outer) (Lies way P) whole := ih h
      cases step with
      | item before =>
          rw [frame, Under, List.reverse_reverse] at inner
          exact inner
      | member before key =>
          rw [frame, Under, List.reverse_reverse] at inner
          exact inner

end Step

/-- A text that leads along a way into an object, behind members of it, and to a key there. -/
def LeadsTo (way : List Step) (before : List Member) (key : Option String) (text : String) : Prop :=
  ∃ rest, Token.Written rest
    (way.flatMap Step.tokens ++ .openBrace :: (membersBefore before ++ [.string key])) text.toList

/-! ### Separate tokens -/

section Separate

open Token

theorem separate_itemsBefore (items : List Json) {ts : List Token} (behind : Separate ts) :
    Separate (itemsBefore items ++ ts) := by
  induction items with
  | nil => exact behind
  | cons item items ih =>
      rw [itemsBefore, List.flatMap_cons, List.append_assoc, List.append_assoc]
      exact separate_toTokens item (.cons rfl _) (.cons rfl ih)

theorem separate_membersBefore (members : List Member) {ts : List Token} (behind : Separate ts) :
    Separate (membersBefore members ++ ts) := by
  induction members with
  | nil => exact behind
  | cons member members ih =>
      have first : Separate (member.2.toTokens ++ .comma :: (membersBefore members ++ ts)) :=
        separate_toTokens member.2 (.cons rfl _) (.cons rfl ih)
      have whole : Separate (.string member.1 :: .colon :: _) := .cons rfl (.cons rfl first)
      simpa [membersBefore] using whole

theorem separate_way (way : List Step) {ts : List Token} (behind : Separate ts) :
    Separate (way.flatMap Step.tokens ++ ts) := by
  induction way with
  | nil => exact behind
  | cons step way ih =>
      rw [List.flatMap_cons, List.append_assoc]
      cases step with
      | item before => exact .cons rfl (separate_itemsBefore before ih)
      | member before key =>
          rw [Step.tokens, List.cons_append, List.append_assoc]
          exact .cons rfl (separate_membersBefore before (.cons rfl (.cons rfl ih)))

end Separate

/-! ### Reading along a way -/

namespace Reader

theorem takeAll_itemsBefore (items done : List Json) (outer : List Frame) (ts : List Token)
    (whole : .broken ∉ itemsBefore items) :
    (value (.array done :: outer)).takeAll (itemsBefore items ++ ts) =
      (value (.array (items.reverse ++ done) :: outer)).takeAll ts := by
  induction items generalizing done with
  | nil => rfl
  | cons item items ih =>
      rw [itemsBefore, List.flatMap_cons, List.mem_append, List.mem_append, not_or, not_or] at whole
      rw [itemsBefore, List.flatMap_cons, List.append_assoc, List.append_assoc, takeAll_append,
        takeAll_toTokens item _ whole.1.1]
      show (value (.array (item :: done) :: outer)).takeAll (itemsBefore items ++ ts) = _
      rw [ih _ whole.2]
      simp

theorem takeAll_membersBefore (members done : List Member) (outer : List Frame) (ts : List Token)
    (whole : .broken ∉ membersBefore members) :
    (key done outer).takeAll (membersBefore members ++ ts) =
      (key (members.reverse ++ done) outer).takeAll ts := by
  induction members generalizing done with
  | nil => rfl
  | cons member members ih =>
      obtain ⟨name, v⟩ := member
      simp only [membersBefore, List.flatMap_cons, List.mem_append, List.mem_cons, not_or] at whole
      obtain ⟨⟨-, -, hvalue, -⟩, hmembers⟩ := whole
      rw [membersBefore, List.flatMap_cons, List.append_assoc]
      show (value (.object done name :: outer)).takeAll
        ((v.toTokens ++ [.comma]) ++ (membersBefore members ++ ts)) = _
      rw [List.append_assoc, takeAll_append, takeAll_toTokens v _ hvalue]
      show (key ((name, v) :: done) outer).takeAll (membersBefore members ++ ts) = _
      rw [ih _ hmembers]
      simp

/-- Behind the opening brace members are read as they are behind a comma. -/
theorem takeAll_firstKey (members : List Member) (name : Option String) (outer : List Frame)
    (ts : List Token) (whole : .broken ∉ membersBefore members) :
    (firstKey outer).takeAll (membersBefore members ++ .string name :: ts) =
      (colon members.reverse name outer).takeAll ts := by
  have same : (firstKey outer).takeAll (membersBefore members ++ .string name :: ts) =
      (key [] outer).takeAll (membersBefore members ++ .string name :: ts) := by
    cases members <;> rfl
  rw [same, takeAll_membersBefore members [] outer _ whole, List.append_nil]
  rfl

/-- An item that does not end the array is read behind the opening bracket as behind a comma. -/
theorem takeAll_firstItem_before (items : List Json) {token : Token} (other : token ≠ .closeBracket)
    (outer : List Frame) (ts : List Token) (whole : .broken ∉ itemsBefore items) :
    (firstItem outer).takeAll (itemsBefore items ++ token :: ts) =
      (value (.array items.reverse :: outer)).takeAll (token :: ts) := by
  have same : (firstItem outer).takeAll (itemsBefore items ++ token :: ts) =
      (value (.array [] :: outer)).takeAll (itemsBefore items ++ token :: ts) := by
    cases items with
    | nil =>
        cases token with
        | closeBracket => exact absurd rfl other
        | _ => rfl
    | cons item items =>
        rw [itemsBefore, List.flatMap_cons, List.append_assoc, List.append_assoc]
        exact takeAll_firstItem outer item _
  rw [same, takeAll_itemsBefore items [] outer _ whole, List.append_nil]

theorem takeAll_step (step : Step) {token : Token} (other : token ≠ .closeBracket)
    (outer : List Frame) (ts : List Token) (whole : .broken ∉ step.tokens) :
    (value outer).takeAll (step.tokens ++ token :: ts) =
      (value (step.frame :: outer)).takeAll (token :: ts) := by
  cases step with
  | item before =>
      rw [Step.tokens, List.mem_cons, not_or] at whole
      exact takeAll_firstItem_before before other outer ts whole.2
  | member before name =>
      rw [Step.tokens, List.mem_cons, List.mem_append, not_or, not_or] at whole
      rw [Step.tokens, List.cons_append, List.append_assoc]
      exact takeAll_firstKey before name outer (.colon :: token :: ts) whole.2.1

theorem takeAll_way (way : List Step) (outer : List Frame) (ts : List Token)
    (whole : .broken ∉ way.flatMap Step.tokens) :
    (value outer).takeAll (way.flatMap Step.tokens ++ .openBrace :: ts) =
      (value (Step.frames outer way)).takeAll (.openBrace :: ts) := by
  induction way generalizing outer with
  | nil => rfl
  | cons step way ih =>
      rw [List.flatMap_cons, List.mem_append, not_or] at whole
      have opens : ∃ token behind, token ≠ Token.closeBracket ∧
          way.flatMap Step.tokens ++ .openBrace :: ts = token :: behind := by
        cases way with
        | nil => exact ⟨.openBrace, ts, nofun, rfl⟩
        | cons next way =>
            cases next with
            | item before => exact ⟨.openBracket, _, nofun, rfl⟩
            | member before name => exact ⟨.openBrace, _, nofun, rfl⟩
      obtain ⟨token, behind, other, shape⟩ := opens
      rw [List.flatMap_cons, List.append_assoc, shape, takeAll_step step other outer behind whole.1,
        ← shape, ih _ whole.2]
      rfl

end Reader

/-- **A text that leads to a key has it there**, however the text goes on. -/
theorem lies_of_leadsTo {way : List Step} {before : List Member} {key : Option String}
    {text : String} (leads : LeadsTo way before key text) :
    Step.Lies way (fun object => ∃ value more, object = .object (before ++ (key, value) :: more))
      (read text).value := by
  obtain ⟨rest, written⟩ := leads
  have inner : Token.Separate (membersBefore before ++ [.string key]) :=
    separate_membersBefore before (.cons rfl trivial)
  have object : Token.Separate (.openBrace :: _) := .cons rfl inner
  have separate := separate_way way object
  have stop : ∀ token ∈ (way.flatMap Step.tokens ++
      Token.openBrace :: (membersBefore before ++ [Token.string key])).getLast?,
      token.isNumber = true → Token.Ends rest := by
    rw [← List.cons_append, ← List.append_assoc, List.getLast?_concat]
    rintro token ⟨⟩ number
    cases number
  have whole := written.broken_notMem
  simp only [List.mem_append, List.mem_cons, not_or] at whole
  have can := canBe_read text
  rw [Token.tokens_of_written written separate stop, List.append_assoc, List.cons_append,
    Reader.takeAll_way way [] _ whole.1, List.append_assoc] at can
  have colon : (Reader.value (Step.frames [] way)).takeAll
      (.openBrace :: (membersBefore before ++ ([.string key] ++ Token.tokens rest))) =
        (Reader.colon before.reverse key (Step.frames [] way)).takeAll (Token.tokens rest) :=
    Reader.takeAll_firstKey before key _ _ whole.2.2.1
  rw [colon] at can
  have lies := Step.under_frames (Reader.canBe_of_takeAll can)
  rwa [List.reverse_reverse] at lies

end LateMarkup.Json
