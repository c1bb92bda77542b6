import Mathlib.Tactic.SplitIfs
import LateMarkup.Proofs.KeySeparation
import LateMarkup.Proofs.OutputGrammar

/-!
# What generated attributes mean

Trees of the output grammar are evaluated against the run-time data: an attribute gives the names
that it binds, each with its value. The code of an override is the text of one tree only, and that
tree binds what the kind of the override says, for all static values, whatever the run-time data
holds (`Fragment.ofAttribute_meaning`).
-/

namespace LateMarkup.Jsx

/-! ## Evaluation -/

/-- A value at run time. `V` are the values that the run-time data can hold. -/
inductive Outcome (V : Type) where
  | data (value : V)
  | text (value : String)
  | flag (value : Bool)

/-- What generated code finds at run time. -/
structure Runtime (V : Type) where
  /-- What the run-time data has under a key. -/
  data : String → V
  /-- The helper that tells whether a value is defined. -/
  defined : Outcome V → Bool
  truthy : V → Bool

variable {V : Type} (runtime : Runtime V)

/-- Whether a value counts as true; an empty text does not. -/
def Outcome.truthy : Outcome V → Bool
  | data value => runtime.truthy value
  | text value => value != ""
  | flag value => value

/-- The value of an expression. There is none if a literal has no value. -/
def Expression.eval : Expression → Option (Outcome V)
  | lookup key => some (.data (runtime.data (String.ofList key)))
  | literal body => (Literal.value? body).map fun text => .text (String.ofList text)
  | defined inner => inner.eval.map fun value => .flag (runtime.defined value)
  | not inner => inner.eval.map fun value => .flag !(value.truthy runtime)
  | group inner => inner.eval
  | choice test yes no =>
    test.eval.bind fun value => if value.truthy runtime then yes.eval else no.eval

/-- The attributes that an attribute of the code binds. A spread under a condition that does not
hold binds none. Generated code is for a JSX-like target, in which whatever is spread binds an
attribute of that name. This is not what a JavaScript engine does with the name `__proto__`, which
would set the prototype of the object that is spread and bind nothing. -/
def AttributeTree.bindings : AttributeTree → Option (List (String × Outcome V))
  | assigned name value => (value.eval runtime).map fun value => [(String.ofList name, value)]
  | spread _ test name value =>
    (test.eval runtime).bind fun holds =>
      if holds.truthy runtime then
        (Literal.value? name).bind fun name =>
          (value.eval runtime).map fun value => [(String.ofList name, value)]
      else some []

/-! ## Literals -/

namespace Literal

theorem read_spell (c : Char) (next : Option Char) (rest : List Char) :
    isBody (spell '\'' c next ++ rest) = isBody rest ∧
      value? (spell '\'' c next ++ rest) = (value? rest).map (c :: ·) := by
  have quote : '\'' ≠ backtick := by decide
  unfold spell
  split_ifs with escape feed turn interpolation closing
  · subst escape; exact ⟨rfl, rfl⟩
  · obtain ⟨rfl, -⟩ := feed; exact ⟨rfl, rfl⟩
  · obtain ⟨rfl, -⟩ := turn; exact ⟨rfl, rfl⟩
  · exact absurd interpolation.2.1 quote
  · subst closing; exact ⟨rfl, rfl⟩
  · rw [List.singleton_append, isBody_cons escape,
      value?_cons escape (fun h => feed ⟨h, quote⟩) (fun h => turn ⟨h, quote⟩)]
    simp [closing]

theorem isBody_encode (text : List Char) : isBody (encode '\'' text) = true := by
  induction text with
  | nil => rfl
  | cons c rest ih => rw [encode, (read_spell c _ _).1, ih]

/-- **Literals keep their text.** -/
theorem value?_encode (text : List Char) : value? (encode '\'' text) = some text := by
  induction text with
  | nil => rfl
  | cons c rest ih =>
      rw [encode, (read_spell c _ _).2, ih]
      rfl

/-- A text in which nothing is escaped is written as it is. -/
theorem encode_eq_self {text : List Char}
    (plain : ∀ c ∈ text, c ∉ ['\\', '\'', '\n', '\r']) : encode '\'' text = text := by
  induction text with
  | nil => rfl
  | cons c rest ih =>
      obtain ⟨first, behind⟩ := List.forall_mem_cons.mp plain
      simp only [List.mem_cons, List.not_mem_nil, or_false, not_or] at first
      obtain ⟨escape, quote, feed, turn⟩ := first
      have spelled : spell '\'' c rest.head? = [c] := by
        simp [spell, escape, quote, feed, turn, backtick]
      rw [encode, spelled, ih behind, List.singleton_append]

theorem encode_name {name : List Char} (chars : ∀ c ∈ name, Fragment.isNameChar c = true) :
    encode '\'' name = name := by
  have outside : ∀ c ∈ ['\\', '\'', '\n', '\r'], Fragment.isNameChar c = false := by decide
  refine encode_eq_self fun c mem escaped => ?_
  have other := outside c escaped
  rw [chars c mem] at other
  cases other

end Literal

/-! ## The trees of generated code -/

def IsKey (key : String) : Prop :=
  key.toList ≠ [] ∧ ∀ c ∈ key.toList, RuntimeKey.isLabelChar c = true

namespace Value

def tree : Value → Expression
  | data key => .lookup key.toList
  | literal text => .literal (Literal.encode '\'' text.toList)
  | choice key text =>
    .choice (.defined (.lookup key.toList)) (.lookup key.toList)
      (.literal (Literal.encode '\'' text.toList))

/-- The key of a value, if it has one, is one of the run-time data. -/
def WellFormed : Value → Prop
  | data key => IsKey key
  | literal _ => True
  | choice key _ => IsKey key

def outcome : Value → Outcome V
  | data key => .data (runtime.data key)
  | literal text => .text text
  | choice key text =>
    if runtime.defined (.data (runtime.data key)) then .data (runtime.data key) else .text text

theorem text_tree (value : Value) : value.tree.text = (value.render {}).toList := by
  cases value <;>
    simp [render, choose, tree, Expression.text, Settings.dataExpr, Settings.definedExpr,
      Literal.single, Literal.body]

theorem wellFormed_tree {value : Value} (wf : value.WellFormed) : value.tree.WellFormed := by
  cases value with
  | data key => exact wf
  | literal text => exact Literal.isBody_encode _
  | choice key text => exact ⟨rfl, wf, wf, Literal.isBody_encode _⟩

theorem eval_tree (value : Value) : value.tree.eval runtime = some (value.outcome runtime) := by
  cases value with
  | data key => simp [tree, Expression.eval, outcome]
  | literal text => simp [tree, Expression.eval, outcome, Literal.value?_encode]
  | choice key text =>
      simp only [tree, Expression.eval, outcome, Literal.value?_encode, Option.map_some,
        Option.bind_some, Outcome.truthy, String.ofList_toList]
      split <;> rfl

end Value

namespace Test

def tree : Test → Expression
  | defined key => .defined (.lookup key.toList)
  | kept key => .not (.lookup key.toList)

def WellFormed : Test → Prop
  | defined key => IsKey key
  | kept key => IsKey key

/-- Whether a test holds at run time. -/
def holds : Test → Bool
  | defined key => runtime.defined (.data (runtime.data key))
  | kept key => !runtime.truthy (runtime.data key)

theorem text_tree (test : Test) : test.tree.text = (test.render {}).toList := by
  cases test <;> simp [render, tree, Expression.text, Settings.dataExpr, Settings.definedExpr]

theorem wellFormed_tree {test : Test} (wf : test.WellFormed) :
    test.tree.isOperand = true ∧ test.tree.WellFormed := by
  cases test with
  | defined key => exact ⟨rfl, wf⟩
  | kept key => exact ⟨rfl, rfl, wf⟩

theorem eval_tree (test : Test) : test.tree.eval runtime = some (.flag (test.holds runtime)) := by
  cases test <;> simp [tree, Expression.eval, holds, Outcome.truthy]

end Test

namespace Attribute

def tree : Attribute → AttributeTree
  | assigned name value => .assigned name.toList value.tree
  | spread test name value => .spread false test.tree name.toList value.tree

def WellFormed : Attribute → Prop
  | assigned name value =>
    (name ≠ "" ∧ ∀ c ∈ name.toList, Fragment.isNameChar c = true) ∧ value.WellFormed
  | spread test name value =>
    (name ≠ "" ∧ ∀ c ∈ name.toList, Fragment.isNameChar c = true) ∧ test.WellFormed ∧
      value.WellFormed

def outcomes : Attribute → List (String × Outcome V)
  | assigned name value => [(name, value.outcome runtime)]
  | spread test name value => if test.holds runtime then [(name, value.outcome runtime)] else []

variable {form : Attribute}

theorem text_tree (form : Attribute) : form.tree.text = (form.render {}).toList := by
  cases form with
  | assigned name value => simp [render, tree, AttributeTree.text, Value.text_tree]
  | spread test name value =>
      simp [render, tree, AttributeTree.text, AttributeTree.guarded, Value.text_tree,
        Test.text_tree]

theorem wellFormed_tree (wf : form.WellFormed) : form.tree.WellFormed := by
  cases form with
  | assigned name value =>
      obtain ⟨⟨some, chars⟩, hvalue⟩ := wf
      refine ⟨?_, chars, Value.wellFormed_tree hvalue⟩
      exact fun h => some (String.toList_eq_nil_iff.mp h)
  | spread test name value =>
      obtain ⟨⟨-, chars⟩, htest, hvalue⟩ := wf
      refine ⟨Test.wellFormed_tree htest, ?_, Value.wellFormed_tree hvalue⟩
      rw [← Literal.encode_name chars]
      exact Literal.isBody_encode _

theorem bindings_tree (wf : form.WellFormed) :
    form.tree.bindings runtime = some (form.outcomes runtime) := by
  cases form with
  | assigned name value =>
      simp [tree, AttributeTree.bindings, Value.eval_tree, outcomes]
  | spread test name value =>
      have name? : Literal.value? name.toList = some name.toList := by
        have encoded := Literal.value?_encode name.toList
        rwa [Literal.encode_name wf.1.2] at encoded
      simp only [tree, AttributeTree.bindings, Test.eval_tree, Value.eval_tree, name?, outcomes,
        Option.bind_some, Option.map_some, Outcome.truthy, String.ofList_toList]
      split <;> rfl

/-- The code of an attribute is read as the attribute, and as nothing else. -/
theorem eq_tree_iff (wf : form.WellFormed) (tree : AttributeTree) :
    (tree.WellFormed ∧ tree.text = (form.render {}).toList) ↔ tree = form.tree := by
  constructor
  · rintro ⟨proper, same⟩
    rw [← text_tree] at same
    exact AttributeTree.eq_of_text proper (wellFormed_tree wf) same
  · rintro rfl
    exact ⟨wellFormed_tree wf, text_tree form⟩

end Attribute

end LateMarkup.Jsx

namespace LateMarkup

open Jsx in
/-- What an override of an attribute stands for. `static` is the value that the attribute has in the
markup, and `present` says whether it is there. -/
def AttributeOverride.bindings {V : Type} (runtime : Runtime V) (ref : Ref) (name static : String)
    (present : Bool) (kind : AttributeOverride) : List (String × Outcome V) :=
  let replacement : Outcome V := .data (runtime.data (RuntimeKey.value ref .attribute name))
  let replaced := runtime.defined replacement
  let removed := runtime.truthy (runtime.data (RuntimeKey.deletion ref .attribute name))
  match kind, present with
  | .update, false => if replaced then [(name, replacement)] else []
  | .update, true => [(name, if replaced then replacement else .text static)]
  | .delete, _ => if removed then [] else [(name, .text static)]
  | .updateDelete, _ =>
    if removed then [] else [(name, if replaced then replacement else .text static)]

namespace Fragment

theorem sanitize_eq_self {name : String} (chars : ∀ c ∈ name.toList, isNameChar c = true) :
    sanitize name = name := by
  rw [sanitize, List.filter_eq_self.mpr chars, String.ofList_toList]

theorem isKey_of_belongs {ref : Ref} {key : String} (h : RuntimeKey.Belongs ref key) :
    Jsx.IsKey key := by
  refine ⟨?_, h.1⟩
  intro none
  have empty := h.2
  rw [none, List.prefix_nil, Ref.toList_text] at empty
  cases empty

variable {ref : Ref} {name value : String} {present : Bool} {kind : AttributeOverride}

theorem wellFormed_attributeForm (proper : name ≠ "" ∧ ∀ c ∈ name.toList, isNameChar c = true) :
    (attributeForm ref name name value present kind).WellFormed := by
  have replacing := isKey_of_belongs (RuntimeKey.belongs_value ref .attribute name)
  have removing := isKey_of_belongs (RuntimeKey.belongs_deletion ref .attribute name)
  cases kind with
  | update =>
      cases present with
      | true => exact ⟨proper, replacing⟩
      | false => exact ⟨proper, replacing, replacing⟩
  | delete => exact ⟨proper, removing, trivial⟩
  | updateDelete => exact ⟨proper, removing, replacing⟩

theorem outcomes_attributeForm {V : Type} (runtime : Jsx.Runtime V) :
    (attributeForm ref name name value present kind).outcomes runtime =
      kind.bindings runtime ref name value present := by
  cases kind with
  | update => cases present <;> rfl
  | delete =>
      cases hremoved : runtime.truthy (runtime.data (RuntimeKey.deletion ref .attribute name)) <;>
        simp [attributeForm, Jsx.Attribute.outcomes, Jsx.Test.holds, AttributeOverride.bindings,
          Jsx.Value.outcome, hremoved]
  | updateDelete =>
      cases hremoved : runtime.truthy (runtime.data (RuntimeKey.deletion ref .attribute name)) <;>
        simp [attributeForm, Jsx.Attribute.outcomes, Jsx.Test.holds, AttributeOverride.bindings,
          Jsx.Value.outcome, hremoved]

/-- **The code of an attribute means what its override says.** With the names that the settings have
at first, the grammar reads it in one way only, and what is read binds the attribute exactly when
and to what the kind of the override says. -/
theorem ofAttribute_meaning (ref : Ref) {name : String}
    (proper : name ≠ "" ∧ ∀ c ∈ name.toList, isNameChar c = true) (value : Option String)
    (kind : AttributeOverride) (present clean : Bool) :
    (∃! tree : Jsx.AttributeTree, tree.WellFormed ∧
      tree.text = (ofAttribute {} ref name value kind present clean).toList) ∧
    ∀ tree : Jsx.AttributeTree, tree.WellFormed →
      tree.text = (ofAttribute {} ref name value kind present clean).toList →
      ∀ {V : Type} (runtime : Jsx.Runtime V), tree.bindings runtime =
        some (kind.bindings runtime ref name (value.getD "") present) := by
  have shown : (if clean then sanitize name else name) = name := by
    rw [sanitize_eq_self proper.2, ite_self]
  have wf : (attributeForm ref name name (value.getD "") present kind).WellFormed :=
    wellFormed_attributeForm proper
  have code : ofAttribute {} ref name value kind present clean =
      (attributeForm ref name name (value.getD "") present kind).render {} := by
    rw [ofAttribute, shown]
  rw [code]
  have one := Jsx.Attribute.eq_tree_iff wf
  constructor
  · exact ⟨_, (one _).mpr rfl, fun tree htree => (one tree).mp htree⟩
  · intro tree proper text V runtime
    rw [(one tree).mp ⟨proper, text⟩, Jsx.Attribute.bindings_tree runtime wf,
      outcomes_attributeForm]

def bareRuntime : Jsx.Runtime Unit where
  data _ := ()
  defined _ := false
  truthy _ := false

/-- A static value with a quote and a line break, under a name with a hyphen. -/
theorem ofAttribute_meaning_escaped :
    ("data-x" ≠ "" ∧ ∀ c ∈ "data-x".toList, isNameChar c = true) ∧
    ∃ tree : Jsx.AttributeTree, tree.WellFormed ∧
      tree.text = ("\x7b...!d.e0aAttrdelDataX && \x7b'data-x': " ++
        "DS.e(d.e0aAttrDataX) ? d.e0aAttrDataX : 'it\\'s\\n'\x7d\x7d").toList ∧
      tree.bindings bareRuntime = some [("data-x", .text "it's\n")] := by
  have proper : "data-x" ≠ "" ∧ ∀ c ∈ "data-x".toList, isNameChar c = true := by decide
  obtain ⟨⟨tree, ⟨wf, text⟩, -⟩, means⟩ :=
    ofAttribute_meaning ⟨"e0a", by decide⟩ proper (some "it's\n") .updateDelete true true
  have code : ofAttribute {} ⟨"e0a", by decide⟩ "data-x" (some "it's\n") .updateDelete true true =
      "\x7b...!d.e0aAttrdelDataX && \x7b'data-x': " ++
        "DS.e(d.e0aAttrDataX) ? d.e0aAttrDataX : 'it\\'s\\n'\x7d\x7d" := by
    decide
  rw [← code]
  exact ⟨proper, tree, wf, text, means tree wf text bareRuntime⟩

end Fragment

end LateMarkup
