import LateMarkup.Proofs.AttributeMeaning
import LateMarkup.Proofs.ClassEmission

/-!
# What the code of classes means

The code of a class is a piece of the template literal that holds the classes of an element. It
reads one key of the run-time data, and what the data has under any other key does not matter to it.
Which key that is can be told from the text alone (`ClassTree.eq_of_text`).

The key is made from the label of the class, and a label keeps no more of a name than letters,
digits and underscores. So two classes of one element share a key exactly if they are overridden in
the same way and have one label, as `w-1/2` and `w-12` do (`Fragment.two_classes_one_key`). Classes
with labels of their own do not touch each other (`Fragment.classes_apart`).
-/

namespace LateMarkup.Jsx

/-! ## Pieces of a class list -/

/-- One class in a template literal of classes. -/
inductive ClassTree where
  /-- What the run-time data has under a key, if anything: `${d.key || ''}`. -/
  | created (key : List Char)
  /-- A fixed class, unless the flag under a key is set: `${d.key ? '' : 'name'}`. -/
  | kept (key body : List Char)
deriving DecidableEq, Repr

namespace ClassTree

def key : ClassTree → List Char
  | created key => key
  | kept key _ => key

def behind : ClassTree → List Char
  | created _ => [' ', '|', '|', ' ', '\'', '\'', '\x7d']
  | kept _ body =>
    ' ' :: '?' :: ' ' :: '\'' :: '\'' :: ' ' :: ':' :: ' ' :: '\'' :: (body ++ ['\'', '\x7d'])

def text (settings : Settings) (tree : ClassTree) : List Char :=
  '$' :: '\x7b' :: (settings.dataObject.toList ++ '.' :: (tree.key ++ tree.behind))

/-- A class with a proper key, and with a literal that is closed by the quote after it. -/
def WellFormed (tree : ClassTree) : Prop :=
  (∀ c ∈ tree.key, RuntimeKey.isLabelChar c = true) ∧
    match tree with
    | created _ => True
    | kept _ body => Literal.isBody body = true

/-- A way to read a code. -/
def Reads (settings : Settings) (code : String) (tree : ClassTree) : Prop :=
  tree.WellFormed ∧ tree.text settings = code.toList

variable {a b : ClassTree} {settings : Settings}

theorem endsKey_behind (tree : ClassTree) : Expression.EndsKey tree.behind := by
  cases tree <;> exact Expression.endsKey_blank _

/-- **One reading.** Two classes with one text are the same. -/
theorem eq_of_text (ha : a.WellFormed) (hb : b.WellFormed)
    (same : a.text settings = b.text settings) : a = b := by
  have keyed : a.key ++ a.behind = b.key ++ b.behind :=
    (List.cons.inj (List.append_cancel_left (List.cons.inj (List.cons.inj same).2).2)).2
  obtain ⟨keys, rest⟩ :=
    eq_of_append_stop ha.1 hb.1 a.endsKey_behind b.endsKey_behind keyed
  cases a with
  | created k =>
      cases b with
      | created l => exact congrArg created keys
      | kept l n => cases (List.cons.inj (List.cons.inj rest).2).1
  | kept k m =>
      cases b with
      | created l => cases (List.cons.inj (List.cons.inj rest).2).1
      | kept l n =>
          simp only [behind, List.cons.injEq, true_and] at rest
          obtain ⟨bodies, -⟩ := Literal.eq_of_body ha.2 hb.2 rest
          exact congrArg₂ kept keys bodies

/-! ## At run time -/

variable {V : Type} (runtime : Runtime V)

/-- The class that is there at run time; the empty text is none. There is no value if the literal
has none. -/
def outcome : ClassTree → Option (Outcome V)
  | created key =>
    let chosen := runtime.data (String.ofList key)
    some (if runtime.truthy chosen then .data chosen else .text "")
  | kept key body =>
    (Literal.value? body).map fun name =>
      .text (if runtime.truthy (runtime.data (String.ofList key)) then "" else String.ofList name)

theorem outcome_congr {tree : ClassTree} {before now : Runtime V}
    (truthy : now.truthy = before.truthy)
    (data : now.data (String.ofList tree.key) = before.data (String.ofList tree.key)) :
    tree.outcome now = tree.outcome before := by
  cases tree with
  | created key =>
      rw [ClassTree.key] at data
      rw [outcome, outcome, truthy, data]
  | kept key body =>
      rw [ClassTree.key] at data
      rw [outcome, outcome, truthy, data]

end ClassTree

def Runtime.set {V : Type} (runtime : Runtime V) (key : String) (value : V) : Runtime V :=
  { runtime with data := fun other => if other = key then value else runtime.data other }

theorem Runtime.data_set_of_ne {V : Type} (runtime : Runtime V) {changed : String} (value : V)
    {key : List Char} (other : key ≠ changed.toList) :
    (runtime.set changed value).data (String.ofList key) = runtime.data (String.ofList key) := by
  apply if_neg
  rintro rfl
  exact other String.toList_ofList.symm

theorem ClassTree.outcome_set {V : Type} {tree : ClassTree} {changed : String}
    (other : tree.key ≠ changed.toList) (runtime : Runtime V) (value : V) :
    tree.outcome (runtime.set changed value) = tree.outcome runtime :=
  outcome_congr rfl (runtime.data_set_of_ne value other)

end LateMarkup.Jsx

namespace LateMarkup

/-! ## The code of a class -/

open Jsx in
def ClassOverride.outcome {V : Type} (runtime : Runtime V) (ref : Ref) (name : String) :
    ClassOverride → Outcome V
  | .create =>
    let chosen := runtime.data (RuntimeKey.value ref .cssClass name)
    if runtime.truthy chosen then .data chosen else .text ""
  | .delete =>
    let removed := runtime.truthy (runtime.data (RuntimeKey.deletion ref .cssClass name))
    .text (if removed then "" else name)

/-- What the key is about that the override of a class goes by. -/
def ClassOverride.topic (name : String) : ClassOverride → RuntimeKey.Topic
  | .create => .value .cssClass (RuntimeKey.label name).toList
  | .delete => .deletion .cssClass (RuntimeKey.label name).toList

namespace Fragment

variable {settings : Settings} {ref : Ref} {name : String} {action : ClassOverride}

def classTree (ref : Ref) (name : String) (action : ClassOverride) : Jsx.ClassTree :=
  match action with
  | .create => .created (RuntimeKey.value ref .cssClass name).toList
  | .delete =>
    .kept (RuntimeKey.deletion ref .cssClass name).toList (Jsx.Literal.encode '\'' name.toList)

theorem text_classTree (settings : Settings) (ref : Ref) (name : String) (action : ClassOverride) :
    (classTree ref name action).text settings = (ofClass settings ref name action).toList := by
  cases action <;>
    simp [classTree, ofClass, Jsx.ClassTree.text, Jsx.ClassTree.key, Jsx.ClassTree.behind,
      Settings.dataExpr, Jsx.Literal.single, Jsx.Literal.body]

theorem key_classTree :
    (classTree ref name action).key = RuntimeKey.key ref (action.topic name) := by
  cases action with
  | create => exact RuntimeKey.toList_value ref .cssClass name
  | delete => exact RuntimeKey.toList_deletion ref .cssClass name

theorem wellFormed_classTree : (classTree ref name action).WellFormed := by
  cases action with
  | create => exact ⟨(RuntimeKey.belongs_value ref .cssClass name).1, trivial⟩
  | delete =>
      exact ⟨(RuntimeKey.belongs_deletion ref .cssClass name).1, Jsx.Literal.isBody_encode _⟩

/-- The code of a class is read as the class, and as nothing else. -/
theorem reads_ofClass_iff {tree : Jsx.ClassTree} :
    tree.Reads settings (ofClass settings ref name action) ↔ tree = classTree ref name action := by
  constructor
  · rintro ⟨proper, same⟩
    rw [← text_classTree] at same
    exact Jsx.ClassTree.eq_of_text proper wellFormed_classTree same
  · rintro rfl
    exact ⟨wellFormed_classTree, text_classTree settings ref name action⟩

theorem existsUnique_reads_ofClass (settings : Settings) (ref : Ref) (name : String)
    (action : ClassOverride) :
    ∃! tree : Jsx.ClassTree, tree.Reads settings (ofClass settings ref name action) :=
  ⟨classTree ref name action, reads_ofClass_iff.mpr rfl, fun _ => reads_ofClass_iff.mp⟩

theorem outcome_classTree {V : Type} (runtime : Jsx.Runtime V) :
    (classTree ref name action).outcome runtime = some (action.outcome runtime ref name) := by
  cases action with
  | create => simp [classTree, Jsx.ClassTree.outcome, ClassOverride.outcome]
  | delete =>
      simp [classTree, Jsx.ClassTree.outcome, ClassOverride.outcome, Jsx.Literal.value?_encode]

/-! ## Classes of one element -/

/-- Classes share a key if they are overridden in the same way and have the same label. -/
theorem classKey_eq_iff {other : String} {action' : ClassOverride} :
    RuntimeKey.key ref (action.topic name) = RuntimeKey.key ref (action'.topic other) ↔
      action = action' ∧ RuntimeKey.label name = RuntimeKey.label other := by
  have proper : ∀ (action : ClassOverride) (name : String), (action.topic name).Proper := by
    intro action name
    cases action <;> exact RuntimeKey.isLower_head_label
  rw [RuntimeKey.key_inj (proper _ _) (proper _ _)]
  cases action <;> cases action' <;> simp [ClassOverride.topic, String.toList_inj]

/-- **Classes with labels of their own are kept apart.** The code of each declared class can be read
in one way only. Two of them read one key exactly if they are overridden in the same way and have
one label. If the labels differ, nothing that is set for the one, value or flag, is seen by the
other. -/
theorem classes_apart (settings : Settings) (ref : Ref) (declaration : Declaration)
    {first second code₁ code₂ : String}
    (h₁ : (first, code₁) ∈ declaration.classFragments settings ref)
    (h₂ : (second, code₂) ∈ declaration.classFragments settings ref) :
    (∃! tree : Jsx.ClassTree, tree.Reads settings code₁) ∧
    (∃! tree : Jsx.ClassTree, tree.Reads settings code₂) ∧
    ∀ tree₁ tree₂ : Jsx.ClassTree, tree₁.Reads settings code₁ → tree₂.Reads settings code₂ →
      (tree₁.key = tree₂.key ↔ declaration.classes[first]? = declaration.classes[second]? ∧
        RuntimeKey.label first = RuntimeKey.label second) ∧
      (RuntimeKey.label first ≠ RuntimeKey.label second →
        ∀ {V : Type} (runtime : Jsx.Runtime V) (value : V),
          tree₂.outcome (runtime.set (RuntimeKey.value ref .cssClass first) value) =
            tree₂.outcome runtime ∧
          tree₂.outcome (runtime.set (RuntimeKey.deletion ref .cssClass first) value) =
            tree₂.outcome runtime) := by
  obtain ⟨action₁, declared₁, rfl⟩ := Declaration.mem_classFragments.mp h₁
  obtain ⟨action₂, declared₂, rfl⟩ := Declaration.mem_classFragments.mp h₂
  refine ⟨existsUnique_reads_ofClass settings ref first action₁,
    existsUnique_reads_ofClass settings ref second action₂, ?_⟩
  intro tree₁ tree₂ reads₁ reads₂
  obtain rfl := reads_ofClass_iff.mp reads₁
  obtain rfl := reads_ofClass_iff.mp reads₂
  constructor
  · rw [key_classTree, key_classTree, classKey_eq_iff, declared₁, declared₂, Option.some_inj]
  · intro labels V runtime value
    have unread : ∀ action : ClassOverride,
        (classTree ref second action₂).key ≠ RuntimeKey.key ref (action.topic first) := by
      intro action same
      rw [key_classTree] at same
      exact labels (classKey_eq_iff.mp same).2.symm
    constructor
    · apply Jsx.ClassTree.outcome_set
      rw [RuntimeKey.toList_value]
      exact unread .create
    · apply Jsx.ClassTree.outcome_set
      rw [RuntimeKey.toList_deletion]
      exact unread .delete

/-- Run-time data of flags, none of which is set. -/
def clearFlags : Jsx.Runtime Bool where
  data _ := false
  defined _ := false
  truthy := id

/-- Two static classes, with a character in each that no label keeps. -/
def responsive : Declaration where
  classes := ((∅ : NameMap ClassOverride).insert "md:flex" .delete).insert "w-1/2" .delete

theorem classes_apart_responsive :
    ("md:flex", "$\x7bd.e0aClsdelMdflex ? '' : 'md:flex'\x7d") ∈
      responsive.classFragments {} ⟨"e0a", Ref.isValid_e0a⟩ ∧
    ("w-1/2", "$\x7bd.e0aClsdelW12 ? '' : 'w-1/2'\x7d") ∈
      responsive.classFragments {} ⟨"e0a", Ref.isValid_e0a⟩ ∧
    ∃ tree₁ tree₂ : Jsx.ClassTree,
      tree₁.Reads {} "$\x7bd.e0aClsdelMdflex ? '' : 'md:flex'\x7d" ∧
      tree₂.Reads {} "$\x7bd.e0aClsdelW12 ? '' : 'w-1/2'\x7d" ∧ tree₁.key ≠ tree₂.key ∧
      tree₂.outcome (clearFlags.set
        (RuntimeKey.deletion ⟨"e0a", Ref.isValid_e0a⟩ .cssClass "md:flex") true) =
        tree₂.outcome clearFlags := by
  have h₁ : ("md:flex", "$\x7bd.e0aClsdelMdflex ? '' : 'md:flex'\x7d") ∈
      responsive.classFragments {} ⟨"e0a", Ref.isValid_e0a⟩ := by decide
  have h₂ : ("w-1/2", "$\x7bd.e0aClsdelW12 ? '' : 'w-1/2'\x7d") ∈
      responsive.classFragments {} ⟨"e0a", Ref.isValid_e0a⟩ := by decide
  have labels : RuntimeKey.label "md:flex" ≠ RuntimeKey.label "w-1/2" := by decide
  obtain ⟨⟨tree₁, reads₁, -⟩, ⟨tree₂, reads₂, -⟩, apart⟩ :=
    classes_apart {} ⟨"e0a", Ref.isValid_e0a⟩ responsive h₁ h₂
  obtain ⟨keys, unseen⟩ := apart tree₁ tree₂ reads₁ reads₂
  exact ⟨h₁, h₂, tree₁, tree₂, reads₁, reads₂, fun same => labels (keys.mp same).2,
    (unseen labels clearFlags true).2⟩

def widths : Declaration where
  classes := ((∅ : NameMap ClassOverride).insert "w-1/2" .delete).insert "w-12" .delete

/-- Two different classes can go by one flag: whoever takes `w-1/2` away takes `w-12` away with it.
-/
theorem two_classes_one_key :
    "w-1/2" ≠ "w-12" ∧
    ("w-1/2", "$\x7bd.e0aClsdelW12 ? '' : 'w-1/2'\x7d") ∈
      widths.classFragments {} ⟨"e0a", Ref.isValid_e0a⟩ ∧
    ("w-12", "$\x7bd.e0aClsdelW12 ? '' : 'w-12'\x7d") ∈
      widths.classFragments {} ⟨"e0a", Ref.isValid_e0a⟩ ∧
    ∀ tree₁ tree₂ : Jsx.ClassTree,
      tree₁.Reads {} "$\x7bd.e0aClsdelW12 ? '' : 'w-1/2'\x7d" →
      tree₂.Reads {} "$\x7bd.e0aClsdelW12 ? '' : 'w-12'\x7d" →
      tree₁.key = tree₂.key ∧ tree₂.outcome clearFlags = some (.text "w-12") ∧
      tree₂.outcome (clearFlags.set
        (RuntimeKey.deletion ⟨"e0a", Ref.isValid_e0a⟩ .cssClass "w-1/2") true) =
        some (.text "") := by
  refine ⟨by decide, by decide, by decide, ?_⟩
  have half : ofClass {} ⟨"e0a", Ref.isValid_e0a⟩ "w-1/2" .delete =
      "$\x7bd.e0aClsdelW12 ? '' : 'w-1/2'\x7d" := by decide
  have twelve : ofClass {} ⟨"e0a", Ref.isValid_e0a⟩ "w-12" .delete =
      "$\x7bd.e0aClsdelW12 ? '' : 'w-12'\x7d" := by decide
  rw [← half, ← twelve]
  intro tree₁ tree₂ reads₁ reads₂
  rw [reads_ofClass_iff.mp reads₁, reads_ofClass_iff.mp reads₂]
  refine ⟨by decide, outcome_classTree clearFlags, ?_⟩
  rw [outcome_classTree]
  rfl

end Fragment

end LateMarkup
