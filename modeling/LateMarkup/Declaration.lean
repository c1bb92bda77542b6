import LateMarkup.InvalidText
import LateMarkup.NameMap

/-! # Declarations

A declaration says, at design time, which parts of one node are decided at run time. A part that is
not mentioned stays as it is written.
-/

namespace LateMarkup

/-- How an attribute or a property is decided at run time. -/
inductive AttributeOverride where
  | update
  | delete
  | updateDelete
deriving DecidableEq, Repr

namespace AttributeOverride

def text : AttributeOverride → String
  | update => "update"
  | delete => "delete"
  | updateDelete => "update-delete"

def read (word : String) : Except InvalidText AttributeOverride :=
  if word = "update" then .ok update
  else if word = "delete" then .ok delete
  else if word = "update-delete" then .ok updateDelete
  else .error (.attributeOverride word)

theorem read_text (kind : AttributeOverride) : read kind.text = .ok kind := by
  cases kind <;> simp [read, text]

end AttributeOverride

/-- What happens to a class at run time. -/
inductive ClassOverride where
  | create
  | delete
deriving DecidableEq, Repr

namespace ClassOverride

def text : ClassOverride → String
  | create => "create"
  | delete => "delete"

def read (word : String) : Except InvalidText ClassOverride :=
  if word = "create" then .ok create
  else if word = "delete" then .ok delete
  else .error (.classOverride word)

theorem read_text (action : ClassOverride) : read action.text = .ok action := by
  cases action <;> simp [read, text]

end ClassOverride

/-- What is decided at run time about one node. -/
structure Declaration where
  /-- The overridden attributes, by their structural names. -/
  attributes : NameMap AttributeOverride := ∅
  tag : Bool := false
  component : Bool := false
  inner : Bool := false
  unrender : Bool := false
  classes : NameMap ClassOverride := ∅
  properties : NameMap AttributeOverride := ∅
deriving DecidableEq

namespace Declaration

def isEmpty (d : Declaration) : Bool :=
  d.attributes.isEmpty && !d.tag && !d.component && !d.inner && !d.unrender &&
    d.classes.isEmpty && d.properties.isEmpty

end Declaration

end LateMarkup
