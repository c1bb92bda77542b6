import LateMarkup.Ref

/-! # Run-time keys

The run-time data is one flat object, so every key has to tell on its own which node it is about,
which part of that node, and, for attributes and classes, which name and whether it replaces or
removes. A key is the ref, then a word for the part, then a label made from the name.
-/

namespace LateMarkup.RuntimeKey

/-- A character that a label keeps: an ASCII letter, a digit or an underscore. -/
def isLabelChar (c : Char) : Bool := c.isAlphanum || c == '_'

/-- The label of a name, where `fresh` says that a new word starts. A hyphen starts a new word, the
first kept character of a word is written as a capital, and all that is neither a hyphen nor a label
character is dropped. -/
def labelChars (fresh : Bool) : List Char → List Char
  | [] => []
  | c :: rest =>
    if c = '-' then labelChars true rest
    else if isLabelChar c then (if fresh then c.toUpper else c) :: labelChars false rest
    else labelChars fresh rest

/-- A name as part of a key: `data-foo` becomes `DataFoo`, and `readOnly` becomes `ReadOnly`. -/
def label (name : String) : String := String.ofList (labelChars true name.toList)

/-- What the name in a key names. -/
inductive Subject where
  | attribute
  | cssClass
deriving DecidableEq, Repr

def Subject.word : Subject → String
  | .attribute => "Attr"
  | .cssClass => "Cls"

/-- The key of the value that replaces or adds the named attribute or class. -/
def value (ref : Ref) (subject : Subject) (name : String) : String :=
  ref.text ++ subject.word ++ label name

/-- The key of the flag that removes the named attribute or class. -/
def deletion (ref : Ref) (subject : Subject) (name : String) : String :=
  ref.text ++ subject.word ++ "del" ++ label name

inductive Part where
  | tag
  | component
  | inner
  | unrender
deriving DecidableEq, Repr

def Part.word : Part → String
  | .tag => "Tag"
  | .component => "Component"
  | .inner => "Inner"
  | .unrender => "Unrender"

def part (ref : Ref) (p : Part) : String := ref.text ++ p.word

end LateMarkup.RuntimeKey
