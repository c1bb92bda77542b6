import LateMarkup.Attributes

/-! # Forests of markup

A forest is a row of trees. Every node has a number, by which it is found again, and is either an
element or a text. The type holds a row as its first node, the children of that node, and the rest
of the row, so that one induction reaches every node.

A text has no children of its own. Nodes that are put under a text hang below it without being part
of its markup.
-/

namespace LateMarkup

/-- What a node is, apart from its place. -/
inductive Label where
  | element (tag : String) (attributes : Attributes)
  | text (content : String)
deriving DecidableEq, Repr

namespace Label

/-- The tag of a node. Texts share a tag that no element needs. -/
def tag : Label → String
  | element tag _ => tag
  | text _ => "#text"

def attributes : Label → Attributes
  | element _ attributes => attributes
  | text _ => []

def withTag (tag : String) : Label → Label
  | element _ attributes => element tag attributes
  | text content => text content

def mapAttributes (change : Attributes → Attributes) : Label → Label
  | element tag attributes => element tag (change attributes)
  | text content => text content

end Label

/-- A row of trees: the first node, the trees below it, and the trees beside it. -/
inductive Forest where
  | nil
  | node (id : Nat) (label : Label) (children next : Forest)
deriving DecidableEq, Repr

namespace Forest

def tree (id : Nat) (label : Label) (children : Forest) : Forest := node id label children nil

def append : Forest → Forest → Forest
  | nil, after => after
  | node id label children next, after => node id label children (next.append after)

instance : Append Forest := ⟨append⟩

/-- The numbers of the nodes in a row, without those below them. -/
def row : Forest → List Nat
  | nil => []
  | node id _ _ next => id :: next.row

def ids : Forest → List Nat
  | nil => []
  | node id _ children next => id :: (children.ids ++ next.ids)

def find? (id : Nat) : Forest → Option (Label × Forest)
  | nil => none
  | node here label children next =>
    if here = id then some (label, children)
    else (children.find? id).or (next.find? id)

/-- The node above a node, in a row that itself stands below `above`. The outer option tells whether
the node is there. -/
def parent? (id : Nat) (above : Option Nat) : Forest → Option (Option Nat)
  | nil => none
  | node here _ children next =>
    if here = id then some above
    else (children.parent? id (some here)).or (next.parent? id above)

/-- Puts other trees in the place of a node, made from the node and what is below it. -/
def edit (id : Nat) (change : Label → Forest → Forest) : Forest → Forest
  | nil => nil
  | node here label children next =>
    if here = id then change label children ++ next
    else node here label (children.edit id change) (next.edit id change)

/-! ## Markup -/

def spellTextChar (c : Char) : List Char :=
  if c = '&' then "&amp;".toList
  else if c = '<' then "&lt;".toList
  else if c = '>' then "&gt;".toList
  else [c]

def spellValueChar (c : Char) : List Char :=
  if c = '&' then "&amp;".toList
  else if c = '"' then "&quot;".toList
  else [c]

def textMarkup (content : String) : String :=
  String.ofList (content.toList.flatMap spellTextChar)

def attributesMarkup : Attributes → String
  | [] => ""
  | (name, value) :: rest =>
    " " ++ name ++ "=\"" ++ String.ofList (value.toList.flatMap spellValueChar) ++ "\"" ++
      attributesMarkup rest

/-- The tags of elements that are written without a closing tag when there is nothing in them: first
those that stand in the head of a page, then those of its body. -/
def voidTags : List String :=
  ["base", "link", "meta", "area", "br", "col", "embed", "hr", "img", "input", "source", "track",
    "wbr"]

def isEmpty : Forest → Bool
  | nil => true
  | node _ _ _ _ => false

def elementMarkup (tag : String) (attributes : Attributes) (hollow : Bool) (content : String) :
    String :=
  let start := "<" ++ tag ++ attributesMarkup attributes
  if hollow && voidTags.contains tag then start ++ "/>"
  else start ++ ">" ++ content ++ "</" ++ tag ++ ">"

def markup : Forest → String
  | nil => ""
  | node _ (.text content) _ next => textMarkup content ++ next.markup
  | node _ (.element tag attributes) children next =>
    elementMarkup tag attributes children.isEmpty children.markup ++ next.markup

end Forest

end LateMarkup
