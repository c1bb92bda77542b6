import LateMarkup.Document

/-! # Stored documents

A document is stored as a row of slots, one for each node that was made. The number of a node is the
place of its slot. Links go both ways: an element lists the nodes in it, a document lists its roots,
and every slot names the node above. Nothing but the operations here keeps the two in step.

The slot of a node is never given up. A node that was cut out of the document has no node above it
and is in no list, and can still be looked at, changed and wrapped.
-/

namespace LateMarkup

inductive NodeData where
  | element (tag : String) (attributes : Attributes) (children : List Nat)
  | text (content : String)
deriving DecidableEq, Repr

namespace NodeData

def tag : NodeData → String
  | element tag _ _ => tag
  | text _ => "#text"

def attributes : NodeData → Attributes
  | element _ attributes _ => attributes
  | text _ => []

def children : NodeData → List Nat
  | element _ _ children => children
  | text _ => []

def mapElement (change : String → Attributes → List Nat → NodeData) : NodeData → NodeData
  | element tag attributes children => change tag attributes children
  | text content => text content

end NodeData

structure NodeSlot where
  data : NodeData
  parent : Option Nat := none
deriving DecidableEq, Repr

structure Arena where
  slots : List NodeSlot := []
  roots : List Nat := []
deriving DecidableEq, Repr

namespace Arena

/-! ## Looking -/

/-- How many nodes have been made. It is the number of the next one. -/
def size (arena : Arena) : Nat := arena.slots.length

/-- What is in the slot of a node. A number that is no node reads as an empty text. -/
def data (arena : Arena) (id : Nat) : NodeData :=
  match arena.slots[id]? with
  | some slot => slot.data
  | none => .text ""

def tag (arena : Arena) (id : Nat) : String := (arena.data id).tag

def attributes (arena : Arena) (id : Nat) : Attributes := (arena.data id).attributes

def children (arena : Arena) (id : Nat) : List Nat := (arena.data id).children

/-- The node above a node, as its slot names it. -/
def parent? (arena : Arena) (id : Nat) : Option Nat := arena.slots[id]?.bind NodeSlot.parent

/-- The markup of a node. There is none where going down does not end. -/
def markupOf? (id : Nat) (arena : Arena) : Option String :=
  match arena.data id with
  | .text content => some (Forest.textMarkup content)
  | .element tag attributes children => do
    let parts ← children.mapM arena.markupOf?
    return Forest.elementMarkup tag attributes children.isEmpty (String.join parts)
partial_fixpoint

def markupOfAll? (arena : Arena) (ids : List Nat) : Option String :=
  (ids.mapM arena.markupOf?).map String.join

def markup? (arena : Arena) : Option String := arena.markupOfAll? arena.roots

def contentMarkup? (arena : Arena) (id : Nat) : Option String :=
  arena.markupOfAll? (arena.children id)

/-! ## Changing -/

def push (arena : Arena) (data : NodeData) : Arena :=
  { arena with slots := arena.slots ++ [{ data }] }

def setParent (arena : Arena) (id : Nat) (parent : Option Nat) : Arena :=
  { arena with slots := arena.slots.modify id fun slot => { slot with parent } }

def mapElement (arena : Arena) (id : Nat) (change : String → Attributes → List Nat → NodeData) :
    Arena :=
  { arena with
    slots := arena.slots.modify id fun slot => { slot with data := slot.data.mapElement change } }

def setTag (arena : Arena) (id : Nat) (tag : String) : Arena :=
  arena.mapElement id fun _ attributes children => .element tag attributes children

def mapAttributes (arena : Arena) (id : Nat) (change : Attributes → Attributes) : Arena :=
  arena.mapElement id fun tag attributes children => .element tag (change attributes) children

def setAttribute (arena : Arena) (id : Nat) (name value : String) : Arena :=
  arena.mapAttributes id (Attributes.set name value)

def setAttributes (arena : Arena) (id : Nat) (attributes : List (String × String)) : Arena :=
  attributes.foldl (fun arena (name, value) => arena.setAttribute id name value) arena

def removeAttribute (arena : Arena) (id : Nat) (name : String) : Arena :=
  arena.mapAttributes id (Attributes.remove name)

def mapChildren (arena : Arena) (id : Nat) (change : List Nat → List Nat) : Arena :=
  arena.mapElement id fun tag attributes children => .element tag attributes (change children)

/-- Puts a new node after all other nodes in `parent`, or after all roots. -/
def attach (arena : Arena) (parent : Option Nat) (child : Nat) : Arena :=
  let named := arena.setParent child parent
  match parent with
  | some above => named.mapChildren above (· ++ [child])
  | none => { named with roots := named.roots ++ [child] }

def addElement (arena : Arena) (parent : Option Nat) (tag : String)
    (attributes : List (String × String)) : Arena :=
  let made := arena.push (.element tag [] [])
  (made.setAttributes arena.size attributes).attach parent arena.size

def addText (arena : Arena) (parent : Nat) (content : String) : Arena :=
  (arena.push (.text content)).attach (some parent) arena.size

/-- Takes the node above from each of some nodes. -/
def release (arena : Arena) (ids : List Nat) : Arena :=
  ids.foldl (fun arena id => arena.setParent id none) arena

/-- Cuts out all that is in an element. -/
def clear (arena : Arena) (id : Nat) : Arena :=
  (arena.mapChildren id fun _ => []).release (arena.children id)

/-- Puts a node into a new element. The list that has the node is found through the node above it,
and the new element takes the place of the node there. A text has no such list. -/
def wrap (arena : Arena) (id : Nat) (tag : String) : Arena :=
  let above := arena.parent? id
  let made := arena.push (.element tag [] [id])
  let named := (made.setParent arena.size above).setParent id (some arena.size)
  match above with
  | some above => named.mapChildren above (·.replace id arena.size)
  | none => { named with roots := named.roots.replace id arena.size }

end Arena

end LateMarkup
