import LateMarkup.Forest

/-! # Documents

A document is a forest whose nodes are numbered in the order in which they were made. Trees that
were cut out of it are kept apart: they have no place in its markup any more, but their nodes can
still be looked at and changed.

Operations take the number of a node. A number that is no node reads as an empty text, and changing
it changes nothing.

How a document is stored, with links in both directions, is described in `LateMarkup.Arena`. The
forests here are what is stored: the operations there make a document that reads in the same way.
-/

namespace LateMarkup

/-- A forest under construction. -/
structure Document where
  roots : Forest := .nil
  /-- The trees that were cut out of it. -/
  detached : Forest := .nil
  /-- How many nodes have been made. It is the number of the next one. -/
  size : Nat := 0
deriving DecidableEq

namespace Document

/-! ## Looking -/

def find? (doc : Document) (id : Nat) : Option (Label × Forest) :=
  (doc.roots.find? id).or (doc.detached.find? id)

def label (doc : Document) (id : Nat) : Label :=
  match doc.find? id with
  | some (label, _) => label
  | none => .text ""

def tag (doc : Document) (id : Nat) : String := (doc.label id).tag

def attributes (doc : Document) (id : Nat) : Attributes := (doc.label id).attributes

/-- The trees in a node, of which a text has none. -/
def content (doc : Document) (id : Nat) : Forest :=
  match doc.find? id with
  | some (.element _ _, children) => children
  | _ => .nil

def parent? (doc : Document) (id : Nat) : Option Nat :=
  ((doc.roots.parent? id none).or (doc.detached.parent? id none)).join

def children (doc : Document) (id : Nat) : List Nat := (doc.content id).row

def rootIds (doc : Document) : List Nat := doc.roots.row

def markup (doc : Document) : String := doc.roots.markup

def contentMarkup (doc : Document) (id : Nat) : String := (doc.content id).markup

def markupOf (doc : Document) (id : Nat) : String :=
  match doc.find? id with
  | some (label, children) => (Forest.tree id label children).markup
  | none => ""

/-! ## Changing -/

def edit (doc : Document) (id : Nat) (change : Label → Forest → Forest) : Document :=
  { doc with roots := doc.roots.edit id change, detached := doc.detached.edit id change }

/-- Adds a node after all other nodes in `parent`, or after all roots. -/
def add (doc : Document) (parent : Option Nat) (label : Label) : Document :=
  let child := Forest.tree doc.size label .nil
  let grown :=
    match parent with
    | none => { doc with roots := doc.roots ++ child }
    | some id => doc.edit id fun above children => Forest.tree id above (children ++ child)
  { grown with size := doc.size + 1 }

def addElement (doc : Document) (parent : Option Nat) (tag : String)
    (attributes : List (String × String)) : Document :=
  doc.add parent (.element tag (Attributes.ofList attributes))

def addText (doc : Document) (parent : Nat) (content : String) : Document :=
  doc.add (some parent) (.text content)

def relabel (doc : Document) (id : Nat) (change : Label → Label) : Document :=
  doc.edit id fun label children => Forest.tree id (change label) children

def setTag (doc : Document) (id : Nat) (tag : String) : Document :=
  doc.relabel id (Label.withTag tag)

def mapAttributes (doc : Document) (id : Nat) (change : Attributes → Attributes) : Document :=
  doc.relabel id (Label.mapAttributes change)

/-- Cuts out all that is in an element. -/
def clear (doc : Document) (id : Nat) : Document :=
  match doc.find? id with
  | some (.element _ _, children) =>
    let emptied := doc.edit id fun label _ => Forest.tree id label .nil
    { emptied with detached := emptied.detached ++ children }
  | _ => doc

def wrap (doc : Document) (id : Nat) (tag : String) : Document :=
  let wrapped := doc.edit id fun label children =>
    Forest.tree doc.size (.element tag []) (Forest.tree id label children)
  { wrapped with size := doc.size + 1 }

end Document

end LateMarkup
