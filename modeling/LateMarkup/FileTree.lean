import LateMarkup.FileAccess
import Std.Data.ExtTreeMap

/-! # File trees

A file tree as a value: what stands in each location below the root, and the present directory. A
path is walked step by step, from the root if it starts with a slash and from the present directory
otherwise. Every step has to start in a directory. Above the root there is the root itself.
-/

namespace LateMarkup

/-- What stands in a location. -/
inductive FileTree.Entry where
  | file (bytes : ByteArray)
  | directory

/-- The files and directories below the root, each under the names that lead to it. -/
structure FileTree where
  entries : Std.ExtTreeMap (List String) FileTree.Entry := ∅
  /-- The present directory. -/
  cwd : List String := []

namespace FileTree

def entry? (tree : FileTree) (location : List String) : Option Entry :=
  if location.isEmpty then some .directory else tree.entries[location]?

def isDirectory (tree : FileTree) (location : List String) : Bool :=
  match tree.entry? location with
  | some .directory => true
  | _ => false

/-! ## Paths -/

/-- The steps of a path, which are what stands between its slashes. `step` is the one that has been
begun, in reverse. -/
def stepsFrom (step : List Char) : List Char → List String
  | [] => [String.ofList step.reverse]
  | c :: cs =>
    if c = '/' then String.ofList step.reverse :: stepsFrom [] cs else stepsFrom (c :: step) cs

def steps (path : String) : List String := stepsFrom [] path.toList

/-- The location to which steps lead from another location. Nothing needs to exist there, but all
locations before it have to be directories. -/
def walk? (tree : FileTree) (location : List String) : List String → Option (List String)
  | [] => some location
  | step :: steps =>
    if !tree.isDirectory location then none
    else if step = "" ∨ step = "." then tree.walk? location steps
    else if step = ".." then tree.walk? location.dropLast steps
    else tree.walk? (location ++ [step]) steps

/-- The location to which a path leads. The empty path leads nowhere. -/
def locate? (tree : FileTree) (path : String) : Option (List String) :=
  match path.toList with
  | [] => none
  | '/' :: _ => tree.walk? [] (steps path)
  | _ => tree.walk? tree.cwd (steps path)

def find? (tree : FileTree) (path : String) : Option Entry :=
  (tree.locate? path).bind tree.entry?

def text? (tree : FileTree) (path : String) : Option String :=
  match tree.find? path with
  | some (.file bytes) => String.fromUTF8? bytes
  | _ => none

/-! ## Changes -/

/-- The tree with a text as the content of a file, which is made if it is missing. The location must
not be a directory, and has to be in one. -/
def write? (tree : FileTree) (path text : String) : Option FileTree := do
  let location ← tree.locate? path
  if tree.isDirectory location || !tree.isDirectory location.dropLast then none
  else some { tree with entries := tree.entries.insert location (.file text.toUTF8) }

/-- Access to the files of a tree, which changes as files are written. -/
def access : FileAccess (StateM FileTree) where
  isFile path := return match (← get).find? path with
    | some (.file _) => true
    | _ => false
  readText path := return (← get).text? path
  writeText path text := do
    match (← get).write? path text with
    | some tree =>
      set tree
      return true
    | none => return false

end FileTree

end LateMarkup
