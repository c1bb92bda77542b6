import LateMarkup.FileTree

/-!
# What a write does to a file tree

A write changes one location and makes no directory and removes none. So every path leads where it
led before, and the path that was written now leads to its text.

Files can also be withheld: `FileTree.guarded` is the access to a tree of which some locations may
not be seen, read or written.
-/

namespace LateMarkup

theorem fromUTF8?_toUTF8 (text : String) : String.fromUTF8? text.toUTF8 = some text := by
  unfold String.fromUTF8?
  rw [String.toUTF8_eq_toByteArray, dif_pos text.isValidUTF8]
  rfl

namespace FileTree

variable {tree after : FileTree} {path text : String} {location : List String}

/-! ## Where a path leads -/

def isFile (tree : FileTree) (path : String) : Bool :=
  match tree.find? path with
  | some (.file _) => true
  | _ => false

theorem walk?_congr (same : ∀ location, after.isDirectory location = tree.isDirectory location)
    (location : List String) (steps : List String) :
    after.walk? location steps = tree.walk? location steps := by
  induction steps generalizing location with
  | nil => rfl
  | cons step steps ih => rw [walk?, walk?, same, ih, ih, ih]

theorem locate?_congr (same : ∀ location, after.isDirectory location = tree.isDirectory location)
    (cwd : after.cwd = tree.cwd) (path : String) : after.locate? path = tree.locate? path := by
  unfold locate?
  rw [cwd]
  split
  · rfl
  · exact walk?_congr same [] (steps path)
  · exact walk?_congr same tree.cwd (steps path)

theorem text?_eq_some (located : tree.locate? path = some location)
    (held : tree.entry? location = some (.file text.toUTF8)) : tree.text? path = some text := by
  rw [text?, find?, located, Option.bind_some, held]
  exact fromUTF8?_toUTF8 text

theorem ne_empty_of_text? (h : tree.text? path = some text) : path ≠ "" := by
  rintro rfl
  cases h

/-! ## Writing -/

/-- A file can be written at a path: no directory stands there, and it is in one. -/
def Writable (tree : FileTree) (path : String) : Prop :=
  ∃ location, tree.locate? path = some location ∧ tree.isDirectory location = false ∧
    tree.isDirectory location.dropLast = true

theorem Writable.ne_empty (h : tree.Writable path) : path ≠ "" := by
  rintro rfl
  obtain ⟨_, located, -⟩ := h
  cases located

/-- What a write can do, which is one thing. -/
theorem write?_eq_some_iff :
    tree.write? path text = some after ↔
      ∃ location, tree.locate? path = some location ∧ tree.isDirectory location = false ∧
        tree.isDirectory location.dropLast = true ∧
        after = { tree with entries := tree.entries.insert location (.file text.toUTF8) } := by
  simp only [write?, Option.bind_eq_bind, Option.bind_eq_some_iff, Option.ite_none_left_eq_some,
    Bool.or_eq_true, Bool.not_eq_true', not_or, Bool.not_eq_true, Bool.not_eq_false,
    Option.some.injEq, @eq_comm _ after, and_assoc]

theorem Writable.write? (h : tree.Writable path) (text : String) :
    ∃ after, tree.write? path text = some after := by
  obtain ⟨location, located, free, within⟩ := h
  exact ⟨_, write?_eq_some_iff.mpr ⟨location, located, free, within, rfl⟩⟩

theorem entry?_insert {target : List String} (free : tree.isDirectory target = false)
    (entry : Entry) (location : List String) :
    entry? { tree with entries := tree.entries.insert target entry } location =
      if location = target then some entry else tree.entry? location := by
  have nonempty : target ≠ [] := by
    rintro rfl
    cases free
  unfold entry?
  rw [Std.ExtTreeMap.getElem?_insert]
  by_cases same : location = target
  · subst same
    simp [nonempty]
  · simp [same, Std.LawfulEqCmp.compare_eq_iff_eq, Ne.symm same]

/-- A write changes no other location than the one its path leads to. -/
theorem locate?_of_changed (h : tree.write? path text = some after)
    (changed : after.entry? location ≠ tree.entry? location) :
    tree.locate? path = some location := by
  obtain ⟨target, located, free, -, rfl⟩ := write?_eq_some_iff.mp h
  rw [entry?_insert free] at changed
  split at changed
  · next same => rw [located, same]
  · exact absurd rfl changed

theorem isDirectory_write (h : tree.write? path text = some after) (location : List String) :
    after.isDirectory location = tree.isDirectory location := by
  obtain ⟨target, -, free, -, rfl⟩ := write?_eq_some_iff.mp h
  by_cases same : location = target
  · subst same
    rw [free, isDirectory, entry?_insert free, if_pos rfl]
  · rw [isDirectory, entry?_insert free, if_neg same, isDirectory]

theorem find?_write (h : tree.write? path text = some after) :
    after.find? path = some (.file text.toUTF8) := by
  have directories := isDirectory_write h
  obtain ⟨target, located, free, -, rfl⟩ := write?_eq_some_iff.mp h
  have kept := locate?_congr directories rfl path
  rw [find?, kept, located, Option.bind_some, entry?_insert free, if_pos rfl]

/-! ## Access -/

theorem run_isFile (path : String) (tree : FileTree) :
    (access.isFile path).run tree = (tree.isFile path, tree) := rfl

theorem run_readText (path : String) (tree : FileTree) :
    (access.readText path).run tree = (tree.text? path, tree) := rfl

theorem run_writeText (path text : String) (tree : FileTree) :
    (access.writeText path text).run tree =
      match tree.write? path text with
      | some after => (true, after)
      | none => (false, tree) := by
  show (match tree.write? path text with
    | some after => (do set after; return true : StateM FileTree Bool)
    | none => return false).run tree = _
  cases tree.write? path text <;> rfl

/-- What may be done in the locations of a tree. Nothing is forbidden unless it is said. -/
structure Permissions where
  see : List String → Bool := fun _ => true
  read : List String → Bool := fun _ => true
  write : List String → Bool := fun _ => true

def allows (allowed : List String → Bool) (tree : FileTree) (path : String) : Bool :=
  (tree.locate? path).all allowed

/-- Access to the files of a tree as far as it is permitted: what may not be seen is no file, what
may not be read has no text, and what may not be written stays as it is. -/
def guarded (permissions : Permissions) : FileAccess (StateM FileTree) where
  isFile path := do
    if allows permissions.see (← get) path then access.isFile path else return false
  readText path := do
    if allows permissions.read (← get) path then access.readText path else return none
  writeText path text := do
    if allows permissions.write (← get) path then access.writeText path text else return false

end FileTree

end LateMarkup
