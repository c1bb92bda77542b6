import LateMarkup.CommandLine
import LateMarkup.Proofs.FileTrees

/-!
# What a run of the program leaves

A run looks at files, and at the very end it may write one. `CommandLine.Leaves` says how a run can
end: it fails without a trace, it succeeds and has only looked, or it succeeds and the one file that
`--output` names has been written. This holds for every access to files that is honest about its
writes, so it holds whatever may not be seen, read or written
(`CommandLine.run_changes_only_output`).
-/

namespace LateMarkup

/-! ## Looking -/

section Looking

variable {σ α β : Type} {x : StateM σ α} {f : α → StateM σ β}

/-- A computation that leaves the state as it was. -/
def Quiet (x : StateM σ α) : Prop := ∀ state, (x.run state).2 = state

theorem Quiet.pure (a : α) : Quiet (pure a : StateM σ α) := fun _ => rfl

theorem Quiet.get : Quiet (get : StateM σ σ) := fun _ => rfl

theorem run_bind {a : α} {state after : σ} (h : x.run state = (a, after)) (f : α → StateM σ β) :
    (x >>= f).run state = (f a).run after := by
  rw [StateT.run_bind, h]
  rfl

theorem Quiet.run_bind (quiet : Quiet x) (f : α → StateM σ β) (state : σ) :
    (x >>= f).run state = (f (x.run state).1).run state := by
  have step : x.run state = ((x.run state).1, state) := Prod.ext rfl (quiet state)
  exact LateMarkup.run_bind step f

theorem Quiet.bind (hx : Quiet x) (hf : ∀ a, Quiet (f a)) : Quiet (x >>= f) := by
  intro state
  rw [hx.run_bind]
  exact hf _ state

end Looking

/-! ## Honest access -/

namespace FileAccess

variable {σ : Type} {files : FileAccess (StateM σ)}

/-- Access that only looks when it looks, and that has changed nothing when it tells that a write
was not possible. -/
structure Honest (files : FileAccess (StateM σ)) : Prop where
  isFile : ∀ path, Quiet (files.isFile path)
  readText : ∀ path, Quiet (files.readText path)
  refused : ∀ {path text state after},
    (files.writeText path text).run state = (false, after) → after = state

namespace Honest

theorem read (honest : files.Honest) (path : String) : Quiet (files.read path) := by
  refine (honest.readText path).bind fun text => ?_
  cases text with
  | none => exact Quiet.pure _
  | some text => exact Quiet.pure _

theorem firstFile? (honest : files.Honest) (paths : List String) :
    Quiet (files.firstFile? paths) := by
  induction paths with
  | nil => exact Quiet.pure none
  | cons path paths ih =>
      refine (honest.isFile path).bind fun found => ?_
      cases found with
      | true => exact Quiet.pure (some path)
      | false => exact ih

theorem loadSettings? (honest : files.Honest) (directory : Option String) :
    Quiet (Settings.load? files directory) := by
  refine (honest.firstFile? _).bind fun place => ?_
  cases place with
  | none => exact Quiet.pure _
  | some path => exact (honest.read path).bind fun _ => Quiet.pure _

theorem loadSettings (honest : files.Honest) (directory : Option String) :
    Quiet (Settings.load files directory) :=
  (honest.loadSettings? directory).bind fun _ => Quiet.pure _

end Honest

end FileAccess

namespace FileTree

variable {permissions : Permissions} {tree after : FileTree} {path text : String} {told : Bool}

/-- A write to a tree has been refused, or it is what the tree with that file is. -/
theorem run_guarded_writeText
    (h : ((guarded permissions).writeText path text).run tree = (told, after)) :
    told = false ∧ after = tree ∨ told = true ∧ tree.write? path text = some after := by
  change (if allows permissions.write tree path then access.writeText path text
    else pure false : StateM FileTree Bool).run tree = _ at h
  split at h
  · rw [run_writeText] at h
    split at h
    · next written =>
      cases h
      exact .inr ⟨rfl, written⟩
    · cases h
      exact .inl ⟨rfl, rfl⟩
  · cases h
    exact .inl ⟨rfl, rfl⟩

theorem guarded_honest (permissions : Permissions) : (guarded permissions).Honest where
  isFile path := Quiet.get.bind fun tree => by
    split
    · exact fun _ => rfl
    · exact Quiet.pure false
  readText path := Quiet.get.bind fun tree => by
    split
    · exact fun _ => rfl
    · exact Quiet.pure none
  refused h := by
    rcases run_guarded_writeText h with ⟨-, same⟩ | ⟨told, -⟩
    · exact same
    · cases told

end FileTree

/-! ## The ends of a run -/

namespace CommandLine

variable {σ : Type} {files : FileAccess (StateM σ)} {state : σ}

/-- How a run can end that started in a state. `target` is the file it has been told to write. -/
inductive Leaves (files : FileAccess (StateM σ)) (target : Option String) (state : σ) :
    Outcome × σ → Prop
  /-- It has failed, and nothing tells of it but the status and what standard error says. -/
  | failed {outcome : Outcome} (status : outcome.status ≠ 0) (silent : outcome.output = "") :
      Leaves files target state (outcome, state)
  /-- It has succeeded, and only looked. -/
  | looked {outcome : Outcome} (status : outcome.status = 0) :
      Leaves files target state (outcome, state)
  /-- It has succeeded, and written its target. -/
  | wrote {outcome : Outcome} {path text : String} {after : σ} (status : outcome.status = 0)
      (told : target = some path)
      (written : (files.writeText path text).run state = (true, after)) :
      Leaves files target state (outcome, after)

theorem leaves_failed (target : Option String) (error : Error) :
    Leaves files target state (failed error, state) :=
  .failed (Nat.succ_ne_zero 1) rfl

theorem keys_leaves (honest : files.Honest) (directory : Option String) (color : Bool)
    (refText name : String) (forClass : Bool) :
    Leaves files none state ((keys files directory color refText name forClass).run state) := by
  unfold keys
  rw [(honest.loadSettings directory).run_bind]
  split
  · exact leaves_failed ..
  · split
    · exact leaves_failed ..
    · exact .looked rfl

theorem loadDocument_quiet (honest : files.Honest) (directory : Option String)
    (input registryPath : String) : Quiet (loadDocument files directory input registryPath) := by
  refine (honest.loadSettings directory).bind fun settings => ?_
  cases settings with
  | error => exact Quiet.pure _
  | ok =>
      refine (honest.read input).bind fun document => ?_
      cases document with
      | error => exact Quiet.pure _
      | ok =>
          refine (honest.read registryPath).bind fun record => ?_
          cases record with
          | error => exact Quiet.pure _
          | ok => exact Quiet.pure _

theorem deliver_leaves (honest : files.Honest) (color : Bool) (input : String)
    (output : Option String) (resolution : Resolution) :
    Leaves files output state ((deliver files color input output resolution).run state) := by
  cases output with
  | none => exact .looked rfl
  | some target =>
      rcases h : (files.writeText target resolution.code).run state with ⟨written, after⟩
      unfold deliver
      dsimp only
      rw [run_bind h]
      cases written with
      | true => exact .wrote rfl rfl h
      | false =>
          cases honest.refused h
          exact .failed (Nat.succ_ne_zero 1) rfl

theorem resolve_leaves (honest : files.Honest) (directory : Option String) (color : Bool)
    (input registryPath : String) (output : Option String) :
    Leaves files output state
      ((resolve files directory color input registryPath output).run state) := by
  unfold resolve
  rw [(loadDocument_quiet honest directory input registryPath).run_bind]
  split
  · exact leaves_failed ..
  · split
    · exact leaves_failed ..
    · exact deliver_leaves honest ..

/-- The file that arguments name for the output, as they are read. -/
def outputPath? : Except Halt Invocation → Option String
  | .ok ⟨_, _, some (.resolve _ _ output)⟩ => output
  | _ => none

variable (manual : Topic → String) (parser : List String → Except Halt Invocation)

/-- A run fails without a trace, or it succeeds and has written no file but the one that
`--output` names. -/
theorem run_leaves (honest : files.Honest) (color : Bool) (args : List String) :
    Leaves files (outputPath? (parser args)) state
      ((run files manual parser color args).run state) := by
  unfold run
  rcases parser args with (_ | topic) | ⟨directory, noColor, _ | command⟩
  · have status : misused.status ≠ 0 := Nat.succ_ne_zero 1
    exact .failed status rfl
  · exact .looked rfl
  · have status : noCommand.status ≠ 0 := Nat.one_ne_zero
    exact .failed status rfl
  · cases command with
    | keys ref name forClass => exact keys_leaves honest ..
    | resolve input registryPath output => exact resolve_leaves honest ..

/-- **A failing run has no effect.** Whatever stands in the tree, whatever may not be seen, read or
written there, whatever the arguments are and however they are read: a run that fails has printed
nothing and left every location as it was, and one that succeeds has changed no location but the one
that the path behind `--output` leads to. -/
theorem run_changes_only_output (permissions : FileTree.Permissions) (manual : Topic → String)
    (parser : List String → Except Halt Invocation) (color : Bool) (args : List String)
    (tree : FileTree) :
    ∃ outcome after,
      (run (FileTree.guarded permissions) manual parser color args).run tree = (outcome, after) ∧
      ((outcome.status ≠ 0 ∧ outcome.output = "" ∧ after = tree) ∨
        (outcome.status = 0 ∧ ∀ location, after.entry? location ≠ tree.entry? location →
          ∃ target, outputPath? (parser args) = some target ∧
            tree.locate? target = some location)) := by
  have honest := FileTree.guarded_honest permissions
  have ends : Leaves (FileTree.guarded permissions) (outputPath? (parser args)) tree
      ((run (FileTree.guarded permissions) manual parser color args).run tree) :=
    run_leaves manual parser honest color args
  generalize (run (FileTree.guarded permissions) manual parser color args).run tree = result
    at ends ⊢
  cases ends with
  | failed status silent => exact ⟨_, _, rfl, .inl ⟨status, silent, rfl⟩⟩
  | looked status => exact ⟨_, _, rfl, .inr ⟨status, fun _ changed => absurd rfl changed⟩⟩
  | wrote status told written =>
      rcases FileTree.run_guarded_writeText written with ⟨refused, -⟩ | ⟨-, written⟩
      · cases refused
      · exact ⟨_, _, rfl, .inr ⟨status, fun _ changed =>
          ⟨_, told, FileTree.locate?_of_changed written changed⟩⟩⟩

end CommandLine

end LateMarkup
