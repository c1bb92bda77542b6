import LateMarkup.Settings.Toml

/-! # Access to files

The command line needs three things of a file system. They are gathered in one record, so that the
same program runs on the files of a machine and on a tree that is only a value.
-/

namespace LateMarkup

/-- What the command line needs of a file system. -/
structure FileAccess (m : Type → Type) where
  /-- Whether a path leads to a file, and not to a directory or to nothing. -/
  isFile : String → m Bool
  /-- The text of a file. There is none if the file cannot be read or is not UTF-8. -/
  readText : String → m (Option String)
  /-- Makes a text the content of a file, and tells whether that was possible. -/
  writeText : String → String → m Bool

namespace FileAccess

variable {m : Type → Type} [Monad m]

def read (files : FileAccess m) (path : String) : m (Except Error String) := do
  match ← files.readText path with
  | some text => return .ok text
  | none => return .error .fileAccess

def firstFile? (files : FileAccess m) : List String → m (Option String)
  | [] => return none
  | path :: paths => do
    if ← files.isFile path then return some path else files.firstFile? paths

end FileAccess

namespace Settings

/-- Where settings are sought, the first first. -/
def fileNames : List String := ["overrider.toml", ".overrider.toml", ".config/overrider.toml"]

/-- The path of a file below a directory, which is the present one if there is none given. -/
def below (directory : Option String) (name : String) : String :=
  match directory with
  | some directory => directory ++ "/" ++ name
  | none => name

variable {m : Type → Type} [Monad m]

def locate (files : FileAccess m) (directory : Option String) : m (Option String) :=
  files.firstFile? (fileNames.map (below directory))

def load? (files : FileAccess m) (directory : Option String) :
    m (Except Error (Option Settings)) := do
  match ← locate files directory with
  | none => return .ok none
  | some path => return (← files.read path).bind fun text => (read text).map some

/-- The settings of a directory, which are the defaults if it has no settings file. -/
def load (files : FileAccess m) (directory : Option String) : m (Except Error Settings) := do
  return (← load? files directory).map fun settings => settings.getD {}

end Settings

end LateMarkup
