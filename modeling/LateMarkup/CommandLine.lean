import LateMarkup.CommandLine.Arguments
import LateMarkup.FileAccess
import LateMarkup.Registry.Json
import LateMarkup.Resolution

/-! # The command line

The program resolves a serialized document against a registry, or shows the run-time keys of a name.
Everything that can fail comes before the one file is written and before anything is printed. How
arguments are read, and what help says, is a matter of the surroundings; `parse` is the reading that
the program has.
-/

namespace LateMarkup.CommandLine

/-- What a run of the program leaves, apart from files. -/
structure Outcome where
  status : Nat
  output : String := ""
  /-- The failure that is reported on standard error. -/
  failure : Option Error := none
  /-- The refs about whose unused code standard error warns. -/
  unconsumed : List Ref := []
deriving DecidableEq

def misused : Outcome where
  status := 2

def noCommand : Outcome where
  status := 1

def failed (error : Error) : Outcome where
  status := 2
  failure := some error

/-! ## Output -/

def bold (color : Bool) (text : String) : String :=
  if color then "\x1b[1m" ++ text ++ "\x1b[0m" else text

def green (color : Bool) (text : String) : String :=
  if color then "\x1b[32m" ++ text ++ "\x1b[39m" else text

def padded (width : Nat) (text : String) : String :=
  text ++ String.ofList (List.replicate (width - text.length) ' ')

def keyLine (settings : Settings) (use key : String) : String :=
  padded 8 use ++ " " ++ padded 28 key ++ " " ++ settings.dataExpr key ++ "\n"

def keyTable (settings : Settings) (color : Bool) (ref : Ref) (name : String)
    (subject : RuntimeKey.Subject) : String :=
  bold color (ref.text ++ " " ++ name) ++ "\n" ++
    keyLine settings "default" (RuntimeKey.value ref subject name) ++
    keyLine settings "delete" (RuntimeKey.deletion ref subject name)

def withLineBreak (text : String) : String :=
  if text.toList.getLast? = some '\n' then text else text ++ "\n"

/-! ## Commands -/

variable {m : Type → Type} [Monad m]

def keys (files : FileAccess m) (path : Option String) (color : Bool) (refText name : String)
    (forClass : Bool) : m Outcome := do
  match ← Settings.load files path with
  | .error error => return failed error
  | .ok settings =>
    match Ref.read refText with
    | .error problem => return failed (.invalid problem)
    | .ok ref =>
      let subject := if forClass then RuntimeKey.Subject.cssClass else .attribute
      return { status := 0, output := keyTable settings color ref name subject }

/-- The document and the registry in two files. The settings of the directory have to be valid,
though nothing in them is used. -/
def loadDocument (files : FileAccess m) (path : Option String) (input registryPath : String) :
    m (Except Error (String × Registry)) := do
  match ← Settings.load files path with
  | .error error => return .error error
  | .ok _ =>
    match ← files.read input with
    | .error error => return .error error
    | .ok text =>
      match ← files.read registryPath with
      | .error error => return .error error
      | .ok json => return (Registry.read json).map fun registry => (text, registry)

/-- Puts resolved code where it belongs: into a file, or onto standard output. -/
def deliver (files : FileAccess m) (color : Bool) (input : String) (output : Option String)
    (resolution : Resolution) : m Outcome := do
  match output with
  | none =>
    return { status := 0, output := withLineBreak resolution.code,
             unconsumed := resolution.unconsumed }
  | some target =>
    if ← files.writeText target resolution.code then
      return {
        status := 0
        output := green color "resolved" ++ " " ++ input ++ " -> " ++ target ++ "\n"
        unconsumed := resolution.unconsumed }
    else
      return { failed .fileAccess with unconsumed := resolution.unconsumed }

def resolve (files : FileAccess m) (path : Option String) (color : Bool)
    (input registryPath : String) (output : Option String) : m Outcome := do
  match ← loadDocument files path input registryPath with
  | .error error => return failed error
  | .ok (text, registry) =>
    match registry.resolve text with
    | .error error => return failed error
    | .ok resolution => deliver files color input output resolution

/-- Runs the program. `color` says whether its surroundings allow colors. -/
def run (files : FileAccess m) (manual : Topic → String)
    (parser : List String → Except Halt Invocation) (color : Bool) (args : List String) :
    m Outcome := do
  match parser args with
  | .error .refused => return misused
  | .error (.shown topic) => return { status := 0, output := manual topic }
  | .ok ⟨_, _, none⟩ => return noCommand
  | .ok ⟨path, noColor, some (.keys ref name forClass)⟩ =>
    keys files path (color && !noColor) ref name forClass
  | .ok ⟨path, noColor, some (.resolve input registryPath output)⟩ =>
    resolve files path (color && !noColor) input registryPath output

end LateMarkup.CommandLine
