import LateMarkup.CommandLine

/-! # The program

The command line on the files of a machine. Colors are on unless the variable `NO_COLOR` is set.
-/

namespace LateMarkup.Machine

def orElse {α : Type} (action : IO α) (fallback : IO.Error → α) : IO α :=
  try action catch error => return fallback error

/-- Reads the start of a file, which is not possible for a directory. -/
def probe (path : String) : IO Bool := do
  let handle ← IO.FS.Handle.mk path .read
  let _ ← handle.read 1
  return true

/-- Access to the files of the machine. A file that may not be read is a file all the same. -/
def files : FileAccess IO where
  isFile path := orElse (probe path) fun
    | .permissionDenied .. => true
    | _ => false
  readText path := orElse (return some (← IO.FS.readFile path)) fun _ => none
  writeText path text := orElse (do IO.FS.writeFile path text; return true) fun _ => false

def report (error : Error) : IO Unit := do
  IO.eprintln error.code
  for message in error.message do
    IO.eprintln message
  for help in error.help do
    IO.eprintln ("help: " ++ help)

def helpText (long : Bool) : Option String → String
  | some "resolve" =>
    "Resolve every override marker in a serialized document.\n" ++
      if long then
        "\nReads the document produced by the annotation pass together with the JSON registry " ++
        "written alongside it. Exits with status 2 when a marker has no registry entry or when " ++
        "marker text survives resolution.\n"
      else ""
  | some "keys" =>
    "Print the runtime data keys used for an overridden name.\n" ++
      if long then
        "\nShows the value key and the deletion key together with the lookup expression " ++
        "generated for each.\n"
      else ""
  | some _ => "Print this message or the help of the given subcommand(s)\n"
  | none =>
    if long then
      "overrider is the second pass of the override pipeline. The annotation pass writes " ++
      "`__OVERRIDE_*` markers into markup and records generated code in a registry. This tool " ++
      "reads the serialized markup and the registry and substitutes every marker.\n"
    else "Resolve override markers in serialized markup into runtime-conditional JSX.\n"

def manual : CommandLine.Topic → String
  | .help command long => helpText long command
  | .version => "overrider_cli 0.1.0\n"

def finish (outcome : CommandLine.Outcome) : IO UInt32 := do
  for ref in outcome.unconsumed do
    IO.eprintln ("warning: no marker was met for " ++ ref.text)
  for error in outcome.failure do
    report error
  IO.print outcome.output
  return UInt32.ofNat outcome.status

end LateMarkup.Machine

def main (args : List String) : IO UInt32 := do
  let color := (← IO.getEnv "NO_COLOR").isNone
  let outcome ← LateMarkup.CommandLine.run LateMarkup.Machine.files LateMarkup.Machine.manual
    LateMarkup.CommandLine.parse color args
  LateMarkup.Machine.finish outcome
