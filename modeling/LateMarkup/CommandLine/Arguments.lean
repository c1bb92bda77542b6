/-! # Command-line arguments

Arguments are options and words. An option is written as two hyphens and its name, or as one hyphen
and its letter; letters can share a hyphen. The value of an option stands behind an equals sign,
behind the letter, or in the next argument, which then must not look like an option itself. Two
hyphens alone turn all that follows into words, and one hyphen alone is a word.

The program has options of its own and commands with further options. The options of the program can
stand before and behind the command; those behind it count more. The program and each command also
have options that ask for help, and the program has one that asks for its version.

Arguments are read from left to right, and the first one that is wrong or asks for a text decides. A
value that stands in an argument of its own is looked at when the next option or word comes. The
name of a command is not such a word: what stands behind it is read first.
-/

namespace LateMarkup.CommandLine

/-- The texts that can be asked for. -/
inductive Topic where
  | help (command : Option String) (long : Bool)
  | version
deriving DecidableEq, Repr

/-- Why arguments are not carried out. -/
inductive Halt where
  | refused
  | shown (topic : Topic)
deriving DecidableEq, Repr

inductive OptionKind where
  | flag
  | value
  | help
  | version
deriving DecidableEq, Repr

structure KnownOption where
  name : String
  letter : Option Char
  kind : OptionKind
deriving DecidableEq, Repr

/-- What can stand behind the name of the program, or behind that of a command. -/
structure Grammar where
  /-- The command, if it is not the program itself. -/
  command : Option String
  options : List KnownOption
  /-- How many words there can be. A word of the program is a command. -/
  words : Nat
  /-- Whether words are paths, which must not be empty. -/
  paths : Bool
deriving DecidableEq, Repr

/-- What has been read so far behind a name. -/
structure Level where
  flags : List String := []
  values : List (String × String) := []
  words : List String := []
  /-- The option whose value has to come next. -/
  awaiting : Option String := none
  /-- An option whose value has just come in an argument of its own. -/
  pending : Option (String × String) := none
deriving DecidableEq, Repr

namespace Level

def value? (level : Level) (name : String) : Option String :=
  (level.values.find? fun pair => pair.1 == name).map Prod.snd

def has (level : Level) (flag : String) : Bool := level.flags.contains flag

/-! ## Single arguments -/

/-- Takes an option with its value, which is a path. No option is given twice. -/
def addValue (level : Level) (name value : String) : Except Halt Level :=
  if value = "" ∨ (level.value? name).isSome then throw .refused
  else return { level with values := level.values ++ [(name, value)] }

/-- Comes to an end with the argument before. -/
def settle (level : Level) : Except Halt Level :=
  match level.awaiting, level.pending with
  | some _, _ => throw .refused
  | none, some (name, value) => { level with pending := none }.addValue name value
  | none, none => return level

def give (level : Level) (grammar : Grammar) (option : KnownOption) (long : Bool) :
    Except Halt Level := do
  let level ← level.settle
  match option.kind with
  | .flag =>
    if level.has option.name then throw .refused
    else return { level with flags := level.flags ++ [option.name] }
  | .value => return { level with awaiting := some option.name }
  | .help => throw (.shown (.help grammar.command long))
  | .version => throw (.shown .version)

def attach (level : Level) (option : KnownOption) (value : List Char) : Except Halt Level := do
  let level ← level.settle
  match option.kind with
  | .value => level.addValue option.name (String.ofList value)
  | _ => throw .refused

/-- Takes the letters behind a hyphen. Behind the letter of an option with a value stands the
value. -/
def takeLetters (level : Level) (grammar : Grammar) : List Char → Except Halt Level
  | [] => return level
  | c :: rest =>
    match grammar.options.find? fun option => option.letter == some c with
    | none => throw .refused
    | some option =>
      match option.kind, rest with
      | .value, '=' :: value => level.attach option value
      | .value, c :: value => level.attach option (c :: value)
      | _, rest => do (← level.give grammar option false).takeLetters grammar rest

def takeName (level : Level) (grammar : Grammar) (cs : List Char) : Except Halt Level :=
  let name := String.ofList (cs.takeWhile (· != '='))
  match grammar.options.find? fun option => option.name == name with
  | none => throw .refused
  | some option =>
    match cs.dropWhile (· != '=') with
    | [] => level.give grammar option true
    | _ :: value => level.attach option value

def takeOptions (level : Level) (grammar : Grammar) (arg : String) : Except Halt Level :=
  match arg.toList with
  | '-' :: '-' :: cs => level.takeName grammar cs
  | _ :: cs => level.takeLetters grammar cs
  | [] => throw .refused

def takeWord (level : Level) (grammar : Grammar) (word : String) : Except Halt Level := do
  let level ← level.settle
  if level.words.length = grammar.words ∨ grammar.paths ∧ word = "" then throw .refused
  else return { level with words := level.words ++ [word] }

end Level

/-- Whether an argument looks like an option: it is longer than the hyphen it starts with. -/
def looksLikeOption (arg : String) : Bool :=
  match arg.toList with
  | '-' :: _ :: _ => true
  | _ => false

/-- Reads arguments up to a command, which the program alone has. Gives the arguments from the
command on as well. -/
def scan (grammar : Grammar) (level : Level) : List String → Except Halt (Level × List String)
  | [] => return (level, [])
  | arg :: rest =>
    if arg = "--" then
      return (← rest.foldlM (fun level word => level.takeWord grammar word) level, [])
    else if looksLikeOption arg then do
      scan grammar (← level.takeOptions grammar arg) rest
    else
      match level.awaiting with
      | some name => scan grammar { level with awaiting := none, pending := some (name, arg) } rest
      | none =>
        if grammar.command.isNone then return (level, arg :: rest)
        else do scan grammar (← level.takeWord grammar arg) rest

/-! ## The program -/

inductive Command where
  | resolve (input registry : String) (output : Option String)
  | keys (ref name : String) (forClass : Bool)
deriving DecidableEq, Repr

structure Invocation where
  path : Option String
  /-- Whether output is to be plain. -/
  noColor : Bool
  command : Option Command
deriving DecidableEq, Repr

/-- The options that can stand before and behind the command. A verbose run leaves the same as any
other. -/
def globalOptions : List KnownOption :=
  [⟨"path", some 'p', .value⟩, ⟨"verbose", some 'v', .flag⟩, ⟨"no-color", none, .flag⟩,
    ⟨"help", some 'h', .help⟩]

def programGrammar : Grammar where
  command := none
  options := ⟨"version", some 'V', .version⟩ :: globalOptions
  words := 0
  paths := false

def resolveGrammar : Grammar where
  command := some "resolve"
  options := [⟨"registry", some 'r', .value⟩, ⟨"output", some 'o', .value⟩] ++ globalOptions
  words := 1
  paths := true

def keysGrammar : Grammar where
  command := some "keys"
  options := ⟨"class", none, .flag⟩ :: globalOptions
  words := 2
  paths := false

def grammarOf? (command : String) : Option Grammar :=
  if command = "resolve" then some resolveGrammar
  else if command = "keys" then some keysGrammar
  else none

def helpOn : List String → Halt
  | [] => .shown (.help none true)
  | [name] =>
    if name = "help" ∨ (grammarOf? name).isSome then .shown (.help (some name) true) else .refused
  | _ => .refused

def commandOf (name : String) (level : Level) : Except Halt Command :=
  match name, level.words with
  | "resolve", [input] =>
    match level.value? "registry" with
    | some registry => return .resolve input registry (level.value? "output")
    | none => throw .refused
  | "keys", [ref, name] => return .keys ref name (level.has "class")
  | _, _ => throw .refused

/-- What the arguments of the program say, if it is to be carried out. -/
def parse (args : List String) : Except Halt Invocation := do
  let (outer, command) ← scan programGrammar {} args
  match command with
  | [] =>
    let outer ← outer.settle
    return ⟨outer.value? "path", outer.has "no-color", none⟩
  | "help" :: names => throw (helpOn names)
  | name :: rest =>
    match grammarOf? name with
    | none => throw .refused
    | some grammar =>
      let (inner, _) ← scan grammar {} rest
      let inner ← inner.settle
      let command ← commandOf name inner
      let outer ← outer.settle
      return ⟨(inner.value? "path").or (outer.value? "path"),
        outer.has "no-color" || inner.has "no-color", some command⟩

end LateMarkup.CommandLine
