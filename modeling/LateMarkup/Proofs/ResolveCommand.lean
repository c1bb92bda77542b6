import LateMarkup.Proofs.Commands
import LateMarkup.Proofs.RoundTrip
import LateMarkup.Proofs.Substitution

/-!
# The resolve command and resolving in memory

A document and the written text of a registry stand in files. Then the `resolve` command does with
them what `Registry.resolve` does with the document and the registry themselves
(`CommandLine.run_resolve_agrees`). The settings have to be valid, and nothing else about them
matters.
-/

namespace LateMarkup

/-! ## Reading a tree -/

namespace FileTree

variable {tree : FileTree} {path text : String} {directory : Option String}

def settingsFile? (tree : FileTree) (directory : Option String) : Option String :=
  (Settings.fileNames.map (Settings.below directory)).find? tree.isFile

/-- There is no settings file, or it holds settings. -/
def SettingsValid (tree : FileTree) (directory : Option String) : Prop :=
  ∀ path, tree.settingsFile? directory = some path →
    ∃ text settings, tree.text? path = some text ∧ Settings.read text = .ok settings

theorem run_read (h : tree.text? path = some text) :
    (access.read path).run tree = (.ok text, tree) := by
  unfold FileAccess.read
  rw [run_bind (run_readText path tree), h]
  rfl

theorem run_firstFile? (paths : List String) (tree : FileTree) :
    (access.firstFile? paths).run tree = (paths.find? tree.isFile, tree) := by
  induction paths with
  | nil => rfl
  | cons path paths ih =>
      rw [FileAccess.firstFile?, run_bind (run_isFile path tree), List.find?_cons]
      cases tree.isFile path with
      | true => rfl
      | false => exact ih

/-- Valid settings are loaded, whatever they are. -/
theorem run_loadSettings? (valid : tree.SettingsValid directory) :
    ∃ settings, (Settings.load? access directory).run tree = (.ok settings, tree) := by
  have located : (Settings.locate access directory).run tree =
      (tree.settingsFile? directory, tree) := run_firstFile? _ tree
  unfold Settings.load?
  rw [run_bind located]
  cases found : tree.settingsFile? directory with
  | none => exact ⟨none, rfl⟩
  | some path =>
      obtain ⟨text, settings, held, reads⟩ := valid path found
      refine ⟨some settings, ?_⟩
      dsimp only
      rw [run_bind (run_read held), Except.bind, reads]
      rfl

theorem run_loadSettings (valid : tree.SettingsValid directory) :
    ∃ settings, (Settings.load access directory).run tree = (.ok settings, tree) := by
  obtain ⟨settings, loaded⟩ := run_loadSettings? valid
  refine ⟨settings.getD {}, ?_⟩
  unfold Settings.load
  rw [run_bind loaded]
  rfl

end FileTree

namespace CommandLine

open FileTree

/-! ## Asking for it -/

/-- The arguments `resolve INPUT --registry REGISTRY`, with `--output FILE` behind them if there is
such a file. -/
def resolveArgs (input registryPath : String) (output : Option String) : List String :=
  ["resolve", input, "--registry", registryPath] ++
    output.elim [] fun target => ["--output", target]

section Scan

variable {grammar : Grammar} {level : Level} {arg name value : String}

theorem scan_word (plain : looksLikeOption arg = false) (free : level.awaiting = none)
    (command : grammar.command.isNone = false) (rest : List String) :
    scan grammar level (arg :: rest) =
      (level.takeWord grammar arg).bind fun level => scan grammar level rest := by
  have word : arg ≠ "--" := by
    rintro rfl
    cases plain
  rw [scan, if_neg word, if_neg (by simp [plain]), free]
  dsimp only
  rw [if_neg (by simp [command])]
  rfl

theorem scan_awaited (plain : looksLikeOption arg = false) (awaits : level.awaiting = some name)
    (rest : List String) : scan grammar level (arg :: rest) =
      scan grammar { level with awaiting := none, pending := some (name, arg) } rest := by
  have word : arg ≠ "--" := by
    rintro rfl
    cases plain
  rw [scan, if_neg word, if_neg (by simp [plain]), awaits]

theorem scan_options (proper : arg ≠ "--") (looks : looksLikeOption arg = true)
    (rest : List String) : scan grammar level (arg :: rest) =
      (level.takeOptions grammar arg).bind fun level => scan grammar level rest := by
  rw [scan, if_neg proper, if_pos looks]
  rfl

theorem addValue_of_fresh (nonempty : value ≠ "") (fresh : level.value? name = none) :
    level.addValue name value =
      .ok { level with values := level.values ++ [(name, value)] } := by
  rw [Level.addValue, if_neg]
  · rfl
  · simp [nonempty, fresh]

end Scan

variable {input registryPath : String} {output : Option String}

/-- What is read behind the command, with the last value still to be looked at. -/
def resolveLevel (input registryPath : String) : Option String → Level
  | none => { words := [input], pending := some ("registry", registryPath) }
  | some target => {
      words := [input], values := [("registry", registryPath)]
      pending := some ("output", target) }

theorem scan_resolveArgs
    (nonempty : ∀ word ∈ input :: registryPath :: output.toList, word ≠ "")
    (plain : ∀ word ∈ input :: registryPath :: output.toList, looksLikeOption word = false) :
    scan resolveGrammar {} (resolveArgs input registryPath output).tail =
      .ok (resolveLevel input registryPath output, []) := by
  obtain ⟨inputPlain, plain⟩ := List.forall_mem_cons.mp plain
  obtain ⟨registryPlain, outputPlain⟩ := List.forall_mem_cons.mp plain
  obtain ⟨inputNonempty, nonempty⟩ := List.forall_mem_cons.mp nonempty
  have word : Level.takeWord {} resolveGrammar input = .ok { words := [input] } := by
    have fits : ¬ (([] : List String).length = resolveGrammar.words ∨
        resolveGrammar.paths ∧ input = "") := by
      simp [resolveGrammar, inputNonempty]
    exact if_neg fits
  show scan resolveGrammar {} (input :: "--registry" :: registryPath :: _) = _
  rw [scan_word inputPlain rfl rfl, word]
  show scan resolveGrammar { words := [input] } ("--registry" :: registryPath :: _) = _
  have registry : Level.takeOptions { words := [input] } resolveGrammar "--registry" =
      .ok { words := [input], awaiting := some "registry" } := rfl
  rw [scan_options (by decide) (by decide), registry]
  show scan resolveGrammar { words := [input], awaiting := some "registry" }
    (registryPath :: _) = _
  rw [scan_awaited registryPlain rfl]
  cases output with
  | none => rfl
  | some target =>
      have settled : Level.settle
          { words := [input], pending := some ("registry", registryPath) } =
            .ok { words := [input], values := [("registry", registryPath)] } :=
        addValue_of_fresh (nonempty registryPath List.mem_cons_self) rfl
      have option : Level.takeOptions
          { words := [input], pending := some ("registry", registryPath) } resolveGrammar
          "--output" =
            .ok { words := [input], values := [("registry", registryPath)],
                  awaiting := some "output" } := by
        show (Level.settle _).bind _ = _
        rw [settled]
        rfl
      show scan resolveGrammar { words := [input], pending := some ("registry", registryPath) }
        ["--output", target] = _
      rw [scan_options (by decide) (by decide), option]
      exact scan_awaited (outputPlain target List.mem_cons_self) rfl []

theorem settle_resolveLevel
    (nonempty : ∀ word ∈ input :: registryPath :: output.toList, word ≠ "") :
    (resolveLevel input registryPath output).settle =
      .ok { words := [input]
            values := ("registry", registryPath) :: output.toList.map fun target =>
              ("output", target) } := by
  cases output with
  | none =>
      exact addValue_of_fresh (nonempty registryPath (List.mem_cons_of_mem _ List.mem_cons_self))
        rfl
  | some target =>
      exact addValue_of_fresh (nonempty target (by simp)) rfl

/-- The arguments are understood as they are meant, unless one of the paths looks like an option. -/
theorem parse_resolveArgs
    (nonempty : ∀ word ∈ input :: registryPath :: output.toList, word ≠ "")
    (plain : ∀ word ∈ input :: registryPath :: output.toList, looksLikeOption word = false) :
    parse (resolveArgs input registryPath output) =
      .ok ⟨none, false, some (.resolve input registryPath output)⟩ := by
  -- Before the command nothing is given, so the program's own options stay out of it.
  show (scan resolveGrammar {} (resolveArgs input registryPath output).tail).bind _ = _
  rw [scan_resolveArgs nonempty plain]
  show (resolveLevel input registryPath output).settle.bind _ = _
  rw [settle_resolveLevel nonempty]
  cases output <;> rfl

/-! ## Agreement -/

/-- A tree that holds a document, the text of a registry and valid settings, if any, and in which
the output, if it goes to a file, can be written. -/
structure Prepared (registry : Registry) (text : String) (directory : Option String)
    (input registryPath : String) (output : Option String) (tree : FileTree) : Prop where
  document : tree.text? input = some text
  recorded : tree.text? registryPath = some registry.write
  settings : tree.SettingsValid directory
  writable : ∀ target ∈ output, tree.Writable target

/-- A run leaves what resolving in memory says: it succeeds when resolving does, the code is printed
and ends its line, or the code is the content of the output file. -/
structure Agrees (registry : Registry) (text : String) (output : Option String)
    (outcome : Outcome) (after : FileTree) : Prop where
  succeeds : outcome.status = 0 ↔ ∃ resolution, registry.resolve text = .ok resolution
  fails : outcome.status ≠ 0 → outcome.status = 2
  printed : ∀ resolution, registry.resolve text = .ok resolution → output = none →
    outcome.output = resolution.code ++
      if resolution.code.toList.getLast? = some '\n' then "" else "\n"
  written : ∀ resolution, registry.resolve text = .ok resolution → ∀ target ∈ output,
    after.find? target = some (.file resolution.code.toUTF8)

variable {registry : Registry} {text : String} {directory : Option String} {tree : FileTree}

theorem Prepared.nonempty
    (prepared : Prepared registry text directory input registryPath output tree) :
    ∀ word ∈ input :: registryPath :: output.toList, word ≠ "" := by
  intro word hword
  rcases List.mem_cons.mp hword with rfl | hword
  · exact ne_empty_of_text? prepared.document
  rcases List.mem_cons.mp hword with rfl | hword
  · exact ne_empty_of_text? prepared.recorded
  · exact (prepared.writable word (Option.mem_toList.mp hword)).ne_empty

theorem Prepared.run_loadDocument
    (prepared : Prepared registry text directory input registryPath output tree) :
    (loadDocument access directory input registryPath).run tree = (.ok (text, registry), tree) := by
  obtain ⟨settings, loaded⟩ := run_loadSettings prepared.settings
  have read : Registry.read registry.write = .ok registry :=
    Registry.read_of_laid registry.toJson.laid_pretty
  unfold loadDocument
  rw [run_bind loaded]
  dsimp only
  rw [run_bind (run_read prepared.document)]
  dsimp only
  rw [run_bind (run_read prepared.recorded)]
  dsimp only
  rw [read]
  rfl

/-- The outcome that resolving in memory calls for. -/
def reply (color : Bool) (input : String) (output : Option String) :
    Except Error Resolution → Outcome
  | .error error => failed error
  | .ok resolution => {
      status := 0
      output := match output with
        | none => withLineBreak resolution.code
        | some target => green color "resolved" ++ " " ++ input ++ " -> " ++ target ++ "\n"
      unconsumed := resolution.unconsumed }

theorem run_deliver (writable : ∀ target ∈ output, tree.Writable target) (color : Bool)
    (input : String) (resolution : Resolution) :
    ∃ after, (deliver access color input output resolution).run tree =
        (reply color input output (.ok resolution), after) ∧
      ∀ target ∈ output, after.find? target = some (.file resolution.code.toUTF8) := by
  cases output with
  | none => exact ⟨tree, rfl, nofun⟩
  | some target =>
      obtain ⟨after, written⟩ := (writable target rfl).write? resolution.code
      refine ⟨after, ?_, ?_⟩
      · have step := run_writeText target resolution.code tree
        rw [written] at step
        unfold deliver
        dsimp only
        rw [run_bind step]
        rfl
      · rintro _ ⟨⟩
        exact find?_write written

theorem Prepared.run_resolve
    (prepared : Prepared registry text directory input registryPath output tree) (color : Bool) :
    ∃ after, (resolve access directory color input registryPath output).run tree =
        (reply color input output (registry.resolve text), after) ∧
      ∀ resolution, registry.resolve text = .ok resolution → ∀ target ∈ output,
        after.find? target = some (.file resolution.code.toUTF8) := by
  unfold resolve
  rw [run_bind prepared.run_loadDocument]
  dsimp only
  cases registry.resolve text with
  | error error => exact ⟨tree, rfl, nofun⟩
  | ok resolution =>
      obtain ⟨after, ran, written⟩ := run_deliver prepared.writable color input resolution
      refine ⟨after, ran, ?_⟩
      rintro _ ⟨⟩
      exact written

/-- The outcome that is called for agrees with resolving. -/
theorem agrees_reply {after : FileTree} (color : Bool) (input : String)
    (written : ∀ resolution, registry.resolve text = .ok resolution → ∀ target ∈ output,
      after.find? target = some (.file resolution.code.toUTF8)) :
    Agrees registry text output (reply color input output (registry.resolve text)) after := by
  cases resolved : registry.resolve text with
  | error error =>
      refine ⟨?_, fun _ => rfl, ?_, written⟩
      · rw [resolved]
        exact ⟨nofun, nofun⟩
      · rw [resolved]
        exact nofun
  | ok resolution =>
      refine ⟨⟨fun _ => ⟨resolution, resolved⟩, fun _ => rfl⟩, fun h => absurd rfl h, ?_, written⟩
      rintro other h rfl
      obtain rfl : resolution = other := Except.ok.inj (resolved.symm.trans h)
      show withLineBreak resolution.code = _
      unfold withLineBreak
      split
      · exact (String.append_empty).symm
      · rfl

/-- **The command line agrees with resolving in memory.** The paths of the files, given as arguments
in the plain way, are understood. However they are given, the run agrees with what resolving the
document against the registry leads to, and in any other tree that holds the same document and the
same registry it has the same outcome, whatever the settings are. -/
theorem run_resolve_agrees
    (prepared : Prepared registry text directory input registryPath output tree)
    (manual : Topic → String) (color : Bool) :
    ((∀ word ∈ input :: registryPath :: output.toList, looksLikeOption word = false) →
      parse (resolveArgs input registryPath output) =
        .ok ⟨none, false, some (.resolve input registryPath output)⟩) ∧
    ∀ args noColor,
      parse args = .ok ⟨directory, noColor, some (.resolve input registryPath output)⟩ →
      ∃ outcome after, (run access manual parse color args).run tree = (outcome, after) ∧
        Agrees registry text output outcome after ∧
        ∀ other, Prepared registry text directory input registryPath output other →
          ((run access manual parse color args).run other).1 = outcome := by
  refine ⟨parse_resolveArgs prepared.nonempty, fun args noColor asked => ?_⟩
  have asks (tree : FileTree) : (run access manual parse color args).run tree =
      (resolve access directory (color && !noColor) input registryPath output).run tree := by
    unfold run
    rw [asked]
  obtain ⟨after, ran, written⟩ := prepared.run_resolve (color && !noColor)
  refine ⟨_, after, (asks tree).trans ran, agrees_reply _ input written, ?_⟩
  intro other preparedOther
  obtain ⟨_, ranOther, -⟩ := preparedOther.run_resolve (color && !noColor)
  rw [asks, ranOther]

def page : String := String.ofList (Registry.wrapped.flatMap Segment.source)

/-- The page, code for its markers, and settings, two levels below the root. -/
def project : FileTree where
  entries := (((((∅ : Std.ExtTreeMap (List String) Entry).insert ["srv"] .directory).insert
    ["srv", "site"] .directory).insert ["srv", "site", "page.html"]
    (.file page.toUTF8)).insert ["srv", "site", "page.json"]
    (.file Registry.single.write.toUTF8)).insert ["srv", "site", "overrider.toml"]
    (.file "data_object = 'data'".toUTF8)
  cwd := ["srv", "site"]

theorem entries_project (location : List String) :
    project.entries[location]? =
      if ["srv", "site", "overrider.toml"] = location then
        some (.file "data_object = 'data'".toUTF8)
      else if ["srv", "site", "page.json"] = location then
        some (.file Registry.single.write.toUTF8)
      else if ["srv", "site", "page.html"] = location then some (.file page.toUTF8)
      else if ["srv", "site"] = location then some .directory
      else if ["srv"] = location then some .directory
      else none := by
  simp only [project, Std.ExtTreeMap.getElem?_insert, Std.LawfulEqCmp.compare_eq_iff_eq,
    Std.ExtTreeMap.getElem?_empty]

theorem settingsValid_project : project.SettingsValid none := by
  have located : project.locate? "overrider.toml" = some ["srv", "site", "overrider.toml"] := by
    decide +kernel
  have entry : project.entry? ["srv", "site", "overrider.toml"] =
      some (.file "data_object = 'data'".toUTF8) := entries_project _
  have held : project.text? "overrider.toml" = some "data_object = 'data'" :=
    text?_eq_some located entry
  have stands : project.isFile "overrider.toml" = true := by
    rw [isFile, find?, located, Option.bind_some, entry]
  have reads : (Toml.read? "data_object = 'data'").bind Settings.ofToml? =
      some { dataObject := "data" } := by decide +kernel
  intro path found
  have here : project.settingsFile? none = some "overrider.toml" :=
    List.find?_cons_of_pos stands
  obtain rfl : "overrider.toml" = path := Option.some.inj (here.symm.trans found)
  refine ⟨_, { dataObject := "data" }, held, ?_⟩
  rw [Settings.read, reads]

theorem prepared_project : Prepared Registry.single page none "page.html" "/srv/site/page.json"
    (some "../out.html") project where
  document := by
    have located : project.locate? "page.html" = some ["srv", "site", "page.html"] := by
      decide +kernel
    exact text?_eq_some located (entries_project _)
  recorded := by
    have located : project.locate? "/srv/site/page.json" = some ["srv", "site", "page.json"] := by
      decide +kernel
    exact text?_eq_some located (entries_project _)
  settings := settingsValid_project
  writable := by
    rintro _ ⟨⟩
    have nothing : project.entry? ["srv", "out.html"] = none := entries_project _
    exact ⟨["srv", "out.html"], by decide +kernel, by rw [isDirectory, nothing], by decide +kernel⟩

theorem resolve_page :
    ∃ resolution, Registry.single.resolve page = .ok resolution ∧
      resolution.code = "\x7bk && <<p id=\x7bk\x7d html=\x7b<__OVERRIDE\x7d></p>\x7d" := by
  have filled : Registry.wrapped.flatMap Registry.single.filled =
      "\x7bk && <<p id=\x7bk\x7d html=\x7b<__OVERRIDE\x7d></p>\x7d".toList := by
    simp [Registry.wrapped, Registry.filled, Registry.code?, Fragments.code?, Marker.ref,
      Registry.single]
  have free : Unmarked (Registry.wrapped.flatMap Registry.single.filled) := by
    rw [filled]
    decide
  have parts : Segment.split page.toList = Registry.wrapped := Registry.split_wrapped
  have entries := Registry.holds_of_split Registry.single parts (by decide)
  rw [← parts] at free
  refine ⟨_, Registry.resolve_of_unmarked entries free, ?_⟩
  dsimp only
  rw [parts, filled]
  rfl

theorem run_resolve_agrees_project :
    Prepared Registry.single page none "page.html" "/srv/site/page.json" (some "../out.html")
      project ∧
    ∃ outcome after,
      (run access (fun _ => "") parse true
        (resolveArgs "page.html" "/srv/site/page.json" (some "../out.html"))).run project =
          (outcome, after) ∧
      outcome.status = 0 ∧ after.find? "../out.html" =
        some (.file "\x7bk && <<p id=\x7bk\x7d html=\x7b<__OVERRIDE\x7d></p>\x7d".toUTF8) := by
  obtain ⟨resolution, resolved, code⟩ := resolve_page
  obtain ⟨understood, agree⟩ := run_resolve_agrees prepared_project (fun _ => "") true
  obtain ⟨outcome, after, ran, agrees, -⟩ := agree _ _ (understood (by decide))
  refine ⟨prepared_project, outcome, after, ran, agrees.succeeds.mpr ⟨resolution, resolved⟩, ?_⟩
  rw [agrees.written resolution resolved "../out.html" rfl, code]

end CommandLine

end LateMarkup
