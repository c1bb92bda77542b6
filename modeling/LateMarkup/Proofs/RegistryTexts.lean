import LateMarkup.Proofs.FieldOrder
import LateMarkup.Proofs.JsonPrefixes

/-!
# Texts of registries

Reading a registry is lenient about how it is written (`Registry.read_of_writes`) and strict about
two things: the keys under which entries stand have to be refs, and no field can be given twice. A
text that leads to such a key is refused, however it goes on (`Registry.Part.fails_of_lies`).

The parts of a registry that are read as objects are named by `Registry.Part`, and `Part.inside?`
says which part is behind a step into another. A fault in a part is a fault in the part around it,
by one lemma for each kind of decoder.
-/

namespace LateMarkup

namespace Json

/-! ## Faults -/

/-- Decoding ends with a fault. -/
def Fails {α : Type} (decoded : Decoded α) : Prop := ∃ fault, decoded = .error fault

variable {α β ρ κ : Type}

theorem Fails.wrongShape : Fails (wrongShape : Decoded α) := ⟨none, rfl⟩

theorem Fails.bind {decoded : Decoded α} (fails : Fails decoded) (next : α → Decoded β) :
    Fails (decoded >>= next) := by
  obtain ⟨fault, rfl⟩ := fails
  exact ⟨fault, rfl⟩

theorem Fails.map {decoded : Decoded α} (fails : Fails decoded) (f : α → β) :
    Fails (decoded.map f) := by
  obtain ⟨fault, rfl⟩ := fails
  exact ⟨fault, rfl⟩

theorem Fails.set {decode : Json → Decoded α} {value : Json} (fails : Fails (decode value))
    {key : String} {put : ρ → α → ρ} (record : ρ) :
    Fails ((field key decode put).set record value) :=
  fails.map _

/-- Where what comes next fails anyway. -/
theorem Fails.of_next (decoded : Decoded α) {next : α → Decoded β} (fails : ∀ a, Fails (next a)) :
    Fails (decoded >>= next) := by
  cases decoded with
  | error fault => exact ⟨fault, rfl⟩
  | ok a => exact fails a

/-! ### Objects -/

section Records

variable {fields : List (Field ρ)} {target : Field ρ} {key : String}

/-- What fails behind some members, whatever they set, fails with them. The fields among them cannot
be given again. -/
theorem fails_setMembers_append {before rest : List Member} {given : List String} {record : ρ}
    (fails : ∀ used record, given ⊆ used →
      (∀ name, some name ∈ before.map Prod.fst → (fields.find? (·.key == name)).isSome →
        name ∈ used) → Fails (setMembers fields used record rest)) :
    Fails (setMembers fields given record (before ++ rest)) := by
  induction before generalizing given record with
  | nil => exact fails given record (List.Subset.refl given) nofun
  | cons member before ih =>
      obtain ⟨name, value⟩ := member
      cases name with
      | none => exact .wrongShape
      | some name =>
          rw [List.cons_append, setMembers]
          cases found : fields.find? (·.key == name) with
          | none =>
              dsimp only
              split
              · refine ih fun used record sub taken =>
                  fails used record sub fun other mem known => ?_
                rcases List.mem_cons.mp mem with same | mem
                · rw [Option.some.inj same, found] at known
                  cases known
                · exact taken other mem known
              · exact .wrongShape
          | some target =>
              dsimp only
              split
              · exact .wrongShape
              · refine .of_next _ fun next => ih fun used record sub taken =>
                  fails used record (List.subset_of_cons_subset sub) fun other mem known => ?_
                rcases List.mem_cons.mp mem with same | mem
                · rw [Option.some.inj same]
                  exact sub List.mem_cons_self
                · exact taken other mem known

theorem fails_setMembers (fields : List (Field ρ))
    (found : fields.find? (·.key == key) = some target) {value : Json}
    (fails : ∀ record, Fails (target.set record value)) (before more : List Member)
    (given : List String) (record : ρ) :
    Fails (setMembers fields given record (before ++ (some key, value) :: more)) := by
  refine fails_setMembers_append fun used now _ _ => ?_
  rw [setMembers, found]
  dsimp only
  split
  · exact .wrongShape
  · exact (fails now).bind _

theorem fails_toRecord_again {keys : List String}
    (known : ∀ key ∈ keys, (fields.find? (·.key == key)).isSome) {before : List Member}
    {key : Option String}
    (again : ∃ name ∈ keys, key = some name ∧ some name ∈ before.map Prod.fst) (value : Json)
    (more : List Member) (start : ρ) :
    Fails (toRecord fields start (.object (before ++ (key, value) :: more))) := by
  obtain ⟨name, field, rfl, there⟩ := again
  refine fails_setMembers_append fun used now _ taken => ?_
  obtain ⟨target, found⟩ := Option.isSome_iff_exists.mp (known name field)
  have used : used.contains name = true :=
    List.contains_iff_mem.mpr (taken name there (known name field))
  rw [setMembers, found]
  dsimp only
  rw [if_pos used]
  exact .wrongShape

theorem fails_setItems (fields : List (Field ρ)) {before : List Json} {position : Nat}
    (there : before.length = position) (found : fields[position]? = some target) {value : Json}
    (fails : ∀ record, Fails (target.set record value)) (more : List Json) (record : ρ) :
    Fails (setItems fields record (before ++ value :: more)) := by
  induction before generalizing fields position record with
  | nil =>
      subst there
      cases fields with
      | nil => cases found
      | cons first fields =>
          obtain rfl : first = target := Option.some.inj found
          exact (fails record).bind _
  | cons item before ih =>
      subst there
      cases fields with
      | nil => cases found
      | cons first fields => exact .of_next _ fun next => ih fields rfl found next

theorem fails_insertMembers [Ord κ] [Std.TransOrd κ] {readKey : String → Decoded κ}
    {decode : Json → Decoded α} {key : Option String} {value : Json}
    (fails : Fails (toKey readKey key) ∨ Fails (decode value)) (before more : List Member)
    (map : Std.ExtTreeMap κ α) :
    Fails (insertMembers readKey decode map (before ++ (key, value) :: more)) := by
  induction before generalizing map with
  | nil =>
      rcases fails with fails | fails
      · exact fails.bind _
      · exact .of_next _ fun key => fails.bind _
  | cons member before ih => exact .of_next _ fun key => .of_next _ fun value => ih _

theorem fails_toOption {decode : Json → Decoded α} {value : Json} (present : value ≠ .null)
    (fails : Fails (decode value)) : Fails (toOption decode value) := by
  rw [toOption]
  · exact fails.map _
  · exact present

end Records

end Json

/-! ## Registries -/

open Json

namespace Registry

/-- The parts of a registry that are read as objects. -/
inductive Part where
  | whole
  | allDefaults
  | allCode
  | defaults
  | code
  | guard

namespace Part

def under? : Part → Option String → Option Part
  | whole, some "defaults" => some allDefaults
  | whole, some "code" => some allCode
  | allDefaults, _ => some defaults
  | allCode, _ => some code
  | code, some "unrender" => some guard
  | _, _ => none

def item? : Part → Nat → Option Part
  | whole, 0 => some allDefaults
  | whole, 1 => some allCode
  | code, 2 => some guard
  | _, _ => none

def inside? (part : Part) : Step → Option Part
  | .item before => part.item? before.length
  | .member _ key => part.under? key

/-- The part at the end of a way into another one. -/
def at? : Part → List Step → Option Part
  | part, [] => some part
  | part, step :: way => (part.inside? step).bind fun inner => inner.at? way

def fieldKeys : Part → List String
  | whole => ["defaults", "code"]
  | defaults => ["tag", "component", "unrender"]
  | code => ["attributes", "inner", "unrender", "classes"]
  | guard => ["start", "end"]
  | allDefaults | allCode => []

/-- A key that a part cannot have behind these members: one that is no ref where entries stand under
refs, and one of a field that is there already. -/
def Refuses (part : Part) (before : List Member) (key : Option String) : Prop :=
  match part with
  | allDefaults | allCode => ∀ ref : Ref, key ≠ some ref.text
  | part => ∃ name ∈ part.fieldKeys, key = some name ∧ some name ∈ before.map Prod.fst

def Fails : Part → Json → Prop
  | whole, value => Json.Fails (Registry.ofJson value)
  | allDefaults, value => Json.Fails (toRefMap Defaults.ofJson value)
  | allCode, value => Json.Fails (toRefMap Fragments.ofJson value)
  | defaults, value => Json.Fails (Defaults.ofJson value)
  | code, value => Json.Fails (Fragments.ofJson value)
  | guard, value => Json.Fails (Guard.ofJson value)

theorem fails_toKey {key : Option String} (foreign : ∀ ref : Ref, key ≠ some ref.text) :
    Json.Fails (toKey (ofWord Ref.read) key) := by
  cases key with
  | none => exact .wrongShape
  | some text =>
      have invalid : ¬ Ref.isValid text.toList = true := fun valid => foreign ⟨text, valid⟩ rfl
      refine ⟨some (.ref text), ?_⟩
      rw [toKey, ofWord, Ref.read, Ref.ofString?, dif_neg invalid]

/-- A part has a key that it cannot have. -/
theorem fails_of_refuses {part : Part} {before : List Member} {key : Option String}
    (refuses : part.Refuses before key) (value : Json) (more : List Member) :
    part.Fails (.object (before ++ (key, value) :: more)) := by
  cases part with
  | allDefaults => exact fails_insertMembers (Or.inl (fails_toKey refuses)) before more ∅
  | allCode => exact fails_insertMembers (Or.inl (fails_toKey refuses)) before more ∅
  | whole =>
      have known : ∀ key ∈ fieldKeys whole,
          (Registry.fields.find? (·.key == key)).isSome := by decide
      exact fails_toRecord_again known refuses value more {}
  | defaults =>
      have known : ∀ key ∈ fieldKeys defaults,
          (Defaults.fields.find? (·.key == key)).isSome := by decide
      exact fails_toRecord_again known refuses value more {}
  | code =>
      have known : ∀ key ∈ fieldKeys code,
          (Fragments.fields.find? (·.key == key)).isSome := by decide
      exact fails_toRecord_again known refuses value more {}
  | guard =>
      have known : ∀ key ∈ fieldKeys guard,
          (Guard.fields.find? (·.key == key)).isSome := by decide
      exact (fails_toRecord_again known refuses value more {}).bind _

theorem fails_item {part inner : Part} {before : List Json}
    (there : part.item? before.length = some inner) {value : Json} (present : value ≠ .null)
    (fails : inner.Fails value) (more : List Json) :
    part.Fails (.array (before ++ value :: more)) := by
  unfold item? at there
  split at there
  · next first =>
      cases there
      exact fails_setItems Registry.fields first rfl (Json.Fails.set fails) more {}
  · next second =>
      cases there
      exact fails_setItems Registry.fields second rfl (Json.Fails.set fails) more {}
  · next third =>
      cases there
      exact fails_setItems Fragments.fields third rfl (fails_toOption present fails).set more {}
  · cases there

theorem fails_member {part inner : Part} {key : Option String}
    (there : part.under? key = some inner) {value : Json} (present : value ≠ .null)
    (fails : inner.Fails value) (before more : List Member) :
    part.Fails (.object (before ++ (key, value) :: more)) := by
  unfold under? at there
  split at there
  · cases there
    exact fails_setMembers Registry.fields rfl (Json.Fails.set fails) before more [] {}
  · cases there
    exact fails_setMembers Registry.fields rfl (Json.Fails.set fails) before more [] {}
  · cases there
    exact fails_insertMembers (Or.inr fails) before more ∅
  · cases there
    exact fails_insertMembers (Or.inr fails) before more ∅
  · cases there
    exact fails_setMembers Fragments.fields rfl (fails_toOption present fails).set before more [] {}
  · cases there

/-- **A way to a key that cannot be there makes a registry fail.** -/
theorem fails_of_lies {part inner : Part} {way : List Step} (there : part.at? way = some inner)
    {before : List Member} {key : Option String} (refuses : inner.Refuses before key)
    {value : Json} (lies : Step.Lies way (fun object =>
      ∃ value more, object = .object (before ++ (key, value) :: more)) value) :
    value ≠ .null ∧ part.Fails value := by
  induction way generalizing part value with
  | nil =>
      obtain rfl := Option.some.inj there
      obtain ⟨value, more, rfl⟩ := lies
      exact ⟨nofun, fails_of_refuses refuses value more⟩
  | cons step way ih =>
      obtain ⟨middle, first, rest⟩ := Option.bind_eq_some_iff.mp there
      cases step with
      | item before =>
          obtain ⟨item, more, lies, rfl⟩ := lies
          obtain ⟨present, fails⟩ := ih rest lies
          exact ⟨nofun, fails_item first present fails more⟩
      | member before key =>
          obtain ⟨item, more, lies, rfl⟩ := lies
          obtain ⟨present, fails⟩ := ih rest lies
          exact ⟨nofun, fails_member first present fails before more⟩

end Part

/-- **A text that leads to a key that cannot be there is refused**, however it goes on. -/
theorem read_of_refuses {way : List Step} {part : Part} (there : Part.whole.at? way = some part)
    {before : List Member} {key : Option String} (refuses : part.Refuses before key)
    {text : String} (leads : LeadsTo way before key text) :
    ∃ fault, read text = .error (.registry fault) := by
  obtain ⟨-, fault, fails⟩ := Part.fails_of_lies there refuses (lies_of_leadsTo leads)
  refine ⟨fault, ?_⟩
  rw [read]
  simp only [fails]

/-- **Reading a registry.** However a registry is written, with its parts, entries and fields in any
order, without those that hold nothing, with members that mean nothing here, and with any white
space and any spelling of its strings, it is read. And a text is refused as soon as an entry stands
under a key that is no ref, or a field is given twice, whatever comes behind that key. -/
theorem read_texts :
    (∀ (registry : Registry) (value : Json) (text : String),
      registry.Writes value → value.Written text → read text = .ok registry) ∧
    ∀ (way : List Step) (part : Part) (before : List Member) (key : Option String) (text : String),
      Part.whole.at? way = some part → part.Refuses before key → LeadsTo way before key text →
        ∃ fault, read text = .error (.registry fault) :=
  ⟨fun _ _ _ writes written => read_of_writes writes written,
    fun _ _ _ _ _ there refuses leads => read_of_refuses there refuses leads⟩

/-! ### A text with a member too many -/

def tagged : Registry where
  defaults := (∅ : RefMap Defaults).insert ⟨"e0a", Ref.isValid_e0a⟩ { tag := some "p" }

def taggedValue : Json := .object
  [member "x" (.number "-1.5e3"),
   member "defaults" (.object [member "e0a" (.object [member "tag" (ofText "p")])])]

/-- The first letter of the ref is written by its number. -/
def taggedText : String :=
  "\x7b\"x\":-1.5e3, \"defaults\":\x7b\"\\u00650a\":\x7b\"tag\":\"p\"\x7d\x7d\x7d"

theorem writes_tagged : tagged.Writes taggedValue := by
  have tag : Defaults.Writes { tag := some "p" } (.object [member "tag" (ofText "p")]) := by
    refine ⟨_, rfl, ?_, ?_, ?_, ?_, ?_⟩ <;>
      simp [Defaults.slots, member, WritesOption, WritesText]
  have entries : tagged.defaults.toList = [(⟨"e0a", Ref.isValid_e0a⟩, { tag := some "p" })] := by
    decide
  have defaults : WritesMap Ref.text Defaults.Writes tagged.defaults
      (.object [member "e0a" (.object [member "tag" (ofText "p")])]) :=
    ⟨_, _, by rw [entries], rfl, .cons ⟨rfl, tag⟩ .nil⟩
  refine ⟨_, rfl, by simp [member], by simp [slots, member], ?_,
    by simp [slots, member, tagged], ?_⟩
  · simpa [slots, member] using defaults
  · rintro key value mem other
    simp only [member, List.mem_cons, Prod.mk.injEq, Option.some.injEq, List.not_mem_nil,
      or_false] at mem
    rcases mem with ⟨-, rfl⟩ | ⟨rfl, -⟩
    · rfl
    · simp [slots] at other

theorem written_tagged : taggedValue.Written taggedText := by
  have blank : ∀ c ∈ [' '], Token.isSpace c = true := by decide
  have number : (Token.number "-1.5e3").Spells "-1.5e3".toList := by
    have exponent : Token.AreSigned ['3'] :=
      ⟨[], ['3'], by decide, ⟨by decide, by decide⟩, rfl⟩
    refine ⟨rfl, Or.inr ⟨_, ⟨['1'], ['.', '5'], ['e', '3'], ?_, ?_, ?_, rfl⟩, rfl⟩⟩
    · exact Or.inr ⟨⟨by decide, by decide⟩, by decide⟩
    · exact Or.inr ⟨['5'], ⟨by decide, by decide⟩, rfl⟩
    · exact Or.inr ⟨'e', ['3'], Or.inl rfl, exponent, rfl⟩
  have ref : (Token.string (some "e0a")).Spells "\"\\u00650a\"".toList := by
    have letter : (Token.StringUnit.char 'e').Spells "\\u0065".toList :=
      .code (by decide : Text.Hex.value? ['0', '0', '6', '5'] = some 0x65) (by decide)
    refine ⟨[.char 'e', .char '0', .char 'a'], "\\u00650a".toList, ?_, rfl,
      .char (.char (.char .nil))⟩
    exact .cons letter
      (.cons (Token.spells_spellChar '0') (.cons (Token.spells_spellChar 'a') .nil))
  have text (t : String) : (Token.string (some t)).Spells (quote t) := Token.Plain.spells trivial
  refine ⟨[], nofun, ?_⟩
  have words : taggedText.toList = ['\x7b'] ++ (quote "x" ++ ([':'] ++ ("-1.5e3".toList ++
      ([','] ++ ([' '] ++ (quote "defaults" ++ ([':'] ++ (['\x7b'] ++ ("\"\\u00650a\"".toList ++
        ([':'] ++ (['\x7b'] ++ (quote "tag" ++ ([':'] ++ (quote "p" ++ (['\x7d'] ++ (['\x7d'] ++
          (['\x7d'] ++ []))))))))))))))))) := by
    decide
  rw [words]
  exact .word rfl <| .word (text "x") <| .word rfl <| .word number <| .word rfl <|
    .next blank (text "defaults") <| .word rfl <| .word rfl <| .word ref <| .word rfl <|
    .word rfl <| .word (text "tag") <| .word rfl <| .word (text "p") <| .word rfl <|
    .word rfl <| .word rfl .done

/-- A text in which the entry of a node stands under a key that is no ref. What comes behind the key
is no JSON. -/
def brokenText : String := "\x7b\"defaults\":\x7b\"e0!\" oops"

theorem leadsTo_broken : LeadsTo [.member [] (some "defaults")] [] (some "e0!") brokenText := by
  have text (t : String) : (Token.string (some t)).Spells (quote t) := Token.Plain.spells trivial
  have words : brokenText.toList = ['\x7b'] ++ (quote "defaults" ++ ([':'] ++ (['\x7b'] ++
      (quote "e0!" ++ " oops".toList)))) := by
    decide
  refine ⟨" oops".toList, ?_⟩
  rw [words]
  exact .word rfl <| .word (text "defaults") <| .word rfl <| .word rfl <| .word (text "e0!") .done

theorem read_texts_tagged :
    read taggedText = .ok tagged ∧ ∃ fault, read brokenText = .error (.registry fault) := by
  have refuses : Part.allDefaults.Refuses [] (some "e0!") := by
    intro ref same
    have valid := ref.valid
    rw [← Option.some.inj same] at valid
    exact absurd valid (by decide)
  exact ⟨read_texts.1 tagged taggedValue taggedText writes_tagged written_tagged,
    read_texts.2 _ .allDefaults [] _ _ rfl refuses leadsTo_broken⟩

end Registry

end LateMarkup
