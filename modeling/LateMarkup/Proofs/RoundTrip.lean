import LateMarkup.Declaration.Json
import LateMarkup.Proofs.JsonReading
import LateMarkup.Registry.Json

/-!
# Registries and declarations come back from their texts

A registry is written between annotation and resolution and read again by another run. Parts that
hold nothing are not written, and reading starts from the empty part.

The vocabulary of encoding is matched piece by piece with that of decoding. `Json.Faithful` says
that a value is restored from its JSON value, and `Json.Fills` that the members of an object set a
record field by field. What a registry or a declaration is made of is then faithful by construction,
and the text goes away by `Json.read_of_laid`.
-/

namespace LateMarkup

namespace Json

/-! ## Values -/

/-- Values are restored from the JSON values they are encoded as. No value is encoded as `null`,
which is kept for a missing one. -/
structure Faithful {α : Type} (decode : Json → Decoded α) (encode : α → Json) : Prop where
  plain : ∀ value, (encode value).Plain
  present : ∀ value, encode value ≠ .null
  restores : ∀ value, decode (encode value) = .ok value

variable {α ρ κ : Type} {decode : Json → Decoded α} {encode : α → Json}

theorem Faithful.text : Faithful toText ofText where
  plain text token h := by
    rw [List.mem_singleton.mp h]
    trivial
  present _ := nofun
  restores _ := rfl

theorem Faithful.flag : Faithful toFlag .bool where
  plain value token h := by
    rw [List.mem_singleton.mp h]
    trivial
  present _ := nofun
  restores _ := rfl

theorem Faithful.word {read : String → Except InvalidText α} {spell : α → String}
    (reads : ∀ value, read (spell value) = .ok value) :
    Faithful (toWord read) fun value => ofText (spell value) where
  plain value := Faithful.text.plain (spell value)
  present _ := nofun
  restores value := by
    show ofWord read (spell value) = .ok value
    rw [ofWord, reads]

theorem Faithful.toOption_some (faithful : Faithful decode encode) (value : α) :
    toOption decode (encode value) = .ok (some value) := by
  rw [toOption, faithful.restores]
  · rfl
  · exact faithful.present value

/-! ## Members -/

def PlainMembers (members : List Member) : Prop := ∀ token ∈ memberTokens members, token.Plain

theorem PlainMembers.nil : PlainMembers [] := nofun

theorem PlainMembers.cons {value : Json} {members : List Member} (key : String)
    (plain : value.Plain) (rest : PlainMembers members) :
    PlainMembers (member key value :: members) := by
  show ∀ token ∈ .comma :: .string (some key) :: .colon :: (value.toTokens ++ memberTokens members),
    token.Plain
  rw [List.forall_mem_cons, List.forall_mem_cons, List.forall_mem_cons, List.forall_mem_append]
  exact ⟨trivial, trivial, trivial, plain, rest⟩

theorem PlainMembers.object {members : List Member} (plain : PlainMembers members) :
    (object members).Plain := by
  cases members with
  | nil =>
      show ∀ token ∈ [Token.openBrace, .closeBrace], token.Plain
      rw [List.forall_mem_cons, List.forall_mem_singleton]
      exact ⟨trivial, trivial⟩
  | cons first members =>
      obtain ⟨key, value⟩ := first
      have inner : ∀ token ∈ .comma :: .string key :: .colon ::
        (value.toTokens ++ memberTokens members), token.Plain := plain
      rw [List.forall_mem_cons, List.forall_mem_cons, List.forall_mem_cons,
        List.forall_mem_append] at inner
      obtain ⟨-, hkey, hcolon, hvalue, hmembers⟩ := inner
      show ∀ token ∈ .openBrace :: .string key :: .colon ::
        (value.toTokens ++ (memberTokens members ++ [.closeBrace])), token.Plain
      rw [List.forall_mem_cons, List.forall_mem_cons, List.forall_mem_cons,
        List.forall_mem_append, List.forall_mem_append, List.forall_mem_singleton]
      exact ⟨trivial, hkey, hcolon, hvalue, hmembers, trivial⟩

/-! ## Maps -/

theorem insertMembers_entries [Ord κ] [Std.TransOrd κ] {readKey : String → Decoded κ}
    {keyText : κ → String} (keys : ∀ key, readKey (keyText key) = .ok key)
    (faithful : Faithful decode encode) (entries : List (κ × α)) (map : Std.ExtTreeMap κ α) :
    insertMembers readKey decode map
        (entries.map fun (key, value) => member (keyText key) (encode value)) =
      .ok (map.insertMany entries) := by
  induction entries generalizing map with
  | nil => rfl
  | cons entry entries ih =>
      obtain ⟨key, value⟩ := entry
      rw [Std.ExtTreeMap.insertMany_cons, ← ih (map.insert key value), List.map_cons]
      show (do
        let key ← readKey (keyText key)
        let value ← decode (encode value)
        insertMembers readKey decode (map.insert key value) _) = _
      rw [keys, faithful.restores]
      rfl

/-- A map is made of its entries, in any order. -/
theorem insertMany_perm [Ord κ] [Std.TransOrd κ] [Std.LawfulEqOrd κ]
    {map : Std.ExtTreeMap κ α} {entries : List (κ × α)} (perm : entries.Perm map.toList) :
    (∅ : Std.ExtTreeMap κ α).insertMany entries = map := by
  rw [← Std.ExtTreeMap.ofList_eq_insertMany_empty]
  apply Std.ExtTreeMap.ext_getElem?
  intro key
  cases found : map[key]? with
  | some value =>
      have distinct : entries.Pairwise fun a b => ¬ compare a.1 b.1 = .eq :=
        perm.symm.pairwise Std.ExtTreeMap.distinct_keys_toList fun h same =>
          h (Std.OrientedCmp.eq_symm same)
      exact Std.ExtTreeMap.getElem?_ofList_of_mem Std.ReflCmp.compare_self distinct
        (perm.mem_iff.mpr (Std.ExtTreeMap.mem_toList_iff_getElem?_eq_some.mpr found))
  | none =>
      classical
      apply Std.ExtTreeMap.getElem?_ofList_of_contains_eq_false
      have absent : key ∉ map := by simpa using found
      have keys := (perm.map Prod.fst).mem_iff (a := key)
      rw [Std.ExtTreeMap.map_fst_toList_eq_keys, Std.ExtTreeMap.mem_keys] at keys
      simpa using fun mem => absent (keys.mp mem)

theorem Faithful.entries [Ord κ] [Std.TransOrd κ] [Std.LawfulEqOrd κ]
    {readKey : String → Decoded κ} {keyText : κ → String}
    (keys : ∀ key, readKey (keyText key) = .ok key) (faithful : Faithful decode encode) :
    Faithful (toMap readKey decode)
      fun map : Std.ExtTreeMap κ α => ofEntries keyText encode map.toList where
  plain map := by
    apply PlainMembers.object
    induction map.toList with
    | nil => exact .nil
    | cons entry entries ih => exact .cons _ (faithful.plain entry.2) ih
  present _ := nofun
  restores map := by
    rw [ofEntries, toMap, insertMembers_entries keys faithful,
      insertMany_perm (List.Perm.refl _)]

theorem Faithful.nameMap (faithful : Faithful decode encode) :
    Faithful (toNameMap decode) (ofNameMap encode) :=
  .entries (fun _ => rfl) faithful

/-! ## Records -/

/-- The members turn `record` into `result`, whichever of the keys in `used` were given before. -/
structure Fills (fields : List (Field ρ)) (used : List String) (record : ρ)
    (members : List Member) (result : ρ) : Prop where
  plain : PlainMembers members
  sets : ∀ given ⊆ used, setMembers fields given record members = .ok result

variable {fields : List (Field ρ)} {used : List String} {record next result : ρ}
  {members : List Member} {key : String}

theorem Fills.nil : Fills fields used record [] record where
  plain := .nil
  sets _ _ := rfl

theorem Fills.weaken {more : List String} (subset : used ⊆ more)
    (fills : Fills fields more record members result) :
    Fills fields used record members result where
  plain := fills.plain
  sets given h := fills.sets given (List.Subset.trans h subset)

theorem Fills.member {target : Field ρ} {value : Json}
    (found : fields.find? (·.key == key) = some target) (fresh : key ∉ used)
    (plain : value.Plain) (set : target.set record value = .ok next)
    (rest : Fills fields (key :: used) next members result) :
    Fills fields used record (Json.member key value :: members) result where
  plain := .cons key plain rest.plain
  sets given h := by
    have unused : given.contains key = false := by
      simpa using fun given => fresh (h given)
    rw [Json.member, setMembers, found]
    simp only [unused, set]
    exact rest.sets (key :: given) (List.cons_subset_cons key h)

theorem Fills.always {put : ρ → α → ρ} (faithful : Faithful decode encode) (value : α)
    (found : fields.find? (·.key == key) = some (field key decode put)) (fresh : key ∉ used)
    (rest : Fills fields (key :: used) (put record value) members result) :
    Fills fields used record (Json.member key (encode value) :: members) result := by
  refine .member found fresh (faithful.plain value) ?_ rest
  show (decode (encode value)).map (put record) = _
  rw [faithful.restores]
  rfl

theorem Fills.optional {put : ρ → Option α → ρ} (faithful : Faithful decode encode)
    (part : Option α)
    (found : fields.find? (·.key == key) = some (field key (toOption decode) put))
    (fresh : key ∉ used) (untouched : put record none = record)
    (rest : Fills fields (key :: used) (put record part) members result) :
    Fills fields used record (Json.optional key encode part ++ members) result := by
  cases part with
  | none =>
      -- The key is then still unused, which the rest of the members does not mind.
      rw [untouched] at rest
      exact rest.weaken (List.subset_cons_self key used)
  | some value =>
      refine .member found fresh (faithful.plain value) ?_ rest
      show (toOption decode (encode value)).map (put record) = _
      rw [faithful.toOption_some]
      rfl

theorem Fills.nonemptyMap {put : ρ → NameMap α → ρ} (faithful : Faithful decode encode)
    (map : NameMap α)
    (found : fields.find? (·.key == key) = some (field key (toNameMap decode) put))
    (fresh : key ∉ used) (untouched : put record ∅ = record)
    (rest : Fills fields (key :: used) (put record map) members result) :
    Fills fields used record (Json.nonemptyMap key encode map ++ members) result := by
  unfold Json.nonemptyMap
  split
  · next empty =>
      rw [Std.ExtTreeMap.isEmpty_iff.mp empty, untouched] at rest
      exact rest.weaken (List.subset_cons_self key used)
  · exact .always faithful.nameMap map found fresh rest

/-- Members that fill a record from its start are restored as the record. -/
theorem Faithful.ofFills {start : ρ} {parts : ρ → List Member}
    (fills : ∀ whole, Fills fields [] start (parts whole) whole) :
    Faithful (toRecord fields start) fun whole => .object (parts whole) where
  plain whole := (fills whole).plain.object
  present _ := nofun
  restores whole := (fills whole).sets [] (List.Subset.refl [])

end Json

/-! ## Registries -/

open Json

namespace Guard

theorem fills (guard : Guard) : Fills fields [] {}
    [member "start" (ofText guard.opening), member "end" (ofText guard.closing)]
    ⟨some guard.opening, some guard.closing⟩ :=
  .always .text guard.opening (by rfl) (by decide) <|
  .always .text guard.closing (by rfl) (by decide) .nil

theorem faithful : Faithful ofJson toJson where
  plain guard := guard.fills.plain.object
  present _ := nofun
  restores guard := by
    have pieces : toRecord fields {} guard.toJson = .ok ⟨some guard.opening, some guard.closing⟩ :=
      guard.fills.sets [] (List.Subset.refl [])
    rw [ofJson, pieces]
    rfl

end Guard

theorem Defaults.faithful : Faithful ofJson toJson :=
  .ofFills fun d => by
    rw [List.append_assoc, ← List.append_nil (Json.optional "unrender" .bool d.unrender)]
    exact
      .optional .text d.tag (by rfl) (by decide) rfl <|
      .optional .text d.component (by rfl) (by decide) rfl <|
      .optional .flag d.unrender (by rfl) (by decide) rfl .nil

theorem Fragments.faithful : Faithful ofJson toJson :=
  .ofFills fun code => by
    rw [List.append_assoc, List.append_assoc,
      ← List.append_nil (Json.nonemptyMap "classes" ofText code.classes)]
    exact
      .nonemptyMap .text code.attributes (by rfl) (by decide) rfl <|
      .optional .text code.inner (by rfl) (by decide) rfl <|
      .optional Guard.faithful code.unrender (by rfl) (by decide) rfl <|
      .nonemptyMap .text code.classes (by rfl) (by decide) rfl .nil

theorem Ref.ofWord_read_text (ref : Ref) : ofWord Ref.read ref.text = .ok ref := by
  rw [ofWord, Ref.read, Ref.ofString?, dif_pos ref.valid]

namespace Registry

theorem faithful_refMap {α : Type} {decode : Json → Decoded α} {encode : α → Json}
    (faithful : Faithful decode encode) :
    Faithful (toRefMap decode) fun map : RefMap α => ofEntries Ref.text encode map.toList :=
  .entries Ref.ofWord_read_text faithful

theorem faithful : Faithful ofJson toJson :=
  .ofFills fun registry =>
    .always (faithful_refMap Defaults.faithful) registry.defaults (by rfl) (by decide) <|
    .always (faithful_refMap Fragments.faithful) registry.code (by rfl) (by decide) .nil

/-- **A registry is read from any text of its tokens.** -/
theorem read_of_laid {registry : Registry} {text : String}
    (laid : Token.Laid registry.toJson.toTokens text.toList) : read text = .ok registry := by
  rw [read, Json.read_of_laid (faithful.plain registry) laid]
  simp only [faithful.restores]
  rfl

end Registry

/-! ## Declarations -/

namespace Declaration

theorem faithful : Faithful ofJson toJson :=
  .ofFills fun d =>
    .always (.nameMap (.word AttributeOverride.read_text)) d.attributes (by rfl) (by decide) <|
    .always .flag d.tag (by rfl) (by decide) <|
    .always .flag d.component (by rfl) (by decide) <|
    .always .flag d.inner (by rfl) (by decide) <|
    .always .flag d.unrender (by rfl) (by decide) <|
    .always (.nameMap (.word ClassOverride.read_text)) d.classes (by rfl) (by decide) <|
    .always (.nameMap (.word AttributeOverride.read_text)) d.properties (by rfl) (by decide) .nil

/-- **A declaration is read from any text of its tokens.** -/
theorem read_of_laid {d : Declaration} {text : String}
    (laid : Token.Laid d.toJson.toTokens text.toList) : read text = .ok d := by
  rw [read, Json.read_of_laid (faithful.plain d) laid]
  simp only [faithful.restores]
  rfl

end Declaration

/-- **Registries and declarations survive their texts.** Reading what was written gives the value
back, whatever its names and texts are made of and whichever of its parts are empty. A declaration
is also read from its text without any white space. -/
theorem Json.read_write :
    (∀ registry : Registry, Registry.read registry.write = .ok registry) ∧
    (∀ d : Declaration, Declaration.read d.write = .ok d) ∧
    ∀ d : Declaration, Declaration.read d.toJson.compact = .ok d :=
  ⟨fun registry => Registry.read_of_laid registry.toJson.laid_pretty,
    fun d => Declaration.read_of_laid d.toJson.laid_pretty,
    fun d => Declaration.read_of_laid d.toJson.laid_compact⟩

end LateMarkup
