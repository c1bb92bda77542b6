import LateMarkup.Proofs.RoundTrip

/-!
# Registries written by others

`Registry.write` is not the only one to write a registry. Its fields and entries can stand in any
order, what is empty can be left out, and there can be members that mean nothing here.
`Registry.Writes` says which values stand for a registry, and all of them are read as the registry
(`Registry.read_of_writes`).

The parts of a record that have a key are its slots (`Json.Slot`). Going along the members of an
object, the invariant is `Json.WritesRecord` itself: it relates the record that has been set so far
to the one that is written, and says that the rest of the members makes up the difference.
-/

namespace LateMarkup

namespace Json

variable {α ρ κ : Type}

/-! ## How values are written -/

def WritesOption (writes : α → Json → Prop) : Option α → Json → Prop
  | none, value => value = .null
  | some part, value => writes part value

/-- The entries of a map can be written in any order. -/
def WritesMap [Ord κ] [Std.TransOrd κ] (keyText : κ → String) (writes : α → Json → Prop)
    (map : Std.ExtTreeMap κ α) (value : Json) : Prop :=
  ∃ entries members, entries.Perm map.toList ∧ value = .object members ∧
    List.Forall₂ (fun entry member => member.1 = some (keyText entry.1) ∧ writes entry.2 member.2)
      entries members

/-- A part of a record that is written under a key. -/
structure Slot (ρ : Type) where
  key : String
  Part : Type
  part : ρ → Part
  /-- How the part can be written. -/
  Writes : Part → Json → Prop

/-- Members that turn the record `start` into `record`, in any order. They may leave out what is the
same in both, and there may be others among them. -/
structure WritesRecord (slots : List (Slot ρ)) (start record : ρ) (members : List Member) :
    Prop where
  texts : ∀ member ∈ members, member.1 ≠ none
  once : ∀ slot ∈ slots, (members.map Prod.fst).count (some slot.key) ≤ 1
  known : ∀ slot ∈ slots, ∀ value, (some slot.key, value) ∈ members →
    slot.Writes (slot.part record) value
  missing : ∀ slot ∈ slots, some slot.key ∉ members.map Prod.fst →
    slot.part record = slot.part start
  unknown : ∀ key value, (some key, value) ∈ members → key ∉ slots.map Slot.key →
    value.isWhole = true

/-! ## How they are read -/

/-- However a value is written, it is read. No value is written as `null`, which is kept for a
missing one. -/
structure Reads (decode : Json → Decoded α) (writes : α → Json → Prop) : Prop where
  present : ∀ {part value}, writes part value → value ≠ .null
  reads : ∀ {part value}, writes part value → decode value = .ok part

variable {decode : Json → Decoded α} {writes : α → Json → Prop}

theorem Faithful.toReads {encode : α → Json} (faithful : Faithful decode encode) :
    Reads decode fun part value => value = encode part where
  present := by
    rintro part value rfl
    exact faithful.present part
  reads := by
    rintro part value rfl
    exact faithful.restores part

theorem Reads.toOption (reads : Reads decode writes) {part : Option α} {value : Json}
    (h : WritesOption writes part value) : toOption decode value = .ok part := by
  cases part with
  | none =>
      obtain rfl := h
      rfl
  | some part =>
      rw [Json.toOption, reads.reads h]
      · rfl
      · exact reads.present h

/-! ### Maps -/

theorem insertMembers_of_forall₂ [Ord κ] [Std.TransOrd κ] {readKey : String → Decoded κ}
    {keyText : κ → String} (keys : ∀ key, readKey (keyText key) = .ok key)
    (reads : Reads decode writes) {entries : List (κ × α)} {members : List Member}
    (written : List.Forall₂ (fun entry member =>
      member.1 = some (keyText entry.1) ∧ writes entry.2 member.2) entries members)
    (map : Std.ExtTreeMap κ α) :
    insertMembers readKey decode map members = .ok (map.insertMany entries) := by
  induction written generalizing map with
  | nil => rfl
  | @cons entry member entries members first _ ih =>
      obtain ⟨key, value⟩ := member
      obtain ⟨hkey, hvalue⟩ := first
      obtain rfl : key = some (keyText entry.1) := hkey
      rw [Std.ExtTreeMap.insertMany_cons, ← ih (map.insert entry.1 entry.2)]
      show (do
        let key ← readKey (keyText entry.1)
        let value ← decode value
        insertMembers readKey decode (map.insert key value) members) = _
      rw [keys, reads.reads hvalue]
      rfl

theorem Reads.map [Ord κ] [Std.TransOrd κ] [Std.LawfulEqOrd κ] {readKey : String → Decoded κ}
    {keyText : κ → String} (keys : ∀ key, readKey (keyText key) = .ok key)
    (reads : Reads decode writes) :
    Reads (toMap readKey decode) (WritesMap keyText writes) where
  present := by
    rintro map value ⟨entries, members, -, rfl, -⟩
    nofun
  reads := by
    rintro map value ⟨entries, members, perm, rfl, written⟩
    rw [toMap, insertMembers_of_forall₂ keys reads written, insertMany_perm perm]

/-! ### Records -/

/-- The fields of a record read its slots, whatever was read before. -/
structure Fits (fields : List (Field ρ)) (slots : List (Slot ρ)) : Prop where
  distinct : ∀ a ∈ slots, ∀ b ∈ slots, a.key = b.key → a = b
  known : ∀ slot ∈ slots, ∃ target, fields.find? (·.key == slot.key) = some target ∧
    ∀ record now value, slot.Writes (slot.part record) value →
      ∃ next, target.set now value = .ok next ∧ slot.part next = slot.part record ∧
        ∀ other ∈ slots, other.key ≠ slot.key → other.part next = other.part now
  keys : fields.map (·.key) = slots.map Slot.key
  ext : ∀ a b : ρ, (∀ slot ∈ slots, slot.part a = slot.part b) → a = b

variable {fields : List (Field ρ)} {slots : List (Slot ρ)} {now record : ρ}
  {members : List Member}

theorem Fits.find?_eq_none (fits : Fits fields slots) {key : String}
    (absent : key ∉ slots.map Slot.key) : fields.find? (·.key == key) = none := by
  rw [← fits.keys, List.mem_map] at absent
  rw [List.find?_eq_none]
  exact fun target mem same => absent ⟨target, mem, beq_iff_eq.mp same⟩

/-- A member that is no field. -/
theorem WritesRecord.tail_unknown {key : String} {value : Json}
    (h : WritesRecord slots now record ((some key, value) :: members))
    (other : key ∉ slots.map Slot.key) : WritesRecord slots now record members where
  texts member mem := h.texts member (List.mem_cons_of_mem _ mem)
  once slot hslot := by
    have count := h.once slot hslot
    rw [List.map_cons, List.count_cons] at count
    omega
  known slot hslot value mem := h.known slot hslot value (List.mem_cons_of_mem _ mem)
  missing slot hslot absent := by
    refine h.missing slot hslot ?_
    rw [List.map_cons, List.mem_cons, not_or]
    refine ⟨fun same => other ?_, absent⟩
    rw [← Option.some.inj same]
    exact List.mem_map_of_mem hslot
  unknown key value mem := h.unknown key value (List.mem_cons_of_mem _ mem)

/-- A member that is a field, which is set by it and not by another one. -/
theorem WritesRecord.tail_known {slot : Slot ρ} (hslot : slot ∈ slots) {value : Json}
    (h : WritesRecord slots now record ((some slot.key, value) :: members))
    (distinct : ∀ a ∈ slots, ∀ b ∈ slots, a.key = b.key → a = b) {next : ρ}
    (set : slot.part next = slot.part record)
    (kept : ∀ other ∈ slots, other.key ≠ slot.key → other.part next = other.part now) :
    some slot.key ∉ members.map Prod.fst ∧ WritesRecord slots next record members := by
  have count := h.once slot hslot
  rw [List.map_cons, List.count_cons_self] at count
  refine ⟨List.count_eq_zero.mp (by omega), ?_⟩
  refine ⟨fun member mem => h.texts member (List.mem_cons_of_mem _ mem), fun other hother => ?_,
    fun other hother value mem => h.known other hother value (List.mem_cons_of_mem _ mem),
    fun other hother absent => ?_,
    fun key value mem => h.unknown key value (List.mem_cons_of_mem _ mem)⟩
  · have count := h.once other hother
    rw [List.map_cons, List.count_cons] at count
    omega
  · by_cases same : other.key = slot.key
    · rw [distinct other hother slot hslot same, set]
    · rw [kept other hother same]
      refine h.missing other hother ?_
      rw [List.map_cons, List.mem_cons, not_or]
      exact ⟨fun heq => same (Option.some.inj heq), absent⟩

/-- **A record is read from its members in any order.** -/
theorem Fits.setMembers (fits : Fits fields slots) (h : WritesRecord slots now record members)
    {given : List String}
    (fresh : ∀ slot ∈ slots, slot.key ∈ given → some slot.key ∉ members.map Prod.fst) :
    setMembers fields given now members = .ok record := by
  induction members generalizing now given with
  | nil =>
      rw [Json.setMembers]
      exact congrArg Except.ok
        (fits.ext now record fun slot hslot => (h.missing slot hslot List.not_mem_nil).symm)
  | cons member members ih =>
      obtain ⟨key, value⟩ := member
      obtain ⟨key, rfl⟩ := Option.ne_none_iff_exists'.mp (h.texts _ List.mem_cons_self)
      by_cases mem : key ∈ slots.map Slot.key
      · obtain ⟨slot, hslot, rfl⟩ := List.mem_map.mp mem
        obtain ⟨target, found, sets⟩ := fits.known slot hslot
        obtain ⟨next, set, part, kept⟩ :=
          sets record now value (h.known slot hslot value List.mem_cons_self)
        obtain ⟨once, rest⟩ := h.tail_known hslot fits.distinct part kept
        have unused : given.contains slot.key = false := by
          simpa using fun used => fresh slot hslot used List.mem_cons_self
        rw [Json.setMembers, found]
        simp only [unused, set]
        refine ih rest fun other hother used => ?_
        rcases List.mem_cons.mp used with same | used
        · rwa [same]
        · exact fun later => fresh other hother used (List.mem_cons_of_mem _ later)
      · have whole := h.unknown key value List.mem_cons_self mem
        rw [Json.setMembers, fits.find?_eq_none mem]
        simp only [whole]
        refine ih (h.tail_unknown mem) fun other hother used later => ?_
        exact fresh other hother used (List.mem_cons_of_mem _ later)

def WritesObject (slots : List (Slot ρ)) (start record : ρ) (value : Json) : Prop :=
  ∃ members, value = .object members ∧ WritesRecord slots start record members

theorem Fits.toReads (fits : Fits fields slots) (start : ρ) :
    Reads (toRecord fields start) (WritesObject slots start) where
  present := by
    rintro record value ⟨members, rfl, -⟩
    nofun
  reads := by
    rintro record value ⟨members, rfl, h⟩
    exact fits.setMembers h nofun

theorem field_set {key : String} {put : ρ → α → ρ} {value : Json} {part : α}
    (decodes : decode value = .ok part) :
    (field key decode put).set now value = .ok (put now part) := by
  show (decode value).map (put now) = _
  rw [decodes]
  rfl

end Json

/-! ## Registries -/

open Json

/-- How a text is written, up to the spelling of its characters. -/
def WritesText (text : String) (value : Json) : Prop := value = ofText text

def WritesFlag (flag : Bool) (value : Json) : Prop := value = .bool flag

theorem reads_text : Reads toText WritesText := Faithful.text.toReads

theorem reads_flag : Reads toFlag WritesFlag := Faithful.flag.toReads

theorem reads_names : Reads (toNameMap toText) (WritesMap id WritesText) :=
  reads_text.map fun _ => rfl

namespace Guard

/-- The pieces of a guard. Both have to be written. -/
def slots : List (Slot Incomplete) :=
  [⟨"start", Option String, (·.opening), fun piece value => ∃ text ∈ piece, WritesText text value⟩,
   ⟨"end", Option String, (·.closing), fun piece value => ∃ text ∈ piece, WritesText text value⟩]

def Writes (guard : Guard) : Json → Prop :=
  WritesObject slots {} ⟨some guard.opening, some guard.closing⟩

theorem fits : Fits fields slots where
  distinct := by simp [slots]
  known := by
    intro slot hslot
    simp only [slots, List.mem_cons, List.not_mem_nil, or_false] at hslot
    rcases hslot with rfl | rfl
    · refine ⟨_, rfl, fun record now value h => ?_⟩
      obtain ⟨text, there, writes⟩ := h
      exact ⟨_, field_set (reads_text.reads writes), there.symm, by simp [slots]⟩
    · refine ⟨_, rfl, fun record now value h => ?_⟩
      obtain ⟨text, there, writes⟩ := h
      exact ⟨_, field_set (reads_text.reads writes), there.symm, by simp [slots]⟩
  keys := rfl
  ext := by
    rintro ⟨opening, closing⟩ ⟨opening', closing'⟩ same
    simpa [slots] using same

theorem reads : Reads ofJson Writes where
  present := (fits.toReads {}).present
  reads h := by
    rw [ofJson, (fits.toReads {}).reads h]
    rfl

end Guard

namespace Defaults

def slots : List (Slot Defaults) :=
  [⟨"tag", Option String, (·.tag), WritesOption WritesText⟩,
   ⟨"component", Option String, (·.component), WritesOption WritesText⟩,
   ⟨"unrender", Option Bool, (·.unrender), WritesOption WritesFlag⟩]

def Writes : Defaults → Json → Prop := WritesObject slots {}

theorem fits : Fits fields slots where
  distinct := by simp [slots]
  known := by
    intro slot hslot
    simp only [slots, List.mem_cons, List.not_mem_nil, or_false] at hslot
    rcases hslot with rfl | rfl | rfl
    · exact ⟨_, rfl, fun record now value h =>
        ⟨_, field_set (reads_text.toOption h), rfl, by simp [slots]⟩⟩
    · exact ⟨_, rfl, fun record now value h =>
        ⟨_, field_set (reads_text.toOption h), rfl, by simp [slots]⟩⟩
    · exact ⟨_, rfl, fun record now value h =>
        ⟨_, field_set (reads_flag.toOption h), rfl, by simp [slots]⟩⟩
  keys := rfl
  ext := by
    rintro ⟨tag, component, unrender⟩ ⟨tag', component', unrender'⟩ same
    simpa [slots] using same

theorem reads : Reads ofJson Writes := fits.toReads {}

end Defaults

namespace Fragments

def slots : List (Slot Fragments) :=
  [⟨"attributes", NameMap String, (·.attributes), WritesMap id WritesText⟩,
   ⟨"inner", Option String, (·.inner), WritesOption WritesText⟩,
   ⟨"unrender", Option Guard, (·.unrender), WritesOption Guard.Writes⟩,
   ⟨"classes", NameMap String, (·.classes), WritesMap id WritesText⟩]

def Writes : Fragments → Json → Prop := WritesObject slots {}

theorem fits : Fits fields slots where
  distinct := by simp [slots]
  known := by
    intro slot hslot
    simp only [slots, List.mem_cons, List.not_mem_nil, or_false] at hslot
    rcases hslot with rfl | rfl | rfl | rfl
    · exact ⟨_, rfl, fun record now value h =>
        ⟨_, field_set (reads_names.reads h), rfl, by simp [slots]⟩⟩
    · exact ⟨_, rfl, fun record now value h =>
        ⟨_, field_set (reads_text.toOption h), rfl, by simp [slots]⟩⟩
    · exact ⟨_, rfl, fun record now value h =>
        ⟨_, field_set (Guard.reads.toOption h), rfl, by simp [slots]⟩⟩
    · exact ⟨_, rfl, fun record now value h =>
        ⟨_, field_set (reads_names.reads h), rfl, by simp [slots]⟩⟩
  keys := rfl
  ext := by
    rintro ⟨attributes, inner, unrender, classes⟩ ⟨attributes', inner', unrender', classes'⟩ same
    simpa [slots] using same

theorem reads : Reads ofJson Writes := fits.toReads {}

end Fragments

namespace Registry

def slots : List (Slot Registry) :=
  [⟨"defaults", RefMap Defaults, (·.defaults), WritesMap Ref.text Defaults.Writes⟩,
   ⟨"code", RefMap Fragments, (·.code), WritesMap Ref.text Fragments.Writes⟩]

/-- How a registry can be written: its parts, entries and fields in any order, without those that
hold nothing, and with others among them. -/
def Writes : Registry → Json → Prop := WritesObject slots {}

theorem fits : Fits fields slots where
  distinct := by simp [slots]
  known := by
    intro slot hslot
    simp only [slots, List.mem_cons, List.not_mem_nil, or_false] at hslot
    rcases hslot with rfl | rfl
    · exact ⟨_, rfl, fun record now value h =>
        ⟨_, field_set ((Defaults.reads.map Ref.ofWord_read_text).reads h), rfl, by simp [slots]⟩⟩
    · exact ⟨_, rfl, fun record now value h =>
        ⟨_, field_set ((Fragments.reads.map Ref.ofWord_read_text).reads h), rfl, by simp [slots]⟩⟩
  keys := rfl
  ext := by
    rintro ⟨defaults, code⟩ ⟨defaults', code'⟩ same
    simpa [slots] using same

theorem reads : Reads ofJson Writes := fits.toReads {}

/-- **However a registry is written, it is read.** -/
theorem read_of_writes {registry : Registry} {value : Json} {text : String}
    (writes : registry.Writes value) (written : Json.Written value text) :
    read text = .ok registry := by
  rw [read, Json.read_of_written written]
  simp only [reads.reads writes]
  rfl

end Registry

end LateMarkup
