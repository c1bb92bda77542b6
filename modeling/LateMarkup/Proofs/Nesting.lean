import LateMarkup.Proofs.Consistency
import LateMarkup.Proofs.Numbering
import LateMarkup.Proofs.Seams

/-!
# Wrappers nest

The two markers of a wrapper are exchanged one by one, wherever they are found, so it must not
depend on luck that each opening one has its closing one. They nest (`Marker.Nested`) because they
are written around the markup of a tree: `Forest.guards` lists them in written order, and nests by
its recursion. What has to be shown is that a splitter finds these markers in the markup and no
others (`Forest.markersAt_markup`).

For this no tag of a wrapper may start anywhere else in the markup, and no wrapper may have got an
attribute or another tag. That is so as long as only nodes of the first document are annotated
(`Draft.Fenced`): the wrappers that come about are newer than all of them.
-/

namespace LateMarkup

/-! ## Nesting -/

/-- Markers of wrappers of which each opening one has its closing one, around markers that nest. -/
inductive Marker.Nested : List Marker → Prop where
  | nil : Nested []
  | wrap (ref : Ref) {inside after : List Marker} :
      Nested inside → Nested after → Nested (.opening ref :: (inside ++ .closing ref :: after))

theorem Marker.Nested.append {a b : List Marker} (ha : Nested a) (hb : Nested b) :
    Nested (a ++ b) := by
  induction ha with
  | nil => exact hb
  | wrap ref hinside _ _ ih =>
      rw [List.cons_append, List.append_assoc, List.cons_append]
      exact .wrap ref hinside ih

namespace Forest

def guards : Forest → List Marker
  | nil => []
  | node _ (.text _) _ next => next.guards
  | node _ (.element tag _) children next =>
    match Marker.ofTag? tag with
    | some ref => .opening ref :: (children.guards ++ .closing ref :: next.guards)
    | none => children.guards ++ next.guards

theorem nested_guards (forest : Forest) : Marker.Nested forest.guards := by
  induction forest with
  | nil => exact .nil
  | node id label children next ihChildren ihNext =>
      cases label with
      | text content => exact ihNext
      | element tag attributes =>
          rw [guards]
          split
          · exact .wrap _ ihChildren ihNext
          · exact ihChildren.append ihNext

/-! ## What is written -/

/-- A statement about every node that has a part in the markup. What hangs below a text has none. -/
def AllShown (P : Nat → Label → Prop) : Forest → Prop
  | nil => True
  | node id label children next =>
    P id label ∧ (label.isElement = true → children.AllShown P) ∧ next.AllShown P

variable {P Q : Nat → Label → Prop}

theorem AllShown.mono {forest : Forest} (h : forest.AllShown P)
    (hP : ∀ id label, P id label → Q id label) : forest.AllShown Q := by
  induction forest with
  | nil => trivial
  | node id label children next ihChildren ihNext =>
      exact ⟨hP id label h.1, fun element => ihChildren (h.2.1 element), ihNext h.2.2⟩

theorem allShown_append {a b : Forest} : (a ++ b).AllShown P ↔ a.AllShown P ∧ b.AllShown P := by
  induction a with
  | nil => exact (and_iff_right trivial).symm
  | node id label children next _ ih =>
      rw [node_append, AllShown, AllShown, ih, and_assoc, and_assoc]

/-- An edit keeps a statement about what is written if it keeps it at the edited node. -/
theorem AllShown.edit {forest : Forest} (h : forest.AllShown P) {id : Nat}
    {change : Label → Forest → Forest}
    (put : forest.All fun here label children => here = id → P id label →
      (label.isElement = true → children.AllShown P) → (change label children).AllShown P) :
    (forest.edit id change).AllShown P := by
  induction forest with
  | nil => trivial
  | node here label children next ihChildren ihNext =>
      obtain ⟨hhere, below, beside⟩ := h
      obtain ⟨hput, putBelow, putBeside⟩ := put
      rw [Forest.edit]
      split
      · next heq =>
          subst heq
          exact allShown_append.mpr ⟨hput rfl hhere below, beside⟩
      · exact ⟨hhere, fun element => ihChildren (below element) putBelow,
          ihNext beside putBeside⟩

end Forest

/-! ## Quiet labels -/

/-- Attributes in which no tag of a wrapper starts. -/
def Attributes.Quiet (attributes : Attributes) : Prop :=
  ∀ pair ∈ attributes,
    Untagged pair.1.toList ∧ Untagged (pair.2.toList.flatMap Forest.spellValueChar)

def Label.Quiet : Label → Prop
  | .text _ => True
  | .element tag attributes => Unmarked tag.toList ∧ attributes.Quiet

theorem Label.Plain.quiet {label : Label} (plain : label.Plain) : label.Quiet := by
  cases label with
  | text content => trivial
  | element tag attributes =>
      refine ⟨plain.1, fun pair hpair => ?_⟩
      obtain ⟨hname, hvalue⟩ := plain.2 pair hpair
      exact ⟨untagged_of_unmarked hname, untagged_of_unmarked hvalue⟩

/-- A wrapper as it is made. -/
def Label.Wraps (label : Label) : Prop := ∃ ref, label = .element (Marker.wrapperTag ref) []

/-- The tags of wrappers end with an underscore. -/
theorem Untagged.append_slash {text : List Char} (free : Untagged text) :
    Untagged (text ++ ['/']) := by
  have slash : '_' ∉ ['/'] := by decide
  exact ⟨fun h => free.1 (infix_append_of_last_notMem (p := "<__OVERRIDE".toList) slash h),
    fun h => free.2 (infix_append_of_last_notMem (p := "</__OVERRIDE".toList) slash h)⟩

theorem untagged_attributesMarkup {attributes : Attributes} (quiet : attributes.Quiet)
    {before : List Char} (free : Untagged before) :
    Untagged (before ++ (Forest.attributesMarkup attributes).toList) := by
  induction attributes generalizing before with
  | nil => rwa [Forest.attributesMarkup, String.toList_empty, List.append_nil]
  | cons first rest ih =>
      obtain ⟨name, value⟩ := first
      obtain ⟨hname, hvalue⟩ := quiet _ List.mem_cons_self
      have nothing : Untagged [] := untagged_of_notMem List.not_mem_nil
      have blank : ' ' ∉ '<' :: '/' :: Marker.stem.toList := by decide
      have equals : '=' ∉ '<' :: '/' :: Marker.stem.toList := by decide
      have quote : '"' ∉ '<' :: '/' :: Marker.stem.toList := by decide
      rw [Forest.toList_attributesMarkup_cons, ← List.append_assoc]
      apply ih fun pair hpair => quiet pair (List.mem_cons_of_mem _ hpair)
      rw [Forest.toList_attributesMarkup_single, untagged_append_cons blank,
        untagged_append_cons equals]
      refine ⟨free, hname, ?_⟩
      rw [← List.nil_append ('"' :: _), untagged_append_cons quote, untagged_append_cons quote]
      exact ⟨nothing, hvalue, nothing⟩

theorem untagged_tag {tag : String} (free : Unmarked tag.toList) :
    Untagged ('<' :: tag.toList) ∧ Untagged ('<' :: '/' :: tag.toList) := by
  have slash : Unmarked ('/' :: tag.toList) := (unmarked_cons (by decide)).mpr free
  exact ⟨untagged_of_unmarked ((unmarked_cons (by decide)).mpr free),
    untagged_of_unmarked ((unmarked_cons (by decide)).mpr slash)⟩

namespace Forest

open Segment

theorem notMem_textMarkup (content : String) : '<' ∉ (textMarkup content).toList := by
  rw [textMarkup, String.toList_ofList, List.mem_flatMap]
  rintro ⟨c, -, mem⟩
  unfold spellTextChar at mem
  split at mem
  · revert mem
    decide
  · split at mem
    · revert mem
      decide
    · split at mem
      · revert mem
        decide
      · next h _ => exact h (List.mem_singleton.mp mem).symm

/-- Where there is no marker text in the markup, all that is written is quiet. -/
theorem allShown_quiet {forest : Forest} (free : Unmarked forest.markup.toList) :
    forest.AllShown fun id label => id ∈ forest.ids ∧ label.Quiet := by
  induction forest with
  | nil => trivial
  | node id label children next ihChildren ihNext =>
      rw [ids]
      cases label with
      | text content =>
          rw [markup, String.toList_append] at free
          refine ⟨⟨List.mem_cons_self, trivial⟩, (by cases ·), (ihNext free.right).mono ?_⟩
          exact fun x _ h => ⟨List.mem_cons_of_mem _ (List.mem_append_right _ h.1), h.2⟩
      | element tag attributes =>
          rw [markup, String.toList_append] at free
          obtain ⟨plain, inner⟩ := plain_of_elementMarkup free.left
          refine ⟨⟨List.mem_cons_self, plain.quiet⟩, fun _ => (ihChildren inner).mono ?_,
            (ihNext free.right).mono ?_⟩
          · exact fun x _ h => ⟨List.mem_cons_of_mem _ (List.mem_append_left _ h.1), h.2⟩
          · exact fun x _ h => ⟨List.mem_cons_of_mem _ (List.mem_append_right _ h.1), h.2⟩

theorem markersAt_element {tag : String} {attributes : Attributes} (free : Unmarked tag.toList)
    (quiet : attributes.Quiet) {children : Forest} (rest : List Char)
    (inside : ∀ rest, markersAt .unrender (split (children.markup.toList ++ rest)) =
      children.guards ++ markersAt .unrender (split rest)) :
    markersAt .unrender (split ((elementMarkup tag attributes children.isEmpty
      children.markup).toList ++ rest)) =
        children.guards ++ markersAt .unrender (split rest) := by
  have close : '>' ∉ '<' :: '/' :: Marker.stem.toList := by decide
  obtain ⟨opening, closing⟩ := untagged_tag free
  have start := untagged_attributesMarkup quiet opening
  rw [toList_elementMarkup]
  split
  · next hollow =>
      have frame : '<' :: (tag.toList ++ ((attributesMarkup attributes).toList ++ ['/', '>'])) ++
          rest = ('<' :: tag.toList ++ (attributesMarkup attributes).toList ++ ['/']) ++
            '>' :: rest := by
        simp
      rw [frame, markersAt_append_of_untagged close start.append_slash]
      cases children with
      | nil => rfl
      | node _ _ _ _ => cases hollow
  · have frame : '<' :: (tag.toList ++ ((attributesMarkup attributes).toList ++
        '>' :: (children.markup.toList ++ '<' :: '/' :: (tag.toList ++ ['>'])))) ++ rest =
          ('<' :: tag.toList ++ (attributesMarkup attributes).toList) ++
            '>' :: (children.markup.toList ++ ('<' :: '/' :: tag.toList ++ '>' :: rest)) := by
      simp
    rw [frame, markersAt_append_of_untagged close start, inside,
      markersAt_append_of_untagged close closing]

theorem markersAt_wrapper (ref : Ref) {children : Forest} (rest : List Char)
    (inside : ∀ rest, markersAt .unrender (split (children.markup.toList ++ rest)) =
      children.guards ++ markersAt .unrender (split rest)) :
    markersAt .unrender (split ((elementMarkup (Marker.wrapperTag ref) [] children.isEmpty
      children.markup).toList ++ rest)) =
        .opening ref :: (children.guards ++ .closing ref :: markersAt .unrender (split rest)) := by
  have frame : (elementMarkup (Marker.wrapperTag ref) [] children.isEmpty
      children.markup).toList ++ rest = (Marker.opening ref).source ++
        (children.markup.toList ++ ((Marker.closing ref).source ++ rest)) := by
    rw [toList_elementMarkup, if_neg (not_void_wrapper children ref)]
    simp [attributesMarkup, Marker.source]
  rw [frame, markersAt_source (.opening ref) .unrender trivial rfl, inside,
    markersAt_source (.closing ref) .unrender trivial rfl]

/-- **What a splitter finds of the wrappers in the markup of a row.** -/
theorem markersAt_markup {forest : Forest}
    (framed : forest.AllShown fun _ label => label.Quiet ∨ label.Wraps) (rest : List Char) :
    markersAt .unrender (split (forest.markup.toList ++ rest)) =
      forest.guards ++ markersAt .unrender (split rest) := by
  induction forest generalizing rest with
  | nil => rfl
  | node id label children next ihChildren ihNext =>
      obtain ⟨hlabel, below, beside⟩ := framed
      cases label with
      | text content =>
          rw [markup, String.toList_append, List.append_assoc,
            markersAt_append_of_notMem (notMem_textMarkup content), ihNext beside]
          rfl
      | element tag attributes =>
          rw [markup, String.toList_append, List.append_assoc, guards]
          rcases hlabel with ⟨free, quiet⟩ | ⟨ref, hwrapper⟩
          · rw [markersAt_element free quiet _ (ihChildren (below rfl)), ihNext beside,
              Marker.ofTag?_of_unmarked free, List.append_assoc]
          · cases hwrapper
            rw [markersAt_wrapper ref _ (ihChildren (below rfl)), ihNext beside,
              Marker.ofTag?_eq_some_iff.mpr rfl]
            simp

end Forest

/-! ## Annotating quietly -/

namespace Label.Quiet

variable {label : Label}

theorem mapAttributes (h : label.Quiet) {change : Attributes → Attributes}
    (keeps : ∀ attributes : Attributes, attributes.Quiet → (change attributes).Quiet) :
    (label.mapAttributes change).Quiet := by
  cases label with
  | text content => trivial
  | element tag attributes => exact ⟨h.1, keeps attributes h.2⟩

theorem withTag (h : label.Quiet) {tag : String} (free : Unmarked tag.toList) :
    (label.withTag tag).Quiet := by
  cases label with
  | text content => trivial
  | element old attributes => exact ⟨free, h.2⟩

end Label.Quiet

namespace Attributes.Quiet

variable {attributes : Attributes}

theorem set (h : attributes.Quiet) {name value : String} (hname : Untagged name.toList)
    (hvalue : Untagged (value.toList.flatMap Forest.spellValueChar)) :
    (attributes.set name value).Quiet := by
  intro pair hpair
  rcases mem_set hpair with rfl | hpair
  · exact ⟨hname, hvalue⟩
  · exact h pair hpair

theorem remove (h : attributes.Quiet) (name : String) : (attributes.remove name).Quiet :=
  fun pair hpair => h pair (mem_remove hpair)

theorem removeEither (h : attributes.Quiet) (name : String) :
    (attributes.removeEither name).Quiet :=
  fun pair hpair => h pair (mem_removeEither hpair)

end Attributes.Quiet

namespace Marker

theorem untagged_attributeName (ref : Ref) {name : String} (hname : '<' ∉ name.toList) :
    Untagged (attributeName ref name).toList := by
  have href : '<' ∉ ref.text.toList := fun mem => absurd (Ref.isTailChar_of_mem mem) (by decide)
  apply untagged_of_notMem
  rw [toList_attributeName]
  simp only [List.mem_append, not_or]
  exact ⟨by decide, href, by decide, hname⟩

theorem untagged_innerValue (ref : Ref) :
    Untagged ((innerValue ref).toList.flatMap Forest.spellValueChar) := by
  have href : '<' ∉ ref.text.toList := fun mem => absurd (Ref.isTailChar_of_mem mem) (by decide)
  apply untagged_of_notMem
  rw [Forest.spellValue_innerValue, toList_innerValue, List.mem_append, not_or]
  exact ⟨by decide, href⟩

end Marker

namespace Effect

variable (settings : Settings) (ref : Ref) (declaration : Declaration) {effect : Effect}

theorem quiet_overrideEach {overrides : List (String × AttributeOverride)}
    (quiet : effect.label.Quiet) (names : ∀ pair ∈ overrides, '<' ∉ pair.1.toList) :
    (effect.overrideEach settings ref overrides).label.Quiet := by
  induction overrides generalizing effect with
  | nil => exact quiet
  | cons first rest ih =>
      obtain ⟨name, kind⟩ := first
      have hname := Marker.untagged_attributeName ref (names _ List.mem_cons_self)
      have first : (effect.overrideAttribute settings ref name kind).label.Quiet :=
        quiet.mapAttributes fun _ h =>
          (h.removeEither name).set hname (untagged_of_notMem List.not_mem_nil)
      exact ih first fun pair hpair => names pair (List.mem_cons_of_mem _ hpair)

/-- A declaration leaves a node quiet if its names do. -/
theorem quiet_ofDeclaration {settings : Settings} (plain : settings.Plain)
    (names : ∀ name ∈ declaration.attributes, '<' ∉ name.toList) (sight : Sight)
    (quiet : sight.label.Quiet) : (ofDeclaration settings ref declaration sight).label.Quiet := by
  have seen : ({ label := sight.label } : Effect).label.Quiet := quiet
  apply label_ofDeclaration settings ref declaration sight
  · exact quiet_overrideEach settings ref seen fun pair hpair =>
      names pair.1 (Declaration.mem_attributes hpair)
  · exact fun _ h => h.withTag (Draft.unmarked_dataExpr plain ref .tag)
  · exact fun _ h => h.withTag (Draft.unmarked_dataExpr plain ref .component)
  · exact fun _ h => h.mapAttributes fun _ h =>
      h.set (untagged_of_unmarked plain.rawContentAttribute) (Marker.untagged_innerValue ref)
  · exact fun _ h => h.mapAttributes fun _ h => h.remove _

end Effect

/-! ## A run -/

namespace Draft

/-- Of the nodes that are written, those with numbers below `old` are quiet, and the others are
wrappers as they were made. -/
structure Fenced (old : Nat) (draft : Draft) : Prop where
  settings : draft.settings.Plain
  numbered : draft.document.Numbered
  within : old ≤ draft.document.size
  shown : draft.document.roots.AllShown fun id label =>
    (id < old → label.Quiet) ∧ (old ≤ id → label.Wraps)

variable {old : Nat} {draft : Draft}

/-- **Annotating an old node keeps the fence.** -/
theorem fenced_annotate (h : draft.Fenced old) {step : Step} (hnode : step.node < old)
    (names : ∀ name ∈ step.declaration.attributes, '<' ∉ name.toList) :
    (draft.annotate step.node step.ref step.declaration).Fenced old := by
  have made : step.node < draft.document.size := Nat.lt_of_lt_of_le hnode h.within
  have stands := h.numbered.stands made
  rw [annotate_eq_enact stands]
  obtain ⟨kind, wrapper⟩ := Effect.frame_ofDeclaration draft.settings step.ref step.declaration
    (draft.document.sight step.node)
  have quiet := Effect.quiet_ofDeclaration step.ref step.declaration h.settings names
    (draft.document.sight step.node)
  generalize Effect.ofDeclaration draft.settings step.ref step.declaration
    (draft.document.sight step.node) = effect at kind wrapper quiet ⊢
  refine ⟨h.settings, h.numbered.enact made effect, ?_, ?_⟩
  · exact Nat.le_trans h.within (draft.document.size_le_enact step.node effect)
  · obtain ⟨at_, -⟩ := Forest.all_append.mp (Document.all_at step.node stands.nodup)
    refine h.shown.edit (at_.mono fun here label children at_ heq hlabel below => ?_)
    obtain ⟨rfl, -⟩ := at_ heq
    have kept : (Forest.tree step.node effect.label
        (if effect.emptied then .nil else children)).AllShown fun id label =>
          (id < old → label.Quiet) ∧ (old ≤ id → label.Wraps) := by
      refine ⟨⟨fun _ => quiet (hlabel.1 hnode), fun new => absurd hnode (Nat.not_lt.mpr new)⟩,
        fun element => ?_, trivial⟩
      split
      · trivial
      · exact below (kind.symm.trans element)
    unfold Effect.put
    rcases wrapper with wrapper | wrapper
    · rw [wrapper]
      exact kept
    · rw [wrapper]
      exact ⟨⟨fun lower => absurd lower (Nat.not_lt.mpr h.within), fun _ => ⟨step.ref, rfl⟩⟩,
        fun _ => kept, trivial⟩

theorem fenced_run {steps : List Step} (h : draft.Fenced old)
    (nodes : ∀ step ∈ steps, step.node < old)
    (names : ∀ step ∈ steps, ∀ name ∈ step.declaration.attributes, '<' ∉ name.toList) :
    (draft.run steps).Fenced old := by
  induction steps generalizing draft with
  | nil => exact h
  | cons step steps ih =>
      have first := fenced_annotate h (nodes step List.mem_cons_self)
        (names step List.mem_cons_self)
      exact ih first (fun other hother => nodes other (List.mem_cons_of_mem _ hother))
        fun other hother => names other (List.mem_cons_of_mem _ hother)

theorem fenced_start {settings : Settings} (plain : settings.Plain) {doc : Document}
    (numbered : doc.Numbered) (free : Unmarked doc.markup.toList) :
    (start settings doc).Fenced doc.size := by
  refine ⟨plain, numbered, Nat.le_refl _, ?_⟩
  refine (Forest.allShown_quiet free).mono fun id label ⟨mem, quiet⟩ => ?_
  have whole : id ∈ doc.whole.ids := Document.mem_whole_of_mem_roots mem
  exact ⟨fun _ => quiet, fun new => absurd (numbered.lt_size whole) (Nat.not_lt.mpr new)⟩

/-- **The markers of wrappers nest.** When any nodes of a document without marker text are
annotated, in any order and under any refs, the markers of wrappers that are found in the markup
nest. It is enough that no declared name holds a `<`. -/
theorem nested_after_run {settings : Settings} (plain : settings.Plain)
    {operations : List Document.Operation} (permitted : Document.PermitsAll {} operations)
    (free : Unmarked (Document.performAll {} operations).markup.toList) {steps : List Step}
    (nodes : ∀ step ∈ steps, step.node < (Document.performAll {} operations).size)
    (names : ∀ step ∈ steps, ∀ name ∈ step.declaration.attributes, '<' ∉ name.toList) :
    Marker.Nested (Segment.markersAt .unrender (Segment.split
      ((start settings (.performAll {} operations)).run steps).document.markup.toList)) := by
  have numbered := Document.numbered_performAll permitted
  have fenced := fenced_run (fenced_start plain numbered free) nodes names
  have framed := fenced.shown.mono
    fun id label h => (Nat.lt_or_ge id (Document.performAll {} operations).size).imp h.1 h.2
  have found := Forest.markersAt_markup framed []
  rw [List.append_nil, Segment.split] at found
  rw [Document.markup, found]
  exact (Forest.nested_guards _).append .nil

def items : List Document.Operation :=
  [.element none "ul" [("class", "a")], .element (some 0) "li" [], .element (some 0) "li" [],
    .text 1 "x", .text 3 "y", .wrap 2 "b"]

def classed : Declaration where
  attributes := (∅ : NameMap AttributeOverride).insert "class" .update
  unrender := true

/-- The items are made to be left out, one of them twice, and then the list, all under one ref. -/
def leaveOut : List Step :=
  [⟨1, ⟨"e0a", Ref.isValid_e0a⟩, { unrender := true }⟩,
    ⟨2, ⟨"e0a", Ref.isValid_e0a⟩, { unrender := true }⟩,
    ⟨1, ⟨"e0a", Ref.isValid_e0a⟩, { unrender := true }⟩,
    ⟨0, ⟨"e0a", Ref.isValid_e0a⟩, classed⟩]

theorem nested_after_leaveOut : Marker.Nested (Segment.markersAt .unrender (Segment.split
    ((start {} (.performAll {} items)).run leaveOut).document.markup.toList)) := by
  have free : Unmarked (Document.performAll {} items).markup.toList := by decide
  have names : ∀ step ∈ leaveOut, ∀ name ∈ step.declaration.attributes, '<' ∉ name.toList := by
    intro step hstep name hname
    simp only [leaveOut, List.mem_cons, List.not_mem_nil, or_false] at hstep
    rcases hstep with rfl | rfl | rfl | rfl
    · simp at hname
    · simp at hname
    · simp at hname
    · simp [classed] at hname
      rw [← hname]
      decide
  exact nested_after_run Settings.plain_default (by decide) free (by decide) names

end Draft

end LateMarkup
