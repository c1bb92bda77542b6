import LateMarkup.Proofs.DirectMarkup

/-!
# Annotating from the top down

Here every node is annotated at most once, and before what is below it. Then the nodes that are
still to be annotated are as they were in the document from the start, with what is in them, so what
an override takes from a node holds no marker (`Draft.TopDown`). It follows that the recorded code
is clean, and that markers stand nowhere but in the tree.

So the code of a resolved run can be written directly from the tree and the registry.
-/

namespace LateMarkup

/-! ## Nodes -/

/-- What is known of a node while a document is annotated. `nodes` are all nodes that are annotated
in the run, and `pending` are those that come yet. -/
structure Document.Kept (raw : String) (doc : Document) (nodes pending : List Nat) (id : Nat)
    (label : Label) (children : Forest) : Prop where
  orderly : label.Orderly raw children
  element : id ∈ nodes → ∃ tag attributes, label = .element tag attributes ∧ Unmarked tag.toList
  values : id ∈ pending → ∀ pair ∈ label.attributes, Unmarked pair.2.toList
  content : id ∈ pending → children = doc.content id

namespace Document

def NotBelow (doc : Document) (node : Nat) (ids : List Nat) : Prop :=
  ∀ id ∈ ids, node ∉ (doc.content id).ids

variable {raw : String} {original doc : Document} {nodes pending : List Nat} {node : Nat}

theorem Kept.fewer {rest : List Nat} {id : Nat} {label : Label} {children : Forest}
    (h : original.Kept raw nodes pending id label children) (sub : ∀ id ∈ rest, id ∈ pending) :
    original.Kept raw nodes rest id label children :=
  ⟨h.orderly, h.element, fun hid => h.values (sub id hid), fun hid => h.content (sub id hid)⟩

/-- An edit of a node that is not below a pending one. -/
theorem Kept.below {change : Label → Forest → Forest}
    (face : ∀ label children, (change label children).rowText = label.face ∨
      (change label children).rowText = ['<'])
    (apart : original.NotBelow node pending) {id : Nat} {label : Label}
    {children : Forest} (h : original.Kept raw nodes pending id label children) :
    original.Kept raw nodes pending id label (children.edit node change) := by
  refine ⟨?_, h.element, h.values, ?_⟩
  · cases label with
    | text content => trivial
    | element tag attributes =>
        refine ⟨?_, h.orderly.2⟩
        intro ref htag
        obtain ⟨none, angles⟩ := h.orderly.1 ref htag
        exact ⟨none, Forest.angles_edit face angles⟩
  · -- The content of a pending node is that of the start, and the edited node is not in it.
    intro hid
    rw [h.content hid]
    exact Forest.edit_of_notMem (apart id hid)

theorem Every.relabel (h : doc.Every (original.Kept raw nodes pending))
    (apart : original.NotBelow node pending) {change : Label → Label}
    (face : ∀ label, (change label).face = label.face)
    (put : ∀ label children, original.Kept raw nodes pending node label children →
      original.Kept raw nodes pending node (change label) children) :
    (doc.relabel node change).Every (original.Kept raw nodes pending) := by
  apply h.edit
  · exact fun label children hnode below => ⟨put label children hnode, below, trivial⟩
  · refine fun _ _ _ hnode => hnode.below ?_ apart
    intro label children
    left
    show (change label).face ++ [] = label.face
    rw [List.append_nil, face]

theorem Every.mapAttributes (h : doc.Every (original.Kept raw nodes pending))
    (apart : original.NotBelow node pending) (mem : node ∈ nodes)
    {change : Attributes → Attributes}
    (put : ∀ attributes : Attributes, ∀ pair ∈ change attributes,
      pair ∈ attributes ∨ Unmarked pair.2.toList ∨ (pair.1 = raw ∧ node ∉ pending)) :
    (doc.mapAttributes node change).Every (original.Kept raw nodes pending) := by
  apply h.relabel apart
  · intro label
    cases label <;> rfl
  · intro label children hnode
    obtain ⟨tag, attributes, rfl, free⟩ := hnode.element mem
    refine ⟨⟨?_, ?_⟩, fun _ => ⟨tag, change attributes, rfl, free⟩, ?_, hnode.content⟩
    · rintro ref rfl
      exact absurd free (Marker.not_unmarked_wrapperTag ref)
    · intro pair hpair ref hvalue
      rcases put attributes pair hpair with old | free | ⟨hraw, -⟩
      · exact hnode.orderly.2 pair old ref hvalue
      · rw [hvalue] at free
        exact absurd free (Marker.not_unmarked_innerValue ref)
      · exact hraw
    · intro hpending pair hpair
      rcases put attributes pair hpair with old | free | ⟨-, done⟩
      · exact hnode.values hpending pair old
      · exact free
      · exact absurd hpending done

theorem Every.setTag (h : doc.Every (original.Kept raw nodes pending))
    (apart : original.NotBelow node pending) {tag : String}
    (free : Unmarked tag.toList) :
    (doc.setTag node tag).Every (original.Kept raw nodes pending) := by
  apply h.relabel apart
  · intro label
    cases label <;> rfl
  · intro label children hnode
    cases label with
    | text content => exact hnode
    | element old attributes =>
        refine ⟨⟨?_, hnode.orderly.2⟩, fun _ => ⟨tag, attributes, rfl, free⟩, hnode.values,
          hnode.content⟩
        rintro ref rfl
        exact absurd free (Marker.not_unmarked_wrapperTag ref)

/-- Cutting out what is in a node that is not pending any more. -/
theorem Every.clear (h : doc.Every (original.Kept raw nodes pending))
    (apart : original.NotBelow node pending) (mem : node ∈ nodes)
    (done : node ∉ pending) : (doc.clear node).Every (original.Kept raw nodes pending) := by
  unfold Document.clear
  split
  · next found =>
      have emptied : (doc.edit node fun label _ => Forest.tree node label .nil).Every
          (original.Kept raw nodes pending) := by
        apply h.edit
        · intro label children hnode _
          obtain ⟨tag, attributes, rfl, free⟩ := hnode.element mem
          refine ⟨⟨⟨?_, hnode.orderly.2⟩, hnode.element, hnode.values, ?_⟩, trivial, trivial⟩
          · rintro ref rfl
            exact absurd free (Marker.not_unmarked_wrapperTag ref)
          · exact fun hpending => absurd hpending done
        · refine fun _ _ _ hnode => hnode.below ?_ apart
          exact fun label children => Or.inl (List.append_nil _)
      exact ⟨emptied.1, Forest.all_append.mpr ⟨emptied.2, (h.find? found).2⟩⟩
  · exact h

theorem Every.wrap (h : doc.Every (original.Kept raw nodes pending))
    (apart : original.NotBelow node pending) (mem : node ∈ nodes)
    (sub : ∀ id ∈ pending, id ∈ nodes) (fresh : doc.size ∉ nodes) (tag : String) :
    (doc.wrap node tag).Every (original.Kept raw nodes pending) := by
  have wrapped : (doc.edit node fun label children => Forest.tree doc.size (.element tag [])
      (Forest.tree node label children)).Every (original.Kept raw nodes pending) := by
    apply h.edit
    · intro label children hnode below
      refine ⟨⟨⟨fun _ _ => ⟨rfl, ?_⟩, nofun⟩, ?_, ?_, ?_⟩, ⟨hnode, below, trivial⟩, trivial⟩
      · obtain ⟨inside, attributes, rfl, -⟩ := hnode.element mem
        show ∀ c ∈ ['<'], c = '<'
        exact fun c hc => List.mem_singleton.mp hc
      · exact fun hsize => absurd hsize fresh
      · exact fun hsize => absurd (sub _ hsize) fresh
      · exact fun hsize => absurd (sub _ hsize) fresh
    · refine fun _ _ _ hnode => hnode.below ?_ apart
      exact fun label children => Or.inr rfl
  exact wrapped

end Document

/-! ## Drafts -/

theorem Registry.Adds.clean {fresh : Marker → Option String} {old new : Registry}
    (adds : Adds fresh old new) (clean : old.Clean)
    (fit : ∀ m code, fresh m = some code → m.Fits code.toList) : new.Clean := by
  intro m code hcode
  rcases adds.cases_of_code? hcode with hfresh | hold
  · exact fit m code hfresh
  · exact clean m code hold

/-- A declaration about attributes whose names make no marker text in the keys of the run-time data.
-/
def Declaration.PlainKeys (declaration : Declaration) : Prop :=
  ∀ name ∈ declaration.attributes, Unmarked (RuntimeKey.label name).toList

namespace Draft

/-- The invariant of annotating from the top down. -/
structure TopDown (raw : String) (original : Document) (nodes pending : List Nat) (draft : Draft) :
    Prop where
  consistent : draft.Consistent
  clean : draft.registry.Clean
  rawContent : draft.settings.rawContentAttribute = raw
  every : draft.document.Every (original.Kept raw nodes pending)
  bound : ∀ id ∈ nodes, id < draft.document.size

variable {raw : String} {original : Document} {nodes pending : List Nat} {draft : Draft}
  {node : Nat} {ref : Ref} {declaration : Declaration}

theorem TopDown.fewer (h : draft.TopDown raw original nodes (node :: pending)) :
    draft.TopDown raw original nodes pending := by
  refine ⟨h.consistent, h.clean, h.rawContent, h.every.mono fun _ _ _ hnode => ?_, h.bound⟩
  exact hnode.fewer fun _ => List.mem_cons_of_mem node

theorem TopDown.value (h : draft.TopDown raw original nodes pending) (here : node ∈ pending)
    (name : String) :
    Unmarked (((draft.document.attributes node).valueOfEither? name).getD "").toList := by
  cases hvalue : (draft.document.attributes node).valueOfEither? name with
  | none => exact Unmarked.nil
  | some value =>
      obtain ⟨key, hmem⟩ := Attributes.mem_of_valueOfEither? hvalue
      unfold Document.attributes Document.label at hmem
      split at hmem
      · next found => exact (h.every.find? found).1.values here (key, value) hmem
      · cases hmem

/-- The static form of inner content that is overridden. -/
theorem TopDown.contentMarkup (h : draft.TopDown raw original nodes pending)
    (here : node ∈ pending) (free : Unmarked (original.contentMarkup node).toList) :
    Unmarked (draft.document.contentMarkup node).toList := by
  unfold Document.contentMarkup Document.content
  split
  · next found =>
      rw [(h.every.find? found).1.content here]
      exact free
  · exact Unmarked.nil

/-! ### One step -/

theorem topDown_overrideAttribute (h : draft.TopDown raw original nodes pending)
    (apart : original.NotBelow node pending) (mem : node ∈ nodes)
    (here : node ∈ pending) {name : String} (plain : PlainName name)
    (key : Unmarked (RuntimeKey.label name).toList) (kind : AttributeOverride) :
    (draft.overrideAttribute node ref name kind).TopDown raw original nodes pending := by
  have adds := draft.registry.adds_attribute ref name
    (Fragment.ofAttribute draft.settings ref name
      ((draft.document.attributes node).valueOfEither? name) kind
      ((draft.document.attributes node).hasEither name) false)
  refine ⟨consistent_overrideAttribute h.consistent plain kind, adds.clean h.clean ?_,
    h.rawContent, ?_, h.bound⟩
  · intro m code hcode
    obtain ⟨rfl, rfl⟩ := Marker.eq_of_only hcode
    exact Fragment.unmarked_ofAttribute h.consistent.settings.avoids key plain.2
      (h.value here name)
  · apply h.every.mapAttributes apart mem
    intro attributes pair hpair
    rcases Attributes.mem_set hpair with rfl | hpair
    · exact Or.inr (Or.inl Unmarked.nil)
    · exact Or.inl (Attributes.mem_removeEither hpair)

theorem topDown_overrideEach {overrides : List (String × AttributeOverride)}
    (h : draft.TopDown raw original nodes pending)
    (apart : original.NotBelow node pending) (mem : node ∈ nodes)
    (here : node ∈ pending)
    (plain : ∀ pair ∈ overrides,
      PlainName pair.1 ∧ Unmarked (RuntimeKey.label pair.1).toList) :
    (draft.overrideEach node ref overrides).TopDown raw original nodes pending := by
  induction overrides generalizing draft with
  | nil => exact h
  | cons pair overrides ih =>
      obtain ⟨name, key⟩ := plain pair List.mem_cons_self
      have first : (draft.overrideAttribute node ref pair.1 pair.2).TopDown raw original nodes
          pending :=
        topDown_overrideAttribute h apart mem here name key pair.2
      exact ih first fun other hother => plain other (List.mem_cons_of_mem _ hother)

theorem topDown_overrideAttributes (h : draft.TopDown raw original nodes pending)
    (apart : original.NotBelow node pending) (mem : node ∈ nodes)
    (here : node ∈ pending) (plain : declaration.Plain) (keys : declaration.PlainKeys) :
    (draft.overrideAttributes node ref declaration).TopDown raw original nodes pending := by
  apply topDown_overrideEach h apart mem here
  intro pair hpair
  have hname := Declaration.mem_attributes hpair
  exact ⟨plain _ hname, keys _ hname⟩

theorem topDown_modifyDefaults (h : draft.TopDown raw original nodes pending) (ref : Ref)
    (change : Defaults → Defaults) :
    { draft with registry := draft.registry.modifyDefaults ref change }.TopDown raw original nodes
      pending :=
  ⟨consistent_modifyDefaults h.consistent ref change, h.clean, h.rawContent, h.every, h.bound⟩

theorem topDown_setTag (h : draft.TopDown raw original nodes pending)
    (apart : original.NotBelow node pending) {tag : String}
    (free : Unmarked tag.toList) :
    { draft with document := draft.document.setTag node tag }.TopDown raw original nodes pending :=
  ⟨consistent_setTag h.consistent node free, h.clean, h.rawContent, h.every.setTag apart free,
    h.bound⟩

theorem topDown_overrideTag (h : draft.TopDown raw original nodes pending)
    (apart : original.NotBelow node pending) :
    (draft.overrideTag node ref declaration).TopDown raw original nodes pending := by
  unfold overrideTag
  split
  · exact topDown_modifyDefaults
      (topDown_setTag h apart (unmarked_dataExpr h.consistent.settings ref .tag)) ref _
  · exact h

theorem topDown_overrideComponent (h : draft.TopDown raw original nodes pending)
    (apart : original.NotBelow node pending) :
    (draft.overrideComponent node ref declaration).TopDown raw original nodes pending := by
  unfold overrideComponent
  split
  · exact topDown_modifyDefaults
      (topDown_setTag h apart (unmarked_dataExpr h.consistent.settings ref .component)) ref _
  · exact h

/-- Inner content is taken as it was at the start, and with that the node is not pending any more.
-/
theorem topDown_overrideInner (h : draft.TopDown raw original nodes (node :: pending))
    (apart : original.NotBelow node pending) (mem : node ∈ nodes)
    (done : node ∉ pending) (free : Unmarked (original.contentMarkup node).toList) :
    (draft.overrideInner node ref declaration).TopDown raw original nodes pending := by
  have consistent : (draft.overrideInner node ref declaration).Consistent :=
    consistent_overrideInner h.consistent
  unfold overrideInner at consistent ⊢
  split
  · next declared =>
      rw [if_pos declared] at consistent
      have adds := draft.registry.adds_inner ref
        (Fragment.ofInner draft.settings ref (draft.document.contentMarkup node))
      refine ⟨consistent, adds.clean h.clean ?_, h.rawContent, ?_, ?_⟩
      · intro m code hcode
        obtain ⟨rfl, rfl⟩ := Marker.eq_of_only hcode
        have captured := h.contentMarkup List.mem_cons_self free
        show Unmarked ("=" ++ _).toList
        rw [String.toList_append]
        exact (unmarked_cons (c := '=') (by decide)).mpr
          (Fragment.unmarked_ofInner h.consistent.settings.avoids captured)
      · -- The content may go only when the node is not pending any more.
        apply (h.fewer.every.clear apart mem done).mapAttributes apart mem
        intro attributes pair hpair
        rcases Attributes.mem_set hpair with rfl | hpair
        · exact Or.inr (Or.inr ⟨h.rawContent, done⟩)
        · exact Or.inl hpair
      · intro id hid
        show id < (draft.document.clear node).size
        rw [Document.size_clear]
        exact h.bound id hid
  · exact h.fewer

theorem topDown_takeWish (h : draft.TopDown raw original nodes pending)
    (apart : original.NotBelow node pending) (mem : node ∈ nodes) :
    (draft.takeWish node ref).TopDown raw original nodes pending := by
  refine ⟨consistent_takeWish h.consistent, h.clean, h.rawContent, ?_, h.bound⟩
  apply h.every.mapAttributes apart mem
  exact fun attributes pair hpair => Or.inl (Attributes.mem_remove hpair)

theorem topDown_surround (h : draft.TopDown raw original nodes pending)
    (apart : original.NotBelow node pending) (mem : node ∈ nodes)
    (sub : ∀ id ∈ pending, id ∈ nodes) :
    (draft.surround node ref).TopDown raw original nodes pending := by
  have adds := draft.registry.adds_guard ref (Fragment.guard draft.settings ref
    ((draft.document.parent? node).map draft.document.tag))
  have fresh : draft.document.size ∉ nodes := fun hsize => Nat.lt_irrefl _ (h.bound _ hsize)
  refine ⟨consistent_surround h.consistent, adds.clean h.clean ?_, h.rawContent,
    h.every.wrap apart mem sub fresh _, fun id hid => Nat.lt_succ_of_lt (h.bound id hid)⟩
  intro m code hcode
  rcases Option.or_eq_some_iff.mp hcode with hopening | ⟨-, hclosing⟩
  · obtain ⟨rfl, rfl⟩ := Marker.eq_of_only hopening
    intro before behind hbefore hbehind
    exact Fragment.unmarked_guard_opening h.consistent.settings.avoids hbefore hbehind
  · obtain ⟨rfl, rfl⟩ := Marker.eq_of_only hclosing
    exact fun behind hbehind => Fragment.unmarked_guard_closing hbehind

theorem topDown_overrideUnrender (h : draft.TopDown raw original nodes pending)
    (apart : original.NotBelow node pending) (mem : node ∈ nodes)
    (sub : ∀ id ∈ pending, id ∈ nodes) :
    (draft.overrideUnrender node ref declaration).TopDown raw original nodes pending := by
  unfold overrideUnrender
  split
  · exact topDown_surround (topDown_takeWish h apart mem) apart mem sub
  · split
    · exact topDown_surround h apart mem sub
    · exact h

/-- **Annotating a pending node keeps the invariant for the others.** -/
theorem topDown_annotate (h : draft.TopDown raw original nodes (node :: pending)) (ref : Ref)
    (apart : original.NotBelow node (node :: pending)) (mem : node ∈ nodes)
    (sub : ∀ id ∈ pending, id ∈ nodes) (done : node ∉ pending)
    (free : Unmarked (original.contentMarkup node).toList) (plain : declaration.Plain)
    (keys : declaration.PlainKeys) :
    (draft.annotate node ref declaration).TopDown raw original nodes pending := by
  have later : original.NotBelow node pending :=
    fun id hid => apart id (List.mem_cons_of_mem node hid)
  refine topDown_overrideUnrender ?_ later mem sub
  refine topDown_overrideInner ?_ later mem done free
  refine topDown_overrideComponent ?_ apart
  refine topDown_overrideTag ?_ apart
  exact topDown_overrideAttributes h apart mem List.mem_cons_self plain keys

/-! ### A run -/

theorem topDown_run {steps : List Step}
    (h : draft.TopDown raw original nodes (steps.map (·.node)))
    (mem : ∀ step ∈ steps, step.node ∈ nodes) (once : (steps.map (·.node)).Nodup)
    (downward : steps.Pairwise fun earlier later =>
      earlier.node ∉ (original.content later.node).ids)
    (apart : ∀ id, id ∉ (original.content id).ids)
    (free : ∀ id, Unmarked (original.contentMarkup id).toList)
    (plain : ∀ step ∈ steps, step.declaration.Plain ∧ step.declaration.PlainKeys) :
    (draft.run steps).TopDown raw original nodes [] := by
  induction steps generalizing draft with
  | nil => exact h
  | cons step steps ih =>
      rw [List.map_cons, List.nodup_cons] at once
      rw [List.pairwise_cons] at downward
      have notBelow : original.NotBelow step.node (step.node :: steps.map (·.node)) := by
        intro id hid
        rcases List.mem_cons.mp hid with rfl | hid
        · exact apart _
        · obtain ⟨later, hlater, rfl⟩ := List.mem_map.mp hid
          exact downward.1 later hlater
      have sub : ∀ id ∈ steps.map (·.node), id ∈ nodes := by
        intro id hid
        obtain ⟨later, hlater, rfl⟩ := List.mem_map.mp hid
        exact mem later (List.mem_cons_of_mem _ hlater)
      obtain ⟨names, keys⟩ := plain step List.mem_cons_self
      have first := topDown_annotate h step.ref notBelow (mem step List.mem_cons_self) sub once.1
        (free step.node) names keys
      exact ih first (fun later hlater => mem later (List.mem_cons_of_mem _ hlater)) once.2
        downward.2 fun later hlater => plain later (List.mem_cons_of_mem _ hlater)

theorem topDown_start {settings : Settings} (plain : settings.Plain) {doc : Document}
    (built : doc.Built) (free : Unmarked doc.markup.toList)
    (elements : ∀ id ∈ nodes, doc.IsElement id) :
    (start settings doc).TopDown settings.rawContentAttribute doc nodes nodes := by
  have regular := built.regular
  have known := (Forest.all_plain regular.texts free).and (Forest.all_find? regular.nodup)
  refine ⟨consistent_start plain built free, ?_, rfl, ⟨known.mono ?_, ?_⟩, ?_⟩
  · intro m code hcode
    simp [start, Registry.code?] at hcode
  · rintro id label children ⟨⟨hlabel, -⟩, hid⟩
    have element : id ∈ nodes → ∃ tag attributes, label = .element tag attributes := by
      intro hmem
      obtain ⟨tag, attributes, below, found⟩ := elements id hmem
      rw [regular.find?, hid] at found
      cases found
      exact ⟨tag, attributes, rfl⟩
    have values : ∀ pair ∈ label.attributes, Unmarked pair.2.toList := by
      intro pair hpair
      cases label with
      | text content => cases hpair
      | element tag attributes => exact unmarked_of_spellValue (hlabel.2 pair hpair).2
    refine ⟨?_, ?_, fun _ => values, ?_⟩
    · cases label with
      | text content => trivial
      | element tag attributes =>
          constructor
          · rintro ref rfl
            exact absurd hlabel.1 (Marker.not_unmarked_wrapperTag ref)
          · intro pair hpair ref hvalue
            have bare := values pair hpair
            rw [hvalue] at bare
            exact absurd bare (Marker.not_unmarked_innerValue ref)
    · intro hmem
      obtain ⟨tag, attributes, rfl⟩ := element hmem
      exact ⟨tag, attributes, rfl, hlabel.1⟩
    · intro hmem
      obtain ⟨tag, attributes, rfl⟩ := element hmem
      rw [Document.content, regular.find?, hid]
  · show doc.detached.All _
    rw [regular.detached]
    trivial
  · intro id hid
    exact regular.bound id (regular.mem_of_isElement (elements id hid))

/-- **Resolving a run writes the annotated tree.** When elements of a document without marker text
are annotated once each, from the top down, the markup of the result can be resolved, and what comes
out is the tree with the recorded code in the place of every marker. -/
theorem resolve_run_eq_direct {settings : Settings} (plain : settings.Plain) {doc : Document}
    (built : doc.Built) (free : Unmarked doc.markup.toList) {steps : List Step}
    (elements : ∀ step ∈ steps, doc.IsElement step.node)
    (once : (steps.map (·.node)).Nodup)
    (downward : steps.Pairwise fun earlier later => earlier.node ∉ (doc.content later.node).ids)
    (names : ∀ step ∈ steps, step.declaration.Plain ∧ step.declaration.PlainKeys) :
    ∃ page, ((start settings doc).run steps).resolve
        ((start settings doc).run steps).document.markup = .ok page ∧
      ((start settings doc).run steps).registry.direct settings.rawContentAttribute
        ((start settings doc).run steps).document.roots = some page.code := by
  have regular := built.regular
  have content : ∀ id, Unmarked (doc.contentMarkup id).toList := by
    intro id
    have nodes := (Forest.all_plain regular.texts free).mono (fun _ _ _ hnode => hnode.2)
    exact regular.content (P := fun _ content => Unmarked content.markup.toList) nodes Unmarked.nil
  have begun : (start settings doc).TopDown settings.rawContentAttribute doc
      (steps.map (·.node)) (steps.map (·.node)) := by
    apply topDown_start plain built free
    intro id hid
    obtain ⟨step, hstep, rfl⟩ := List.mem_map.mp hid
    exact elements step hstep
  have ended := topDown_run begun (fun step hstep => List.mem_map_of_mem hstep) once downward
    regular.notMem_content content names
  exact ended.consistent.resolve_eq_direct
    (ended.every.1.mono fun _ _ _ hnode => hnode.orderly) ended.clean

theorem plainKeys_everything : everything.PlainKeys := by
  intro name hname
  rw [eq_of_mem_everything hname]
  decide

def bullets : Document :=
  (((({} : Document).addElement none "ul" [("class", "a")]).addElement (some 0) "li" []).addText 1
    "x")

/-- First the list, which keeps its content, and then the item. -/
def outwardIn : List Step :=
  [⟨0, ⟨"e0a", Ref.isValid_e0a⟩, { everything with inner := false }⟩,
    ⟨1, ⟨"e0b", Ref.isValid_e0b⟩, everything⟩]

theorem resolve_outwardIn :
    ∃ page, ((start {} bullets).run outwardIn).resolve
        ((start {} bullets).run outwardIn).document.markup = .ok page ∧
      ((start {} bullets).run outwardIn).registry.direct "dangerouslySetInnerHTML"
        ((start {} bullets).run outwardIn).document.roots = some page.code := by
  have list : (({} : Document).addElement none "ul" [("class", "a")]).IsElement 0 :=
    ⟨_, _, _, rfl⟩
  have built : bullets.Built :=
    .text (.element (.element .empty (by simp) _ _) (by simpa using list) _ _) ⟨_, _, _, rfl⟩ _
  have free : Unmarked bullets.markup.toList := by decide
  have elements : ∀ step ∈ outwardIn, bullets.IsElement step.node := by
    intro step hstep
    simp [outwardIn] at hstep
    rcases hstep with rfl | rfl <;> exact ⟨_, _, _, rfl⟩
  have names : ∀ step ∈ outwardIn, step.declaration.Plain ∧ step.declaration.PlainKeys := by
    intro step hstep
    have attributes : step.declaration.attributes = everything.attributes := by
      simp [outwardIn] at hstep
      rcases hstep with rfl | rfl <;> rfl
    rw [Declaration.Plain, Declaration.PlainKeys, attributes]
    exact ⟨plain_everything, plainKeys_everything⟩
  exact resolve_run_eq_direct Settings.plain_default built free elements (by decide) (by decide)
    names

end Draft

end LateMarkup
