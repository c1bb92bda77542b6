import LateMarkup.Proofs.Placement
import LateMarkup.Proofs.TopDown

/-!
# Every fragment is used once

From the top down, each call of `annotate` has a ref of its own. Each fragment that it records goes
with one marker at the node (for a wrapper, with two around it), and no later call removes or
repeats that marker. So as many markers are written as there are fragments for the nodes that are
written (`Draft.Accounted`), and the passes, which meet each marker of the markup once, use each of
these fragments once. The fragments of a node that was cut out are not used at all.
-/

namespace LateMarkup

/-! ## The markers of a text -/

namespace Segment

theorem count_markersAt (site : Site) (m : Marker) (segments : List Segment) :
    (markersAt site segments).count m =
      if m.site = site then (markers segments).count m else 0 := by
  by_cases hsite : m.site = site
  · rw [if_pos hsite, markersAt, List.count_filter (by simpa using hsite)]
  · rw [if_neg hsite, List.count_eq_zero]
    exact fun h => hsite (mem_markersAt.mp h).2

/-- The three passes meet each marker of a text as often as it occurs. -/
theorem count_met (m : Marker) (segments : List Segment) :
    ([Site.attribute, .inner, .unrender].flatMap fun site => markersAt site segments).count m =
      (markers segments).count m := by
  simp only [List.flatMap_cons, List.flatMap_nil, List.count_append, count_markersAt]
  cases m <;> simp [Marker.site]

end Segment

/-! ## The markers of a node -/

def Label.markers : Label → List Marker
  | .element tag attributes =>
    Segment.markers (Forest.openingPart tag attributes ++ Forest.closingPart tag)
  | .text _ => []

theorem Label.markers_of_unmarked {tag : String} (free : Unmarked tag.toList)
    (attributes : Attributes) :
    (element tag attributes).markers = Segment.markers (Forest.attributesPart attributes) := by
  rw [markers, Forest.openingPart_eq (Or.inl free), Forest.closingPart_of_unmarked free]
  simp [Segment.markers]

theorem Label.markers_wrapper (ref : Ref) :
    (element (Marker.wrapperTag ref) []).markers = [.opening ref, .closing ref] := by
  rw [markers, Forest.openingPart_wrapper, Forest.closingPart_wrapper]
  rfl

namespace Forest

def markers (forest : Forest) : List Marker := Segment.markers forest.segments

/-- A marker is written as often as nodes have it. -/
theorem count_markers {forest : Forest} (texts : forest.All fun _ => Document.Childless)
    (m : Marker) :
    forest.markers.count m = forest.weigh fun _ label => label.markers.count m := by
  unfold markers
  induction forest with
  | nil => rfl
  | node id label children next ihChildren ihNext =>
      obtain ⟨childless, below, beside⟩ := texts
      rw [weigh, ← ihChildren below, ← ihNext beside]
      cases label with
      | text content =>
          rw [childless content rfl]
          show (Segment.markers next.segments).count m = 0 + (0 + _)
          rw [Nat.zero_add, Nat.zero_add]
      | element tag attributes =>
          rw [segments]
          split
          · next hvoid =>
              rw [Bool.and_eq_true, List.contains_iff_mem] at hvoid
              have hchildren : children = nil := by
                cases children with
                | nil => rfl
                | node _ _ _ _ => cases hvoid.1
              rw [Label.markers_of_unmarked (unmarked_of_mem_voidTags tag hvoid.2), hchildren]
              simp [segments, Segment.markers]
          · simp only [Label.markers, Segment.markers_append, List.count_append]
            omega

theorem markers_of_unmarked {forest : Forest} (free : Unmarked forest.markup.toList) :
    forest.markers = [] := by
  rw [List.eq_nil_iff_forall_not_mem]
  intro m hm
  obtain ⟨before, behind, heq⟩ := List.append_of_mem (Segment.mem_markers.mp hm)
  rw [← flatMap_source_segments, heq, List.flatMap_append, List.flatMap_cons] at free
  exact free.right.left (Marker.stem_infix_source m)

/-- An edit adds the markers that it puts at the edited node. -/
theorem count_markers_edit {forest : Forest} (nodup : forest.ids.Nodup)
    (texts : forest.All fun _ => Document.Childless) {id : Nat} {change : Label → Forest → Forest}
    (texts' : (forest.edit id change).All fun _ => Document.Childless) {extra : List Marker}
    (put : forest.All fun here label children => here = id → ∀ m,
      ((change label children).weigh fun _ label => label.markers.count m) =
        ((tree here label children).weigh fun _ label => label.markers.count m) + extra.count m)
    (m : Marker) :
    (forest.edit id change).markers.count m =
      forest.markers.count m + (if id ∈ forest.ids then extra.count m else 0) := by
  rw [count_markers texts, count_markers texts']
  have changed := weigh_edit nodup 0 (extra.count m) (put.mono fun _ _ _ hput heq => hput heq m)
  rwa [ite_self] at changed

/-! ## The markers of attributes -/

theorem markers_attributePart {name value : String} (free : Unmarked name.toList)
    (other : ∀ ref, value ≠ Marker.innerValue ref) :
    Segment.markers (attributePart name value) = [] := by
  have none : Marker.ofValue? value = none := by
    rw [Option.eq_none_iff_forall_ne_some]
    exact fun ref href => other ref (Marker.ofValue?_eq_some_iff.mp href)
  rw [attributePart, Marker.ofName?_of_unmarked free, none]
  rfl

theorem markers_remove {attributes : Attributes} {name : String}
    (bare : ∀ pair ∈ attributes, pair.1 = name →
      Segment.markers (attributePart pair.1 pair.2) = []) :
    Segment.markers (attributesPart (attributes.remove name)) =
      Segment.markers (attributesPart attributes) := by
  induction attributes with
  | nil => rfl
  | cons pair attributes ih =>
      obtain ⟨key, value⟩ := pair
      have tail := ih fun pair hpair => bare pair (List.mem_cons_of_mem _ hpair)
      unfold Attributes.remove at tail ⊢
      rw [List.filter_cons, attributesPart, Segment.markers_append]
      split
      · rw [attributesPart, Segment.markers_append, tail]
      · next hkey =>
          have heq : key = name := by simpa using hkey
          rw [bare (key, value) List.mem_cons_self heq, tail, List.nil_append]

theorem markers_removeEither {attributes : Attributes} {name : String}
    (free : Unmarked name.toList)
    (bare : ∀ pair ∈ attributes, Unmarked pair.1.toList →
      Segment.markers (attributePart pair.1 pair.2) = []) :
    Segment.markers (attributesPart (attributes.removeEither name)) =
      Segment.markers (attributesPart attributes) := by
  have first := markers_remove fun pair hpair heq => bare pair hpair (heq ▸ free)
  unfold Attributes.removeEither
  split
  · next other hother =>
      have known := AttributeName.unmarked_markup hother
      rw [markers_remove, first]
      exact fun pair hpair heq => bare pair (Attributes.mem_remove hpair) (heq ▸ known)
  · exact first

theorem markers_set {attributes : Attributes} {name : String} (value : String)
    (bare : ∀ pair ∈ attributes, pair.1 = name →
      Segment.markers (attributePart pair.1 pair.2) = []) :
    (Segment.markers (attributesPart (attributes.set name value))).Perm
      (Segment.markers (attributePart name value) ++
        Segment.markers (attributesPart attributes)) := by
  induction attributes with
  | nil => exact List.Perm.of_eq (Segment.markers_append _ _)
  | cons pair attributes ih =>
      obtain ⟨key, old⟩ := pair
      have tail := ih fun pair hpair => bare pair (List.mem_cons_of_mem _ hpair)
      rw [Attributes.set]
      split
      · next heq =>
          have none := bare (key, old) List.mem_cons_self heq
          rw [attributesPart, attributesPart, Segment.markers_append, Segment.markers_append, none,
            heq, List.nil_append]
      · rw [attributesPart, attributesPart, Segment.markers_append, Segment.markers_append]
        refine (tail.append_left _).trans ?_
        rw [← List.append_assoc, ← List.append_assoc]
        exact List.perm_append_comm.append_right _

end Forest

/-! ## What is recorded and what is written -/

namespace Draft

variable {raw : String} {original : Document} {nodes pending cut : List Nat} {started : List Step}
  {old new draft : Draft} {node : Nat} {ref : Ref} {declaration : Declaration}

/-- A change of a draft that puts markers at a node, and records their code. -/
structure Puts (node : Nat) (extra : List Marker) (old new : Draft) : Prop where
  holds : ∀ m, new.registry.Holds m ↔ m ∈ extra ∨ old.registry.Holds m
  code : ∀ ref ∈ new.registry.code, ref ∈ old.registry.code ∨ ∃ m ∈ extra, m.ref = ref
  count : ∀ m, new.document.roots.markers.count m = old.document.roots.markers.count m +
    (if node ∈ old.document.roots.ids then extra.count m else 0)

theorem Puts.of_code (code : new.registry.code = old.registry.code)
    (count : ∀ m, new.document.roots.markers.count m = old.document.roots.markers.count m) :
    old.Puts node [] new := by
  refine ⟨?_, ?_, ?_⟩
  · intro m
    rw [Registry.holds_congr code]
    exact (or_iff_right List.not_mem_nil).symm
  · intro ref href
    rw [code] at href
    exact Or.inl href
  · intro m
    rw [count, List.count_nil, ite_self, Nat.add_zero]

/-- The markers of a node in the document are written once for each fragment, and those of a node
that is not there are not written. All code belongs to some step. -/
structure Accounted (started : List Step) (draft : Draft) : Prop where
  count : ∀ step ∈ started, ∀ m : Marker, m.ref = step.ref →
    draft.document.roots.markers.count m =
      if step.node ∈ draft.document.roots.ids ∧ draft.registry.Holds m then 1 else 0
  code : ∀ ref ∈ draft.registry.code,
    (∃ step ∈ started, step.ref = ref) ∧ ∃ m : Marker, m.ref = ref ∧ draft.registry.Holds m

/-- A ref that some step uses, and always for this node. -/
def Belongs (started : List Step) (ref : Ref) (node : Nat) : Prop :=
  (∃ step ∈ started, step.ref = ref) ∧ ∀ step ∈ started, step.ref = ref → step.node = node

theorem Accounted.puts (h : old.Accounted started) (belongs : Belongs started ref node)
    {extra : List Marker} (puts : old.Puts node extra new) (nodup : extra.Nodup)
    (own : ∀ m ∈ extra, m.ref = ref ∧ ¬ old.registry.Holds m)
    (same : ∀ step ∈ started,
      step.node ∈ new.document.roots.ids ↔ step.node ∈ old.document.roots.ids) :
    new.Accounted started := by
  constructor
  · intro step hstep m hm
    rw [puts.count, h.count step hstep m hm]
    simp only [same step hstep, puts.holds]
    by_cases hmem : m ∈ extra
    · obtain ⟨href, lacks⟩ := own m hmem
      have hnode : step.node = node := belongs.2 step hstep (hm.symm.trans href)
      rw [hnode, List.count_eq_one_of_mem nodup hmem]
      simp [hmem, lacks]
    · rw [List.count_eq_zero.mpr hmem, ite_self, Nat.add_zero]
      simp only [hmem, false_or]
  · intro other hother
    rcases puts.code other hother with hold | ⟨m, hmem, rfl⟩
    · obtain ⟨hstep, m, hm, holds⟩ := h.code other hold
      exact ⟨hstep, m, hm, (puts.holds m).mpr (Or.inr holds)⟩
    · rw [(own m hmem).1]
      exact ⟨belongs.1, m, (own m hmem).1, (puts.holds m).mpr (Or.inl hmem)⟩

/-- A step under a new ref starts with nothing recorded and nothing marked. -/
theorem Accounted.start {step : Step} (h : draft.Accounted started) (backed : draft.Consistent)
    (fresh : ∀ other ∈ started, other.ref ≠ step.ref) :
    draft.Accounted (step :: started) ∧
      ∀ m : Marker, m.ref = step.ref → ¬ draft.registry.Holds m := by
  have lacks : ∀ m : Marker, m.ref = step.ref → ¬ draft.registry.Holds m := by
    intro m hm holds
    obtain ⟨⟨other, hother, href⟩, -⟩ := h.code m.ref (Registry.mem_code_of_holds holds)
    exact fresh other hother (href.trans hm)
  refine ⟨⟨?_, ?_⟩, lacks⟩
  · intro other hother m hm
    rcases List.mem_cons.mp hother with rfl | hother
    · rw [if_neg fun hand => lacks m hm hand.2, List.count_eq_zero]
      intro hmem
      exact lacks m hm
        (Forest.holds_of_mem_segments backed.document.roots (Segment.mem_markers.mp hmem))
    · exact h.count other hother m hm
  · intro ref href
    obtain ⟨⟨other, hother, heq⟩, some⟩ := h.code ref href
    exact ⟨⟨other, List.mem_cons_of_mem _ hother, heq⟩, some⟩

/-! ## One step -/

/-- The invariant: where nodes are, and how often their markers are written. -/
structure Tracked (raw : String) (original : Document) (nodes pending cut : List Nat)
    (started : List Step) (draft : Draft) : Prop where
  top : draft.TopDown raw original nodes pending
  placed : original.Placed cut draft.document
  accounted : draft.Accounted started
  known : ∀ step ∈ started, step.node < original.size
  differ : draft.settings.unrenderAttribute ≠ raw

theorem Tracked.labels (h : draft.Tracked raw original nodes pending cut started)
    (mem : node ∈ nodes) :
    draft.document.roots.All fun here label children => here = node →
      ∃ tag attributes, label = .element tag attributes ∧ Unmarked tag.toList ∧
        (∀ pair ∈ attributes, draft.registry.BacksAttribute pair.1 pair.2) ∧
        (∀ pair ∈ attributes, ∀ ref, pair.2 = Marker.innerValue ref →
          pair.1 = raw ∧ node ∉ pending) ∧
        (node ∈ pending → children = original.content node) := by
  refine (h.top.every.1.and h.top.consistent.document.roots).mono ?_
  rintro here label children ⟨kept, backed⟩ rfl
  obtain ⟨tag, attributes, rfl, free⟩ := kept.element mem
  refine ⟨tag, attributes, rfl, free, backed.1.2, ?_, kept.content⟩
  intro pair hpair ref hvalue
  refine ⟨kept.orderly.2 pair hpair ref hvalue, fun hpending => ?_⟩
  have bare := kept.values hpending pair hpair
  rw [hvalue] at bare
  exact Marker.not_unmarked_innerValue ref bare

theorem Tracked.count_mapAttributes (h : draft.Tracked raw original nodes pending cut started)
    (mem : node ∈ nodes) (change : Attributes → Attributes) (extra : List Marker)
    (put : ∀ attributes : Attributes,
      (∀ pair ∈ attributes, draft.registry.BacksAttribute pair.1 pair.2) →
      (∀ pair ∈ attributes, ∀ ref, pair.2 = Marker.innerValue ref →
        pair.1 = raw ∧ node ∉ pending) →
      (Segment.markers (Forest.attributesPart (change attributes))).Perm
        (extra ++ Segment.markers (Forest.attributesPart attributes))) (m : Marker) :
    (draft.document.mapAttributes node change).roots.markers.count m =
      draft.document.roots.markers.count m +
        (if node ∈ draft.document.roots.ids then extra.count m else 0) := by
  apply Forest.count_markers_edit h.placed.nodup h.placed.texts
    (h.placed.mapAttributes change).texts
  refine (h.labels mem).mono ?_
  intro here label children hlabel heq m
  obtain ⟨tag, attributes, rfl, free, backed, values, -⟩ := hlabel heq
  have perm := (put attributes backed values).count_eq m
  rw [List.count_append] at perm
  rw [Forest.weigh_tree, Forest.weigh_tree, Label.mapAttributes, Label.markers_of_unmarked free,
    Label.markers_of_unmarked free]
  omega

/-- A change that keeps everything in its place. -/
theorem Tracked.next {pending' : List Nat}
    (h : old.Tracked raw original nodes pending cut started)
    (top : new.TopDown raw original nodes pending') (placed : original.Placed cut new.document)
    (settings : new.settings = old.settings) (belongs : Belongs started ref node)
    {extra : List Marker} (puts : old.Puts node extra new) (nodup : extra.Nodup)
    (own : ∀ m ∈ extra, m.ref = ref ∧ ¬ old.registry.Holds m) :
    new.Tracked raw original nodes pending' cut started := by
  refine ⟨top, placed, h.accounted.puts belongs puts nodup own ?_, h.known, settings ▸ h.differ⟩
  intro step hstep
  have known := h.known step hstep
  rw [placed.stays _ known, h.placed.stays _ known]

/-! ### Attributes -/

theorem holds_overrideAttribute {name : String} {kind : AttributeOverride} {m : Marker} :
    (draft.overrideAttribute node ref name kind).registry.Holds m ↔
      m = .attribute ref name ∨ draft.registry.Holds m := by
  refine (draft.registry.adds_attribute ref name _).holds_iff.trans (or_congr_left ?_)
  simp [Marker.only]

theorem holds_overrideEach {overrides : List (String × AttributeOverride)} {m : Marker}
    (h : (draft.overrideEach node ref overrides).registry.Holds m) :
    m.site = .attribute ∨ draft.registry.Holds m := by
  induction overrides generalizing draft with
  | nil => exact Or.inr h
  | cons pair overrides ih =>
      have later : ((draft.overrideAttribute node ref pair.1 pair.2).overrideEach node ref
          overrides).registry.Holds m := h
      rcases ih later with hsite | first
      · exact Or.inl hsite
      · rcases holds_overrideAttribute.mp first with rfl | old
        · exact Or.inl rfl
        · exact Or.inr old

theorem tracked_overrideAttribute (h : draft.Tracked raw original nodes pending cut started)
    (belongs : Belongs started ref node) (apart : original.NotBelow node pending)
    (mem : node ∈ nodes) (here : node ∈ pending) {name : String} (plain : PlainName name)
    (key : Unmarked (RuntimeKey.label name).toList) (kind : AttributeOverride)
    (lacks : ¬ draft.registry.Holds (.attribute ref name)) :
    (draft.overrideAttribute node ref name kind).Tracked raw original nodes pending cut
      started := by
  have puts : draft.Puts node [.attribute ref name]
      (draft.overrideAttribute node ref name kind) := by
    refine ⟨?_, ?_, ?_⟩
    · intro m
      rw [holds_overrideAttribute, List.mem_singleton]
    · intro other hother
      rcases Registry.mem_code_modifyCode.mp hother with rfl | hold
      · exact Or.inr ⟨_, List.mem_singleton_self _, rfl⟩
      · exact Or.inl hold
    · apply h.count_mapAttributes mem _ [.attribute ref name]
      intro attributes backed values
      have bare : ∀ pair ∈ attributes, Unmarked pair.1.toList →
          Segment.markers (Forest.attributePart pair.1 pair.2) = [] := by
        intro pair hpair free
        apply Forest.markers_attributePart free
        exact fun other hvalue => (values pair hpair other hvalue).2 here
      -- The name of the marker is new, since the marker has no entry.
      have other : ∀ pair ∈ attributes.removeEither name,
          pair.1 = Marker.attributeName ref name →
            Segment.markers (Forest.attributePart pair.1 pair.2) = [] := by
        intro pair hpair hname
        have marked := Marker.ofName?_eq_some_iff.mpr hname
        rcases backed pair (Attributes.mem_removeEither hpair) with
          ⟨other, inner, hother, -, -, holds⟩ | ⟨free, -⟩
        · rw [Marker.ofName?_eq_some_iff.mpr hother] at marked
          cases marked
          exact absurd holds lacks
        · rw [Marker.ofName?_of_unmarked free] at marked
          cases marked
      have perm := Forest.markers_set "" other
      rwa [Forest.markers_removeEither plain.2 bare, Forest.attributePart_marker] at perm
  refine h.next (topDown_overrideAttribute h.top apart mem here plain key kind)
    (h.placed.mapAttributes _) rfl belongs puts (List.nodup_singleton _) ?_
  intro m hm
  rw [List.mem_singleton.mp hm]
  exact ⟨rfl, lacks⟩

theorem tracked_overrideEach {overrides : List (String × AttributeOverride)}
    (h : draft.Tracked raw original nodes pending cut started)
    (belongs : Belongs started ref node) (apart : original.NotBelow node pending)
    (mem : node ∈ nodes) (here : node ∈ pending)
    (plain : ∀ pair ∈ overrides,
      PlainName pair.1 ∧ Unmarked (RuntimeKey.label pair.1).toList)
    (distinct : (overrides.map Prod.fst).Nodup)
    (lacks : ∀ pair ∈ overrides, ¬ draft.registry.Holds (.attribute ref pair.1)) :
    (draft.overrideEach node ref overrides).Tracked raw original nodes pending cut started := by
  induction overrides generalizing draft with
  | nil => exact h
  | cons pair overrides ih =>
      obtain ⟨name, key⟩ := plain pair List.mem_cons_self
      rw [List.map_cons, List.nodup_cons] at distinct
      have first : (draft.overrideAttribute node ref pair.1 pair.2).Tracked raw original nodes
          pending cut started :=
        tracked_overrideAttribute h belongs apart mem here name key pair.2
          (lacks pair List.mem_cons_self)
      refine ih first (fun other hother => plain other (List.mem_cons_of_mem _ hother))
        distinct.2 ?_
      intro other hother holds
      rcases holds_overrideAttribute.mp holds with heq | old
      · obtain ⟨-, hname⟩ := Marker.attribute.inj heq
        exact distinct.1 (hname ▸ List.mem_map_of_mem hother)
      · exact lacks other (List.mem_cons_of_mem _ hother) old

theorem tracked_overrideAttributes (h : draft.Tracked raw original nodes pending cut started)
    (belongs : Belongs started ref node) (apart : original.NotBelow node pending)
    (mem : node ∈ nodes) (here : node ∈ pending) (plain : declaration.Plain)
    (keys : declaration.PlainKeys)
    (lacks : ∀ m : Marker, m.ref = ref → ¬ draft.registry.Holds m) :
    (draft.overrideAttributes node ref declaration).Tracked raw original nodes pending cut
      started := by
  apply tracked_overrideEach h belongs apart mem here
  · intro pair hpair
    have hname := Declaration.mem_attributes hpair
    exact ⟨plain _ hname, keys _ hname⟩
  · rw [Std.ExtTreeMap.map_fst_toList_eq_keys]
    exact Std.ExtTreeMap.nodup_keys
  · exact fun pair _ => lacks _ rfl

/-! ### Tags -/

theorem Tracked.count_setTag (h : draft.Tracked raw original nodes pending cut started)
    (mem : node ∈ nodes) {tag : String} (free : Unmarked tag.toList) (m : Marker) :
    (draft.document.setTag node tag).roots.markers.count m =
      draft.document.roots.markers.count m := by
  have put : draft.document.roots.All fun here label children => here = node → ∀ m,
      ((Forest.tree node (label.withTag tag) children).weigh fun _ label =>
        label.markers.count m) =
      ((Forest.tree here label children).weigh fun _ label => label.markers.count m) +
        [].count m := by
    refine (h.labels mem).mono ?_
    intro here label children hlabel heq m
    obtain ⟨old, attributes, rfl, known, -⟩ := hlabel heq
    rw [Forest.weigh_tree, Forest.weigh_tree, Label.withTag, Label.markers_of_unmarked free,
      Label.markers_of_unmarked known]
    rfl
  have counts := Forest.count_markers_edit h.placed.nodup h.placed.texts
    (h.placed.setTag tag).texts put m
  rwa [List.count_nil, ite_self, Nat.add_zero] at counts

theorem code_overrideTag :
    (draft.overrideTag node ref declaration).registry.code = draft.registry.code := by
  unfold overrideTag
  split <;> rfl

theorem code_overrideComponent :
    (draft.overrideComponent node ref declaration).registry.code = draft.registry.code := by
  unfold overrideComponent
  split <;> rfl

theorem tracked_setTag (h : draft.Tracked raw original nodes pending cut started)
    (belongs : Belongs started ref node) (apart : original.NotBelow node pending)
    (mem : node ∈ nodes) {tag : String} (free : Unmarked tag.toList)
    (change : Defaults → Defaults) :
    { draft with
      document := draft.document.setTag node tag
      registry := draft.registry.modifyDefaults ref change }.Tracked raw original nodes pending cut
        started := by
  have top := topDown_modifyDefaults (topDown_setTag h.top apart free) ref change
  refine h.next top (h.placed.setTag tag) rfl belongs ?_ List.nodup_nil nofun
  exact .of_code rfl (h.count_setTag mem free)

theorem tracked_overrideTag (h : draft.Tracked raw original nodes pending cut started)
    (belongs : Belongs started ref node) (apart : original.NotBelow node pending)
    (mem : node ∈ nodes) :
    (draft.overrideTag node ref declaration).Tracked raw original nodes pending cut started := by
  unfold overrideTag
  split
  · exact tracked_setTag h belongs apart mem
      (unmarked_dataExpr h.top.consistent.settings ref .tag) _
  · exact h

theorem tracked_overrideComponent (h : draft.Tracked raw original nodes pending cut started)
    (belongs : Belongs started ref node) (apart : original.NotBelow node pending)
    (mem : node ∈ nodes) :
    (draft.overrideComponent node ref declaration).Tracked raw original nodes pending cut
      started := by
  unfold overrideComponent
  split
  · exact tracked_setTag h belongs apart mem
      (unmarked_dataExpr h.top.consistent.settings ref .component) _
  · exact h

/-! ### Inner content -/

theorem holds_overrideInner {m : Marker}
    (h : (draft.overrideInner node ref declaration).registry.Holds m) :
    m.site = .inner ∨ draft.registry.Holds m := by
  unfold overrideInner at h
  split at h
  · rcases (draft.registry.adds_inner ref _).holds_iff.mp h with hfresh | old
    · obtain ⟨code, hcode⟩ := Option.isSome_iff_exists.mp hfresh
      rw [(Marker.eq_of_only hcode).1]
      exact Or.inl rfl
    · exact Or.inr old
  · exact Or.inr h

theorem Tracked.elements (h : draft.Tracked raw original nodes pending cut started)
    (mem : node ∈ nodes) : draft.document.Every fun id label _ =>
      id = node → ∃ tag attributes, label = .element tag attributes := by
  apply h.top.every.mono
  rintro id label children kept rfl
  obtain ⟨tag, attributes, rfl, -⟩ := kept.element mem
  exact ⟨tag, attributes, rfl⟩

theorem Tracked.placed_inner (h : draft.Tracked raw original nodes pending cut started)
    (regular : original.Regular) (inside : node ∈ original.roots.ids) (mem : node ∈ nodes)
    (here : node ∈ pending) (change : Attributes → Attributes) :
    original.Placed (node :: cut) ((draft.document.clear node).mapAttributes node change) := by
  apply Document.Placed.mapAttributes
  apply h.placed.clear regular inside (h.elements mem)
  apply h.top.every.1.mono
  rintro id label children kept rfl
  exact kept.content here

/-- Plain content is cut out, and one marker is written in its place. -/
theorem Tracked.count_inner (h : draft.Tracked raw original nodes pending cut started)
    (regular : original.Regular) (inside : node ∈ original.roots.ids) (mem : node ∈ nodes)
    (here : node ∈ pending) (free : Unmarked (original.contentMarkup node).toList) (m : Marker) :
    ((draft.document.clear node).mapAttributes node
        (Attributes.set draft.settings.rawContentAttribute
          (Marker.innerValue ref))).roots.markers.count m =
      draft.document.roots.markers.count m +
        (if node ∈ draft.document.roots.ids then [Marker.inner ref].count m else 0) := by
  let change := Label.mapAttributes
    (Attributes.set draft.settings.rawContentAttribute (Marker.innerValue ref))
  have roots : ((draft.document.clear node).relabel node change).roots =
      draft.document.roots.edit node fun label _ => Forest.tree node (change label) .nil := by
    show (draft.document.clear node).roots.edit node _ = _
    rw [Document.roots_clear (h.elements mem)]
    exact Forest.edit_emptied node change draft.document.roots
  have texts := (h.placed_inner regular inside mem here
    (Attributes.set draft.settings.rawContentAttribute (Marker.innerValue ref))).texts
  have rawFree := h.top.consistent.settings.rawContentAttribute
  have content : ∀ m, ((original.content node).weigh fun _ label => label.markers.count m) = 0 := by
    intro m
    rw [← Forest.count_markers (regular.texts_content node), Forest.markers_of_unmarked free]
    rfl
  show ((draft.document.clear node).relabel node change).roots.markers.count m = _
  rw [roots]
  apply Forest.count_markers_edit h.placed.nodup h.placed.texts (roots ▸ texts)
  refine (h.labels mem).mono ?_
  intro this label children hlabel heq m
  obtain ⟨tag, attributes, rfl, known, -, values, hcontent⟩ := hlabel heq
  have bare : ∀ pair ∈ attributes, pair.1 = draft.settings.rawContentAttribute →
      Segment.markers (Forest.attributePart pair.1 pair.2) = [] := by
    intro pair hpair hname
    apply Forest.markers_attributePart (hname ▸ rawFree)
    exact fun other hvalue => (values pair hpair other hvalue).2 here
  have perm := (Forest.markers_set (Marker.innerValue ref) bare).count_eq m
  rw [Forest.attributePart_inner rawFree, List.count_append] at perm
  have marked : (change (.element tag attributes)).markers = _ :=
    Label.markers_of_unmarked known _
  rw [Forest.weigh_tree, Forest.weigh_tree, hcontent here, content, marked, perm,
    Label.markers_of_unmarked known]
  show [Marker.inner ref].count m + _ + 0 = _
  omega

theorem tracked_overrideInner
    (h : draft.Tracked raw original nodes (node :: pending) cut started)
    (regular : original.Regular) (inside : node ∈ original.roots.ids)
    (belongs : Belongs started ref node) (apart : original.NotBelow node pending)
    (mem : node ∈ nodes) (done : node ∉ pending)
    (free : Unmarked (original.contentMarkup node).toList)
    (downward : ∀ step ∈ started, step.node ∉ (original.content node).ids)
    (lacks : ¬ draft.registry.Holds (.inner ref)) :
    (draft.overrideInner node ref declaration).Tracked raw original nodes pending
      (if declaration.inner then node :: cut else cut) started := by
  have top : (draft.overrideInner node ref declaration).TopDown raw original nodes pending :=
    topDown_overrideInner h.top apart mem done free
  have here : node ∈ node :: pending := List.mem_cons_self
  unfold overrideInner at top ⊢
  by_cases declared : declaration.inner = true
  · rw [if_pos declared] at top ⊢
    rw [if_pos declared]
    have placed := h.placed_inner regular inside mem here
      (Attributes.set draft.settings.rawContentAttribute (Marker.innerValue ref))
    refine ⟨top, placed, ?_, h.known, h.differ⟩
    refine h.accounted.puts belongs (?_ : draft.Puts node [.inner ref] _)
      (List.nodup_singleton _) ?_ ?_
    · refine ⟨?_, ?_, h.count_inner regular inside mem here free⟩
      · intro m
        refine (draft.registry.adds_inner ref _).holds_iff.trans (or_congr_left ?_)
        simp [Marker.only]
      · intro other hother
        rcases Registry.mem_code_modifyCode.mp hother with rfl | hold
        · exact Or.inr ⟨_, List.mem_singleton_self _, rfl⟩
        · exact Or.inl hold
    · intro m hm
      rw [List.mem_singleton.mp hm]
      exact ⟨rfl, lacks⟩
    · intro step hstep
      have known := h.known step hstep
      rw [placed.stays _ known, h.placed.stays _ known, List.forall_mem_cons,
        and_iff_right (downward step hstep)]
  · rw [if_neg declared] at top ⊢
    rw [if_neg declared]
    exact ⟨top, h.placed, h.accounted, h.known, h.differ⟩

/-! ### Wrappers -/

theorem tracked_takeWish (h : draft.Tracked raw original nodes pending cut started)
    (belongs : Belongs started ref node) (apart : original.NotBelow node pending)
    (mem : node ∈ nodes) :
    (draft.takeWish node ref).Tracked raw original nodes pending cut started := by
  have counts : ∀ m, (draft.takeWish node ref).document.roots.markers.count m =
      draft.document.roots.markers.count m := by
    intro m
    have put := h.count_mapAttributes mem (Attributes.remove draft.settings.unrenderAttribute) []
      ?_ m
    · rwa [List.count_nil, ite_self, Nat.add_zero] at put
    · intro attributes _ values
      refine .of_eq (Forest.markers_remove fun pair hpair hname => ?_)
      apply Forest.markers_attributePart (hname ▸ h.top.consistent.settings.unrenderAttribute)
      intro other hvalue
      exact h.differ (hname.symm.trans (values pair hpair other hvalue).1)
  exact h.next (topDown_takeWish h.top apart mem) (h.placed.mapAttributes _) rfl belongs
    (.of_code rfl counts) List.nodup_nil nofun

theorem tracked_surround (h : draft.Tracked raw original nodes pending cut started)
    (belongs : Belongs started ref node) (apart : original.NotBelow node pending)
    (mem : node ∈ nodes) (sub : ∀ id ∈ pending, id ∈ nodes)
    (lacks : ∀ m : Marker, m.ref = ref → m.site = .unrender → ¬ draft.registry.Holds m) :
    (draft.surround node ref).Tracked raw original nodes pending cut started := by
  have placed : original.Placed cut (draft.surround node ref).document :=
    h.placed.wrap node (Marker.wrapperTag ref)
  have puts : draft.Puts node [.opening ref, .closing ref] (draft.surround node ref) := by
    refine ⟨?_, ?_, ?_⟩
    · intro m
      refine (draft.registry.adds_guard ref _).holds_iff.trans (or_congr_left ?_)
      simp [Marker.only]
    · intro other hother
      rcases Registry.mem_code_modifyCode.mp hother with rfl | hold
      · exact Or.inr ⟨_, List.mem_cons_self, rfl⟩
      · exact Or.inl hold
    · apply Forest.count_markers_edit h.placed.nodup h.placed.texts placed.texts
      refine (h.labels mem).mono ?_
      intro here label children _ heq m
      rw [Forest.weigh_tree, Label.markers_wrapper, heq, Nat.add_comm]
  refine h.next (topDown_surround h.top apart mem sub) placed rfl belongs puts (by simp) ?_
  intro m hm
  rcases List.mem_cons.mp hm with rfl | hm
  · exact ⟨rfl, lacks _ rfl rfl⟩
  · rw [List.mem_singleton.mp hm]
    exact ⟨rfl, lacks _ rfl rfl⟩

theorem tracked_overrideUnrender (h : draft.Tracked raw original nodes pending cut started)
    (belongs : Belongs started ref node) (apart : original.NotBelow node pending)
    (mem : node ∈ nodes) (sub : ∀ id ∈ pending, id ∈ nodes)
    (lacks : ∀ m : Marker, m.ref = ref → m.site = .unrender → ¬ draft.registry.Holds m) :
    (draft.overrideUnrender node ref declaration).Tracked raw original nodes pending cut
      started := by
  unfold overrideUnrender
  split
  · exact tracked_surround (tracked_takeWish h belongs apart mem) belongs apart mem sub lacks
  · split
    · exact tracked_surround h belongs apart mem sub lacks
    · exact h

/-! ### A whole annotation -/

/-- **Annotating a pending node under a new ref keeps the invariant.** -/
theorem tracked_annotate {step : Step}
    (h : draft.Tracked raw original nodes (step.node :: pending) cut started)
    (regular : original.Regular) (inside : step.node ∈ original.roots.ids)
    (apart : original.NotBelow step.node (step.node :: pending)) (mem : step.node ∈ nodes)
    (sub : ∀ id ∈ pending, id ∈ nodes) (done : step.node ∉ pending)
    (free : Unmarked (original.contentMarkup step.node).toList)
    (plain : step.declaration.Plain) (keys : step.declaration.PlainKeys)
    (fresh : ∀ other ∈ started, other.ref ≠ step.ref)
    (downward : ∀ other ∈ started, other.node ∉ (original.content step.node).ids) :
    (draft.annotate step.node step.ref step.declaration).Tracked raw original nodes pending
      (if step.declaration.inner then step.node :: cut else cut) (step :: started) := by
  obtain ⟨accounted, lacks⟩ := h.accounted.start h.top.consistent fresh
  have known : ∀ other ∈ step :: started, other.node < original.size :=
    List.forall_mem_cons.mpr ⟨regular.bound _ inside, h.known⟩
  have begun : draft.Tracked raw original nodes (step.node :: pending) cut (step :: started) :=
    ⟨h.top, h.placed, accounted, known, h.differ⟩
  have belongs : Belongs (step :: started) step.ref step.node := by
    refine ⟨⟨step, List.mem_cons_self, rfl⟩, ?_⟩
    intro other hother href
    rcases List.mem_cons.mp hother with rfl | hother
    · rfl
    · exact absurd href (fresh other hother)
  have outside : ∀ other ∈ step :: started,
      other.node ∉ (original.content step.node).ids :=
    List.forall_mem_cons.mpr ⟨regular.notMem_content step.node, downward⟩
  have later : original.NotBelow step.node pending :=
    fun id hid => apart id (List.mem_cons_of_mem _ hid)
  let withAttributes := draft.overrideAttributes step.node step.ref step.declaration
  have first : withAttributes.Tracked raw original nodes (step.node :: pending) cut
      (step :: started) :=
    tracked_overrideAttributes begun belongs apart mem List.mem_cons_self plain keys lacks
  let withTag := withAttributes.overrideTag step.node step.ref step.declaration
  have second : withTag.Tracked raw original nodes (step.node :: pending) cut (step :: started) :=
    tracked_overrideTag first belongs apart mem
  let withComponent := withTag.overrideComponent step.node step.ref step.declaration
  have third : withComponent.Tracked raw original nodes (step.node :: pending) cut
      (step :: started) :=
    tracked_overrideComponent second belongs apart mem
  -- So far only fragments of attributes have been recorded.
  have recorded : ∀ m : Marker, m.ref = step.ref → withComponent.registry.Holds m →
      m.site = .attribute := by
    intro m hm holds
    have code : withComponent.registry.code = withAttributes.registry.code :=
      code_overrideComponent.trans code_overrideTag
    rcases holds_overrideEach ((Registry.holds_congr code).mp holds) with hsite | old
    · exact hsite
    · exact absurd old (lacks m hm)
  have unmarked : ¬ withComponent.registry.Holds (.inner step.ref) := by
    intro holds
    cases recorded _ rfl holds
  have fourth : (withComponent.overrideInner step.node step.ref step.declaration).Tracked raw
      original nodes pending (if step.declaration.inner then step.node :: cut else cut)
        (step :: started) :=
    tracked_overrideInner third regular inside belongs later mem done free outside unmarked
  refine tracked_overrideUnrender fourth belongs later mem sub ?_
  intro m hm hsite holds
  rcases holds_overrideInner holds with inner | old
  · rw [hsite] at inner
    cases inner
  · have other := recorded m hm old
    rw [hsite] at other
    cases other

/-! ## A run -/

/-- The nodes whose content some step replaces. -/
def cutOut (steps : List Step) : List Nat :=
  (steps.filter fun step => step.declaration.inner).map fun step => step.node

theorem cutOut_cons (step : Step) (steps : List Step) :
    cutOut (step :: steps) =
      if step.declaration.inner then step.node :: cutOut steps else cutOut steps := by
  unfold cutOut
  rw [List.filter_cons]
  split <;> rfl

theorem mem_cutOut {steps : List Step} {id : Nat} :
    id ∈ cutOut steps ↔ ∃ step ∈ steps, step.declaration.inner = true ∧ step.node = id := by
  simp [cutOut, and_assoc]

/-- A step that may come before another one: they have different refs, and its node is not below
that of the other. -/
def Step.Precedes (original : Document) (earlier later : Step) : Prop :=
  earlier.ref ≠ later.ref ∧ earlier.node ∉ (original.content later.node).ids

theorem tracked_run {steps : List Step}
    (h : draft.Tracked raw original nodes (steps.map (·.node)) (cutOut started) started)
    (regular : original.Regular) (inside : ∀ step ∈ steps, step.node ∈ original.roots.ids)
    (mem : ∀ step ∈ steps, step.node ∈ nodes) (once : (steps.map (·.node)).Nodup)
    (order : steps.Pairwise (Step.Precedes original))
    (behind : ∀ other ∈ started, ∀ step ∈ steps, other.Precedes original step)
    (free : ∀ id, Unmarked (original.contentMarkup id).toList)
    (plain : ∀ step ∈ steps, step.declaration.Plain ∧ step.declaration.PlainKeys) :
    (draft.run steps).Tracked raw original nodes [] (cutOut (steps.reverse ++ started))
      (steps.reverse ++ started) := by
  induction steps generalizing draft started with
  | nil => exact h
  | cons step steps ih =>
      rw [List.map_cons, List.nodup_cons] at once
      rw [List.pairwise_cons] at order
      have apart : original.NotBelow step.node (step.node :: steps.map (·.node)) := by
        intro id hid
        rcases List.mem_cons.mp hid with rfl | hid
        · exact regular.notMem_content _
        · obtain ⟨later, hlater, rfl⟩ := List.mem_map.mp hid
          exact (order.1 later hlater).2
      have sub : ∀ id ∈ steps.map (·.node), id ∈ nodes := by
        intro id hid
        obtain ⟨later, hlater, rfl⟩ := List.mem_map.mp hid
        exact mem later (List.mem_cons_of_mem _ hlater)
      have here : ∀ other ∈ started, other.Precedes original step :=
        fun other hother => behind other hother step List.mem_cons_self
      obtain ⟨names, keys⟩ := plain step List.mem_cons_self
      have first := tracked_annotate h regular (inside step List.mem_cons_self) apart
        (mem step List.mem_cons_self) sub once.1 (free step.node) names keys
        (fun other hother => (here other hother).1) fun other hother => (here other hother).2
      rw [← cutOut_cons] at first
      have all : (step :: steps).reverse ++ started = steps.reverse ++ (step :: started) := by
        rw [List.reverse_cons, List.append_assoc, List.singleton_append]
      rw [all]
      refine ih first (fun later hlater => inside later (List.mem_cons_of_mem _ hlater))
        (fun later hlater => mem later (List.mem_cons_of_mem _ hlater)) once.2 order.2 ?_
        fun later hlater => plain later (List.mem_cons_of_mem _ hlater)
      intro other hother later hlater
      rcases List.mem_cons.mp hother with rfl | hother
      · exact order.1 later hlater
      · exact behind other hother later (List.mem_cons_of_mem _ hlater)

/-- What it means that resolving a draft uses every fragment once. `passed` is what the passes meet
and leave, and `page` is what comes out. -/
structure UsedOnce (draft : Draft) (steps : List Step) (passed : Registry.Passed) (page : Page) :
    Prop where
  passes : draft.registry.passes [.attribute, .inner, .unrender] draft.document.markup.toList =
    .ok passed
  resolve : draft.resolve draft.document.markup = .ok page
  code : page.code = String.ofList passed.text
  once : ∀ step ∈ steps, step.node ∈ draft.document.roots.written →
    ∀ m : Marker, m.ref = step.ref →
      passed.met.count m = if draft.registry.Holds m then 1 else 0
  never : ∀ step ∈ steps, step.node ∉ draft.document.roots.written →
    ∀ m ∈ passed.met, m.ref ≠ step.ref
  unconsumed : ∀ ref, ref ∈ page.unconsumed ↔ ref ∈ draft.registry.code ∧
    ∃ step ∈ steps, step.ref = ref ∧ step.node ∉ draft.document.roots.written

/-- The markers that the passes meet are those that are written. -/
theorem Tracked.usedOnce (h : draft.Tracked raw original nodes pending cut started)
    {steps : List Step} (all : ∀ step, step ∈ started ↔ step ∈ steps) :
    ∃ passed page, draft.UsedOnce steps passed page := by
  have consistent := h.top.consistent
  have free := consistent.unmarked_filled (h.top.every.1.mono fun _ _ _ kept => kept.orderly)
    h.top.clean
  have passes := Registry.passes_of_unmarked (fun m hm => consistent.found hm) free
  have split : Segment.split draft.document.markup.toList =
      Segment.joined [] draft.document.roots.segments :=
    Forest.split_markup consistent.document.roots consistent.document.row
  have written : draft.document.roots.written = draft.document.roots.ids :=
    Forest.written_eq_ids h.placed.texts
  generalize hmet : ([Site.attribute, .inner, .unrender].flatMap fun site =>
    Segment.markersAt site (Segment.split draft.document.markup.toList)) = met at passes
  generalize (Segment.split draft.document.markup.toList).flatMap draft.registry.filled = text
    at passes free
  have count : ∀ m, met.count m = draft.document.roots.markers.count m := by
    intro m
    rw [← hmet, Segment.count_met, split, Segment.markers_joined]
    rfl
  have once : ∀ step ∈ steps, step.node ∈ draft.document.roots.ids →
      ∀ m : Marker, m.ref = step.ref →
        met.count m = if draft.registry.Holds m then 1 else 0 := by
    intro step hstep there m hm
    rw [count, h.accounted.count step ((all step).mpr hstep) m hm]
    simp only [there, true_and]
  have never : ∀ step ∈ steps, step.node ∉ draft.document.roots.ids →
      ∀ m ∈ met, m.ref ≠ step.ref := by
    intro step hstep gone m hmem hm
    rw [← List.count_pos_iff, count, h.accounted.count step ((all step).mpr hstep) m hm,
      if_neg fun hand => gone hand.1] at hmem
    exact Nat.lt_irrefl 0 hmem
  let unmet := draft.registry.code.keys.filter fun ref => !(met.map Marker.ref).contains ref
  have resolved : draft.resolve draft.document.markup =
      .ok ⟨String.ofList text, unmet, draft.settings, draft.registry⟩ := by
    rw [Draft.resolve, Registry.resolve_of_passes passes free]
    rfl
  refine ⟨_, _, passes, resolved, rfl, ?_, ?_, ?_⟩
  · rwa [written]
  · rwa [written]
  · intro ref
    show ref ∈ unmet ↔ _
    rw [written, List.mem_filter, Std.ExtTreeMap.mem_keys, Bool.not_eq_true',
      ← Bool.not_eq_true, List.contains_iff_mem, List.mem_map]
    refine and_congr_right fun hcode => ⟨fun unmet => ?_, ?_⟩
    · obtain ⟨⟨step, hstep, rfl⟩, m, hm, holds⟩ := h.accounted.code ref hcode
      have hstep := (all step).mp hstep
      refine ⟨step, hstep, rfl, fun there => unmet ⟨m, ?_, hm⟩⟩
      rw [← List.count_pos_iff, once step hstep there m hm, if_pos holds]
      exact Nat.one_pos
    · rintro ⟨step, hstep, rfl, gone⟩ ⟨m, hmem, hm⟩
      exact never step hstep gone m hmem hm

theorem tracked_start {settings : Settings} (plain : settings.Plain)
    (differ : settings.rawContentAttribute ≠ settings.unrenderAttribute) {doc : Document}
    (built : doc.Built) (free : Unmarked doc.markup.toList)
    (elements : ∀ id ∈ nodes, doc.IsElement id) :
    (start settings doc).Tracked settings.rawContentAttribute doc nodes nodes (cutOut []) [] := by
  refine ⟨topDown_start plain built free elements, built.regular.placed, ⟨nofun, ?_⟩, nofun,
    differ.symm⟩
  intro ref href
  simp [start] at href

/-- **Every fragment is used once.** When elements of a document without marker text are annotated
once each, under refs of their own and from the top down, resolving the markup uses each fragment of
a node that is written once, and none of the others. The refs that it reports are those with
fragments whose node is not written, and those nodes are the ones below replaced inner content. -/
theorem run_uses_once {settings : Settings} (plain : settings.Plain)
    (differ : settings.rawContentAttribute ≠ settings.unrenderAttribute) {doc : Document}
    (built : doc.Built) (free : Unmarked doc.markup.toList) {steps : List Step}
    (elements : ∀ step ∈ steps, doc.IsElement step.node)
    (once : (steps.map (·.node)).Nodup) (refs : (steps.map (·.ref)).Nodup)
    (downward : steps.Pairwise fun earlier later => earlier.node ∉ (doc.content later.node).ids)
    (names : ∀ step ∈ steps, step.declaration.Plain ∧ step.declaration.PlainKeys) :
    (∃ passed page, ((start settings doc).run steps).UsedOnce steps passed page) ∧
    ∀ step ∈ steps, step.node ∈ ((start settings doc).run steps).document.roots.written ↔
      ∀ above ∈ steps, above.declaration.inner = true →
        step.node ∉ (doc.content above.node).ids := by
  have regular := built.regular
  have begun : (start settings doc).Tracked settings.rawContentAttribute doc
      (steps.map (·.node)) (steps.map (·.node)) (cutOut []) [] := by
    apply tracked_start plain differ built free
    intro id hid
    obtain ⟨step, hstep, rfl⟩ := List.mem_map.mp hid
    exact elements step hstep
  have inside : ∀ step ∈ steps, step.node ∈ doc.roots.ids :=
    fun step hstep => regular.mem_of_isElement (elements step hstep)
  have order : steps.Pairwise (Step.Precedes doc) := (List.pairwise_map.mp refs).and downward
  have ended := tracked_run begun regular inside (fun step hstep => List.mem_map_of_mem hstep)
    once order nofun (regular.unmarked_content free) names
  rw [List.append_nil] at ended
  refine ⟨ended.usedOnce fun step => List.mem_reverse, ?_⟩
  intro step hstep
  have known := regular.bound _ (inside step hstep)
  rw [Forest.written_eq_ids ended.placed.texts, ended.placed.stays _ known,
    and_iff_right (inside step hstep)]
  constructor
  · intro outside above habove hinner
    exact outside _ (mem_cutOut.mpr ⟨above, List.mem_reverse.mpr habove, hinner, rfl⟩)
  · intro outside id hid
    obtain ⟨above, habove, hinner, rfl⟩ := mem_cutOut.mp hid
    exact outside above (List.mem_reverse.mp habove) hinner

def boxed : Document :=
  ((((({} : Document).addElement none "div" []).addElement (some 0) "p" [("class", "a")]).addElement
    (some 1) "em" []).addText 2 "x")

def inward : List Step :=
  [⟨0, ⟨"e0a", Ref.isValid_e0a⟩, { everything with inner := false }⟩,
    ⟨1, ⟨"e0b", Ref.isValid_e0b⟩, everything⟩, ⟨2, ⟨"e0c", Ref.isValid_e0c⟩, everything⟩]

theorem run_uses_once_inward :
    (∃ passed page, ((start {} boxed).run inward).UsedOnce inward passed page) ∧
      1 ∈ ((start {} boxed).run inward).document.roots.written ∧
      2 ∉ ((start {} boxed).run inward).document.roots.written := by
  have box : (({} : Document).addElement none "div" []).IsElement 0 := ⟨_, _, _, rfl⟩
  have built : boxed.Built :=
    .text (.element (.element (.element .empty (by simp) _ _) (by simpa using box) _ _)
      (by rintro _ ⟨⟩; exact ⟨_, _, _, rfl⟩) _ _) ⟨_, _, _, rfl⟩ _
  have free : Unmarked boxed.markup.toList := by decide
  have elements : ∀ step ∈ inward, boxed.IsElement step.node := by
    intro step hstep
    simp [inward] at hstep
    rcases hstep with rfl | rfl | rfl <;> exact ⟨_, _, _, rfl⟩
  have names : ∀ step ∈ inward, step.declaration.Plain ∧ step.declaration.PlainKeys := by
    intro step hstep
    have attributes : step.declaration.attributes = everything.attributes := by
      simp [inward] at hstep
      rcases hstep with rfl | rfl | rfl <;> rfl
    rw [Declaration.Plain, Declaration.PlainKeys, attributes]
    exact ⟨plain_everything, plainKeys_everything⟩
  obtain ⟨used, written⟩ := run_uses_once Settings.plain_default (by decide) built free elements
    (by decide) (by decide) (by decide) names
  refine ⟨used, ?_, ?_⟩
  · rw [written ⟨1, ⟨"e0b", by decide⟩, everything⟩ (by simp [inward])]
    decide
  · rw [written ⟨2, ⟨"e0c", by decide⟩, everything⟩ (by simp [inward])]
    decide

end Draft

end LateMarkup
