import LateMarkup.Proofs.LiteralReading
import LateMarkup.Proofs.Consistency
import LateMarkup.Proofs.Seams
import LateMarkup.Proofs.Surroundings

/-!
# Captured content

The content of a node that is overridden is captured as markup, and from then on it stands in a
template literal. The second pass writes the literal out, and the third pass goes over it. Where no
wrapper was captured, that pass finds nothing in it, so the literal is read as what was captured
(`Draft.captured_is_read`), whatever was annotated before and after.

Where a wrapper was captured, its markers are exchanged inside the literal, and the code that comes
in is not escaped. A dollar sign in front of a wrapper then opens an interpolation
(`Draft.dollar_interpolates`).
-/

namespace LateMarkup

/-! ## Passes over the marker of inner content -/

namespace Registry

variable {registry : Registry} {site : Site} {ref : Ref}

theorem substitute_inner {name rest out : List Char} (free : Unmarked name)
    (h : registry.substitute site (' ' :: (name ++ ((Marker.inner ref).source ++ rest))) =
      .ok out) :
    ∃ front back, registry.exchange site (.marker (.inner ref)) = .ok front ∧
      registry.substitute site rest = .ok back ∧ out = ' ' :: (name ++ (front ++ back)) := by
  have stops : Segment.Stops (' ' :: name) ((Marker.inner ref).source ++ rest) := by
    rintro c ⟨⟩
    exact Or.inl rfl
  have plain : Unmarked (' ' :: name) := (unmarked_cons (by decide)).mpr free
  have proper : (Marker.inner ref).Proper := trivial
  rw [← List.cons_append, substitute_text (List.cons_ne_nil _ _) plain stops, map_eq_ok] at h
  obtain ⟨text, htext, rfl⟩ := h
  rw [substitute_marker proper] at htext
  obtain ⟨front, hfront, htext⟩ := bind_eq_ok.mp htext
  obtain ⟨back, hback, htext⟩ := bind_eq_ok.mp htext
  cases htext
  exact ⟨front, back, hfront, hback, rfl⟩

/-- **The passes over the marker of inner content.** It becomes its code, if no wrapper is there. -/
theorem becomes_inner {name rest out : List Char} (free : Unmarked name) {code : String}
    (held : registry.code? (.inner ref) = some code)
    (none : ∀ m : Marker, m.site = .unrender → ¬ m.source <:+: ' ' :: (name ++ code.toList))
    (last : ∃ front d, code.toList = front ++ [d] ∧ Marker.Foreign d)
    (h : registry.Becomes [.attribute, .inner, .unrender]
      (' ' :: (name ++ ((Marker.inner ref).source ++ rest))) out) :
    ∃ behind, registry.Becomes [.attribute, .inner, .unrender] rest behind ∧
      out = ' ' :: (name ++ (code.toList ++ behind)) := by
  obtain ⟨first, hfirst, h⟩ := becomes_cons.mp h
  obtain ⟨second, hsecond, h⟩ := becomes_cons.mp h
  obtain ⟨third, hthird, met, hend⟩ := becomes_cons.mp h
  cases hend
  -- The first pass leaves the marker, the second exchanges it, and the third leaves its code.
  obtain ⟨marker, firstRest, hmarker, hfirstRest, rfl⟩ := substitute_inner free hfirst
  cases hmarker
  obtain ⟨front, secondRest, hfront, hsecondRest, rfl⟩ := substitute_inner free hsecond
  have exchanged : registry.exchange .inner (.marker (.inner ref)) = .ok code.toList := by
    show (registry.replacement (.inner ref)).map String.toList = _
    rw [replacement_eq, held]
    rfl
  rw [exchanged] at hfront
  cases hfront
  have ends : ∀ c ∈ (' ' :: (name ++ code.toList)).getLast?, ∀ m : Marker, m.site = .unrender →
      c ∉ m.source := by
    intro c hc m wrapper
    obtain ⟨front, d, hcode, foreign⟩ := last
    rw [hcode, ← List.append_assoc, ← List.cons_append, List.getLast?_concat] at hc
    cases hc
    exact foreign.notMem (by rw [wrapper]; decide)
  rw [← List.append_assoc, ← List.cons_append, substitute_unrender_append none ends,
    map_eq_ok] at hthird
  obtain ⟨behind, hbehind, rfl⟩ := hthird
  refine ⟨behind, ?_, by simp⟩
  exact becomes_cons.mpr ⟨_, hfirstRest, becomes_cons.mpr ⟨_, hsecondRest,
    becomes_cons.mpr ⟨_, hbehind, [], rfl⟩⟩⟩

end Registry

/-! ## What stays recorded -/

namespace Registry

variable {registry : Registry} {ref : Ref} {m : Marker}

theorem code?_changeAll_of_ne (other : m.ref ≠ ref) (changes : List Change) :
    (registry.changeAll ref changes).code? m = registry.code? m := by
  induction changes generalizing registry with
  | nil => rfl
  | cons first rest ih =>
      have kept : (registry.change ref first).code? m = registry.code? m := by
        cases first with
        | defaults change => rfl
        | code change => exact (code?_modifyCode _ _ _ _).trans (if_neg other.symm)
      exact ih.trans kept

end Registry

theorem Attributes.mem_set_self (name value : String) (attributes : Attributes) :
    (name, value) ∈ attributes.set name value := by
  induction attributes with
  | nil => exact List.mem_singleton.mpr rfl
  | cons first rest ih =>
      obtain ⟨key, old⟩ := first
      rw [set]
      split
      · next heq =>
          rw [heq]
          exact List.mem_cons_self
      · exact List.mem_cons_of_mem _ ih

namespace Effect

variable {settings : Settings} {ref : Ref} {declaration : Declaration}

theorem code?_inner_overrideUnrender (registry : Registry) (effect : Effect)
    (above : Option String) :
    (registry.changeAll ref
        (effect.overrideUnrender settings ref declaration above).changes).code? (.inner ref) =
      (registry.changeAll ref effect.changes).code? (.inner ref) := by
  have surround (effect : Effect) :
      (registry.changeAll ref (effect.surround settings ref above).changes).code? (.inner ref) =
        (registry.changeAll ref effect.changes).code? (.inner ref) := by
    unfold Effect.surround
    rw [Registry.changeAll_concat]
    exact Registry.adds_guard _ _ _ _
  unfold Effect.overrideUnrender
  split
  · rw [surround, takeWish, Registry.changeAll_concat]
    rfl
  · split
    · exact surround effect
    · rfl

/-- **What is recorded of inner content** is the markup that was seen in the node. -/
theorem code?_inner_ofDeclaration (inner : declaration.inner = true) (registry : Registry)
    (sight : Sight) :
    (registry.changeAll ref (ofDeclaration settings ref declaration sight).changes).code?
        (.inner ref) =
      some ("=" ++ Fragment.ofInner settings ref sight.content) := by
  unfold ofDeclaration
  dsimp only
  rw [code?_inner_overrideUnrender, overrideInner, if_pos inner, Registry.changeAll_concat]
  refine (Registry.adds_inner _ ref _ _).trans ?_
  rw [Marker.only_self]
  rfl

/-- The marker of inner content is an attribute of an element, also when the wish to be left out is
taken from it. -/
theorem mem_ofDeclaration (differ : settings.rawContentAttribute ≠ settings.unrenderAttribute)
    (inner : declaration.inner = true) {sight : Sight} (element : sight.label.isElement = true) :
    (settings.rawContentAttribute, Marker.innerValue ref) ∈
      (ofDeclaration settings ref declaration sight).label.attributes := by
  have seen : ({ label := sight.label } : Effect).Open sight.label := ⟨rfl, rfl⟩
  have attributes := seen.overrideEach settings ref declaration.attributes.toList
  have tag := attributes.overrideTag settings ref declaration
  have component := tag.overrideComponent settings ref declaration
  have kind := component.kind.trans element
  unfold ofDeclaration
  dsimp only
  generalize ((({ label := sight.label } : Effect).overrideEach settings ref
    declaration.attributes.toList).overrideTag settings ref declaration).overrideComponent
      settings ref declaration = effect at kind ⊢
  rw [overrideInner, if_pos inner]
  cases hlabel : effect.label with
  | text content =>
      rw [hlabel] at kind
      cases kind
  | element tag old =>
      have marked :=
        Attributes.mem_set_self settings.rawContentAttribute (Marker.innerValue ref) old
      unfold overrideUnrender
      split
      · refine List.mem_filter.mpr ⟨marked, ?_⟩
        simpa using differ
      · split
        · exact marked
        · exact marked

end Effect

/-! ## What a run keeps -/

namespace Draft

/-- A draft of a document whose first `old` nodes can be annotated. -/
structure Sound (settings : Settings) (old : Nat) (draft : Draft) : Prop where
  settings : draft.settings = settings
  numbered : draft.document.Numbered
  within : old ≤ draft.document.size

variable {settings : Settings} {old : Nat} {draft : Draft}

theorem sound_start {doc : Document} (numbered : doc.Numbered) :
    (start settings doc).Sound settings doc.size :=
  ⟨rfl, numbered, Nat.le_refl _⟩

namespace Sound

theorem annotate_eq (h : draft.Sound settings old) {step : Step} (hnode : step.node < old) :
    draft.annotate step.node step.ref step.declaration =
      draft.enact step.node step.ref
        (.ofDeclaration settings step.ref step.declaration (draft.document.sight step.node)) := by
  rw [annotate_eq_enact (h.numbered.stands (Nat.lt_of_lt_of_le hnode h.within)), h.settings]

theorem annotate (h : draft.Sound settings old) {step : Step} (hnode : step.node < old) :
    (draft.annotate step.node step.ref step.declaration).Sound settings old := by
  have made := Nat.lt_of_lt_of_le hnode h.within
  rw [h.annotate_eq hnode]
  exact ⟨h.settings, h.numbered.enact made _,
    Nat.le_trans h.within (draft.document.size_le_enact step.node _)⟩

theorem run (h : draft.Sound settings old) {steps : List Step}
    (nodes : ∀ step ∈ steps, step.node < old) : (draft.run steps).Sound settings old := by
  induction steps generalizing draft with
  | nil => exact h
  | cons step steps ih =>
      exact ih (h.annotate (nodes step List.mem_cons_self))
        fun other hother => nodes other (List.mem_cons_of_mem _ hother)

variable {x : Nat} {m : Marker}

theorem kept_annotate (h : draft.Sound settings old) {step : Step} (hnode : step.node < old)
    (hx : x < old) (node : x ≠ step.node) (ref : m.ref ≠ step.ref) :
    (draft.annotate step.node step.ref step.declaration).document.label x =
        draft.document.label x ∧
      (draft.annotate step.node step.ref step.declaration).registry.code? m =
        draft.registry.code? m := by
  rw [h.annotate_eq hnode]
  refine ⟨?_, Registry.code?_changeAll_of_ne ref _⟩
  exact (h.numbered.label_enact (Nat.lt_of_lt_of_le hnode h.within)
    (Nat.lt_of_lt_of_le hx h.within) _).trans (if_neg node)

theorem kept_run (h : draft.Sound settings old) {steps : List Step}
    (nodes : ∀ step ∈ steps, step.node < old) (hx : x < old)
    (others : ∀ step ∈ steps, x ≠ step.node ∧ m.ref ≠ step.ref) :
    (draft.run steps).document.label x = draft.document.label x ∧
      (draft.run steps).registry.code? m = draft.registry.code? m := by
  induction steps generalizing draft with
  | nil => exact ⟨rfl, rfl⟩
  | cons step steps ih =>
      have hnode := nodes step List.mem_cons_self
      obtain ⟨node, ref⟩ := others step List.mem_cons_self
      obtain ⟨label, code⟩ := h.kept_annotate hnode hx node ref
      obtain ⟨labels, codes⟩ := ih (h.annotate hnode)
        (fun other hother => nodes other (List.mem_cons_of_mem _ hother))
        fun other hother => others other (List.mem_cons_of_mem _ hother)
      exact ⟨labels.trans label, codes.trans code⟩

end Sound

/-! ## What is captured is read -/

/-- The code of inner content up to the quote that opens its literal. -/
def innerLead (settings : Settings) (ref : Ref) : List Char :=
  ("=\x7b\x7b__html: " ++ Jsx.choose settings (RuntimeKey.part ref .inner) "`").toList

theorem toList_code_inner (settings : Settings) (ref : Ref) (content : String) :
    ("=" ++ Fragment.ofInner settings ref content).toList =
      innerLead settings ref ++ (Jsx.Literal.encode Jsx.Literal.backtick content.toList ++
        Jsx.Literal.backtick :: ['\x7d', '\x7d']) := by
  simp [innerLead, Fragment.ofInner, Jsx.choose, Jsx.Literal.template, Jsx.Literal.body,
    Jsx.Literal.backtick]

/-- The code of inner content holds no wrapper but those that are in the content. -/
theorem not_infix_code_inner {settings : Settings} (plain : settings.Plain) {ref : Ref}
    {content : String} {m : Marker} (wrapper : m.site = .unrender)
    (none : ¬ m.source <:+: content.toList) {name : List Char} (free : Unmarked name) :
    ¬ m.source <:+: ' ' :: (name ++ ("=" ++ Fragment.ofInner settings ref content).toList) := by
  intro h
  have shut : Registry.Shuts {} ("=" ++ Fragment.ofInner settings ref content).toList m :=
    Registry.shuts_ofInner wrapper plain.avoids fun h => absurd h none
  have unmarked : Unmarked (' ' :: name) := (unmarked_cons (by decide)).mpr free
  rcases shut (' ' :: name) [] (by simpa using h) with h | h | holds
  · exact unmarked ((Marker.stem_infix_source m).trans h)
  · exact m.source_ne_nil (List.infix_nil.mp h)
  · simp [Registry.Holds, Registry.code?] at holds

theorem ne_of_nodup {α : Type} {f : Step → α} {before after : List Step} {step other : Step}
    (nodup : ((before ++ step :: after).map f).Nodup) (mem : other ∈ before ++ after) :
    f step ≠ f other := by
  rw [List.map_append, List.map_cons, List.nodup_middle, List.nodup_cons, ← List.map_append]
    at nodup
  intro heq
  exact nodup.1 (heq ▸ List.mem_map_of_mem mem)

namespace Sound

variable {settings : Settings} {old : Nat} {draft : Draft}

theorem captures (h : draft.Sound settings old)
    (differ : settings.rawContentAttribute ≠ settings.unrenderAttribute) {step : Step}
    (hnode : step.node < old) (inner : step.declaration.inner = true)
    (element : (draft.document.label step.node).isElement = true) :
    (draft.annotate step.node step.ref step.declaration).Sound settings old ∧
      (draft.annotate step.node step.ref step.declaration).registry.code? (.inner step.ref) =
        some ("=" ++ Fragment.ofInner settings step.ref
          (draft.document.contentMarkup step.node)) ∧
      (settings.rawContentAttribute, Marker.innerValue step.ref) ∈
        ((draft.annotate step.node step.ref step.declaration).document.label
          step.node).attributes := by
  have made := Nat.lt_of_lt_of_le hnode h.within
  refine ⟨h.annotate hnode, ?_, ?_⟩
  · rw [h.annotate_eq hnode]
    exact Effect.code?_inner_ofDeclaration inner _ (draft.document.sight step.node)
  · rw [h.annotate_eq hnode]
    show _ ∈ ((draft.document.enact _ _).label step.node).attributes
    rw [h.numbered.label_enact made made, if_pos rfl]
    exact Effect.mem_ofDeclaration differ inner element

/-- Where a marked node is written, and the document resolves, the literal is read as the content
that was recorded. -/
theorem read_of_marked (h : draft.Sound settings old) (plain : settings.Plain) {node : Nat}
    {ref : Ref} {content : String} (shown : node ∈ draft.document.roots.written)
    (marked : (settings.rawContentAttribute, Marker.innerValue ref) ∈
      (draft.document.label node).attributes)
    (code : draft.registry.code? (.inner ref) =
      some ("=" ++ Fragment.ofInner settings ref content))
    (unwrapped : ∀ m : Marker, m.site = .unrender → ¬ m.source <:+: content.toList) {page : Page}
    (resolved : draft.resolve draft.document.markup = .ok page) :
    ∃ front behind front' behind' literal : List Char,
      draft.document.markup.toList = front ++ ' ' :: (settings.rawContentAttribute.toList ++
        ((Marker.inner ref).source ++ behind)) ∧
      draft.registry.Becomes [.attribute, .inner, .unrender] front front' ∧
      draft.registry.Becomes [.attribute, .inner, .unrender] behind behind' ∧
      page.code.toList = front' ++ ' ' :: (settings.rawContentAttribute.toList ++
        (innerLead settings ref ++ literal)) ∧
      Jsx.Literal.read? Jsx.Literal.backtick literal =
        some (content.toList, '\x7d' :: '\x7d' :: behind') := by
  obtain ⟨front, behind, markup⟩ := Document.exists_attribute h.numbered.nodup shown marked
  have place : draft.document.markup.toList = front ++ ' ' ::
      (settings.rawContentAttribute.toList ++ ((Marker.inner ref).source ++ behind)) := by
    rw [markup, Forest.spellValue_innerValue]
    simp [Marker.source]
  obtain ⟨resolution, solved, hpage⟩ := bind_eq_ok.mp resolved
  cases hpage
  have becomes := Registry.becomes_of_resolve solved
  rw [place] at becomes
  obtain ⟨front', back, hfront, hback, out⟩ := Registry.becomes_append becomes
  have foreign : ∃ lead d, ("=" ++ Fragment.ofInner settings ref content).toList = lead ++ [d] ∧
      Marker.Foreign d := by
    refine ⟨innerLead settings ref ++ (Jsx.Literal.encode Jsx.Literal.backtick content.toList ++
      [Jsx.Literal.backtick, '\x7d']), '\x7d', ?_, by decide⟩
    rw [toList_code_inner]
    simp
  obtain ⟨behind', hbehind, rfl⟩ := Registry.becomes_inner plain.rawContentAttribute code
    (fun m wrapper => not_infix_code_inner plain wrapper (unwrapped m wrapper)
      plain.rawContentAttribute) foreign hback
  refine ⟨front, behind, front', behind', _, place, hfront, hbehind, ?_,
    Jsx.Literal.read?_encode (by decide) _ _⟩
  rw [out, toList_code_inner]
  simp

end Sound

/-- **Captured content is read again.** Elements of a document are annotated in any order, each once
and under a ref of its own. Where the inner content of one of them is overridden, its markup is
captured at that moment. If it holds no wrapper, and if in the end the node is written and the
document resolves, then the literal behind the raw-content attribute is read as what was captured:
no character of that has closed it, and no interpolation has come into it. -/
theorem captured_is_read {settings : Settings} (plain : settings.Plain)
    (differ : settings.rawContentAttribute ≠ settings.unrenderAttribute)
    {operations : List Document.Operation} (permitted : Document.PermitsAll {} operations)
    {doc : Document} (built : Document.performAll {} operations = doc)
    {before after : List Step} {step : Step} {captured draft : Draft}
    (earlier : (start settings doc).run before = captured)
    (later : captured.run (step :: after) = draft)
    (elements : ∀ other ∈ before ++ step :: after,
      other.node < doc.size ∧ (doc.label other.node).isElement = true)
    (once : ((before ++ step :: after).map (·.node)).Nodup)
    (refs : ((before ++ step :: after).map (·.ref)).Nodup)
    (inner : step.declaration.inner = true)
    (unwrapped : ∀ m : Marker, m.site = .unrender →
      ¬ m.source <:+: (captured.document.contentMarkup step.node).toList)
    (shown : step.node ∈ draft.document.roots.written) {page : Page}
    (resolved : draft.resolve draft.document.markup = .ok page) :
    ∃ front behind front' behind' literal : List Char,
      draft.document.markup.toList = front ++ ' ' :: (settings.rawContentAttribute.toList ++
        ((Marker.inner step.ref).source ++ behind)) ∧
      draft.registry.Becomes [.attribute, .inner, .unrender] front front' ∧
      draft.registry.Becomes [.attribute, .inner, .unrender] behind behind' ∧
      page.code.toList = front' ++ ' ' :: (settings.rawContentAttribute.toList ++
        (innerLead settings step.ref ++ literal)) ∧
      Jsx.Literal.read? Jsx.Literal.backtick literal =
        some ((captured.document.contentMarkup step.node).toList, '\x7d' :: '\x7d' :: behind') := by
  have sound : (start settings doc).Sound settings doc.size :=
    sound_start (built ▸ Document.numbered_performAll permitted)
  have hnodes : ∀ other ∈ before ++ step :: after, other.node < doc.size :=
    fun other hother => (elements other hother).1
  have nodesBefore : ∀ other ∈ before, other.node < doc.size :=
    fun other hother => hnodes other (by simp [hother])
  have nodesAfter : ∀ other ∈ after, other.node < doc.size :=
    fun other hother => hnodes other (by simp [hother])
  obtain ⟨hnode, element⟩ := elements step (by simp)
  have apart : ∀ other ∈ before ++ after,
      step.node ≠ other.node ∧ (Marker.inner step.ref).ref ≠ other.ref :=
    fun other hother => ⟨ne_of_nodup once hother, ne_of_nodup refs hother⟩
  -- Before the step the node is still the element that it was.
  have early := sound.run nodesBefore
  obtain ⟨same, -⟩ := sound.kept_run nodesBefore hnode
    fun other hother => apart other (List.mem_append_left _ hother)
  rw [earlier] at early same
  have still : (captured.document.label step.node).isElement = true := by
    rw [same]
    exact element
  -- The step records what it sees, and marks the node. The later steps keep both.
  obtain ⟨late, code, marked⟩ := early.captures differ hnode inner still
  obtain ⟨label, codes⟩ := late.kept_run nodesAfter hnode
    fun other hother => apart other (List.mem_append_right _ hother)
  have ended := late.run nodesAfter
  rw [← label] at marked
  rw [← codes] at code
  replace later : (captured.annotate step.node step.ref step.declaration).run after = draft := later
  rw [later] at ended marked code
  exact ended.read_of_marked plain shown marked code unwrapped resolved

/-! ### A price, and a dollar sign before a word -/

def priced : List Document.Operation :=
  [.element none "div" [], .text 0 "`$\x7bprice\x7d`", .element none "p" []]

def dollar : List Document.Operation :=
  [.element none "div" [], .text 0 "$", .element (some 0) "b" []]

def leaveLast : Step := ⟨2, ⟨"e0b", Ref.isValid_e0b⟩, { unrender := true }⟩

def replaceBox : Step := ⟨0, ⟨"e0a", Ref.isValid_e0a⟩, { inner := true }⟩

def pricedDraft : Draft := (start {} (.performAll {} priced)).run [leaveLast, replaceBox]

def dollarDraft : Draft := (start {} (.performAll {} dollar)).run [leaveLast, replaceBox]

def pricedParts : List Segment :=
  [.text "<div dangerouslySetInnerHTML".toList, .marker (.inner ⟨"e0a", Ref.isValid_e0a⟩),
    .text "></div>".toList, .marker (.opening ⟨"e0b", Ref.isValid_e0b⟩), .text "<p></p>".toList,
    .marker (.closing ⟨"e0b", Ref.isValid_e0b⟩)]

theorem split_pricedDraft : Segment.split pricedDraft.document.markup.toList = pricedParts :=
  Segment.split_of_spelled (by decide +kernel) (by decide) (by decide)

theorem resolve_pricedDraft :
    ∃ page, pricedDraft.resolve pricedDraft.document.markup = .ok page := by
  have letter : 'V' ∈ Marker.stem.toList := by decide
  have free : Unmarked (pricedParts.flatMap pricedDraft.registry.filled) :=
    unmarked_of_notMem letter (by decide +kernel)
  exact exists_page split_pricedDraft (by decide) free

theorem captured_is_read_priced :
    ∃ front behind front' behind' literal : List Char, ∃ page,
      pricedDraft.resolve pricedDraft.document.markup = .ok page ∧
      pricedDraft.document.markup.toList = front ++ ' ' :: ("dangerouslySetInnerHTML".toList ++
        ((Marker.inner ⟨"e0a", Ref.isValid_e0a⟩).source ++ behind)) ∧
      pricedDraft.registry.Becomes [.attribute, .inner, .unrender] front front' ∧
      pricedDraft.registry.Becomes [.attribute, .inner, .unrender] behind behind' ∧
      page.code.toList = front' ++ ' ' :: ("dangerouslySetInnerHTML".toList ++
        (innerLead {} ⟨"e0a", Ref.isValid_e0a⟩ ++ literal)) ∧
      Jsx.Literal.read? Jsx.Literal.backtick literal =
        some ("`$\x7bprice\x7d`".toList, '\x7d' :: '\x7d' :: behind') := by
  have content : ((start {} (.performAll {} priced)).run [leaveLast]).document.contentMarkup 0 =
      "`$\x7bprice\x7d`" := by decide
  have unwrapped : ∀ m : Marker, m.site = .unrender → ¬ m.source <:+:
      (((start {} (.performAll {} priced)).run [leaveLast]).document.contentMarkup 0).toList := by
    intro m _ h
    rw [content] at h
    exact absurd ((Marker.stem_infix_source m).trans h) (by decide)
  obtain ⟨page, resolved⟩ := resolve_pricedDraft
  have permitted : Document.PermitsAll {} priced := by decide
  have later : ((start {} (.performAll {} priced)).run [leaveLast]).run [replaceBox] =
      pricedDraft := rfl
  obtain ⟨front, behind, front', behind', literal, h⟩ :=
    captured_is_read Settings.plain_default (by decide) permitted rfl rfl later (by decide)
      (by decide) (by decide) rfl unwrapped (by decide) resolved
  rw [← content]
  exact ⟨front, behind, front', behind', literal, page, resolved, h⟩

def dollarParts : List Segment :=
  [.text "<div dangerouslySetInnerHTML".toList, .marker (.inner ⟨"e0a", Ref.isValid_e0a⟩),
    .text "></div>".toList]

def unfoldedParts : List Segment :=
  [.text ("<div dangerouslySetInnerHTML".toList ++
      (innerLead {} ⟨"e0a", Ref.isValid_e0a⟩ ++ ['$'])),
    .marker (.opening ⟨"e0b", Ref.isValid_e0b⟩), .text "<b></b>".toList,
    .marker (.closing ⟨"e0b", Ref.isValid_e0b⟩), .text "`\x7d\x7d></div>".toList]

/-- What the third pass leaves behind the quote that opens the literal. -/
def interpolated : List Char := "$\x7b!d.e0bUnrender && <b></b>\x7d`\x7d\x7d></div>".toList

theorem split_dollarDraft : Segment.split dollarDraft.document.markup.toList = dollarParts :=
  Segment.split_of_spelled (by decide) (by decide) (by decide)

theorem split_unfoldedParts :
    Segment.split (unfoldedParts.flatMap Segment.source) = unfoldedParts :=
  Segment.split_of_spelled rfl (by decide +kernel) (by decide)

theorem substitute_dollarDraft : dollarDraft.registry.substitute .inner
    dollarDraft.document.markup.toList = .ok (unfoldedParts.flatMap Segment.source) := by
  have entries := Registry.holds_of_split dollarDraft.registry split_dollarDraft (by decide)
  rw [Registry.substitute_eq fun m hm _ => entries m hm, split_dollarDraft]
  exact congrArg Except.ok (by decide +kernel)

theorem substitute_unfoldedParts :
    dollarDraft.registry.substitute .unrender (unfoldedParts.flatMap Segment.source) =
      .ok ("<div dangerouslySetInnerHTML".toList ++
        (innerLead {} ⟨"e0a", Ref.isValid_e0a⟩ ++ interpolated)) := by
  have entries := Registry.holds_of_split dollarDraft.registry split_unfoldedParts (by decide)
  rw [Registry.substitute_eq fun m hm _ => entries m hm, split_unfoldedParts]
  exact congrArg Except.ok (by decide +kernel)

/-- A document without marker text resolves, and an interpolation starts in the literal of captured
content that holds none. -/
theorem dollar_interpolates :
    Unmarked (Document.performAll {} dollar).markup.toList ∧
    ((start {} (.performAll {} dollar)).run [leaveLast]).document.contentMarkup 0 =
      "$<__OVERRIDE_UNRENDER__e0b><b></b></__OVERRIDE_UNRENDER__e0b>" ∧
    ∃ page, dollarDraft.resolve dollarDraft.document.markup = .ok page ∧
      page.code.toList = "<div dangerouslySetInnerHTML".toList ++
        (innerLead {} ⟨"e0a", Ref.isValid_e0a⟩ ++ interpolated) ∧
      Jsx.Literal.read? Jsx.Literal.backtick interpolated = none := by
  refine ⟨by decide, by decide, ?_⟩
  have first : dollarDraft.registry.substitute .attribute dollarDraft.document.markup.toList =
      .ok dollarDraft.document.markup.toList := by
    apply Registry.substitute_of_absent
    rw [split_dollarDraft]
    rfl
  have passes : dollarDraft.registry.Becomes [.attribute, .inner, .unrender]
      dollarDraft.document.markup.toList ("<div dangerouslySetInnerHTML".toList ++
        (innerLead {} ⟨"e0a", Ref.isValid_e0a⟩ ++ interpolated)) :=
    Registry.becomes_cons.mpr ⟨_, first, Registry.becomes_cons.mpr ⟨_, substitute_dollarDraft,
      Registry.becomes_cons.mpr ⟨_, substitute_unfoldedParts, [], rfl⟩⟩⟩
  obtain ⟨met, passes⟩ := passes
  have letter : 'V' ∈ Marker.stem.toList := by decide
  have free : Unmarked ("<div dangerouslySetInnerHTML".toList ++
      (innerLead {} ⟨"e0a", Ref.isValid_e0a⟩ ++ interpolated)) :=
    unmarked_of_notMem letter (by decide)
  refine ⟨_, by rw [resolve, Registry.resolve_of_passes passes free]; rfl, ?_, by decide⟩
  exact String.toList_ofList

end Draft

end LateMarkup
