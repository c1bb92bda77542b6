import LateMarkup.Proofs.Passes

/-!
# Markers without an entry

Whatever code a registry holds, a marker that it has no entry for stays in the way. A pass stops at
the first such marker of its own site. A marker of another site is still there when the pass is
over: the exchanged markers do not overlap it, since each of the later markers starts with a
character that none of them holds again. So it is either met in its own pass or left in the end, and
marker text that is left is an error too.
-/

namespace LateMarkup

/-! ## What one pass can do -/

theorem bind_eq_ok {α β : Type} {x : Except Error α} {f : α → Except Error β} {result : β} :
    x >>= f = .ok result ↔ ∃ a, x = .ok a ∧ f a = .ok result := by
  cases x with
  | error error => simp [bind, Except.bind]
  | ok a => simp [bind, Except.bind]

namespace Registry

variable {registry : Registry}

/-- A pass either has an entry for every marker of its site and settles them, or stops at the first
one without. -/
theorem exchangeAll_cases (registry : Registry) (site : Site) (segments : List Segment) :
    ((∀ m, .marker m ∈ segments → m.site = site → registry.Holds m) ∧
      registry.exchangeAll site segments =
        .ok ((segments.map (registry.settle site)).flatMap Segment.source)) ∨
    ∃ before m behind, segments = before ++ .marker m :: behind ∧
      (∀ n, .marker n ∈ before → n.site = site → registry.Holds n) ∧
      m.site = site ∧ ¬ registry.Holds m ∧
      registry.exchangeAll site segments = .error (.missing m.ref m.field) := by
  induction segments with
  | nil => exact Or.inl ⟨nofun, rfl⟩
  | cons segment segments ih =>
      by_cases missing : ∃ m, segment = .marker m ∧ m.site = site ∧ ¬ registry.Holds m
      · obtain ⟨m, rfl, hsite, lacks⟩ := missing
        refine Or.inr ⟨[], m, segments, rfl, nofun, hsite, lacks, ?_⟩
        have none : registry.code? m = none := Option.not_isSome_iff_eq_none.mp lacks
        rw [exchangeAll, exchange, if_pos hsite, replacement_eq, none]
        rfl
      · have held : ∀ m, segment = .marker m → m.site = site → registry.Holds m := by
          intro m hm hsite
          by_contra lacks
          exact missing ⟨m, hm, hsite, lacks⟩
        rcases ih with ⟨entries, -⟩ | ⟨before, m, behind, rfl, entries, hsite, lacks, stops⟩
        · have all : ∀ m, .marker m ∈ segment :: segments → m.site = site → registry.Holds m := by
            intro m hm
            rcases List.mem_cons.mp hm with heq | hm
            · exact held m heq.symm
            · exact entries m hm
          exact Or.inl ⟨all, exchangeAll_eq all⟩
        · refine Or.inr ⟨segment :: before, m, behind, rfl, ?_, hsite, lacks, ?_⟩
          · intro n hn
            rcases List.mem_cons.mp hn with heq | hn
            · exact held n heq.symm
            · exact entries n hn
          · have front : registry.exchangeAll site [segment] = .ok _ :=
              exchangeAll_eq fun n hn => held n (List.mem_singleton.mp hn).symm
            rw [exchangeAll] at front ⊢
            cases hexchange : registry.exchange site segment with
            | error error =>
                rw [hexchange] at front
                cases front
            | ok code =>
                rw [stops]
                rfl

/-- A pass that succeeds had an entry for every marker of its site. -/
theorem substitute_ok {site : Site} {text next : List Char}
    (h : registry.substitute site text = .ok next) :
    (∀ m, .marker m ∈ Segment.split text → m.site = site → registry.Holds m) ∧
      next = ((Segment.split text).map (registry.settle site)).flatMap Segment.source := by
  rw [substitute] at h
  rcases registry.exchangeAll_cases site (Segment.split text) with
    ⟨entries, hnext⟩ | ⟨_, m, _, -, -, -, -, hstop⟩
  · rw [hnext] at h
    cases h
    exact ⟨entries, rfl⟩
  · rw [hstop] at h
    cases h

theorem passes_cons_ok {site : Site} {sites : List Site} {text : List Char} {passed : Passed}
    (h : registry.passes (site :: sites) text = .ok passed) :
    ∃ next later, registry.substitute site text = .ok next ∧
      registry.passes sites next = .ok later ∧
      passed = ⟨Segment.markersAt site (Segment.split text) ++ later.met, later.text⟩ := by
  rw [passes] at h
  obtain ⟨next, hnext, h⟩ := bind_eq_ok.mp h
  obtain ⟨later, hlater, h⟩ := bind_eq_ok.mp h
  cases h
  exact ⟨next, later, hnext, hlater, rfl⟩

/-! ## A marker that stays -/

/-- Where other markers than `m` are exchanged, `m` stays. -/
theorem infix_map_settle (before : List Char) {site : Site} {m : Marker} {segments : List Segment}
    (notAttribute : site ≠ .attribute) (later : m.site ≠ .attribute)
    (others : ∀ n, .marker n ∈ segments → n.site = site → n ≠ m)
    (h : m.source <:+: before ++ segments.flatMap Segment.source) :
    m.source <:+: before ++ (segments.map (registry.settle site)).flatMap Segment.source := by
  induction segments generalizing before with
  | nil => exact h
  | cons segment segments ih =>
      have tail : ∀ n, .marker n ∈ segments → n.site = site → n ≠ m :=
        fun n hn => others n (List.mem_cons_of_mem _ hn)
      rw [List.flatMap_cons] at h
      rw [List.map_cons, List.flatMap_cons]
      by_cases hexchanged : ∃ n, segment = .marker n ∧ n.site = site
      · obtain ⟨n, rfl, hsite⟩ := hexchanged
        have hlater : n.site ≠ .attribute := hsite ▸ notAttribute
        have follows : Segment.Follows before n := fun hattribute => absurd hattribute hlater
        rcases Segment.infix_source_append later follows h with hbefore | hbehind
        · exact List.infix_append_of_infix_left hbefore
        · -- `m` does not start where `n` starts, so it stands behind it.
          obtain ⟨c, rest, hn⟩ := List.exists_cons_of_ne_nil n.source_ne_nil
          change m.source <:+: n.source ++ _ at hbehind
          rw [hn, List.cons_append] at hbehind
          have hrest : m.source <:+: segments.flatMap Segment.source := by
            rcases List.infix_cons_iff.mp hbehind with hpre | hin
            · rw [← List.cons_append, ← hn] at hpre
              have same := Marker.eq_of_source_prefix (Marker.proper_of_later later)
                (Marker.proper_of_later hlater) hpre
              exact absurd same.symm (others n List.mem_cons_self hsite)
            · exact Segment.infix_of_infix_tail later (Marker.proper_of_later hlater) hn hin
          have settled := ih [] tail hrest
          exact List.infix_append_of_infix_right (List.infix_append_of_infix_right settled)
      · have hsource : registry.settle site segment = segment := by
          cases segment with
          | text content => rfl
          | marker n =>
              rw [settle, if_neg]
              exact fun hsite => hexchanged ⟨n, rfl, hsite⟩
        rw [hsource, ← List.append_assoc]
        rw [← List.append_assoc] at h
        exact ih _ tail h

/-- **One later pass.** A marker of inner content or of a wrapper that has no entry is still there
after a pass that succeeds. -/
theorem infix_of_substitute {site : Site} {m : Marker} {text next : List Char}
    (notAttribute : site ≠ .attribute) (later : m.site ≠ .attribute) (lacks : ¬ registry.Holds m)
    (h : registry.substitute site text = .ok next) (occurs : m.source <:+: text) :
    m.source <:+: next := by
  obtain ⟨entries, rfl⟩ := substitute_ok h
  rw [← Segment.flatMap_source_split text] at occurs
  refine infix_map_settle [] notAttribute later ?_ occurs
  rintro n hn hsite rfl
  exact lacks (entries n hn hsite)

theorem infix_of_passes {sites : List Site} {m : Marker} {text : List Char} {passed : Passed}
    (notAttribute : ∀ site ∈ sites, site ≠ .attribute) (later : m.site ≠ .attribute)
    (lacks : ¬ registry.Holds m) (h : registry.passes sites text = .ok passed)
    (occurs : m.source <:+: text) : m.source <:+: passed.text := by
  induction sites generalizing text passed with
  | nil =>
      cases h
      exact occurs
  | cons site sites ih =>
      obtain ⟨next, rest, hnext, hrest, rfl⟩ := passes_cons_ok h
      have still := infix_of_substitute (notAttribute site List.mem_cons_self) later lacks
        hnext occurs
      show m.source <:+: rest.text
      exact ih (fun other hother => notAttribute other (List.mem_cons_of_mem _ hother)) hrest still

theorem unmarked_of_ensureNone {text : List Char} (h : Marker.ensureNone text = .ok ()) :
    Unmarked text := by
  have none : Marker.leftover? text = none := by
    rw [Marker.ensureNone] at h
    split at h
    · cases h
    · assumption
  clear h
  induction text with
  | nil => exact Unmarked.nil
  | cons c cs ih =>
      rw [Marker.leftover?] at none
      split at none
      · cases none
      · next hprefix =>
          intro occurs
          rcases List.infix_cons_iff.mp occurs with hpre | hin
          · exact hprefix (List.isPrefixOf_iff_prefix.mpr hpre)
          · exact ih none hin

/-! ## Resolving -/

theorem holds_of_resolve {text : String} {resolution : Resolution}
    (h : registry.resolve text = .ok resolution) {m : Marker}
    (hm : .marker m ∈ Segment.split text.toList) : registry.Holds m := by
  rw [resolve_eq_passes] at h
  obtain ⟨passed, hpassed, h⟩ := bind_eq_ok.mp h
  obtain ⟨_, hnone, -⟩ := bind_eq_ok.mp h
  obtain ⟨next, later, hnext, hlater, rfl⟩ := passes_cons_ok hpassed
  obtain ⟨entries, rfl⟩ := substitute_ok hnext
  by_contra lacks
  have notAttribute : m.site ≠ .attribute := fun hsite => lacks (entries m hm hsite)
  -- The first pass leaves the marker where it is.
  have occurs : m.source <:+:
      ((Segment.split text.toList).map (registry.settle .attribute)).flatMap Segment.source := by
    have still : Segment.marker m ∈
        (Segment.split text.toList).map (registry.settle .attribute) :=
      marker_mem_map_settle.mpr ⟨hm, notAttribute⟩
    obtain ⟨before, behind, heq⟩ := List.append_of_mem still
    rw [heq, List.flatMap_append, List.flatMap_cons]
    exact List.infix_append_of_infix_right List.infix_append_left
  have left := infix_of_passes (by decide) notAttribute lacks hlater occurs
  exact unmarked_of_ensureNone hnone ((Marker.stem_infix_source m).trans left)

/-- **No marker without an entry is lost.** If resolving succeeds, the registry has an entry for
every marker of the text. If it has none for some attribute marker, resolving fails, and the error
names the fragment that the first such marker asks for. -/
theorem resolve_accounts_for_markers (registry : Registry) (text : String) :
    (∀ resolution, registry.resolve text = .ok resolution →
      ∀ m, .marker m ∈ Segment.split text.toList → registry.Holds m) ∧
    ((∃ m, .marker m ∈ Segment.split text.toList ∧ m.site = .attribute ∧ ¬ registry.Holds m) →
      ∃ before ref name behind,
        Segment.split text.toList = before ++ .marker (.attribute ref name) :: behind ∧
        (∀ m, .marker m ∈ before → m.site = .attribute → registry.Holds m) ∧
        ¬ registry.Holds (.attribute ref name) ∧
        ∃ field, field.path = "attributes." ++ name ∧
          registry.resolve text = .error (.missing ref field)) := by
  constructor
  · intro resolution h m hm
    exact holds_of_resolve h hm
  · rintro ⟨m, hm, hsite, lacks⟩
    rcases registry.exchangeAll_cases .attribute (Segment.split text.toList) with
      ⟨entries, -⟩ | ⟨before, first, behind, heq, entries, hfirst, hlacks, stops⟩
    · exact absurd (entries m hm hsite) lacks
    · rcases first with ⟨ref, name⟩ | ref | ref | ref
      · refine ⟨before, ref, name, behind, heq, entries, hlacks, .attribute name, rfl, ?_⟩
        rw [resolve_eq_passes, passes, substitute, stops]
        rfl
      · cases hfirst
      · cases hfirst
      · cases hfirst

end Registry

end LateMarkup
