import Mathlib.Logic.Equiv.Basic
import LateMarkup.Proofs.Locality
import LateMarkup.Proofs.Operations

/-!
# Annotating unrelated nodes commutes

Two nodes of which neither is above the other can be annotated in either order. What is seen of the
second does not change when the first is annotated (`Document.sight_enact`), so both orders enact
the same two effects. Their edits stand apart in the forest and commute, and so do the changes of
the registry under two refs.

The one thing that the order decides is which wrapper gets which number. So the two documents are
the same up to a renaming of the nodes that the effects make (`Draft.Alike`), and their markup,
in which no number is written, is the same.
-/

namespace LateMarkup

/-! ## Edits of two nodes -/

namespace Forest

variable {a b : Nat} {putA putB : Label → Forest → Forest}

theorem edit_append_right {front behind : Forest} (absent : a ∉ front.ids) :
    (front ++ behind).edit a putA = front ++ behind.edit a putA := by
  induction front with
  | nil => rfl
  | node here l c next _ ih =>
      rw [ids, List.mem_cons, List.mem_append, not_or, not_or] at absent
      obtain ⟨hhere, hchildren, hnext⟩ := absent
      rw [node_append, edit, if_neg (Ne.symm hhere), edit_of_notMem hchildren, ih hnext,
        node_append]

/-- Edits of two nodes commute, if neither puts in the other node. -/
theorem edit_comm (hne : a ≠ b) {forest : Forest}
    (apartA : forest.All fun here l c => here = a → b ∉ c.ids ∧ b ∉ (putA l c).ids)
    (apartB : forest.All fun here l c => here = b → a ∉ c.ids ∧ a ∉ (putB l c).ids) :
    (forest.edit a putA).edit b putB = (forest.edit b putB).edit a putA := by
  induction forest with
  | nil => rfl
  | node here l c next ihChildren ihNext =>
      obtain ⟨hereA, belowA, besideA⟩ := apartA
      obtain ⟨hereB, belowB, besideB⟩ := apartB
      by_cases ha : here = a
      · obtain ⟨hc, hput⟩ := hereA ha
        have hb : here ≠ b := fun h => hne (ha.symm.trans h)
        rw [edit, if_pos ha, edit_append_right hput, edit, if_neg hb, edit, if_pos ha,
          edit_of_notMem hc]
      · by_cases hb : here = b
        · obtain ⟨hc, hput⟩ := hereB hb
          rw [edit, if_neg ha, edit, if_pos hb, edit, if_pos hb, edit_append_right hput,
            edit_of_notMem hc]
        · rw [edit, if_neg ha, edit, if_neg hb, edit, if_neg hb, edit, if_neg ha,
            ihChildren belowA belowB, ihNext besideA besideB]

/-! ## Other numbers -/

/-- A forest with other numbers. -/
def rename (σ : Nat → Nat) : Forest → Forest
  | nil => nil
  | node id label children next => node (σ id) label (children.rename σ) (next.rename σ)

variable {σ : Nat → Nat}

theorem rename_append (front behind : Forest) :
    (front ++ behind).rename σ = front.rename σ ++ behind.rename σ := by
  induction front with
  | nil => rfl
  | node here l c next _ ih => rw [node_append, rename, rename, ih, node_append]

theorem rename_of_fixed {forest : Forest} (fixed : ∀ x ∈ forest.ids, σ x = x) :
    forest.rename σ = forest := by
  induction forest with
  | nil => rfl
  | node here l c next ihChildren ihNext =>
      rw [ids, List.forall_mem_cons, List.forall_mem_append] at fixed
      rw [rename, fixed.1, ihChildren fixed.2.1, ihNext fixed.2.2]

theorem isEmpty_rename (forest : Forest) : (forest.rename σ).isEmpty = forest.isEmpty := by
  cases forest <;> rfl

theorem markup_rename (forest : Forest) : (forest.rename σ).markup = forest.markup := by
  induction forest with
  | nil => rfl
  | node here l c next ihChildren ihNext =>
      cases l with
      | text content => rw [rename, markup, markup, ihNext]
      | element tag attributes =>
          rw [rename, markup, markup, ihNext, ihChildren, isEmpty_rename]

theorem find?_rename (injective : σ.Injective) (x : Nat) (forest : Forest) :
    (forest.rename σ).find? (σ x) = (forest.find? x).map fun (l, c) => (l, c.rename σ) := by
  induction forest with
  | nil => rfl
  | node here l c next ihChildren ihNext =>
      rw [rename, find?, find?, ihChildren, ihNext]
      by_cases heq : here = x
      · rw [if_pos heq, if_pos (congrArg σ heq)]
        rfl
      · rw [if_neg heq, if_neg fun h => heq (injective h), Option.map_or]

theorem rename_edit (injective : σ.Injective) {change renamed : Label → Forest → Forest}
    (put : ∀ l c, (change l c).rename σ = renamed l (c.rename σ)) (forest : Forest) :
    (forest.edit a change).rename σ = (forest.rename σ).edit (σ a) renamed := by
  induction forest with
  | nil => rfl
  | node here l c next ihChildren ihNext =>
      by_cases heq : here = a
      · rw [edit, if_pos heq, rename_append, put, rename, edit, if_pos (congrArg σ heq)]
      · rw [edit, if_neg heq, rename, ihChildren, ihNext, rename, edit,
          if_neg fun h => heq (injective h)]

/-! ## Up from below -/

/-- Whatever a row hangs below, its nodes hang below as well. -/
theorem transGen_of_mem {up : Nat → Nat → Prop} {top : Nat} {forest : Forest}
    (links : forest.All fun id _ c => ∀ x ∈ c.row, up x id)
    (row : ∀ x ∈ forest.row, Relation.TransGen up x top) :
    ∀ x ∈ forest.ids, Relation.TransGen up x top := by
  induction forest with
  | nil => nofun
  | node here l c next ihChildren ihNext =>
      obtain ⟨linksHere, linksBelow, linksBeside⟩ := links
      rw [Forest.row, List.forall_mem_cons] at row
      obtain ⟨rowHere, rowBeside⟩ := row
      rw [ids, List.forall_mem_cons, List.forall_mem_append]
      refine ⟨rowHere, ?_, ihNext linksBeside rowBeside⟩
      exact ihChildren linksBelow fun x hx => .head (linksHere x hx) rowHere

/-- The node above a node is in the forest, or the forest stands below it. -/
theorem mem_ids_of_parent?_eq {id p : Nat} {above : Option Nat} {forest : Forest}
    (parent : forest.parent? id above = some (some p)) : above = some p ∨ p ∈ forest.ids := by
  induction forest generalizing above with
  | nil => cases parent
  | node here l c next ihChildren ihNext =>
      rw [ids, List.mem_cons, List.mem_append]
      rw [parent?] at parent
      split at parent
      · exact Or.inl (Option.some.inj parent)
      · rcases Option.or_eq_some_iff.mp parent with found | ⟨-, found⟩
        · rcases ihChildren found with heq | mem
          · exact Or.inr (Or.inl (Option.some.inj heq).symm)
          · exact Or.inr (Or.inr (Or.inl mem))
        · exact (ihNext found).imp_right fun mem => Or.inr (Or.inr mem)

end Forest

/-! ## Changes under two refs -/

theorem RefMap.insert_comm {α : Type} {a b : Ref} (hne : a ≠ b) (entries : RefMap α)
    (f g : Option α → α) :
    (entries.insert a (f entries[a]?)).insert b (g (entries.insert a (f entries[a]?))[b]?) =
      (entries.insert b (g entries[b]?)).insert a (f (entries.insert b (g entries[b]?))[a]?) := by
  apply Std.ExtTreeMap.ext_getElem?
  intro ref
  simp only [Std.ExtTreeMap.getElem?_insert, Std.LawfulEqCmp.compare_eq_iff_eq, if_neg hne,
    if_neg hne.symm]
  by_cases ha : a = ref
  · have hb : b ≠ ref := fun h => hne (ha.trans h.symm)
    rw [if_neg hb, if_pos ha, if_pos ha]
  · rw [if_neg ha, if_neg ha]

namespace Registry

variable {a b : Ref}

theorem change_comm (hne : a ≠ b) (registry : Registry) (one other : Change) :
    (registry.change a one).change b other = (registry.change b other).change a one := by
  cases one with
  | defaults f =>
      cases other with
      | defaults g =>
          exact congrArg (Registry.mk · registry.code) (RefMap.insert_comm hne registry.defaults
            (fun entry => f (entry.getD {})) fun entry => g (entry.getD {}))
      | code g => rfl
  | code f =>
      cases other with
      | defaults g => rfl
      | code g =>
          exact congrArg (Registry.mk registry.defaults) (RefMap.insert_comm hne registry.code
            (fun entry => f (entry.getD {})) fun entry => g (entry.getD {}))

theorem changeAll_change_comm (hne : a ≠ b) (registry : Registry) (changes : List Change)
    (other : Change) :
    (registry.changeAll a changes).change b other =
      (registry.change b other).changeAll a changes := by
  induction changes generalizing registry with
  | nil => rfl
  | cons first rest ih =>
      show ((registry.change a first).changeAll a rest).change b other =
        ((registry.change b other).change a first).changeAll a rest
      rw [ih, change_comm hne]

theorem changeAll_comm (hne : a ≠ b) (registry : Registry) (changes others : List Change) :
    (registry.changeAll a changes).changeAll b others =
      (registry.changeAll b others).changeAll a changes := by
  induction others generalizing registry with
  | nil => rfl
  | cons first rest ih =>
      show ((registry.changeAll a changes).change b first).changeAll b rest =
        ((registry.change b first).changeAll b rest).changeAll a changes
      rw [changeAll_change_comm hne, ih]

end Registry

/-! ## Two effects on a document -/

namespace Document

variable {doc : Document} {node x : Nat} {effect : Effect}

/-- A node that is not the given one, does not hang below it, and has no such node above it. -/
structure Apart (doc : Document) (node x : Nat) : Prop where
  ne : x ≠ node
  notBelow : x ∉ (doc.below node).ids
  parent : ∀ p, doc.parent? x = some p → p ≠ node ∧ p ∉ (doc.below node).ids

theorem transGen_of_mem_below (nodup : doc.whole.ids.Nodup) (mem : x ∈ (doc.below node).ids) :
    Relation.TransGen (fun child above => doc.parent? child = some above) x node := by
  have links : doc.whole.All fun id _ c => ∀ y ∈ c.row, doc.parent? y = some id := by
    refine (Forest.all_parent? nodup none).mono fun id _ c parents y hy => ?_
    rw [parent?_eq_whole, parents y hy]
    rfl
  unfold below at mem
  split at mem
  · next found =>
      rw [find?_eq_whole] at found
      obtain ⟨row, inside⟩ := links.of_find? found
      exact Forest.transGen_of_mem inside (fun y hy => .single (row y hy)) x mem
  · cases mem

theorem apart_of_not_transGen (nodup : doc.whole.ids.Nodup) (hne : x ≠ node)
    (apart : ¬ Relation.TransGen (fun child above => doc.parent? child = some above) x node) :
    doc.Apart node x where
  ne := hne
  notBelow mem := apart (transGen_of_mem_below nodup mem)
  parent p hp := by
    constructor
    · rintro rfl
      exact apart (.single hp)
    · exact fun mem => apart (.head hp (transGen_of_mem_below nodup mem))

theorem find?_enact_of_apart (nodup : doc.whole.ids.Nodup) (hx : x ≠ node)
    (old : effect.wrapper.isSome = true → x ≠ doc.size) (notBelow : x ∉ (doc.below node).ids)
    (notAbove : node ∉ (doc.below x).ids) : (doc.enact node effect).find? x = doc.find? x := by
  have put : doc.whole.All fun here _ c => here = node →
      (effect.put node doc.size c).find? x = c.find? x := by
    refine Forest.All.mono (all_at node nodup) fun here l c h heq => ?_
    rw [← (h heq).2] at notBelow
    rw [Forest.find?_eq_none (effect.notMem_put hx old notBelow), Forest.find?_eq_none notBelow]
  have kept : doc.whole.All fun here _ c => here = x → node ∉ c.ids :=
    Forest.All.mono (all_at x nodup) fun here l c h heq => (h heq).2 ▸ notAbove
  obtain ⟨roots, detached⟩ := Forest.all_append.mp put
  obtain ⟨keptRoots, keptDetached⟩ := Forest.all_append.mp kept
  have cut : x ∉ (doc.cut node effect).ids := fun mem => notBelow (mem_below_of_mem_cut mem)
  unfold find? enact
  dsimp only
  rw [Forest.find?_append, Forest.find?_eq_none cut, Option.or_none,
    Forest.find?_edit_of_apart hx roots keptRoots,
    Forest.find?_edit_of_apart hx detached keptDetached]

theorem parent?_enact_of_apart (nodup : doc.whole.ids.Nodup) (hx : x ≠ node)
    (old : effect.wrapper.isSome = true → x ≠ doc.size) (notBelow : x ∉ (doc.below node).ids) :
    (doc.enact node effect).parent? x = doc.parent? x := by
  have put : doc.whole.All fun here _ c => here = node →
      ∀ above, (effect.put node doc.size c).parent? x above = c.parent? x (some node) := by
    refine Forest.All.mono (all_at node nodup) fun here l c h heq above => ?_
    rw [← (h heq).2] at notBelow
    rw [Forest.parent?_eq_none _ (effect.notMem_put hx old notBelow),
      Forest.parent?_eq_none _ notBelow]
  obtain ⟨roots, detached⟩ := Forest.all_append.mp put
  have cut : x ∉ (doc.cut node effect).ids := fun mem => notBelow (mem_below_of_mem_cut mem)
  unfold parent? enact
  dsimp only
  rw [Forest.parent?_append, Forest.parent?_eq_none none cut, Option.or_none,
    Forest.parent?_edit_of_ne hx roots, Forest.parent?_edit_of_ne hx detached]

/-- **What is seen of a node stays the same when an unrelated node is annotated.** -/
theorem sight_enact (effect : Effect) (nodup : doc.whole.ids.Nodup)
    (old : ∀ y ∈ doc.whole.ids, y ≠ doc.size) (mem : x ∈ doc.whole.ids) (apart : doc.Apart node x)
    (notAbove : node ∉ (doc.below x).ids) :
    (doc.enact node effect).sight x = doc.sight x := by
  have found : (doc.enact node effect).find? x = doc.find? x :=
    find?_enact_of_apart nodup apart.ne (fun _ => old x mem) apart.notBelow notAbove
  have parent : (doc.enact node effect).parent? x = doc.parent? x :=
    parent?_enact_of_apart nodup apart.ne (fun _ => old x mem) apart.notBelow
  unfold sight contentMarkup content label
  rw [found, parent]
  congr 1
  cases hparent : doc.parent? x with
  | none => rfl
  | some p =>
      obtain ⟨hp, notBelow⟩ := apart.parent p hparent
      have mem : p ∈ doc.whole.ids := by
        rw [parent?_eq_whole, Option.join_eq_some_iff] at hparent
        exact (Forest.mem_ids_of_parent?_eq hparent).resolve_left nofun
      show some ((doc.enact node effect).label p).tag = some (doc.label p).tag
      rw [label_enact_of_ne nodup hp (fun _ => old p mem) notBelow]

end Document

/-! ### Both orders -/

namespace Effect

theorem put_fresh {effect : Effect} (unwrapped : effect.wrapper.isSome = false)
    (node fresh other : Nat) : effect.put node fresh = effect.put node other := by
  funext children
  rw [Option.isSome_eq_false_iff, Option.isNone_iff_eq_none] at unwrapped
  rw [put, put, unwrapped]

theorem rename_put (effect : Effect) (σ : Nat → Nat) (node fresh : Nat) (children : Forest) :
    (effect.put node fresh children).rename σ =
      effect.put (σ node) (σ fresh) (children.rename σ) := by
  have kept : (if effect.emptied then .nil else children : Forest).rename σ =
      if effect.emptied then .nil else children.rename σ := by
    split <;> rfl
  unfold put
  cases effect.wrapper <;> simp only [Forest.tree, Forest.rename, kept]

end Effect

/-- Drafts that differ at most in the numbers from `old` on. -/
structure Draft.Alike (old : Nat) (one other : Draft) : Prop where
  markup : one.document.markup = other.document.markup
  registry : one.registry = other.registry
  size : one.document.size = other.document.size
  numbers : ∃ σ : Equiv.Perm Nat, (∀ id < old, σ id = id) ∧
    one.document.roots.rename σ = other.document.roots ∧
    ∀ id, other.document.find? (σ id) =
      (one.document.find? id).map fun (label, children) => (label, children.rename σ)

namespace Document

variable {doc : Document} {a b : Nat} {one other : Effect}

def both (a b : Nat) (one other : Effect) (freshA freshB : Nat) (forest : Forest) : Forest :=
  (forest.edit a fun _ => one.put a freshA).edit b fun _ => other.put b freshB

theorem rename_both (σ : Equiv.Perm Nat) {forest : Forest} (fixed : ∀ x ∈ forest.ids, σ x = x)
    (fixedA : σ a = a) (fixedB : σ b = b) (freshA freshB : Nat) :
    (both a b one other freshA freshB forest).rename σ =
      both a b one other (σ freshA) (σ freshB) forest := by
  have outer := Forest.rename_edit (a := b) σ.injective
    (fun _ => other.rename_put σ b freshB) (forest.edit a fun _ => one.put a freshA)
  have inner := Forest.rename_edit (a := a) σ.injective
    (fun _ => one.rename_put σ a freshA) forest
  rw [both, outer, inner, fixedA, fixedB, Forest.rename_of_fixed fixed]
  rfl

/-- Two nodes of which neither is above the other. -/
structure Unrelated (doc : Document) (a b : Nat) : Prop where
  ne : a ≠ b
  notAbove : ¬ Relation.TransGen (fun child above => doc.parent? child = some above) b a
  notBelow : ¬ Relation.TransGen (fun child above => doc.parent? child = some above) a b

theorem Unrelated.symm (h : doc.Unrelated a b) : doc.Unrelated b a :=
  ⟨h.ne.symm, h.notBelow, h.notAbove⟩

theorem Unrelated.disjoint (h : doc.Unrelated a b) (nodup : doc.whole.ids.Nodup) :
    ∀ x ∈ (doc.below a).ids, x ∉ (doc.below b).ids := by
  intro x hxa hxb
  have unique : Relator.RightUnique fun child above => doc.parent? child = some above := by
    intro child p q hp hq
    exact Option.some.inj (hp.symm.trans hq)
  have upA := (transGen_of_mem_below nodup hxa).to_reflTransGen
  have upB := (transGen_of_mem_below nodup hxb).to_reflTransGen
  rcases Relation.ReflTransGen.total_of_right_unique unique upA upB with up | up
  · rcases Relation.reflTransGen_iff_eq_or_transGen.mp up with heq | up
    · exact h.ne heq.symm
    · exact h.notBelow up
  · rcases Relation.reflTransGen_iff_eq_or_transGen.mp up with heq | up
    · exact h.ne heq
    · exact h.notAbove up

section Both

variable (h : doc.Unrelated a b) (nodup : doc.whole.ids.Nodup)
  (old : ∀ x ∈ doc.whole.ids, x < doc.size) (hb : b ∈ doc.whole.ids)

include h nodup old hb

theorem all_notMem_put {fresh : Nat} (hfresh : doc.size ≤ fresh) :
    doc.whole.All fun here _ c => here = a → b ∉ c.ids ∧ b ∉ (one.put a fresh c).ids := by
  have apart := apart_of_not_transGen nodup h.ne.symm h.notAbove
  refine Forest.All.mono (all_at a nodup) fun here l c hc heq => ?_
  have below : b ∉ c.ids := (hc heq).2 ▸ apart.notBelow
  refine ⟨below, one.notMem_put apart.ne (fun _ => ?_) below⟩
  exact Nat.ne_of_lt (Nat.lt_of_lt_of_le (old b hb) hfresh)

theorem both_comm (ha : a ∈ doc.whole.ids) {freshA freshB : Nat} (hfreshA : doc.size ≤ freshA)
    (hfreshB : doc.size ≤ freshB) {forest : Forest} (part : ∀ P, doc.whole.All P → forest.All P) :
    both b a other one freshB freshA forest = both a b one other freshA freshB forest :=
  (Forest.edit_comm h.ne (part _ (all_notMem_put h nodup old hb hfreshA))
    (part _ (all_notMem_put h.symm nodup old ha hfreshB))).symm

/-- What an effect cuts out is still there after another one on an unrelated node. -/
theorem below_enact : (doc.enact a one).below b = doc.below b := by
  have apart := apart_of_not_transGen nodup h.ne.symm h.notAbove
  have apart' := apart_of_not_transGen nodup h.ne h.notBelow
  rw [below, below, find?_enact_of_apart nodup apart.ne
    (fun _ => Nat.ne_of_lt (old b hb)) apart.notBelow apart'.notBelow]

/-- The trees cut out before, and then the content of `a` and that of `b`, as far as they are cut
out. -/
theorem detached_enact_enact (one other : Effect) :
    ((doc.enact a one).enact b other).detached =
      both a b one other doc.size (doc.enact a one).size doc.detached ++
        (doc.cut a one ++ doc.cut b other) := by
  have apart := apart_of_not_transGen nodup h.ne.symm h.notAbove
  have absent : b ∉ (doc.cut a one).ids := fun mem => apart.notBelow (mem_below_of_mem_cut mem)
  show ((_ ++ doc.cut a one : Forest).edit b _ ++ (doc.enact a one).cut b other : Forest) = _
  have kept : (doc.enact a one).cut b other = doc.cut b other := by
    rw [cut, below_enact h nodup old hb, cut]
  rw [Forest.edit_append_of_notMem absent, Forest.append_assoc, kept]
  rfl

end Both

/-- The wrappers can be renumbered as if the effects had come in the other order. -/
theorem exists_renumbering (doc : Document) (a b : Nat) (one other : Effect) :
    ∃ σ : Equiv.Perm Nat, (∀ id < doc.size, σ id = id) ∧
      one.put a (σ doc.size) = one.put a (doc.enact b other).size ∧
      other.put b (σ (doc.enact a one).size) = other.put b doc.size := by
  have size (node : Nat) (effect : Effect) : (doc.enact node effect).size =
      if effect.wrapper.isSome then doc.size + 1 else doc.size := rfl
  rw [size, size]
  cases hone : one.wrapper.isSome with
  | false => exact ⟨Equiv.refl Nat, fun _ _ => rfl, Effect.put_fresh hone a _ _, rfl⟩
  | true =>
      cases hother : other.wrapper.isSome with
      | false => exact ⟨Equiv.refl Nat, fun _ _ => rfl, rfl, Effect.put_fresh hother b _ _⟩
      | true =>
          refine ⟨Equiv.swap doc.size (doc.size + 1), fun id hid => ?_, ?_, ?_⟩
          · exact Equiv.swap_apply_of_ne_of_ne (by omega) (by omega)
          · rw [Equiv.swap_apply_left]
            rfl
          · rw [if_pos rfl, Equiv.swap_apply_right]

/-- **Effects on unrelated nodes commute**, up to the numbers of their wrappers. -/
theorem enact_comm (h : doc.Unrelated a b) (nodup : doc.whole.ids.Nodup)
    (old : ∀ x ∈ doc.whole.ids, x < doc.size) (ha : a ∈ doc.whole.ids) (hb : b ∈ doc.whole.ids)
    (one other : Effect) :
    ∃ σ : Equiv.Perm Nat, (∀ id < doc.size, σ id = id) ∧
      ((doc.enact a one).enact b other).roots.rename σ = ((doc.enact b other).enact a one).roots ∧
      ∀ id, ((doc.enact b other).enact a one).find? (σ id) =
        (((doc.enact a one).enact b other).find? id).map
          fun (label, children) => (label, children.rename σ) := by
  obtain ⟨σ, fixed, hone, hother⟩ := exists_renumbering doc a b one other
  have within (forest : Forest) (part : ∀ P, doc.whole.All P → forest.All P)
      (sub : ∀ x ∈ forest.ids, x ∈ doc.whole.ids) :
      (both a b one other doc.size (doc.enact a one).size forest).rename σ =
        both b a other one doc.size (doc.enact b other).size forest := by
    have later (node : Nat) (effect : Effect) : doc.size ≤ (doc.enact node effect).size := by
      unfold enact
      dsimp only
      split <;> omega
    rw [rename_both σ (fun x hx => fixed x (old x (sub x hx))) (fixed a (old a ha))
      (fixed b (old b hb)), both_comm h nodup old hb ha (later b other) (Nat.le_refl _) part]
    unfold both
    rw [hone, hother]
  have rootsIds : ∀ x ∈ doc.roots.ids, x ∈ doc.whole.ids := fun _ => mem_whole_of_mem_roots
  have detachedIds : ∀ x ∈ doc.detached.ids, x ∈ doc.whole.ids := by
    intro x hx
    rw [whole, Forest.ids_append]
    exact List.mem_append_right _ hx
  have roots := within doc.roots (fun P all => (Forest.all_append.mp all).1) rootsIds
  have detached := within doc.detached (fun P all => (Forest.all_append.mp all).2) detachedIds
  have swapped : ((doc.enact b other).enact a one).roots =
      ((doc.enact a one).enact b other).roots.rename σ := roots.symm
  refine ⟨σ, fixed, roots, fun id => ?_⟩
  have renamed (node : Nat) (effect : Effect) :
      (doc.cut node effect).find? (σ id) =
        ((doc.cut node effect).find? id).map fun (l, c) => (l, c.rename σ) := by
    have same : (doc.cut node effect).rename σ = doc.cut node effect :=
      Forest.rename_of_fixed fun x hx => fixed x (old x (mem_of_mem_cut hx))
    conv_lhs => rw [← same]
    exact Forest.find?_rename σ.injective id _
  -- At most one of the two cut out trees has the node, so their order does not matter.
  have order : ((doc.cut b other).find? id).or ((doc.cut a one).find? id) =
      ((doc.cut a one).find? id).or ((doc.cut b other).find? id) := by
    by_cases mem : id ∈ (doc.cut a one).ids
    · have absent : id ∉ (doc.cut b other).ids := fun hid =>
        h.disjoint nodup id (mem_below_of_mem_cut mem) (mem_below_of_mem_cut hid)
      rw [Forest.find?_eq_none absent, Option.none_or, Option.or_none]
    · rw [Forest.find?_eq_none mem, Option.none_or, Option.or_none]
  have hab := detached_enact_enact h nodup old hb one other
  have hba := detached_enact_enact h.symm nodup old ha other one
  rw [find?, find?, swapped, hab, hba, ← detached]
  simp only [Forest.find?_append, Forest.find?_rename σ.injective, renamed, ← Option.map_or, order]

end Document

/-! ## Two annotations -/

theorem Document.Orderly.stands {doc : Document} (h : doc.Orderly) {node : Nat}
    (made : node < doc.size) : doc.Stands node :=
  ⟨h.nodup, h.mem_whole made⟩

namespace Draft

variable {draft : Draft} {a b : Nat} {one other : Ref}

/-- Both annotations enact what they see before either. -/
theorem annotate_annotate (orderly : draft.document.Orderly)
    (unrelated : draft.document.Unrelated a b) (ha : a < draft.document.size)
    (hb : b < draft.document.size) (declarationA declarationB : Declaration) :
    (draft.annotate a one declarationA).annotate b other declarationB =
      (draft.enact a one
        (.ofDeclaration draft.settings one declarationA (draft.document.sight a))).enact b other
        (.ofDeclaration draft.settings other declarationB (draft.document.sight b)) := by
  have standsA := orderly.stands ha
  have standsB := orderly.stands hb
  have old : ∀ x ∈ draft.document.whole.ids, x ≠ draft.document.size :=
    fun x hx => Nat.ne_of_lt ((orderly.complete x).mp hx)
  have apart := Document.apart_of_not_transGen standsA.nodup unrelated.ne.symm unrelated.notAbove
  have apart' := Document.apart_of_not_transGen standsA.nodup unrelated.ne unrelated.notBelow
  -- After the first annotation the second node is still there, and looks the same.
  have ready := ready_annotate ⟨orderly, ha⟩ one declarationA
  rw [annotate_eq_enact standsA] at ready ⊢
  have later : b < (draft.enact a one (.ofDeclaration draft.settings one declarationA
      (draft.document.sight a))).document.size := by
    refine Nat.lt_of_lt_of_le hb ?_
    show _ ≤ (draft.document.enact a _).size
    unfold Document.enact
    dsimp only
    split <;> omega
  rw [annotate_eq_enact (ready.orderly.stands later)]
  have sight := Document.sight_enact (.ofDeclaration draft.settings one declarationA
    (draft.document.sight a)) standsA.nodup old standsB.mem apart apart'.notBelow
  exact congrArg _ (congrArg _ sight)

/-- **Annotating unrelated nodes commutes.** Of two nodes neither of which is above the other,
whichever is annotated first: under two refs the registry comes out the same, and the document up to
the numbers of the wrappers that the declarations ask for. -/
theorem annotate_comm {operations : List Document.Operation}
    (allowed : Document.AllowsAll {} operations) (settings : Settings) (registry : Registry)
    (unrelated : (Document.performAll {} operations).Unrelated a b)
    (ha : a < (Document.performAll {} operations).size)
    (hb : b < (Document.performAll {} operations).size) (refs : one ≠ other)
    (declarationA declarationB : Declaration) :
    let draft : Draft := ⟨settings, Document.performAll {} operations, registry⟩
    Alike draft.document.size
      ((draft.annotate a one declarationA).annotate b other declarationB)
      ((draft.annotate b other declarationB).annotate a one declarationA) := by
  intro draft
  have orderly : draft.document.Orderly := Document.orderly_empty.performAll allowed
  rw [annotate_annotate orderly unrelated ha hb, annotate_annotate orderly unrelated.symm hb ha]
  obtain ⟨σ, fixed, roots, found⟩ := Document.enact_comm unrelated orderly.nodup
    (fun x hx => (orderly.complete x).mp hx) ((orderly.complete a).mpr ha)
    ((orderly.complete b).mpr hb)
    (.ofDeclaration settings one declarationA (draft.document.sight a))
    (.ofDeclaration settings other declarationB (draft.document.sight b))
  refine ⟨?_, ?_, ?_, σ, fixed, roots, found⟩
  · exact (Forest.markup_rename _).symm.trans (congrArg Forest.markup roots)
  · exact Registry.changeAll_comm refs registry _ _
  · show (if _ then (if _ then _ else _) + 1 else (if _ then _ else _) : Nat) =
      if _ then (if _ then _ else _) + 1 else (if _ then _ else _)
    split <;> split <;> rfl

def pair : List Document.Operation :=
  [.element none "ul" [], .element (some 0) "li" [("class", "a")], .text 1 "x",
    .element (some 0) "li" []]

theorem unrelated_pair : (Document.performAll {} pair).Unrelated 1 3 := by
  have parents : (Document.performAll {} pair).parent? 1 = some 0 ∧
      (Document.performAll {} pair).parent? 3 = some 0 ∧
      (Document.performAll {} pair).parent? 0 = none := by decide
  obtain ⟨first, second, top⟩ := parents
  have none (x y : Nat) (parent : (Document.performAll {} pair).parent? x = some 0) (hy : y ≠ 0) :
      ¬ Relation.TransGen
        (fun child above => (Document.performAll {} pair).parent? child = some above) x y := by
    intro up
    obtain ⟨p, hp, rest⟩ := Relation.TransGen.head'_iff.mp up
    obtain rfl : 0 = p := Option.some.inj (parent.symm.trans hp)
    rcases rest.cases_head with rfl | ⟨q, hq, -⟩
    · exact hy rfl
    · rw [top] at hq
      cases hq
  exact ⟨by decide, none 3 1 second (by decide), none 1 3 first (by decide)⟩

/-- Both items get a wrapper, so the numbers of the wrappers differ. -/
theorem annotate_comm_pair :
    Document.AllowsAll {} pair ∧ (Document.performAll {} pair).Unrelated 1 3 ∧
    Alike 4
      ((Draft.annotate ⟨{}, Document.performAll {} pair, {}⟩ 1 ⟨"e0a", Ref.isValid_e0a⟩
        { inner := true, unrender := true }).annotate 3 ⟨"e0b", Ref.isValid_e0b⟩
          { tag := true, unrender := true })
      ((Draft.annotate ⟨{}, Document.performAll {} pair, {}⟩ 3 ⟨"e0b", Ref.isValid_e0b⟩
        { tag := true, unrender := true }).annotate 1 ⟨"e0a", Ref.isValid_e0a⟩
          { inner := true, unrender := true }) :=
  have allowed : Document.AllowsAll {} pair := by decide
  ⟨allowed, unrelated_pair, annotate_comm allowed {} {} unrelated_pair (by decide) (by decide)
    (by decide) _ _⟩

end Draft

end LateMarkup
