import LateMarkup.Proofs.Locality
import LateMarkup.Proofs.Operations

/-!
# Numbers of nodes

In every document that operations make of the empty one, the numbers below its size are those of its
nodes, each of one node (`Document.Numbered`). This needs less than `Document.Orderly`: nodes may
also be put under texts, where they have no part in the markup. It is all that is needed to speak of
the node with a number.
-/

namespace LateMarkup

namespace Document

variable {doc changed : Document} {node : Nat}

/-- Every node that was made stands once, in the document or in what was cut out of it. -/
structure Numbered (doc : Document) : Prop where
  nodup : doc.whole.ids.Nodup
  complete : ∀ id, id ∈ doc.whole.ids ↔ id < doc.size

theorem size_le_enact (doc : Document) (node : Nat) (effect : Effect) :
    doc.size ≤ (doc.enact node effect).size := by
  show doc.size ≤ if effect.wrapper.isSome then doc.size + 1 else doc.size
  split
  · exact Nat.le_succ _
  · exact Nat.le_refl _

theorem Orderly.numbered (h : doc.Orderly) : doc.Numbered := ⟨h.nodup, h.complete⟩

namespace Numbered

theorem stands (h : doc.Numbered) (made : node < doc.size) : doc.Stands node :=
  ⟨h.nodup, (h.complete node).mpr made⟩

theorem lt_size (h : doc.Numbered) {x : Nat} (mem : x ∈ doc.whole.ids) : x < doc.size :=
  (h.complete x).mp mem

theorem size_notMem (h : doc.Numbered) : doc.size ∉ doc.whole.ids :=
  fun mem => Nat.lt_irrefl _ (h.lt_size mem)

/-- A change after which the next number stands once in addition, or no other one. -/
theorem of_perm (h : doc.Numbered) (grows : Bool)
    (perm : changed.whole.ids.Perm (doc.whole.ids ++ if grows then [doc.size] else []))
    (size : changed.size = if grows then doc.size + 1 else doc.size) : changed.Numbered := by
  cases grows with
  | false =>
      rw [if_neg Bool.false_ne_true, List.append_nil] at perm
      rw [if_neg Bool.false_ne_true] at size
      refine ⟨perm.symm.nodup h.nodup, fun id => ?_⟩
      rw [perm.mem_iff, size, h.complete]
  | true =>
      rw [if_pos rfl] at perm size
      refine ⟨?_, fun id => ?_⟩
      · exact perm.symm.nodup
          (List.nodup_append_comm.mp (List.nodup_cons.mpr ⟨h.size_notMem, h.nodup⟩))
      · rw [perm.mem_iff, List.mem_append, h.complete, List.mem_singleton, size]
        omega

theorem enact (h : doc.Numbered) (made : node < doc.size) (effect : Effect) :
    (doc.enact node effect).Numbered := by
  have mem := (h.complete node).mpr made
  have put : doc.whole.All fun here label children => here = node →
      ((effect.put node doc.size children).ids ++ (doc.cut node effect).ids).Perm
        ((Forest.tree here label children).ids ++
          if effect.wrapper.isSome then [doc.size] else []) := by
    refine Forest.All.mono (all_at node h.nodup) fun here label children at_ heq => ?_
    rw [(at_ heq).2, heq]
    have kept : ((if effect.emptied then .nil else doc.below node : Forest).ids ++
        (doc.cut node effect).ids) = (doc.below node).ids := by
      unfold cut
      split
      · rfl
      · exact List.append_nil _
    unfold Effect.put
    cases effect.wrapper with
    | none =>
        show ((Forest.tree node _ _).ids ++ _).Perm (_ ++ [])
        rw [Forest.ids_tree, Forest.ids_tree, List.cons_append, kept, List.append_nil]
    | some tag =>
        show ((Forest.tree doc.size _ (Forest.tree node _ _)).ids ++ _).Perm (_ ++ [doc.size])
        rw [Forest.ids_tree, Forest.ids_tree, Forest.ids_tree, List.cons_append, List.cons_append,
          kept]
        exact (List.perm_append_singleton doc.size _).symm
  have exchange := Forest.ids_edit_exchange h.nodup mem put
  apply h.of_perm effect.wrapper.isSome
  · show (doc.roots.edit node _ ++
      (doc.detached.edit node _ ++ doc.cut node effect) : Forest).ids.Perm _
    rw [← Forest.append_assoc, ← Forest.edit_append _ h.nodup, Forest.ids_append]
    exact exchange
  · rfl

end Numbered

/-! ## Operations as effects -/

section Effects

variable (stands : doc.Stands node)

include stands

theorem relabel_eq_enact (change : Label → Label) :
    doc.relabel node change = doc.enact node { label := change (doc.label node) } := by
  conv_lhs => rw [← enact_label node stands.nodup]
  exact relabel_enact stands.nodup ⟨rfl, rfl⟩ change

theorem clear_eq_enact :
    doc.clear node =
      doc.enact node { label := doc.label node, emptied := (doc.label node).isElement } := by
  conv_lhs => rw [← enact_label node stands.nodup]
  exact clear_enact stands.nodup stands.mem ⟨rfl, rfl⟩ rfl

theorem wrap_eq_enact (tag : String) :
    doc.wrap node tag = doc.enact node { label := doc.label node, wrapper := some tag } := by
  conv_lhs => rw [← enact_label node stands.nodup]
  exact wrap_enact stands.nodup ⟨rfl, rfl⟩ tag

end Effects

/-! ## Adding nodes -/

namespace Numbered

theorem addRoot (h : doc.Numbered) (label : Label) : (doc.add none label).Numbered := by
  apply h.of_perm true
  · show ((doc.roots ++ Forest.tree doc.size label .nil) ++ doc.detached).ids.Perm _
    rw [whole, Forest.ids_append, Forest.ids_append, Forest.ids_append, Forest.ids_tree,
      List.append_assoc, List.append_assoc]
    exact List.perm_append_comm.append_left doc.roots.ids
  · rfl

theorem addTo (h : doc.Numbered) {parent : Nat} (made : parent < doc.size) (label : Label) :
    (doc.add (some parent) label).Numbered := by
  let grow (above : Label) (children : Forest) : Forest :=
    Forest.tree parent above (children ++ Forest.tree doc.size label .nil)
  have put : doc.whole.All fun here above children => here = parent →
      ((grow above children).ids ++ []).Perm
        ((Forest.tree here above children).ids ++ [doc.size]) := by
    refine Forest.All.mono (all_at parent h.nodup) fun here above children _ heq => ?_
    rw [heq, List.append_nil, Forest.ids_tree, Forest.ids_tree, Forest.ids_append, Forest.ids_tree]
    exact List.Perm.refl _
  have exchange := Forest.ids_edit_exchange h.nodup ((h.complete parent).mpr made) put
  rw [List.append_nil] at exchange
  apply h.of_perm true
  · show (doc.roots.edit parent grow ++ doc.detached.edit parent grow).ids.Perm _
    rw [← Forest.edit_append _ h.nodup]
    exact exchange
  · rfl

end Numbered

/-! ## Sequences of operations -/

def Permits (doc : Document) : Operation → Prop
  | .element parent _ _ => ∀ id ∈ parent, id < doc.size
  | .text parent _ => parent < doc.size
  | .setTag node _ => node < doc.size
  | .setAttribute node _ _ => node < doc.size
  | .removeAttribute node _ => node < doc.size
  | .clear node => node < doc.size
  | .wrap node _ => node < doc.size
  | .annotate _ _ node _ _ => node < doc.size

instance (doc : Document) : (operation : Operation) → Decidable (doc.Permits operation)
  | .element parent _ _ => inferInstanceAs (Decidable (∀ id ∈ parent, id < doc.size))
  | .text parent _ => inferInstanceAs (Decidable (parent < doc.size))
  | .setTag node _ => inferInstanceAs (Decidable (node < doc.size))
  | .setAttribute node _ _ => inferInstanceAs (Decidable (node < doc.size))
  | .removeAttribute node _ => inferInstanceAs (Decidable (node < doc.size))
  | .clear node => inferInstanceAs (Decidable (node < doc.size))
  | .wrap node _ => inferInstanceAs (Decidable (node < doc.size))
  | .annotate _ _ node _ _ => inferInstanceAs (Decidable (node < doc.size))

def PermitsAll (doc : Document) : List Operation → Prop
  | [] => True
  | operation :: rest => doc.Permits operation ∧ (doc.perform operation).PermitsAll rest

instance decidablePermitsAll (doc : Document) :
    (operations : List Operation) → Decidable (doc.PermitsAll operations)
  | [] => .isTrue trivial
  | operation :: rest =>
    have := decidablePermitsAll (doc.perform operation) rest
    inferInstanceAs (Decidable (doc.Permits operation ∧ (doc.perform operation).PermitsAll rest))

/-- **Every operation keeps the numbers in order.** -/
theorem Numbered.perform (h : doc.Numbered) {operation : Operation}
    (permitted : doc.Permits operation) : (doc.perform operation).Numbered := by
  have relabel {node : Nat} (made : node < doc.size) (change : Label → Label) :
      (doc.relabel node change).Numbered := by
    rw [relabel_eq_enact (h.stands made)]
    exact h.enact made _
  cases operation with
  | element parent tag attributes =>
      cases parent with
      | none => exact h.addRoot _
      | some parent => exact h.addTo (permitted parent rfl) _
  | text parent content => exact h.addTo permitted _
  | setTag node tag => exact relabel permitted _
  | setAttribute node name value => exact relabel permitted _
  | removeAttribute node name => exact relabel permitted _
  | clear node =>
      show (doc.clear node).Numbered
      rw [clear_eq_enact (h.stands permitted)]
      exact h.enact permitted _
  | wrap node tag =>
      show (doc.wrap node tag).Numbered
      rw [wrap_eq_enact (h.stands permitted)]
      exact h.enact permitted _
  | annotate settings registry node ref declaration =>
      show (Draft.annotate ⟨settings, doc, registry⟩ node ref declaration).document.Numbered
      rw [Draft.annotate_eq_enact (h.stands permitted)]
      exact h.enact permitted _

theorem Numbered.performAll (h : doc.Numbered) {operations : List Operation}
    (permitted : doc.PermitsAll operations) : (doc.performAll operations).Numbered := by
  induction operations generalizing doc with
  | nil => exact h
  | cons operation rest ih => exact ih (h.perform permitted.1) permitted.2

theorem numbered_performAll {operations : List Operation} (permitted : PermitsAll {} operations) :
    (Document.performAll {} operations).Numbered :=
  orderly_empty.numbered.performAll permitted

end Document

end LateMarkup
