/-
# TreeSelect.Proofs.Hierarchy.Order — document order

One node precedes another in document order when the other is below it, or when somewhere the two
branch off to an earlier and to a later sibling. The descendants of a node are listed in this order
in every hierarchy; in a tree it is a strict order, so that what is listed in it is listed once.
-/
import TreeSelect.Proofs.Hierarchy.Tree
import Mathlib.Order.Defs.Unbundled

namespace TreeSelect

namespace Hierarchy

variable (h : Hierarchy)

/-- Document order: a node comes before what is below it, and what belongs to a sibling comes
before what belongs to a later sibling. -/
inductive Precedes (n m : Node) : Prop
  | below : m ∈ h.descendants n → Precedes n m
  | beside {p x y : Node} : [x, y].Sublist (h.children p) → n ∈ h.subtree x → m ∈ h.subtree y →
      Precedes n m

/-- The nodes are listed in document order, each before all that follow it in the list. -/
def InOrder (nodes : List Node) : Prop := nodes.Pairwise h.Precedes

variable {h}

theorem InOrder.sublist {nodes part : List Node} (hnodes : h.InOrder nodes)
    (hpart : part.Sublist nodes) : h.InOrder part :=
  List.Pairwise.sublist hpart hnodes

theorem inOrder_nil : h.InOrder [] := List.Pairwise.nil

theorem inOrder_singleton (n : Node) : h.InOrder [n] := List.pairwise_singleton _ n

theorem mem_children_of_sublist {p x y : Node} (hxy : [x, y].Sublist (h.children p)) :
    x ∈ h.children p ∧ y ∈ h.children p :=
  ⟨hxy.subset List.mem_cons_self, hxy.subset (List.mem_cons_of_mem x List.mem_cons_self)⟩

/-- In a list without repetition, what comes before a member comes before what follows it. -/
theorem sublist_pair_trans {nodes : List Node} (hnodup : nodes.Nodup) {x y z : Node}
    (hxy : [x, y].Sublist nodes) (hyz : [y, z].Sublist nodes) : [x, z].Sublist nodes := by
  induction nodes with
  | nil => cases hxy
  | cons c rest ih =>
    obtain ⟨hc, hrest⟩ := List.nodup_cons.mp hnodup
    have hrestYZ (hy : y ∈ rest) : [y, z].Sublist rest := by
      cases hyz with
      | cons _ hyz => exact hyz
      | cons_cons _ _ => exact absurd hy hc
    cases hxy with
    | cons _ hxy => exact .cons c (ih hrest hxy (hrestYZ (hxy.subset (by simp))))
    | cons_cons _ hy =>
      have hz : z ∈ rest := (hrestYZ (List.singleton_sublist.mp hy)).subset (by simp)
      exact .cons_cons _ (List.singleton_sublist.mpr hz)

/-! ## What is listed in document order -/

/-- The subtrees of the children of a node follow one another in document order. -/
theorem pairwise_children (p : Node) : (h.children p).Pairwise
    fun x y => ∀ n ∈ h.subtree x, ∀ m ∈ h.subtree y, h.Precedes n m := by
  rw [List.pairwise_iff_forall_sublist]
  intro x y hxy n hn m hm
  exact .beside hxy hn hm

theorem inOrder_children (p : Node) : h.InOrder (h.children p) :=
  (pairwise_children p).imp fun hxy => hxy _ (mem_subtree_self _) _ (mem_subtree_self _)

theorem inOrder_descendants (n : Node) : h.InOrder (h.descendants n) := by
  induction n using Nat.strongRecOn with
  | ind n ih =>
    rw [InOrder, descendants_eq_flatMap, List.pairwise_flatMap]
    refine ⟨fun c hc => ?_, pairwise_children n⟩
    exact List.pairwise_cons.mpr ⟨fun m hm => .below hm, ih c (h.child_lt hc)⟩

/-! ## Document order in a tree -/

namespace IsTree

variable (ht : h.IsTree)

include ht

/-- Two siblings in order are two nodes. -/
theorem ne_of_sublist {p x y : Node} (hxy : [x, y].Sublist (h.children p)) : x ≠ y := by
  intro heq
  have hnodup := (ht.nodup_children p).sublist hxy
  simp [heq] at hnodup

theorem not_precedes_self (n : Node) : ¬h.Precedes n n := by
  rintro (hn | ⟨hxy, hx, hy⟩)
  · exact Nat.lt_irrefl _ (h.lt_of_mem_descendants hn)
  · obtain ⟨hxp, hyp⟩ := mem_children_of_sublist hxy
    exact ht.ne_of_sublist hxy (ht.eq_of_mem_subtree hxp hyp hx hy)

theorem precedes_trans {a b c : Node} (hab : h.Precedes a b) (hbc : h.Precedes b c) :
    h.Precedes a c := by
  -- What a branch has in its subtree, it keeps when a node of it is left for one below that node.
  rcases hab with hab | @⟨p, x, y, hxy, hax, hby⟩
  · rcases hbc with hbc | @⟨q, u, v, huv, hbu, hcv⟩
    · exact .below (descendants_subset hab hbc)
    · obtain ⟨hu, hv⟩ := mem_children_of_sublist huv
      rcases ht.subtree_total hbu (List.mem_cons_of_mem a hab) with hua | hau
      · rcases mem_subtree_iff.mp hua with rfl | hua
        · exact .beside huv (mem_subtree_self u) hcv
        · have hqa : q ∈ h.subtree a := (ht.mem_descendants_iff hu).mp hua
          exact .below (subtree_subset_of_mem_descendants ((ht.mem_descendants_iff hv).mpr hqa) hcv)
      · exact .beside huv hau hcv
  · obtain ⟨hx, hy⟩ := mem_children_of_sublist hxy
    rcases hbc with hbc | @⟨q, u, v, huv, hbu, hcv⟩
    · exact .beside hxy hax (subtree_subset hby (List.mem_cons_of_mem b hbc))
    · obtain ⟨hu, hv⟩ := mem_children_of_sublist huv
      by_cases hyu : y = u
      · subst hyu
        obtain rfl := ht.parent_unique hy hu
        exact .beside (sublist_pair_trans (ht.nodup_children p) hxy huv) hax hcv
      · rcases ht.subtree_total hby hbu with hyu' | huy'
        · have hyb : y ∈ h.descendants u := (mem_subtree_iff.mp hyu').resolve_left hyu
          have hpu : p ∈ h.subtree u := (ht.mem_descendants_iff hy).mp hyb
          have hxu : x ∈ h.descendants u := (ht.mem_descendants_iff hx).mpr hpu
          exact .beside huv (List.mem_cons_of_mem u (subtree_subset_of_mem_descendants hxu hax)) hcv
        · have huy : u ∈ h.descendants y := (mem_subtree_iff.mp huy').resolve_left (Ne.symm hyu)
          have hqy : q ∈ h.subtree y := (ht.mem_descendants_iff hu).mp huy
          have hvy : v ∈ h.descendants y := (ht.mem_descendants_iff hv).mpr hqy
          exact .beside hxy hax (List.mem_cons_of_mem y (subtree_subset_of_mem_descendants hvy hcv))

/-- Document order in a tree is a strict order. -/
theorem isStrictOrder_precedes : IsStrictOrder Node h.Precedes where
  irrefl := ht.not_precedes_self
  trans _ _ _ := ht.precedes_trans

end IsTree

/-- What is listed in document order in a tree is listed once. -/
theorem InOrder.nodup (ht : h.IsTree) {nodes : List Node} (hnodes : h.InOrder nodes) :
    nodes.Nodup := by
  apply List.Pairwise.imp _ hnodes
  rintro n m hnm rfl
  exact ht.not_precedes_self n hnm

end Hierarchy

end TreeSelect
