/-
# TreeSelect.Proofs.Hierarchy.Links — lists of children and the links beside them

Descendants are enumerated from above, along the lists of children; parent links lead up from below.
In a tree both know the same nodes: a node is listed below another one just when its parent links
lead there, it is listed once, and the list goes through one branch after the other, a node before
all that is below it.

Sibling links are found again each time, by the place of a node among the children of its parent. In
a tree that place is the only one, so that the link back from the next sibling leads to where one
came from, and following the links from the first or from the last child passes all the others.
-/
import TreeSelect.Proofs.Hierarchy.Closest
import Mathlib.Logic.Relation

namespace TreeSelect

open Relation

namespace Direction

/-- The other way through the siblings. -/
def opposite : Direction → Direction
  | .previous => .next
  | .next => .previous

theorem arrange_opposite (direction : Direction) (nodes : List Node) :
    direction.opposite.arrange nodes = (direction.arrange nodes).reverse := by
  cases direction with
  | next => rfl
  | previous =>
    show nodes = nodes.reverse.reverse
    rw [List.reverse_reverse]

end Direction

namespace Hierarchy

variable (h : Hierarchy)

/-- The parent link of the first node leads to the second one. -/
def HasParent (n p : Node) : Prop := h.parent n = some p

instance (n p : Node) : Decidable (h.HasParent n p) :=
  inferInstanceAs (Decidable (h.parent n = some p))

variable {h}

/-! ## Parent links -/

/-- Of two members of a list in the document order of a tree, the one that precedes the other stands
before it in the list. -/
theorem InOrder.sublist_pair (ht : h.IsTree) {nodes : List Node} {n m : Node}
    (hnodes : h.InOrder nodes) (hn : n ∈ nodes) (hm : m ∈ nodes) (hnm : h.Precedes n m) :
    [n, m].Sublist nodes := by
  obtain ⟨passed, ahead, rfl⟩ := List.append_of_mem hn
  apply (sublist_pair_iff (hnodes.nodup ht)).mpr
  rcases List.mem_append.mp hm with hm | hm
  · -- What stands before the first node precedes it.
    have hmn : h.Precedes m n := (List.pairwise_append.mp hnodes).2.2 m hm n List.mem_cons_self
    exact absurd (ht.precedes_trans hnm hmn) (ht.not_precedes_self n)
  · rcases List.mem_cons.mp hm with rfl | hm
    · exact absurd hnm (ht.not_precedes_self m)
    · exact hm

namespace IsTree

variable (ht : h.IsTree)

include ht

/-- What is below a node are those nodes whose parent links lead to it. -/
theorem mem_descendants_iff_transGen {n m : Node} :
    m ∈ h.descendants n ↔ TransGen h.HasParent m n := by
  constructor
  · intro hm
    induction n using Nat.strongRecOn with
    | ind n ih =>
      obtain ⟨c, hc, hmc⟩ := mem_descendants_iff_subtree.mp hm
      have hlink : h.HasParent c n := ht.parent_eq_some_iff.mpr hc
      rcases mem_subtree_iff.mp hmc with rfl | hmc
      · exact .single hlink
      · exact .tail (ih c (h.child_lt hc) hmc) hlink
  · intro hup
    induction hup with
    | single hlink =>
      exact subtree_subset_descendants (ht.parent_eq_some_iff.mp hlink) (mem_subtree_self m)
    | tail _ hlink ih =>
      have hc := ht.parent_eq_some_iff.mp hlink
      exact subtree_subset_descendants hc (List.mem_cons_of_mem _ ih)

theorem mem_subtree_iff_reflTransGen {n m : Node} :
    m ∈ h.subtree n ↔ ReflTransGen h.HasParent m n := by
  rw [mem_subtree_iff, ht.mem_descendants_iff_transGen, reflTransGen_iff_eq_or_transGen, eq_comm]

/-- In a tree, the enumeration of what is below a node lists just the nodes from which parent links
lead to that node, in one or more steps, and lists each of them once. It lists a node before all the
nodes from which parent links lead to it; and of two siblings that are listed, or that are children
of the node itself, it lists the earlier one and all from which links lead to it before the later
one and all from which links lead to that. -/
theorem descendants_follow_parents (n : Node) :
    (∀ m, m ∈ h.descendants n ↔ TransGen h.HasParent m n) ∧ (h.descendants n).Nodup ∧
      (∀ m k, TransGen h.HasParent m n → TransGen h.HasParent k m →
        [m, k].Sublist (h.descendants n)) ∧
      ∀ p x y, ReflTransGen h.HasParent p n → [x, y].Sublist (h.children p) →
        ∀ m k, ReflTransGen h.HasParent m x → ReflTransGen h.HasParent k y →
          [m, k].Sublist (h.descendants n) := by
  have horder := h.inOrder_descendants n
  refine ⟨fun m => ht.mem_descendants_iff_transGen, horder.nodup ht, ?_, ?_⟩
  · intro m k hm hk
    have hkm : k ∈ h.descendants m := ht.mem_descendants_iff_transGen.mpr hk
    have hmn : m ∈ h.descendants n := ht.mem_descendants_iff_transGen.mpr hm
    exact horder.sublist_pair ht hmn (descendants_subset hmn hkm) (.below hkm)
  · intro p x y hp hxy m k hm hk
    have hpn : p ∈ h.subtree n := ht.mem_subtree_iff_reflTransGen.mpr hp
    have hmx : m ∈ h.subtree x := ht.mem_subtree_iff_reflTransGen.mpr hm
    have hky : k ∈ h.subtree y := ht.mem_subtree_iff_reflTransGen.mpr hk
    have inside {c : Node} (hc : c ∈ h.children p) : h.subtree c ⊆ h.descendants n :=
      List.Subset.trans (subtree_subset_descendants hc) (descendants_subset_of_mem_subtree hpn)
    obtain ⟨hx, hy⟩ := mem_children_of_sublist hxy
    exact horder.sublist_pair ht (inside hx hmx) (inside hy hky) (.beside hxy hmx hky)

end IsTree

/-- Below the table, a row is listed before the cell in it, and that before the comment after the
row. -/
theorem mixedRows_descendants :
    mixedRows.IsTree ∧ mixedRows.descendants 9 = [3, 0, 1, 2, 5, 4, 6, 8, 7] ∧
      TransGen mixedRows.HasParent 3 9 ∧ TransGen mixedRows.HasParent 1 3 ∧
      [3, 1].Sublist (mixedRows.descendants 9) ∧
      [3, 6].Sublist (mixedRows.children 9) ∧ ReflTransGen mixedRows.HasParent 1 3 ∧
      [1, 6].Sublist (mixedRows.descendants 9) := by
  have hrow : mixedRows.HasParent 3 9 := by decide
  have hcell : mixedRows.HasParent 1 3 := by decide
  have hlist : mixedRows.descendants 9 = [3, 0, 1, 2, 5, 4, 6, 8, 7] := by cbv
  have hsiblings : [3, 6].Sublist (mixedRows.children 9) := by decide
  obtain ⟨-, -, hbelow, hbeside⟩ := isTree_mixedRows.descendants_follow_parents 9
  exact ⟨isTree_mixedRows, hlist, .single hrow, .single hcell,
    hbelow 3 1 (.single hrow) (.single hcell), hsiblings, .single hcell,
    hbeside 9 3 6 .refl hsiblings 1 6 (.single hcell) .refl⟩

/-! ## Sibling links -/

namespace IsTree

variable (ht : h.IsTree) {direction : Direction}

include ht

/-- The sibling link of a direction leads from a child to the one that is listed right behind. -/
theorem sibling?_eq_some_iff {n m : Node} : h.sibling? direction n = some m ↔
    ∃ p passed ahead, direction.arrange (h.children p) = passed ++ n :: m :: ahead := by
  constructor
  · intro hm
    cases hp : h.parent n with
    | none =>
      rw [sibling?_of_root hp] at hm
      cases hm
    | some p =>
      obtain ⟨passed, ahead, hplace⟩ := exists_place direction (ht.parent_eq_some_iff.mp hp)
      rw [ht.sibling?_of_place hplace] at hm
      obtain ⟨rest, rfl⟩ := List.head?_eq_some_iff.mp hm
      exact ⟨p, passed, rest, hplace⟩
  · rintro ⟨p, passed, ahead, hplace⟩
    exact ht.sibling?_of_place hplace

theorem sibling?_opposite (direction : Direction) {n m : Node}
    (hm : h.sibling? direction n = some m) : h.sibling? direction.opposite m = some n := by
  obtain ⟨p, passed, ahead, hplace⟩ := ht.sibling?_eq_some_iff.mp hm
  apply ht.sibling?_eq_some_iff.mpr
  refine ⟨p, ahead.reverse, passed.reverse, ?_⟩
  rw [Direction.arrange_opposite, hplace]
  simp

/-- Following the sibling links of a direction passes all children listed behind. -/
theorem run_sibling? {p c : Node} {passed ahead : List Node}
    (hplace : direction.arrange (h.children p) = passed ++ c :: ahead) :
    Run (h.sibling? direction) c ahead := by
  have := ht.isStrictOrder_beside
  rw [← ht.siblingsToward_of_place hplace]
  exact (h.goesForward_sibling? direction).run_walk c

/-- In a tree, a node has another one for its next sibling just when it is the previous sibling of
that. The links to the next sibling lead from the first child of a node through all the others, in
their order, and no further; those to the previous sibling lead from the last child back through all
the others, and no further. -/
theorem sibling_links_follow_children :
    (∀ a b, h.nextSibling? a = some b ↔ h.previousSibling? b = some a) ∧
      (∀ p first rest, h.children p = first :: rest → Run h.nextSibling? first rest) ∧
      ∀ p last rest, h.children p = rest ++ [last] →
        Run h.previousSibling? last rest.reverse := by
  refine ⟨fun a b => ⟨?_, ?_⟩, ?_, ?_⟩
  · exact ht.sibling?_opposite .next
  · exact ht.sibling?_opposite .previous
  · intro p first rest hchildren
    have hplace : Direction.next.arrange (h.children p) = [] ++ first :: rest := hchildren
    exact ht.run_sibling? hplace
  · intro p last rest hchildren
    have hplace : Direction.previous.arrange (h.children p) = [] ++ last :: rest.reverse := by
      show (h.children p).reverse = last :: rest.reverse
      rw [hchildren, List.reverse_append, List.reverse_singleton, List.singleton_append]
    exact ht.run_sibling? hplace

end IsTree

/-- The children of the table, passed in both ways; the two cells that look alike; and the mark,
which has no siblings. -/
theorem mixedRows_siblings :
    mixedRows.IsTree ∧ mixedRows.children 9 = [3, 5, 6, 8] ∧
      Run mixedRows.nextSibling? 3 [5, 6, 8] ∧ Run mixedRows.previousSibling? 8 [6, 5, 3] ∧
      mixedRows.nextSibling? 1 = some 2 ∧ mixedRows.previousSibling? 2 = some 1 ∧
      mixedRows.children 5 = [4] ∧ Run mixedRows.nextSibling? 4 [] ∧
      Run mixedRows.previousSibling? 4 [] := by
  obtain ⟨hback, hnext, hprevious⟩ := isTree_mixedRows.sibling_links_follow_children
  have hlink : mixedRows.nextSibling? 1 = some 2 := by decide
  exact ⟨isTree_mixedRows, rfl, hnext 9 3 [5, 6, 8] rfl, hprevious 9 8 [3, 5, 6] rfl, hlink,
    (hback 1 2).mp hlink, rfl, hnext 5 4 [] rfl, hprevious 5 4 [] rfl⟩

end Hierarchy

end TreeSelect
