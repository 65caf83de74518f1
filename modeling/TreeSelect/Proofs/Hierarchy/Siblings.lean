/-
# TreeSelect.Proofs.Hierarchy.Siblings — sibling links and lists of children

In a tree a node has one place, in the list of children of its parent. Its sibling links lead to the
nodes right before and right after this place, so that walking along a link passes through all that
is listed on that side, the closest first. A list read backwards turns one direction into the other,
and what holds of both is said once.
-/
import TreeSelect.Proofs.Hierarchy.Beside
import Mathlib.Data.List.Nodup

namespace TreeSelect

namespace Direction

/-- A list as it is met in a direction: backwards it is reversed. -/
def arrange (direction : Direction) (nodes : List Node) : List Node :=
  match direction with
  | .next => nodes
  | .previous => nodes.reverse

variable {direction : Direction} {nodes : List Node}

theorem mem_arrange {n : Node} : n ∈ direction.arrange nodes ↔ n ∈ nodes := by
  cases direction with
  | next => exact Iff.rfl
  | previous => exact List.mem_reverse

theorem nodup_arrange : (direction.arrange nodes).Nodup ↔ nodes.Nodup := by
  cases direction with
  | next => exact Iff.rfl
  | previous => exact List.nodup_reverse

theorem eq_of_arrange_previous {passed ahead : List Node} {n : Node}
    (hsplit : Direction.previous.arrange nodes = passed ++ n :: ahead) :
    nodes = ahead.reverse ++ n :: passed.reverse := by
  rw [List.reverse_eq_iff.mp hsplit]
  simp

/-- Of two nodes, the same one comes first in a list read in a direction as in that direction. -/
theorem sublist_arrange_iff {n m : Node} : [n, m].Sublist (direction.arrange nodes) ↔
    direction.orient (fun x y => [x, y].Sublist nodes) n m := by
  cases direction with
  | next => exact Iff.rfl
  | previous =>
    show [m, n].reverse.Sublist nodes.reverse ↔ [m, n].Sublist nodes
    exact List.reverse_sublist

end Direction

namespace Hierarchy

variable {h : Hierarchy}

/-! ## Places in a list without repetition -/

section Place

variable {passed ahead : List Node} {n m : Node} (hnodup : (passed ++ n :: ahead).Nodup)

include hnodup

theorem not_mem_passed : n ∉ passed := fun hn =>
  (List.nodup_append.mp hnodup).2.2 n hn n List.mem_cons_self rfl

theorem idxOf?_place : (passed ++ n :: ahead).idxOf? n = some passed.length := by
  rw [List.idxOf?_eq_some_iff]
  refine ⟨by simp, by simp, fun i hi heq => ?_⟩
  rw [List.getElem_append_left hi] at heq
  exact not_mem_passed hnodup (heq ▸ List.getElem_mem hi)

/-- In a list without repetition, a pair led by a node stands in it if the other one is behind. -/
theorem sublist_pair_iff : [n, m].Sublist (passed ++ n :: ahead) ↔ m ∈ ahead := by
  constructor
  · intro hpair
    obtain ⟨before, after, hsplit, hbefore, hafter⟩ := List.sublist_append_iff.mp hpair
    cases before with
    | cons x before =>
      obtain ⟨rfl, -⟩ := List.cons.inj hsplit
      exact absurd (hbefore.subset List.mem_cons_self) (not_mem_passed hnodup)
    | nil =>
      rw [List.nil_append] at hsplit
      subst hsplit
      exact List.singleton_sublist.mp (List.cons_sublist_cons.mp hafter)
  · intro hm
    have hpair : [n, m].Sublist (n :: ahead) := (List.singleton_sublist.mpr hm).cons_cons n
    exact hpair.trans (List.sublist_append_right passed (n :: ahead))

end Place

/-! ## The place of a node -/

section Place

variable {direction : Direction} {p c : Node} {passed ahead : List Node}

theorem exists_place (direction : Direction) (hc : c ∈ h.children p) :
    ∃ passed ahead, direction.arrange (h.children p) = passed ++ c :: ahead :=
  List.append_of_mem (Direction.mem_arrange.mpr hc)

variable (hplace : direction.arrange (h.children p) = passed ++ c :: ahead)

include hplace

theorem mem_children_of_place : c ∈ h.children p := by
  have hc : c ∈ direction.arrange (h.children p) := by
    rw [hplace]
    exact List.mem_append_right passed List.mem_cons_self
  exact Direction.mem_arrange.mp hc

namespace IsTree

variable (ht : h.IsTree)

include ht

theorem nodup_place : (passed ++ c :: ahead).Nodup :=
  hplace ▸ Direction.nodup_arrange.mpr (ht.nodup_children p)

theorem siblings_of_place : h.siblings c = h.children p := by
  rw [siblings, ht.parent_eq_some_iff.mpr (mem_children_of_place hplace)]
  rfl

/-- The sibling link of a direction leads to the child that is listed next. -/
theorem sibling?_of_place : h.sibling? direction c = ahead.head? := by
  have hsiblings := ht.siblings_of_place hplace
  cases direction with
  | next =>
    have hchildren : h.children p = passed ++ c :: ahead := hplace
    have hindex := idxOf?_place (hchildren ▸ ht.nodup_children p)
    show h.nextSibling? c = ahead.head?
    rw [nextSibling?, hsiblings, hchildren, hindex, Option.bind_some,
      List.getElem?_append_right (Nat.le_succ _), Nat.succ_sub (Nat.le_refl _), Nat.sub_self,
      List.getElem?_cons_succ, List.head?_eq_getElem?]
  | previous =>
    have hchildren := Direction.eq_of_arrange_previous hplace
    have hindex := idxOf?_place (hchildren ▸ ht.nodup_children p)
    show h.previousSibling? c = ahead.head?
    rw [previousSibling?, hsiblings, hchildren, hindex, Option.bind_some]
    cases ahead with
    | nil => rfl
    | cons s ahead => simp

/-- The siblings on one side of a node are those listed behind its place. -/
theorem siblingsToward_of_place : h.siblingsToward direction c = ahead := by
  have := ht.isStrictOrder_beside
  have hforward := h.goesForward_sibling? direction
  induction ahead generalizing passed c with
  | nil => exact hforward.walk_eq_nil_of_step (ht.sibling?_of_place hplace)
  | cons s ahead ih =>
    have hnext : direction.arrange (h.children p) = (passed ++ [c]) ++ s :: ahead := by
      rw [hplace, List.append_assoc, List.singleton_append]
    rw [siblingsToward, hforward.walk_eq_cons (ht.sibling?_of_place hplace)]
    exact congrArg (s :: ·) (ih hnext)

end IsTree

end Place

/-! ## The siblings on one side -/

theorem sibling?_of_root {n : Node} (hroot : h.parent n = none) (direction : Direction) :
    h.sibling? direction n = none := by
  have hsiblings : h.siblings n = [] := by
    rw [siblings, hroot]
    rfl
  cases direction with
  | next =>
    show h.nextSibling? n = none
    rw [nextSibling?, hsiblings]
    rfl
  | previous =>
    show h.previousSibling? n = none
    rw [previousSibling?, hsiblings]
    rfl

variable (h) in
/-- The siblings listed before a node, the closest first. -/
def earlierSiblings (n : Node) : List Node := ((h.siblings n).takeWhile (· != n)).reverse

namespace IsTree

variable (ht : h.IsTree)

include ht

theorem mem_siblings_iff {n m : Node} :
    m ∈ h.siblings n ↔ ∃ p, n ∈ h.children p ∧ m ∈ h.children p := by
  constructor
  · intro hm
    cases hp : h.parent n with
    | none =>
      rw [siblings, hp] at hm
      cases hm
    | some p =>
      rw [siblings, hp] at hm
      exact ⟨p, ht.parent_eq_some_iff.mp hp, hm⟩
  · rintro ⟨p, hn, hm⟩
    rw [siblings, ht.parent_eq_some_iff.mpr hn]
    exact hm

theorem siblingsToward_of_root {n : Node} (hroot : h.parent n = none) (direction : Direction) :
    h.siblingsToward direction n = [] := by
  have := ht.isStrictOrder_beside
  exact (h.goesForward_sibling? direction).walk_eq_nil_of_step (sibling?_of_root hroot direction)

/-- The siblings in a direction are those that come behind the node in the list of children, read in
that direction. -/
theorem mem_siblingsToward_iff {direction : Direction} {n s : Node} :
    s ∈ h.siblingsToward direction n ↔ ∃ p, [n, s].Sublist (direction.arrange (h.children p)) := by
  constructor
  · intro hs
    cases hp : h.parent n with
    | none =>
      rw [ht.siblingsToward_of_root hp] at hs
      cases hs
    | some p =>
      obtain ⟨passed, ahead, hplace⟩ := exists_place direction (ht.parent_eq_some_iff.mp hp)
      rw [ht.siblingsToward_of_place hplace] at hs
      exact ⟨p, hplace ▸ (sublist_pair_iff (ht.nodup_place hplace)).mpr hs⟩
  · rintro ⟨p, hpair⟩
    have hn : n ∈ h.children p := Direction.mem_arrange.mp (hpair.subset List.mem_cons_self)
    obtain ⟨passed, ahead, hplace⟩ := exists_place direction hn
    rw [ht.siblingsToward_of_place hplace]
    exact (sublist_pair_iff (ht.nodup_place hplace)).mp (hplace ▸ hpair)

/-- What is below a node has its siblings below that node too. -/
theorem siblingsToward_subset_descendants {b n : Node} (hn : n ∈ h.descendants b)
    (direction : Direction) : h.siblingsToward direction n ⊆ h.descendants b := by
  intro s hs
  obtain ⟨p, hpair⟩ := ht.mem_siblingsToward_iff.mp hs
  have hpn : n ∈ h.children p := Direction.mem_arrange.mp (hpair.subset (by simp))
  have hps : s ∈ h.children p := Direction.mem_arrange.mp (hpair.subset (by simp))
  exact (ht.mem_descendants_iff hps).mpr ((ht.mem_descendants_iff hpn).mp hn)

theorem siblingsToward_previous (n : Node) :
    h.siblingsToward .previous n = h.earlierSiblings n := by
  cases hp : h.parent n with
  | none =>
    rw [ht.siblingsToward_of_root hp, earlierSiblings, siblings, hp]
    rfl
  | some p =>
    obtain ⟨passed, ahead, hplace⟩ :=
      exists_place Direction.previous (ht.parent_eq_some_iff.mp hp)
    have hchildren := Direction.eq_of_arrange_previous hplace
    have hahead : ∀ s ∈ ahead.reverse, (s != n) = true := by
      rintro s hs
      rw [bne_iff_ne]
      rintro rfl
      exact not_mem_passed (hchildren ▸ ht.nodup_children p) hs
    rw [ht.siblingsToward_of_place hplace, earlierSiblings, ht.siblings_of_place hplace, hchildren,
      List.takeWhile_append_of_pos hahead]
    simp

end IsTree

end Hierarchy

end TreeSelect
