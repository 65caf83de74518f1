/-
# TreeSelect.Proofs.Hierarchy.Beside — nodes in branches side by side

Document order has two cases: a node precedes what is below it, and what branches off to an earlier
sibling precedes what branches off to a later one. The second case alone is the order in which the
sibling links lead, and in a tree it is a strict order too. It never relates a node to one above or
below it (`IsTree.not_mem_subtree_of_beside`).
-/
import TreeSelect.Proofs.Hierarchy.Order
import TreeSelect.Proofs.Hierarchy.Walks

namespace TreeSelect

/-! ## Relations in a direction -/

namespace Direction

/-- A relation read in a direction: backwards it holds from the second to the first. -/
def orient (direction : Direction) (R : Node → Node → Prop) : Node → Node → Prop :=
  match direction with
  | .next => R
  | .previous => fun n m => R m n

variable {R S : Node → Node → Prop}

theorem orient_imp (hRS : ∀ {n m : Node}, R n m → S n m) {direction : Direction} {n m : Node}
    (hnm : direction.orient R n m) : direction.orient S n m := by
  cases direction with
  | next => exact hRS hnm
  | previous => exact hRS hnm

/-- A strict order stays one when it is read backwards. -/
instance isStrictOrder_orient [IsStrictOrder Node R] (direction : Direction) :
    IsStrictOrder Node (direction.orient R) where
  irrefl n := by
    cases direction with
    | next => exact irrefl_of R n
    | previous => exact irrefl_of R n
  trans a b c hab hbc := by
    cases direction with
    | next => exact trans_of R hab hbc
    | previous => exact trans_of R hbc hab

end Direction

namespace Hierarchy

variable (h : Hierarchy)

/-! ## Side by side -/

/-- Somewhere the two nodes branch off to an earlier and to a later sibling. -/
def Beside (n m : Node) : Prop :=
  ∃ p x y, [x, y].Sublist (h.children p) ∧ n ∈ h.subtree x ∧ m ∈ h.subtree y

variable {h}

theorem precedes_iff {n m : Node} :
    h.Precedes n m ↔ m ∈ h.descendants n ∨ h.Beside n m := by
  constructor
  · rintro (hm | ⟨hxy, hn, hm⟩)
    · exact .inl hm
    · exact .inr ⟨_, _, _, hxy, hn, hm⟩
  · rintro (hm | ⟨p, x, y, hxy, hn, hm⟩)
    · exact .below hm
    · exact .beside hxy hn hm

theorem Beside.precedes {n m : Node} (hnm : h.Beside n m) : h.Precedes n m :=
  precedes_iff.mpr (.inr hnm)

/-- What is beside a node is beside all that is below it, and so is all that is below that. -/
theorem Beside.subtree {n m a b : Node} (hnm : h.Beside n m) (ha : a ∈ h.subtree n)
    (hb : b ∈ h.subtree m) : h.Beside a b := by
  obtain ⟨p, x, y, hxy, hn, hm⟩ := hnm
  exact ⟨p, x, y, hxy, subtree_subset hn ha, subtree_subset hm hb⟩

theorem Beside.orient_subtree {direction : Direction} {n m a b : Node}
    (hnm : direction.orient h.Beside n m) (ha : a ∈ h.subtree n) (hb : b ∈ h.subtree m) :
    direction.orient h.Beside a b := by
  cases direction with
  | next => exact Beside.subtree hnm ha hb
  | previous => exact Beside.subtree hnm hb ha

theorem Beside.lt_size {n m : Nat} (hnm : h.Beside n m) : n < h.size ∧ m < h.size := by
  obtain ⟨p, x, y, hxy, hn, hm⟩ := hnm
  obtain ⟨hx, hy⟩ := mem_children_of_sublist hxy
  have inside {z k : Nat} (hz : z ∈ h.children p) (hk : k ∈ h.subtree z) : k < h.size :=
    calc k ≤ z := le_of_mem_subtree hk
      _ < p := h.child_lt hz
      _ < h.size := h.lt_size hz
  exact ⟨inside hx hn, inside hy hm⟩

namespace IsTree

variable (ht : h.IsTree)

include ht

/-- Of two nodes side by side, neither is in the subtree of the other. -/
theorem not_mem_subtree_of_beside {n m : Node} (hnm : h.Beside n m) :
    m ∉ h.subtree n ∧ n ∉ h.subtree m := by
  obtain ⟨p, x, y, hxy, hn, hm⟩ := hnm
  obtain ⟨hx, hy⟩ := mem_children_of_sublist hxy
  constructor
  · intro hmn
    exact ht.ne_of_sublist hxy (ht.eq_of_mem_subtree hx hy (subtree_subset hn hmn) hm)
  · intro hnm
    exact ht.ne_of_sublist hxy (ht.eq_of_mem_subtree hx hy hn (subtree_subset hm hnm))

theorem not_mem_subtree_of_orient_beside {direction : Direction} {n m : Node}
    (hnm : direction.orient h.Beside n m) : m ∉ h.subtree n ∧ n ∉ h.subtree m := by
  cases direction with
  | next => exact ht.not_mem_subtree_of_beside hnm
  | previous => exact (ht.not_mem_subtree_of_beside hnm).symm

theorem beside_trans {a b c : Node} (hab : h.Beside a b) (hbc : h.Beside b c) :
    h.Beside a c := by
  rcases precedes_iff.mp (ht.precedes_trans hab.precedes hbc.precedes) with hca | hac
  · -- The third node would be below the first, hence both before and after the second.
    have hcb : h.Beside c b :=
      hab.subtree (List.mem_cons_of_mem a hca) (mem_subtree_self b)
    exact absurd (ht.precedes_trans hbc.precedes hcb.precedes) (ht.not_precedes_self b)
  · exact hac

theorem isStrictOrder_beside : IsStrictOrder Node h.Beside where
  irrefl n hn := ht.not_precedes_self n hn.precedes
  trans _ _ _ := ht.beside_trans

end IsTree

/-! ## Sibling links -/

/-- Of two places of a list, the earlier one holds the first of a pair that stands in the list. -/
theorem sublist_pair_of_getElem? {nodes : List Node} {i j : Nat} {x y : Node} (hij : i < j)
    (hx : nodes[i]? = some x) (hy : nodes[j]? = some y) : [x, y].Sublist nodes := by
  have hxTake : x ∈ nodes.take (i + 1) := by
    apply List.mem_of_getElem? (i := i)
    rw [List.getElem?_take_of_lt (Nat.lt_succ_self i), hx]
  have hyDrop : y ∈ nodes.drop (i + 1) := by
    apply List.mem_of_getElem? (i := j - (i + 1))
    rw [List.getElem?_drop, Nat.add_sub_cancel' hij, hy]
  rw [← List.take_append_drop (i + 1) nodes]
  exact (List.singleton_sublist.mpr hxTake).append (List.singleton_sublist.mpr hyDrop)

theorem getElem?_of_idxOf?_eq_some {nodes : List Node} {n : Node} {i : Nat}
    (hi : nodes.idxOf? n = some i) : nodes[i]? = some n := by
  obtain ⟨hlt, hn, -⟩ := List.idxOf?_eq_some_iff.mp hi
  rw [List.getElem?_eq_getElem hlt, hn]

/-- The sibling link of a direction leads to a node beside, in that direction. -/
theorem beside_of_sibling? {direction : Direction} {n m : Node}
    (hm : h.sibling? direction n = some m) : direction.orient h.Beside n m := by
  -- A node with siblings has a parent, whose children they are.
  have beside {x y : Node} (hxy : [x, y].Sublist (h.siblings n)) : h.Beside x y := by
    unfold siblings at hxy
    cases hp : h.parent n with
    | none =>
      rw [hp] at hxy
      cases hxy
    | some p =>
      rw [hp] at hxy
      exact ⟨p, x, y, hxy, mem_subtree_self x, mem_subtree_self y⟩
  cases direction with
  | next =>
    obtain ⟨i, hi, hnext⟩ := Option.bind_eq_some_iff.mp hm
    exact beside
      (sublist_pair_of_getElem? (Nat.lt_succ_self i) (getElem?_of_idxOf?_eq_some hi) hnext)
  | previous =>
    obtain ⟨i, hi, hprevious⟩ := Option.bind_eq_some_iff.mp hm
    split at hprevious
    · cases hprevious
    · next hpos =>
      exact beside (sublist_pair_of_getElem? (by omega) hprevious (getElem?_of_idxOf?_eq_some hi))

/-- A step that leads to a node beside, in a direction, goes forward in that direction. -/
theorem goesForward_of_beside {direction : Direction} {step : Node → Option Node}
    (hstep : ∀ {n m : Node}, step n = some m → direction.orient h.Beside n m) :
    GoesForward h.size step (direction.orient h.Beside) := by
  have inside {n m : Nat} (hm : step n = some m) : n < h.size ∧ m < h.size := by
    have hnm := hstep hm
    cases direction with
    | next => exact hnm.lt_size
    | previous => exact hnm.lt_size.symm
  exact ⟨hstep, fun hm => (inside hm).1, fun hm => (inside hm).2⟩

variable (h) in
theorem goesForward_sibling? (direction : Direction) :
    GoesForward h.size (h.sibling? direction) (direction.orient h.Beside) :=
  goesForward_of_beside beside_of_sibling?

/-! ## Parent links -/

instance isStrictOrder_below : IsStrictOrder Node fun n m => n ∈ h.descendants m where
  irrefl _ hn := Nat.lt_irrefl _ (h.lt_of_mem_descendants hn)
  trans _ _ _ hab hbc := descendants_subset hbc hab

/-- Where parent links lead to nodes that list the child, they lead up. -/
theorem goesForward_of_listed
    (hlisted : ∀ {n p : Node}, h.parent n = some p → n ∈ h.children p) :
    GoesForward h.size h.parent fun n m => n ∈ h.descendants m where
  forward hp := subtree_subset_descendants (hlisted hp) (mem_subtree_self _)
  source_lt hp := Nat.lt_trans (h.child_lt (hlisted hp)) (h.lt_size (hlisted hp))
  target_lt hp := h.lt_size (hlisted hp)

namespace IsTree

variable (ht : h.IsTree)

include ht

theorem goesForward_parent :
    GoesForward h.size h.parent fun n m => n ∈ h.descendants m :=
  goesForward_of_listed ht.parent_eq_some_iff.mp

/-- The nodes above a node are those that it is below. -/
theorem mem_ancestors_iff {n m : Node} : m ∈ h.ancestors n ↔ n ∈ h.descendants m := by
  constructor
  · exact fun hm => ht.goesForward_parent.of_mem_walk hm
  · have hrun : Run h.parent n (h.ancestors n) := ht.goesForward_parent.run_walk n
    intro hn
    generalize h.ancestors n = above at hrun
    induction hrun with
    | done hroot =>
      obtain ⟨p, _, hp⟩ := mem_descendants_iff_exists_parent.mp hn
      simp [ht.parent_eq_some_iff.mpr hp] at hroot
    | next hq _ ih =>
      obtain ⟨p, hpm, hp⟩ := mem_descendants_iff_exists_parent.mp hn
      obtain rfl := Option.some.inj ((ht.parent_eq_some_iff.mpr hp).symm.trans hq)
      rcases mem_subtree_iff.mp hpm with rfl | hpm
      · exact List.mem_cons_self
      · exact List.mem_cons_of_mem _ (ih hpm)

/-- A node and the nodes above it are those that have it in their subtrees. -/
theorem mem_cons_ancestors_iff {n a : Node} : a ∈ n :: h.ancestors n ↔ n ∈ h.subtree a := by
  rw [List.mem_cons, ht.mem_ancestors_iff, mem_subtree_iff, eq_comm]

end IsTree

end Hierarchy

end TreeSelect
