/-
# TreeSelect.Proofs.Hierarchy.Tree — hierarchies that are trees

A hierarchy is a tree when each node stands at one place at most among the children of all nodes,
and its parent link names the node it stands below. Then the way up from a node is the only one, so
that of two nodes above a third one is above the other (`IsTree.subtree_total`).
-/
import TreeSelect.Arena

namespace TreeSelect

namespace Hierarchy

variable (h : Hierarchy)

/-- Children are listed once, and the parent links say the same as the lists of children. -/
structure IsTree : Prop where
  nodup_children : ∀ n : Node, (h.children n).Nodup
  parent_eq_some_iff : ∀ {n c : Node}, h.parent c = some n ↔ c ∈ h.children n

/-- A node and all that is below it, in document order. -/
def subtree (n : Node) : List Node := n :: h.descendants n

variable {h}

/-! ## Below a node -/

theorem mem_subtree_iff {n m : Node} : m ∈ h.subtree n ↔ m = n ∨ m ∈ h.descendants n :=
  List.mem_cons

/-- What is in the subtree of a node was completed no later than the node. -/
theorem le_of_mem_subtree {n m : Nat} (hm : m ∈ h.subtree n) : m ≤ n := by
  rcases mem_subtree_iff.mp hm with rfl | hm
  · exact Nat.le_refl m
  · exact Nat.le_of_lt (h.lt_of_mem_descendants hm)

theorem mem_subtree_self (n : Node) : n ∈ h.subtree n := List.mem_cons_self

theorem descendants_eq_flatMap (n : Node) :
    h.descendants n = (h.children n).flatMap h.subtree := by
  rw [descendants]
  rfl

theorem mem_descendants_iff_subtree {n m : Node} :
    m ∈ h.descendants n ↔ ∃ c ∈ h.children n, m ∈ h.subtree c := by
  rw [descendants_eq_flatMap, List.mem_flatMap]

theorem subtree_subset_descendants {n c : Node} (hc : c ∈ h.children n) :
    h.subtree c ⊆ h.descendants n :=
  fun _ hm => mem_descendants_iff_subtree.mpr ⟨c, hc, hm⟩

theorem descendants_subset {n m : Node} (hm : m ∈ h.descendants n) :
    h.descendants m ⊆ h.descendants n := by
  induction n using Nat.strongRecOn with
  | ind n ih =>
    obtain ⟨c, hc, hmc⟩ := mem_descendants_iff_subtree.mp hm
    apply List.Subset.trans _ (subtree_subset_descendants hc)
    rcases mem_subtree_iff.mp hmc with rfl | hmc
    · exact List.subset_cons_self _ _
    · exact List.Subset.trans (ih c (h.child_lt hc) hmc) (List.subset_cons_self _ _)

theorem subtree_subset_of_mem_descendants {n m : Node} (hm : m ∈ h.descendants n) :
    h.subtree m ⊆ h.descendants n :=
  List.cons_subset.mpr ⟨hm, descendants_subset hm⟩

theorem subtree_subset {n m : Node} (hm : m ∈ h.subtree n) : h.subtree m ⊆ h.subtree n := by
  rcases mem_subtree_iff.mp hm with rfl | hm
  · exact List.Subset.refl _
  · exact List.subset_cons_of_subset n (subtree_subset_of_mem_descendants hm)

theorem descendants_subset_of_mem_subtree {n m : Node} (hm : m ∈ h.subtree n) :
    h.descendants m ⊆ h.descendants n := by
  rcases mem_subtree_iff.mp hm with rfl | hm
  · exact List.Subset.refl _
  · exact descendants_subset hm

/-- What holds of a node, and of each child of a node in its subtree that it holds of, holds in its
whole subtree. -/
theorem forall_mem_subtree {P : Node → Prop} {n : Node} (hself : P n)
    (hchild : ∀ p ∈ h.subtree n, P p → ∀ c ∈ h.children p, P c) : ∀ m ∈ h.subtree n, P m := by
  induction n using Nat.strongRecOn with
  | ind n ih =>
    intro m hm
    rcases mem_subtree_iff.mp hm with rfl | hm
    · exact hself
    · obtain ⟨c, hc, hmc⟩ := mem_descendants_iff_subtree.mp hm
      have hc' : P c := hchild n (mem_subtree_self n) hself c hc
      apply ih c (h.child_lt hc) hc' _ m hmc
      intro p hp
      exact hchild p (List.mem_cons_of_mem n (subtree_subset_descendants hc hp))

/-- What is below a node is a child of it or of a node below it. -/
theorem mem_descendants_iff_exists_parent {n m : Node} :
    m ∈ h.descendants n ↔ ∃ p ∈ h.subtree n, m ∈ h.children p := by
  constructor
  · intro hm
    induction n using Nat.strongRecOn with
    | ind n ih =>
      obtain ⟨c, hc, hmc⟩ := mem_descendants_iff_subtree.mp hm
      rcases mem_subtree_iff.mp hmc with rfl | hmc
      · exact ⟨n, mem_subtree_self n, hc⟩
      · obtain ⟨p, hp, hmp⟩ := ih c (h.child_lt hc) hmc
        exact ⟨p, List.mem_cons_of_mem _ (subtree_subset_descendants hc hp), hmp⟩
  · rintro ⟨p, hp, hmp⟩
    exact descendants_subset_of_mem_subtree hp (subtree_subset_descendants hmp (mem_subtree_self m))

/-! ## Trees -/

namespace IsTree

theorem parent_unique (ht : h.IsTree) {p q c : Node} (hp : c ∈ h.children p)
    (hq : c ∈ h.children q) : p = q :=
  Option.some.inj ((ht.parent_eq_some_iff.mpr hp).symm.trans (ht.parent_eq_some_iff.mpr hq))

/-- A child is below a node exactly when its parent is that node or below it. -/
theorem mem_descendants_iff (ht : h.IsTree) {n p c : Node} (hc : c ∈ h.children p) :
    c ∈ h.descendants n ↔ p ∈ h.subtree n := by
  rw [mem_descendants_iff_exists_parent]
  constructor
  · rintro ⟨q, hq, hcq⟩
    rwa [ht.parent_unique hc hcq]
  · intro hp
    exact ⟨p, hp, hc⟩

/-- Of two nodes that have a third one in their subtrees, one is in the subtree of the other. -/
theorem subtree_total (ht : h.IsTree) {x y m : Nat} (hx : m ∈ h.subtree x)
    (hy : m ∈ h.subtree y) : x ∈ h.subtree y ∨ y ∈ h.subtree x := by
  -- The way up from the third node is walked until it meets one of the two.
  induction hk : x - m using Nat.strongRecOn generalizing m with
  | ind k ih =>
    rcases mem_subtree_iff.mp hx with rfl | hmx
    · exact .inl hy
    · rcases mem_subtree_iff.mp hy with rfl | hmy
      · exact .inr hx
      · obtain ⟨p, hpx, hmp⟩ := mem_descendants_iff_exists_parent.mp hmx
        have hpy : p ∈ h.subtree y := (ht.mem_descendants_iff hmp).mp hmy
        have hlt : m < x := h.lt_of_mem_descendants hmx
        have hup : m < p := h.child_lt hmp
        exact ih (x - p) (by omega) hpx hpy rfl

/-- The subtrees of two siblings have no node in common. -/
theorem eq_of_mem_subtree (ht : h.IsTree) {p x y m : Node} (hx : x ∈ h.children p)
    (hy : y ∈ h.children p) (hmx : m ∈ h.subtree x) (hmy : m ∈ h.subtree y) : x = y := by
  have separate {a b : Node} (ha : a ∈ h.children p) (hb : b ∈ h.children p)
      (hab : a ∈ h.subtree b) : a = b := by
    rcases mem_subtree_iff.mp hab with rfl | hab
    · rfl
    · have hp : p ∈ h.subtree b := (ht.mem_descendants_iff ha).mp hab
      have hle := le_of_mem_subtree hp
      exact absurd (h.child_lt hb) (Nat.not_lt.mpr hle)
  rcases ht.subtree_total hmx hmy with hxy | hyx
  · exact separate hx hy hxy
  · exact (separate hy hx hyx).symm

end IsTree

end Hierarchy

/-! ## Arenas that are trees -/

namespace Arena

variable {a : Arena}

theorem row_of_size_le {n : Nat} (hn : a.nodes.size ≤ n) : a.row n = { kind := .text } := by
  rw [row, Array.getD, dif_neg (Nat.not_lt.mpr hn)]

/-- An arena is a tree if no parent link is given in it and no node is listed twice. -/
theorem isTree (hlinks : ∀ n < a.nodes.size, (a.row n).parent = .listed)
    (hnodup : ∀ n < a.nodes.size, (a.row n).children.Nodup)
    (honce : ∀ p < a.nodes.size, ∀ q < a.nodes.size, ∀ c ∈ (a.row p).children,
      c ∈ (a.row q).children → p = q) : a.toHierarchy.IsTree := by
  have hparent (c : Node) : a.parent c
      = (List.range a.nodes.size).find? fun p => (a.row p).children.contains c := by
    have hlink : (a.row c).parent = .listed := by
      by_cases hc : c < a.nodes.size
      · exact hlinks c hc
      · rw [row_of_size_le (Nat.not_lt.mp hc)]
    rw [parent, hlink]
  refine ⟨fun n => ?_, fun {n c} => ?_⟩
  · by_cases hn : n < a.nodes.size
    · exact hnodup n hn
    · show ((a.row n).children).Nodup
      rw [row_of_size_le (Nat.not_lt.mp hn)]
      exact List.nodup_nil
  · show a.parent c = some n ↔ c ∈ (a.row n).children
    rw [hparent]
    constructor
    · intro hfound
      simpa using List.find?_some hfound
    · intro hc
      have hn : n < a.nodes.size := a.toHierarchy.lt_size hc
      -- Some node of the table is found to list it, and there is no other than this one.
      have hsome : ((List.range a.nodes.size).find?
          fun p => (a.row p).children.contains c).isSome := by
        rw [List.find?_isSome]
        exact ⟨n, List.mem_range.mpr hn, by simpa using hc⟩
      obtain ⟨p, hp⟩ := Option.isSome_iff_exists.mp hsome
      have hpc : c ∈ (a.row p).children := by simpa using List.find?_some hp
      rw [hp, honce p (a.toHierarchy.lt_size hpc) n hn c hpc hc]

end Arena

end TreeSelect
