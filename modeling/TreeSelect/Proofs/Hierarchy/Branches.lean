/-
# TreeSelect.Proofs.Hierarchy.Branches — branches on the way up

On the way from a node up to the root, siblings branch off on both sides: first those of the node
itself, then those of its parent, and so on. Those of one side, the closest first, are what a search
in that direction asks one after the other (`nearest?_eq_findSome?`). In a tree their subtrees hold
just the nodes beside the start, each in one of them only. A search that goes on from one of the
branches asks the rest of them (`branchesToward_of_append`); one that goes on from a node inside a
branch asks some nodes inside it first (`exists_branchesToward_of_mem_subtree`).
-/
import TreeSelect.Proofs.Hierarchy.Siblings
import TreeSelect.Proofs.Hierarchy.Search

namespace TreeSelect

namespace Hierarchy

variable (h : Hierarchy)

/-- The siblings of a node in a direction, the closest first, then those of its parent, and so on up
to the root. -/
def branchesToward (direction : Direction) (n : Node) : List Node :=
  (n :: h.ancestors n).flatMap (h.siblingsToward direction)

/-- The second node stands, in a direction, among the siblings of the first node or of one above
it. -/
def BranchesOff (direction : Direction) (n s : Node) : Prop :=
  ∃ a, n ∈ h.subtree a ∧ ∃ p, direction.orient (fun x y => [x, y].Sublist (h.children p)) a s

variable {h} {direction : Direction}

/-- What is beside a node, in a direction, is in the subtree of a branch in that direction. -/
theorem orient_beside_iff {n m : Node} :
    direction.orient h.Beside n m ↔ ∃ s, h.BranchesOff direction n s ∧ m ∈ h.subtree s := by
  cases direction with
  | next =>
    constructor
    · rintro ⟨p, x, y, hxy, hn, hm⟩
      exact ⟨y, ⟨x, hn, p, hxy⟩, hm⟩
    · rintro ⟨y, ⟨x, hn, p, hxy⟩, hm⟩
      exact ⟨p, x, y, hxy, hn, hm⟩
  | previous =>
    constructor
    · rintro ⟨p, x, y, hxy, hm, hn⟩
      exact ⟨x, ⟨y, hn, p, hxy⟩, hm⟩
    · rintro ⟨x, ⟨y, hn, p, hxy⟩, hm⟩
      exact ⟨p, x, y, hxy, hm, hn⟩

theorem BranchesOff.beside {n s : Node} (hs : h.BranchesOff direction n s) :
    direction.orient h.Beside n s :=
  orient_beside_iff.mpr ⟨s, hs, mem_subtree_self s⟩

theorem findSome?_flatMap (find : Node → Option Node) (list : Node → List Node)
    (nodes : List Node) : (nodes.flatMap list).findSome? find =
      nodes.findSome? fun n => (list n).findSome? find := by
  induction nodes with
  | nil => rfl
  | cons n nodes ih =>
    rw [List.flatMap_cons, List.findSome?_append, ih, List.findSome?_cons]
    cases (list n).findSome? find with
    | none => rfl
    | some m => rfl

/-- A search asks the branches of its direction, the closest first. -/
theorem nearest?_eq_findSome? (direction : Direction) (name : String) (n : Node) :
    h.nearest? direction name n
      = (h.branchesToward direction n).findSome? (h.firstNamed? name) :=
  (findSome?_flatMap _ _ _).symm

namespace IsTree

variable (ht : h.IsTree)

include ht

theorem mem_branchesToward_iff {n s : Node} :
    s ∈ h.branchesToward direction n ↔ h.BranchesOff direction n s := by
  unfold branchesToward BranchesOff
  simp only [List.mem_flatMap, ht.mem_cons_ancestors_iff, ht.mem_siblingsToward_iff,
    Direction.sublist_arrange_iff]

/-- The branches of a direction stand side by side in that direction. -/
theorem pairwise_branchesToward (direction : Direction) (n : Node) :
    (h.branchesToward direction n).Pairwise (direction.orient h.Beside) := by
  have := ht.isStrictOrder_beside
  have hforward := h.goesForward_sibling? direction
  rw [branchesToward, List.pairwise_flatMap]
  constructor
  · intro a _
    exact (List.pairwise_cons.mp (hforward.pairwise_cons_walk h.size a)).2
  · -- A sibling of a node on the way up is below any node further up, and so beside its siblings.
    apply (ht.goesForward_parent.pairwise_cons_walk h.size n).imp
    intro a b hab s hs t hbt
    have hsb : s ∈ h.subtree b :=
      List.mem_cons_of_mem b (ht.siblingsToward_subset_descendants hab direction hs)
    exact Beside.orient_subtree (hforward.of_mem_walk hbt) hsb (mem_subtree_self t)

/-! ## The branches from other nodes -/

theorem branchesToward_of_root {n : Node} (hroot : h.parent n = none) (direction : Direction) :
    h.branchesToward direction n = [] := by
  rw [branchesToward, ancestors, ht.goesForward_parent.walk_eq_nil_of_step hroot,
    List.flatMap_singleton, ht.siblingsToward_of_root hroot]

theorem branchesToward_of_parent {n p : Node} (hp : h.parent n = some p)
    (direction : Direction) : h.branchesToward direction n
      = h.siblingsToward direction n ++ h.branchesToward direction p := by
  rw [branchesToward, ancestors, ht.goesForward_parent.walk_eq_cons hp, List.flatMap_cons]
  rfl

/-- Past its first branch, a search goes on as it does from that branch. -/
theorem branchesToward_of_cons {n s : Node} {rest : List Node}
    (hsplit : h.branchesToward direction n = s :: rest) :
    h.branchesToward direction s = rest := by
  have hrun : Run h.parent n (h.ancestors n) := ht.goesForward_parent.run_walk n
  generalize h.ancestors n = above at hrun
  induction hrun with
  | done hroot =>
    rw [ht.branchesToward_of_root hroot] at hsplit
    cases hsplit
  | @next n p _ hp _ ih =>
    rw [ht.branchesToward_of_parent hp] at hsplit
    obtain ⟨passed, ahead, hplace⟩ := exists_place direction (ht.parent_eq_some_iff.mp hp)
    rw [ht.siblingsToward_of_place hplace] at hsplit
    cases ahead with
    | nil => exact ih hsplit
    | cons u ahead =>
      rw [List.cons_append] at hsplit
      obtain ⟨rfl, rfl⟩ := List.cons.inj hsplit
      have hnext : direction.arrange (h.children p) = (passed ++ [n]) ++ u :: ahead := by
        rw [hplace, List.append_assoc, List.singleton_append]
      have hu : h.parent u = some p := ht.parent_eq_some_iff.mpr (mem_children_of_place hnext)
      rw [ht.branchesToward_of_parent hu, ht.siblingsToward_of_place hnext]

/-- Past any branch, a search goes on as it does from that branch. -/
theorem branchesToward_of_append {n s : Node} {passed rest : List Node}
    (hsplit : h.branchesToward direction n = passed ++ s :: rest) :
    h.branchesToward direction s = rest := by
  induction passed generalizing n with
  | nil => exact ht.branchesToward_of_cons hsplit
  | cons u passed ih => exact ih (ht.branchesToward_of_cons hsplit)

/-- From a node in the subtree of another one, a search asks nodes inside the subtree before it goes
on as it does from that other node. -/
theorem exists_branchesToward_of_mem_subtree {s m : Node} (hm : m ∈ h.subtree s)
    (direction : Direction) : ∃ inner, h.branchesToward direction m
      = inner ++ h.branchesToward direction s ∧ inner ⊆ h.descendants s := by
  revert m
  apply forall_mem_subtree
  · exact ⟨[], rfl, List.nil_subset _⟩
  · -- From a child of a node, the search asks the siblings of the child before those of the node.
    rintro p hp ⟨inner, hinner, hsubset⟩ c hc
    have hbelow : c ∈ h.descendants s := (ht.mem_descendants_iff hc).mpr hp
    refine ⟨h.siblingsToward direction c ++ inner, ?_, ?_⟩
    · rw [ht.branchesToward_of_parent (ht.parent_eq_some_iff.mpr hc), hinner, List.append_assoc]
    · apply List.append_subset.mpr
      exact ⟨ht.siblingsToward_subset_descendants hbelow direction, hsubset⟩

end IsTree

end Hierarchy

end TreeSelect
