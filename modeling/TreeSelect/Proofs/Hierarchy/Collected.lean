/-
# TreeSelect.Proofs.Hierarchy.Collected — what a repeated search lists

A repeated search goes on from each answer. Forwards this skips what is below the answer: for a name
that only elements carry, the list holds just those nodes of the name, among all that follow the
start, that are not below another one of them. Backwards it leaves the sibling in whose subtree the
answer lies, as nothing of the name comes before the answer there: the list holds one node for each
preceding sibling of the start, and of the nodes above it, that has the name in its subtree.
-/
import TreeSelect.Proofs.Hierarchy.Closest

namespace TreeSelect

namespace Hierarchy

variable (h : Hierarchy)

/-- Only elements have the name. -/
def NamesElements (name : String) : Prop :=
  ∀ n : Node, h.hasName n name = true → h.isElement n = true

/-- The second node has the name and follows the first one, and it is below no other node that has
the name and follows the first one. -/
structure Outermost (name : String) (n m : Node) : Prop where
  follows : h.Follows n m
  hasName : h.hasName m name = true
  not_below : ∀ a, h.Follows n a → h.hasName a name = true → m ∉ h.descendants a

/-- The preceding siblings of a node, the closest first, then those of its parent, and so on up to
the root. -/
def precedingBranches (n : Node) : List Node := (n :: h.ancestors n).flatMap h.earlierSiblings

variable {h} {direction : Direction} {name : String}

namespace IsTree

variable (ht : h.IsTree)

include ht

/-- Without a boundary, a repeated search lists all the answers that its single searches run
through. -/
theorem run_allUntil (direction : Direction) (name : String) (n : Node) :
    Run (h.nearest? direction name) n (h.allUntil direction name n none) := by
  have := ht.isStrictOrder_beside
  have hwalk : h.allUntil direction name n none = walk (h.nearest? direction name) h.size n := by
    rw [allUntil, if_neg (by simp), upTo_of_not_mem (by simp)]
  rw [hwalk]
  exact (ht.goesForward_nearest? direction name).run_walk n

/-! ## Forwards -/

section Forwards

variable (hname : h.NamesElements name)

include hname

omit ht in
theorem candidate_next_iff {n m : Node} :
    h.Candidate .next name n m ↔ h.Follows n m ∧ h.hasName m name = true := by
  constructor
  · intro hm
    exact ⟨hm.ahead, hm.hasName⟩
  · rintro ⟨hfollows, hm⟩
    exact ⟨hfollows, hm, .inl (hname m hm)⟩

/-- The outermost nodes of the name that follow the start are the first of all that do, and those
that follow this one. -/
theorem outermost_iff_of_nearest? {n y m : Node} (hy : h.nearest? .next name n = some y) :
    h.Outermost name n m ↔ m = y ∨ h.Outermost name y m := by
  obtain ⟨hcandidate, hfirst⟩ := ht.first_of_nearest?_next hy
  obtain ⟨hny, hyname⟩ := (candidate_next_iff hname).mp hcandidate
  have hleast {a : Node} (hna : h.Follows n a) (haname : h.hasName a name = true) :
      a = y ∨ h.Precedes y a := hfirst a ((candidate_next_iff hname).mpr ⟨hna, haname⟩)
  constructor
  · intro hm
    rcases hleast hm.follows hm.hasName with rfl | hym
    · exact .inl rfl
    · have hfollows : h.Follows y m := ⟨hym, hm.not_below y hny hyname⟩
      refine .inr ⟨hfollows, hm.hasName, ?_⟩
      intro a hya haname
      exact hm.not_below a (ht.follows_trans hny hya) haname
  · rintro (rfl | hm)
    · refine ⟨hny, hyname, ?_⟩
      intro a hna haname hbelow
      rcases hleast hna haname with rfl | hma
      · exact Nat.lt_irrefl _ (h.lt_of_mem_descendants hbelow)
      · exact ht.not_precedes_self a (ht.precedes_trans (.below hbelow) hma)
    · refine ⟨ht.follows_trans hny hm.follows, hm.hasName, ?_⟩
      intro a hna haname hbelow
      rcases hleast hna haname with rfl | hya
      · exact hm.follows.2 hbelow
      · -- The upper node is not below `y` either, for then this one would be too.
        have hfollows : h.Follows y a :=
          ⟨hya, fun ha => hm.follows.2 (descendants_subset ha hbelow)⟩
        exact hm.not_below a hfollows haname hbelow

theorem mem_iff_outermost_of_run {n m : Node} {found : List Node}
    (hrun : Run (h.nearest? .next name) n found) : m ∈ found ↔ h.Outermost name n m := by
  induction hrun with
  | done hnone =>
    constructor
    · intro hm
      cases hm
    · intro hm
      have hcandidate := (candidate_next_iff hname).mpr ⟨hm.follows, hm.hasName⟩
      exact absurd hcandidate (ht.nearest?_eq_none_iff.mp hnone m)
  | next hy _ ih => rw [List.mem_cons, ih, ht.outermost_iff_of_nearest? hname hy]

/-- Without a boundary, and for a name that only elements of the tree have, a repeated search
forwards lists, once and in document order, just the nodes of the name that follow the start and are
below no other node of the name that follows it. -/
theorem allNext_outermost (n : Node) :
    h.InOrder (h.allNext name n none) ∧ (h.allNext name n none).Nodup ∧
      ∀ m, m ∈ h.allNext name n none ↔ h.Outermost name n m :=
  ⟨ht.pairwise_allUntil .next name n none, ht.nodup_allUntil .next name n none,
    fun _ => ht.mem_iff_outermost_of_run hname (ht.run_allUntil .next name n)⟩

end Forwards

end IsTree

/-- In an arena only elements have a name if that holds of the rows of the table. -/
theorem namesElements_toHierarchy {a : Arena} (hrows : ∀ n < a.nodes.size,
    a.toHierarchy.hasName n name = true → a.toHierarchy.isElement n = true) :
    a.toHierarchy.NamesElements name := by
  intro n hn
  by_cases hlt : n < a.nodes.size
  · exact hrows n hlt hn
  · have hrow := Arena.row_of_size_le (Nat.not_lt.mp hlt)
    simp [hasName, Arena.toHierarchy, hrow] at hn

/-- A table of rows, in which some cells contain cells. -/
def nestedCells : Hierarchy :=
  Arena.toHierarchy
    { nodes := #[{ kind := .element, name := some "note" },
        { kind := .element, name := some "cell" },
        { kind := .element, name := some "cell", children := [1] },
        { kind := .element, name := some "row", children := [0, 2] },
        { kind := .element, name := some "cell" },
        { kind := .element, name := some "row", children := [4] },
        { kind := .element, name := some "mark" },
        { kind := .element, name := some "row", children := [6] },
        { kind := .element, name := some "cell" },
        { kind := .element, name := some "cell" },
        { kind := .element, name := some "cell", children := [8, 9] },
        { kind := .element, name := some "row", children := [10] },
        { kind := .element, name := some "cell" },
        { kind := .element, name := some "row", children := [12] },
        { kind := .element, name := some "table", children := [3, 5, 7, 11, 13] }]
      childrenFirst := by decide }

theorem isTree_nestedCells : nestedCells.IsTree :=
  Arena.isTree (by decide) (by decide) (by decide)

theorem namesElements_nestedCells : nestedCells.NamesElements "cell" :=
  namesElements_toHierarchy (by decide)

/-- Forwards from the mark come two cells, but not the cells inside the first one. -/
theorem nestedCells_next :
    nestedCells.IsTree ∧ nestedCells.NamesElements "cell" ∧
      nestedCells.allNext "cell" 6 none = [10, 12] ∧ nestedCells.InOrder [10, 12] ∧
      nestedCells.Outermost "cell" 6 10 ∧ nestedCells.hasName 8 "cell" = true ∧
      ¬nestedCells.Outermost "cell" 6 8 := by
  have hlist : nestedCells.allNext "cell" 6 none = [10, 12] := by cbv
  obtain ⟨horder, -, hmem⟩ := isTree_nestedCells.allNext_outermost namesElements_nestedCells 6
  rw [hlist] at horder hmem
  exact ⟨isTree_nestedCells, namesElements_nestedCells, hlist, horder, (hmem 10).mp (by decide),
    by decide, mt (hmem 8).mpr (by decide)⟩

namespace IsTree

variable (ht : h.IsTree)

include ht

/-! ## Backwards -/

theorem precedingBranches_eq (n : Node) :
    h.precedingBranches n = h.branchesToward .previous n := by
  unfold precedingBranches branchesToward
  exact congrArg ((n :: h.ancestors n).flatMap ·) (funext ht.siblingsToward_previous).symm

section Backwards

variable (hname : h.NamesElements name)

include hname

omit ht in
theorem firstNamed?_eq_find?_hasName (n : Node) :
    h.firstNamed? name n = (h.subtree n).find? (h.hasName · name) := by
  rw [firstNamed?_eq_find?]
  apply List.find?_congr
  intro m _
  rw [Bool.eq_iff_iff, mayAnswer, Bool.and_eq_true, Bool.or_eq_true]
  exact ⟨And.left, fun hm => ⟨hm, .inr (hname m hm)⟩⟩

/-- From the first node of the name in a subtree, backwards, nothing more is found before the search
has left the subtree. -/
theorem filterMap_branchesToward_of_firstNamed? {s m : Node}
    (hm : h.firstNamed? name s = some m) :
    (h.branchesToward .previous m).filterMap (h.firstNamed? name)
      = (h.branchesToward .previous s).filterMap (h.firstNamed? name) := by
  obtain ⟨inner, hinner, hbelow⟩ :=
    ht.exists_branchesToward_of_mem_subtree (mem_subtree_of_firstNamed? hm) .previous
  have hnothing : inner.filterMap (h.firstNamed? name) = [] := by
    rw [List.filterMap_eq_nil_iff]
    intro u hu
    rw [Option.eq_none_iff_forall_ne_some]
    intro v hv
    -- The answer of a branch inside would come before the first node of the name.
    have hbranch : h.BranchesOff .previous m u := by
      rw [← ht.mem_branchesToward_iff, hinner]
      exact List.mem_append_left _ hu
    have hvu : v ∈ h.subtree u := mem_subtree_of_firstNamed? hv
    have hvm : h.Beside v m := Beside.subtree hbranch.beside hvu (mem_subtree_self m)
    have hvs : v ∈ h.subtree s :=
      List.mem_cons_of_mem s (subtree_subset_of_mem_descendants (hbelow hu) hvu)
    rw [firstNamed?_eq_find?_hasName hname] at hm hv
    have hvname := List.find?_some hv
    rcases (inOrder_subtree s).eq_or_precedes_of_find? hm hvs hvname with rfl | hmv
    · exact ht.not_precedes_self v hvm.precedes
    · exact ht.not_precedes_self m (ht.precedes_trans hmv hvm.precedes)
  rw [hinner, List.filterMap_append, hnothing, List.nil_append]

theorem eq_filterMap_of_run {n : Node} {found : List Node}
    (hrun : Run (h.nearest? .previous name) n found) :
    found = (h.branchesToward .previous n).filterMap (h.firstNamed? name) := by
  induction hrun with
  | done hnone =>
    rw [nearest?_eq_findSome?, List.findSome?_eq_none_iff] at hnone
    exact (List.filterMap_eq_nil_iff.mpr hnone).symm
  | next hm _ ih =>
    rw [nearest?_eq_findSome?] at hm
    obtain ⟨passed, s, rest, hsplit, hfirst, hpassed⟩ := List.findSome?_eq_some_iff.mp hm
    rw [ih, ht.filterMap_branchesToward_of_firstNamed? hname hfirst,
      ht.branchesToward_of_append hsplit, hsplit, List.filterMap_append,
      List.filterMap_eq_nil_iff.mpr hpassed, List.nil_append, List.filterMap_cons_some hfirst]

/-- Without a boundary, and for a name that only elements of the tree have, a repeated search
backwards goes through the preceding siblings of the start, the closest first, then through those of
its parent, and so on up to the root, and lists for each of them that has the name in its subtree
the first node there that has it. -/
theorem allPrevious_eq_filterMap (n : Node) :
    Run h.parent n (h.ancestors n) ∧ h.allPrevious name n none =
      (h.precedingBranches n).filterMap fun s => (h.subtree s).find? (h.hasName · name) := by
  refine ⟨ht.goesForward_parent.run_walk n, ?_⟩
  rw [ht.precedingBranches_eq, ← funext (firstNamed?_eq_find?_hasName hname)]
  exact ht.eq_filterMap_of_run hname (ht.run_allUntil .previous name n)

end Backwards

end IsTree

/-- Backwards from the mark comes one cell of each row before it; in the first row, a note stands
before the cell, and a cell is inside it. -/
theorem nestedCells_previous :
    nestedCells.IsTree ∧ nestedCells.NamesElements "cell" ∧
      nestedCells.precedingBranches 6 = [5, 3] ∧ Run nestedCells.parent 6 [7, 14] ∧
      nestedCells.allPrevious "cell" 6 none = [4, 2] ∧
      [4, 2] = [5, 3].filterMap fun s =>
        (nestedCells.subtree s).find? (nestedCells.hasName · "cell") := by
  have hbranches : nestedCells.precedingBranches 6 = [5, 3] := by cbv
  have habove : nestedCells.ancestors 6 = [7, 14] := by cbv
  have hlist : nestedCells.allPrevious "cell" 6 none = [4, 2] := by cbv
  obtain ⟨hrun, heq⟩ := isTree_nestedCells.allPrevious_eq_filterMap namesElements_nestedCells 6
  rw [habove] at hrun
  rw [hbranches, hlist] at heq
  exact ⟨isTree_nestedCells, namesElements_nestedCells, hbranches, hrun, hlist, heq⟩

end Hierarchy

end TreeSelect
