/-
# TreeSelect.Proofs.Hierarchy.Closest — what is nearest to a node

Forwards, a search for a name may find what comes after the start in document order and is not below
it; backwards, what comes before it and is not above it. It asks a sibling of the start, or of a
node above the start, for its name whatever its kind, and anything further down only if it is an
element. In a tree it finds something whenever there is such a candidate. Forwards it finds the
first of them in document order. Backwards it finds neither the first nor the last one: of the
preceding siblings that have a candidate in their subtrees it takes the last, and in that subtree
the first candidate.
-/
import TreeSelect.Proofs.Hierarchy.Branches
import Mathlib.Data.List.Find
import Mathlib.Logic.ExistsUnique

namespace TreeSelect

namespace Hierarchy

variable (h : Hierarchy)

/-- The second node comes after the first one in document order and is not below it. -/
def Follows (n m : Node) : Prop := h.Precedes n m ∧ m ∉ h.descendants n

/-- The second node is a sibling, on either side, of the first one or of a node above that. -/
def Flanks (n m : Node) : Prop := ∃ a, n ∈ h.subtree a ∧ m ∈ h.siblings a ∧ m ≠ a

/-- What a search from a node for a name may find: it lies ahead in the direction of the search, has
the name, and is an element or a sibling of the start or of a node above the start. -/
structure Candidate (direction : Direction) (name : String) (n m : Node) : Prop where
  ahead : direction.orient h.Follows n m
  hasName : h.hasName m name = true
  element_or_flanks : h.isElement m = true ∨ h.Flanks n m

/-- Whether a node asked for a name may answer with the second node: this has the name and is the
first node itself or an element. -/
def mayAnswer (name : String) (n m : Node) : Bool :=
  h.hasName m name && (m == n || h.isElement m)

variable {h} {direction : Direction} {name : String}

/-! ## Asking one branch -/

theorem inOrder_subtree (n : Node) : h.InOrder (h.subtree n) :=
  List.pairwise_cons.mpr ⟨fun _ hm => .below hm, inOrder_descendants n⟩

/-- Asked for a name, a node answers with the first node of its subtree that it may answer with. -/
theorem firstNamed?_eq_find? (name : String) (n : Node) :
    h.firstNamed? name n = (h.subtree n).find? (h.mayAnswer name n) := by
  have hself : h.mayAnswer name n n = h.hasName n name := by simp [mayAnswer]
  have hbelow : (h.descendants n).find? (h.mayAnswer name n)
      = (h.descendantsNamed n (some name)).head? := by
    rw [descendantsNamed, List.head?_filter]
    apply List.find?_congr
    intro m hm
    have hne : (m == n) = false := beq_eq_false_iff_ne.mpr (h.lt_of_mem_descendants hm).ne
    rw [mayAnswer, hne, Bool.false_or, Bool.and_comm]
    rfl
  rw [firstNamed?, subtree, List.find?_cons, hself, hbelow]
  cases h.hasName n name with
  | true => rfl
  | false => rfl

/-- What is found in a list in document order comes before all else that passes the test. -/
theorem InOrder.eq_or_precedes_of_find? {nodes : List Node} (hnodes : h.InOrder nodes)
    {test : Node → Bool} {m k : Node} (hm : nodes.find? test = some m) (hk : k ∈ nodes)
    (htest : test k = true) : k = m ∨ h.Precedes m k := by
  obtain ⟨-, before, after, rfl, hbefore⟩ := List.find?_eq_some_iff_append.mp hm
  rcases List.mem_append.mp hk with hk | hk
  · have hfail := hbefore k hk
    simp [htest] at hfail
  · rcases List.mem_cons.mp hk with rfl | hk
    · exact .inl rfl
    · obtain ⟨-, hrest, -⟩ := List.pairwise_append.mp hnodes
      exact .inr ((List.pairwise_cons.mp hrest).1 k hk)

namespace IsTree

variable (ht : h.IsTree)

include ht

theorem follows_iff {n m : Node} : h.Follows n m ↔ h.Beside n m := by
  rw [Follows, precedes_iff]
  constructor
  · rintro ⟨hbelow | hbeside, hnot⟩
    · exact absurd hbelow hnot
    · exact hbeside
  · intro hbeside
    refine ⟨.inr hbeside, ?_⟩
    intro hbelow
    exact (ht.not_mem_subtree_of_beside hbeside).1 (List.mem_cons_of_mem n hbelow)

theorem orient_follows_iff {n m : Node} :
    direction.orient h.Follows n m ↔ direction.orient h.Beside n m := by
  cases direction with
  | next => exact ht.follows_iff
  | previous => exact ht.follows_iff

theorem follows_trans {a b c : Node} (hab : h.Follows a b) (hbc : h.Follows b c) :
    h.Follows a c :=
  ht.follows_iff.mpr (ht.beside_trans (ht.follows_iff.mp hab) (ht.follows_iff.mp hbc))

theorem flanks_of_branchesOff {n s : Node} (hs : h.BranchesOff direction n s) :
    h.Flanks n s := by
  obtain ⟨a, hna, p, hpair⟩ := hs
  have hsiblings : a ∈ h.children p ∧ s ∈ h.children p ∧ s ≠ a := by
    cases direction with
    | next =>
      obtain ⟨ha, hs⟩ := mem_children_of_sublist hpair
      exact ⟨ha, hs, (ht.ne_of_sublist hpair).symm⟩
    | previous =>
      obtain ⟨hs, ha⟩ := mem_children_of_sublist hpair
      exact ⟨ha, hs, ht.ne_of_sublist hpair⟩
  obtain ⟨ha, hs, hne⟩ := hsiblings
  exact ⟨a, hna, ht.mem_siblings_iff.mpr ⟨p, ha, hs⟩, hne⟩

/-- The subtree of a branch holds no sibling of the start, or of a node above the start, but the
branch itself. -/
theorem eq_of_flanks_of_mem_subtree {n s m : Node} (hs : h.BranchesOff direction n s)
    (hm : m ∈ h.subtree s) (hflanks : h.Flanks n m) : m = s := by
  rcases mem_subtree_iff.mp hm with rfl | hm
  · rfl
  · -- A sibling further down would have the start below the branch as well.
    obtain ⟨a, hna, hma, -⟩ := hflanks
    obtain ⟨p, hap, hmp⟩ := ht.mem_siblings_iff.mp hma
    have hps : p ∈ h.subtree s := (ht.mem_descendants_iff hmp).mp hm
    have has : a ∈ h.descendants s := (ht.mem_descendants_iff hap).mpr hps
    have hns : n ∈ h.subtree s :=
      List.mem_cons_of_mem s (subtree_subset_of_mem_descendants has hna)
    exact absurd hns (ht.not_mem_subtree_of_orient_beside hs.beside).2

/-! ## Candidates in branches -/

/-- In the subtree of a branch, the candidates are what the branch may answer with. -/
theorem candidate_iff {n s m : Node} (hs : h.BranchesOff direction n s) (hm : m ∈ h.subtree s) :
    h.Candidate direction name n m ↔ h.mayAnswer name s m = true := by
  have hahead : direction.orient h.Follows n m :=
    ht.orient_follows_iff.mpr (orient_beside_iff.mpr ⟨s, hs, hm⟩)
  rw [mayAnswer, Bool.and_eq_true, Bool.or_eq_true, beq_iff_eq]
  constructor
  · rintro ⟨-, hname, helement | hflanks⟩
    · exact ⟨hname, .inr helement⟩
    · exact ⟨hname, .inl (ht.eq_of_flanks_of_mem_subtree hs hm hflanks)⟩
  · rintro ⟨hname, rfl | helement⟩
    · exact ⟨hahead, hname, .inr (ht.flanks_of_branchesOff hs)⟩
    · exact ⟨hahead, hname, .inl helement⟩

theorem exists_branch_of_candidate {n m : Node} (hm : h.Candidate direction name n m) :
    ∃ s, h.BranchesOff direction n s ∧ m ∈ h.subtree s :=
  orient_beside_iff.mp (ht.orient_follows_iff.mp hm.ahead)

/-- A node beside the start is in the subtree of one branch only. -/
theorem branch_unique {n s t m : Node} (hs : h.BranchesOff direction n s)
    (hbt : h.BranchesOff direction n t) (hms : m ∈ h.subtree s) (hmt : m ∈ h.subtree t) :
    s = t := by
  rcases ht.subtree_total hms hmt with hst | hts
  · exact ht.eq_of_flanks_of_mem_subtree hbt hst (ht.flanks_of_branchesOff hs)
  · exact (ht.eq_of_flanks_of_mem_subtree hs hts (ht.flanks_of_branchesOff hbt)).symm

theorem firstNamed?_eq_none_iff {n s : Node} (hs : h.BranchesOff direction n s) :
    h.firstNamed? name s = none ↔ ∀ m ∈ h.subtree s, ¬h.Candidate direction name n m := by
  rw [firstNamed?_eq_find?, List.find?_eq_none]
  apply forall₂_congr
  intro m hm
  rw [ht.candidate_iff hs hm]

/-- A branch answers with the first candidate in its subtree. -/
theorem candidate_of_firstNamed? {n s m : Node} (hs : h.BranchesOff direction n s)
    (hm : h.firstNamed? name s = some m) : m ∈ h.subtree s ∧ h.Candidate direction name n m ∧
      ∀ k ∈ h.subtree s, h.Candidate direction name n k → k = m ∨ h.Precedes m k := by
  rw [firstNamed?_eq_find?] at hm
  have hms : m ∈ h.subtree s := List.mem_of_find?_eq_some hm
  refine ⟨hms, (ht.candidate_iff hs hms).mpr (List.find?_some hm), ?_⟩
  intro k hk hcandidate
  have hanswer : h.mayAnswer name s k = true := (ht.candidate_iff hs hk).mp hcandidate
  exact (inOrder_subtree s).eq_or_precedes_of_find? hm hk hanswer

/-! ## The nearest candidate -/

/-- A search finds nothing only if there is no candidate. -/
theorem nearest?_eq_none_iff {n : Node} :
    h.nearest? direction name n = none ↔ ∀ m, ¬h.Candidate direction name n m := by
  rw [nearest?_eq_findSome?, List.findSome?_eq_none_iff]
  constructor
  · intro hnone m hm
    obtain ⟨s, hs, hms⟩ := ht.exists_branch_of_candidate hm
    have hasked := hnone s (ht.mem_branchesToward_iff.mpr hs)
    exact (ht.firstNamed?_eq_none_iff hs).mp hasked m hms hm
  · intro hnone s hs
    apply (ht.firstNamed?_eq_none_iff (ht.mem_branchesToward_iff.mp hs)).mpr
    intro m _
    exact hnone m

/-- What a search finds is the first candidate in the subtree of some branch, and all other branches
with candidates are further away. -/
theorem exists_branch_of_nearest? {n m : Node} (hm : h.nearest? direction name n = some m) :
    ∃ s, h.BranchesOff direction n s ∧ m ∈ h.subtree s ∧ h.Candidate direction name n m ∧
      (∀ k ∈ h.subtree s, h.Candidate direction name n k → k = m ∨ h.Precedes m k) ∧
      ∀ k t, h.Candidate direction name n k → h.BranchesOff direction n t → k ∈ h.subtree t →
        t = s ∨ direction.orient h.Beside s t := by
  rw [nearest?_eq_findSome?] at hm
  obtain ⟨passed, s, rest, hsplit, hfirst, hpassed⟩ := List.findSome?_eq_some_iff.mp hm
  have hs : h.BranchesOff direction n s := by
    rw [← ht.mem_branchesToward_iff, hsplit]
    exact List.mem_append_right passed List.mem_cons_self
  obtain ⟨hms, hcandidate, hleast⟩ := ht.candidate_of_firstNamed? hs hfirst
  refine ⟨s, hs, hms, hcandidate, hleast, ?_⟩
  intro k t hk hbt hkt
  have hmem : t ∈ passed ++ s :: rest := hsplit ▸ ht.mem_branchesToward_iff.mpr hbt
  rcases List.mem_append.mp hmem with hbefore | hmem
  · exact absurd hk ((ht.firstNamed?_eq_none_iff hbt).mp (hpassed t hbefore) k hkt)
  · rcases List.mem_cons.mp hmem with rfl | hrest
    · exact .inl rfl
    · have hpairwise := hsplit ▸ ht.pairwise_branchesToward direction n
      obtain ⟨-, hfrom, -⟩ := List.pairwise_append.mp hpairwise
      exact .inr ((List.pairwise_cons.mp hfrom).1 t hrest)

/-- Of two nodes none of which comes before the other, both are the same. -/
theorem eq_of_eq_or_precedes {n m : Node} (hnm : n = m ∨ h.Precedes m n)
    (hmn : m = n ∨ h.Precedes n m) : m = n := by
  rcases hnm with rfl | hnm
  · rfl
  · rcases hmn with rfl | hmn
    · rfl
    · exact absurd (ht.precedes_trans hnm hmn) (ht.not_precedes_self m)

/-- Forwards, what a search finds is the first candidate in document order. -/
theorem first_of_nearest?_next {n m : Node} (hm : h.nearest? .next name n = some m) :
    h.Candidate .next name n m ∧
      ∀ k, h.Candidate .next name n k → k = m ∨ h.Precedes m k := by
  obtain ⟨s, hs, hms, hcandidate, hfirst, hothers⟩ := ht.exists_branch_of_nearest? hm
  refine ⟨hcandidate, ?_⟩
  intro k hk
  obtain ⟨t, hbt, hkt⟩ := ht.exists_branch_of_candidate hk
  rcases hothers k t hk hbt hkt with rfl | hst
  · exact hfirst k hkt hk
  · exact .inr (Beside.subtree hst hms hkt).precedes

/-- Forwards, a search from a node of a tree finds the first candidate in document order, and
nothing only if there is no candidate. -/
theorem nearest_forwards_iff_first (name : String) (n : Node) :
    (∀ m, h.nearest? .next name n = some m ↔ h.Candidate .next name n m ∧
      ∀ k, h.Candidate .next name n k → k = m ∨ h.Precedes m k) ∧
    (h.nearest? .next name n = none ↔ ∀ m, ¬h.Candidate .next name n m) := by
  refine ⟨fun m => ⟨ht.first_of_nearest?_next, ?_⟩, ht.nearest?_eq_none_iff⟩
  rintro ⟨hm, hfirst⟩
  cases hfind : h.nearest? .next name n with
  | none => exact absurd hm (ht.nearest?_eq_none_iff.mp hfind m)
  | some k =>
    obtain ⟨hk, hkfirst⟩ := ht.first_of_nearest?_next hfind
    rw [ht.eq_of_eq_or_precedes (hfirst k hk) (hkfirst m hm)]

end IsTree

/-- A table of rows, in which comments are named like cells too. -/
def mixedRows : Hierarchy :=
  Arena.toHierarchy
    { nodes := #[{ kind := .comment, name := some "cell" },
        { kind := .element, name := some "cell" },
        { kind := .element, name := some "cell" },
        { kind := .element, name := some "row", children := [0, 1, 2] },
        { kind := .element, name := some "mark" },
        { kind := .element, name := some "row", children := [4] },
        { kind := .comment, name := some "cell" },
        { kind := .element, name := some "cell" },
        { kind := .element, name := some "row", children := [7] },
        { kind := .element, name := some "table", children := [3, 5, 6, 8] }]
      childrenFirst := by decide }

theorem isTree_mixedRows : mixedRows.IsTree := Arena.isTree (by decide) (by decide) (by decide)

/-- Forwards from the mark comes a comment, as it is a sibling of a node above the mark; forwards
from the last row comes nothing. -/
theorem mixedRows_next_cell :
    mixedRows.IsTree ∧ mixedRows.nearest? .next "cell" 4 = some 6 ∧ mixedRows.kind 6 = .comment ∧
      mixedRows.Candidate .next "cell" 4 6 ∧
      (∀ k, mixedRows.Candidate .next "cell" 4 k → k = 6 ∨ mixedRows.Precedes 6 k) ∧
      mixedRows.nearest? .next "cell" 8 = none ∧ ∀ m, ¬mixedRows.Candidate .next "cell" 8 m := by
  have hfind : mixedRows.nearest? .next "cell" 4 = some 6 := by cbv
  have hnone : mixedRows.nearest? .next "cell" 8 = none := by cbv
  obtain ⟨hfound, -⟩ := isTree_mixedRows.nearest_forwards_iff_first "cell" 4
  obtain ⟨-, hnothing⟩ := isTree_mixedRows.nearest_forwards_iff_first "cell" 8
  obtain ⟨hcandidate, hfirst⟩ := (hfound 6).mp hfind
  exact ⟨isTree_mixedRows, hfind, rfl, hcandidate, hfirst, hnone, hnothing.mp hnone⟩

namespace IsTree

variable (ht : h.IsTree)

include ht

/-- Backwards, each candidate of a search from a node of a tree is in the subtree of just one
preceding sibling of the start, or of a node above the start. The search finds the first candidate
in document order in the subtree of such a sibling, while no candidate is in the subtree of a later
one; and it finds nothing only if there is no candidate. -/
theorem nearest_backwards_iff_closest (name : String) (n : Node) :
    (∀ m, h.Candidate .previous name n m →
      ∃! s, h.BranchesOff .previous n s ∧ m ∈ h.subtree s) ∧
    (∀ m, h.nearest? .previous name n = some m ↔ h.Candidate .previous name n m ∧
      ∃ s, h.BranchesOff .previous n s ∧ m ∈ h.subtree s ∧
        (∀ k t, h.Candidate .previous name n k → h.BranchesOff .previous n t → k ∈ h.subtree t →
          ¬h.Precedes s t) ∧
        ∀ k ∈ h.subtree s, h.Candidate .previous name n k → k = m ∨ h.Precedes m k) ∧
    (h.nearest? .previous name n = none ↔ ∀ m, ¬h.Candidate .previous name n m) := by
  refine ⟨?_, fun m => ⟨?_, ?_⟩, ht.nearest?_eq_none_iff⟩
  · intro m hm
    obtain ⟨s, hs, hms⟩ := ht.exists_branch_of_candidate hm
    exact ⟨s, ⟨hs, hms⟩, fun t htm => ht.branch_unique htm.1 hs htm.2 hms⟩
  · intro hm
    obtain ⟨s, hs, hms, hcandidate, hfirst, hothers⟩ := ht.exists_branch_of_nearest? hm
    refine ⟨hcandidate, s, hs, hms, ?_, hfirst⟩
    intro k t hk hbt hkt hst
    rcases hothers k t hk hbt hkt with rfl | hts
    · exact ht.not_precedes_self t hst
    · exact ht.not_precedes_self s (ht.precedes_trans hst (Beside.precedes hts))
  · rintro ⟨hm, s, hs, hms, hlast, hfirst⟩
    cases hfind : h.nearest? .previous name n with
    | none => exact absurd hm (ht.nearest?_eq_none_iff.mp hfind m)
    | some k =>
      obtain ⟨t, hbt, hkt, hk, hkfirst, hothers⟩ := ht.exists_branch_of_nearest? hfind
      rcases hothers m s hm hs hms with rfl | hst
      · rw [ht.eq_of_eq_or_precedes (hfirst k hkt hk) (hkfirst m hms hm)]
      · exact absurd (Beside.precedes hst) (hlast k t hk hbt hkt)

end IsTree

/-- Backwards from the mark comes the first cell of the row before it that is an element, though the
other one is closer. -/
theorem mixedRows_previous_cell :
    mixedRows.IsTree ∧ mixedRows.nearest? .previous "cell" 4 = some 1 ∧
      mixedRows.Candidate .previous "cell" 4 1 ∧
      (∃! s, mixedRows.BranchesOff .previous 4 s ∧ 1 ∈ mixedRows.subtree s) ∧
      ∃ s, mixedRows.BranchesOff .previous 4 s ∧ 1 ∈ mixedRows.subtree s ∧
        (∀ k t, mixedRows.Candidate .previous "cell" 4 k → mixedRows.BranchesOff .previous 4 t →
          k ∈ mixedRows.subtree t → ¬mixedRows.Precedes s t) ∧
        ∀ k ∈ mixedRows.subtree s, mixedRows.Candidate .previous "cell" 4 k →
          k = 1 ∨ mixedRows.Precedes 1 k := by
  have hfind : mixedRows.nearest? .previous "cell" 4 = some 1 := by cbv
  obtain ⟨hunique, hfound, -⟩ := isTree_mixedRows.nearest_backwards_iff_closest "cell" 4
  obtain ⟨hcandidate, hclosest⟩ := (hfound 1).mp hfind
  exact ⟨isTree_mixedRows, hfind, hcandidate, hunique 1 hcandidate, hclosest⟩

end Hierarchy

end TreeSelect
