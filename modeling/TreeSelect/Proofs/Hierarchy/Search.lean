/-
# TreeSelect.Proofs.Hierarchy.Search — the search for the nearest node comes to an end

The search is taken apart into its single turns, with no bound on their number: `Seeks` asks the
siblings one by one and then turns to the parent, `Gathers` repeats a search from each answer. Where
a run of them comes to an end, it has one answer only. In a tree every run does: each turn goes on
to a node beside, in the direction of the search, or up. So the answers follow one another in
document order, or against it, and none is above or below the start.
-/
import TreeSelect.Proofs.Hierarchy.Beside

namespace TreeSelect

namespace Hierarchy

variable (h : Hierarchy)

/-! ## The turns of a search -/

/-- The run of a search that has come from an origin to the sibling to be asked next, or past the
last one, with its answer. -/
inductive Seeks (direction : Direction) (name : String) : Node → Option Node → Option Node → Prop
  | found {origin sibling m : Node} : h.firstNamed? name sibling = some m →
      Seeks direction name origin (some sibling) (some m)
  | onward {origin sibling : Node} {answer : Option Node} : h.firstNamed? name sibling = none →
      Seeks direction name origin (h.sibling? direction sibling) answer →
      Seeks direction name origin (some sibling) answer
  | up {origin parent : Node} {answer : Option Node} : h.parent origin = some parent →
      Seeks direction name parent (h.sibling? direction parent) answer →
      Seeks direction name origin none answer
  | top {origin : Node} : h.parent origin = none → Seeks direction name origin none none

/-- The run of the search from a node. -/
def Finds (direction : Direction) (name : String) (n : Node) (answer : Option Node) : Prop :=
  h.Seeks direction name n (h.sibling? direction n) answer

/-- The run of repeated searches, each from the answer of the one before, until nothing is found or
the boundary is. -/
inductive Gathers (direction : Direction) (name : String) (boundary : Option Node) :
    Node → List Node → Prop
  | exhausted {n : Node} : h.Finds direction name n none → Gathers direction name boundary n []
  | boundary {n m : Node} : h.Finds direction name n (some m) → boundary = some m →
      Gathers direction name boundary n [m]
  | onward {n m : Node} {found : List Node} : h.Finds direction name n (some m) →
      boundary ≠ some m → Gathers direction name boundary m found →
      Gathers direction name boundary n (m :: found)

/-- The run of a search for all further nodes, which looks first whether it starts at the
boundary. -/
def FindsAll (direction : Direction) (name : String) (n : Node) (boundary : Option Node)
    (found : List Node) : Prop :=
  if boundary = some n then found = [n] else h.Gathers direction name boundary n found

variable {h} {direction : Direction} {name : String} {boundary : Option Node}

theorem Seeks.unique {origin : Node} {cursor answer other : Option Node}
    (hseeks : h.Seeks direction name origin cursor answer)
    (hother : h.Seeks direction name origin cursor other) : answer = other := by
  induction hseeks with
  | found hm =>
    cases hother with
    | found hm' => rw [← hm, ← hm']
    | onward hnone _ => simp [hm] at hnone
  | onward hnone _ ih =>
    cases hother with
    | found hm => simp [hnone] at hm
    | onward _ hrest => exact ih hrest
  | up hp _ ih =>
    cases hother with
    | up hp' hrest =>
      obtain rfl := Option.some.inj (hp.symm.trans hp')
      exact ih hrest
    | top hroot => simp [hp] at hroot
  | top hroot =>
    cases hother with
    | up hp _ => simp [hroot] at hp
    | top _ => rfl

theorem Gathers.unique {n : Node} {found other : List Node}
    (hgathers : h.Gathers direction name boundary n found)
    (hother : h.Gathers direction name boundary n other) : found = other := by
  induction hgathers generalizing other with
  | exhausted hnone =>
    cases hother with
    | exhausted _ => rfl
    | boundary hm _ => cases hnone.unique hm
    | onward hm _ _ => cases hnone.unique hm
  | boundary hm hboundary =>
    cases hother with
    | exhausted hnone => cases hm.unique hnone
    | boundary hm' _ => rw [Option.some.inj (hm.unique hm')]
    | onward hm' hne _ =>
      obtain rfl := Option.some.inj (hm.unique hm')
      exact absurd hboundary hne
  | onward hm hne _ ih =>
    cases hother with
    | exhausted hnone => cases hm.unique hnone
    | boundary hm' hboundary =>
      obtain rfl := Option.some.inj (hm.unique hm')
      exact absurd hboundary hne
    | onward hm' _ hrest =>
      obtain rfl := Option.some.inj (hm.unique hm')
      rw [ih hrest]

theorem FindsAll.unique {n : Node} {found other : List Node}
    (hfound : h.FindsAll direction name n boundary found)
    (hother : h.FindsAll direction name n boundary other) : found = other := by
  unfold FindsAll at hfound hother
  split at hfound
  · next hboundary =>
    rw [if_pos hboundary] at hother
    rw [hfound, hother]
  · next hboundary =>
    rw [if_neg hboundary] at hother
    exact hfound.unique hother

/-! ## The siblings and the way up as runs -/

/-- Over the whole run of siblings, the first of them that has an answer gives it; where none has,
the search goes on behind the last of them. -/
theorem Seeks.of_siblings {origin sibling : Node} {met : List Node} {answer : Option Node}
    (hrun : Run (h.sibling? direction) sibling met)
    (hseeks : h.Seeks direction name origin none answer) :
    h.Seeks direction name origin (h.sibling? direction sibling)
      ((met.findSome? (h.firstNamed? name)).or answer) := by
  induction hrun with
  | done hlast => rwa [hlast, List.findSome?_nil, Option.none_or]
  | @next _ y _ hy _ ih =>
    rw [hy, List.findSome?_cons]
    cases hfirst : h.firstNamed? name y with
    | some m => exact .found hfirst
    | none => exact .onward hfirst ih

theorem findSome?_cons_eq_or (find : Node → Option Node) (n : Node) (nodes : List Node) :
    (n :: nodes).findSome? find = (find n).or (nodes.findSome? find) := by
  rw [List.findSome?_cons]
  cases find n with
  | none => rfl
  | some m => rfl

/-- The search from a node, over the whole run of its parents and of the siblings of each. -/
theorem finds_findSome? {n : Node} {above : List Node}
    (hsiblings : ∀ origin, Run (h.sibling? direction) origin (h.siblingsToward direction origin))
    (hrun : Run h.parent n above) :
    h.Finds direction name n ((n :: above).findSome? fun origin =>
      (h.siblingsToward direction origin).findSome? (h.firstNamed? name)) := by
  -- What the run of parents gives is what is found once the siblings of the first one are past.
  have hseeks (origin : Node) {answer : Option Node}
      (hup : h.Seeks direction name origin none answer) : h.Finds direction name origin
        (((h.siblingsToward direction origin).findSome? (h.firstNamed? name)).or answer) :=
    .of_siblings (hsiblings origin) hup
  induction hrun with
  | @done n hroot =>
    rw [findSome?_cons_eq_or]
    exact hseeks n (.top hroot)
  | @next n _ _ hp _ ih =>
    rw [findSome?_cons_eq_or]
    exact hseeks n (.up hp ih)

/-- Repeated search, over the whole run of the answers. -/
theorem gathers_upTo {n : Node} {met : List Node}
    (hfinds : ∀ m, h.Finds direction name m (h.nearest? direction name m))
    (hrun : Run (h.nearest? direction name) n met) :
    h.Gathers direction name boundary n (upTo boundary met) := by
  induction hrun with
  | @done n hnone => exact .exhausted (hnone ▸ hfinds n)
  | @next n m met hm _ ih =>
    have hfindsM : h.Finds direction name n (some m) := hm ▸ hfinds n
    rw [upTo]
    split
    · next hboundary => exact .boundary hfindsM hboundary
    · next hne => exact .onward hfindsM hne ih

/-! ## Where the search leads -/

/-- What is found at a node is the node itself or below it. -/
theorem mem_subtree_of_firstNamed? {n m : Node} (hm : h.firstNamed? name n = some m) :
    m ∈ h.subtree n := by
  unfold firstNamed? at hm
  split at hm
  · obtain rfl := Option.some.inj hm
    exact mem_subtree_self n
  · exact List.mem_cons_of_mem n (List.mem_of_mem_filter (List.mem_of_head? hm))

theorem upTo_sublist (stop : Option Node) (nodes : List Node) :
    (upTo stop nodes).Sublist nodes := by
  fun_induction upTo stop nodes with
  | case1 => exact .slnil
  | case2 x rest => exact .cons_cons x (List.nil_sublist rest)
  | case3 x rest _ ih => exact .cons_cons x ih

namespace IsTree

variable (ht : h.IsTree)

include ht

/-- The nearest node is beside the start, in the direction of the search. -/
theorem beside_of_nearest? {n m : Node} (hm : h.nearest? direction name n = some m) :
    direction.orient h.Beside n m := by
  have := ht.isStrictOrder_beside
  obtain ⟨origin, horigin, hfound⟩ := List.exists_of_findSome?_eq_some hm
  obtain ⟨sibling, hsibling, hfirst⟩ := List.exists_of_findSome?_eq_some hfound
  -- The start is in the subtree of the origin, and the answer in that of the sibling.
  have hn : n ∈ h.subtree origin := ht.mem_cons_ancestors_iff.mp horigin
  have hmSibling : m ∈ h.subtree sibling := mem_subtree_of_firstNamed? hfirst
  have hbeside : direction.orient h.Beside origin sibling :=
    (h.goesForward_sibling? direction).of_mem_walk hsibling
  exact Beside.orient_subtree hbeside hn hmSibling

theorem goesForward_nearest? (direction : Direction) (name : String) :
    GoesForward h.size (h.nearest? direction name) (direction.orient h.Beside) :=
  goesForward_of_beside ht.beside_of_nearest?

/-! ## Every search comes to an end -/

theorem finds_nearest? (direction : Direction) (name : String) (n : Node) :
    h.Finds direction name n (h.nearest? direction name n) := by
  have := ht.isStrictOrder_beside
  exact finds_findSome? (fun origin => (h.goesForward_sibling? direction).run_walk origin)
    (ht.goesForward_parent.run_walk n)

theorem findsAll_allUntil (direction : Direction) (name : String) (n : Node)
    (boundary : Option Node) :
    h.FindsAll direction name n boundary (h.allUntil direction name n boundary) := by
  have := ht.isStrictOrder_beside
  unfold FindsAll allUntil
  split
  · rfl
  · exact gathers_upTo (ht.finds_nearest? direction name)
      ((ht.goesForward_nearest? direction name).run_walk n)

/-- A search in a tree comes to an end, with just one answer. -/
theorem finds_iff {n : Node} {answer : Option Node} :
    h.Finds direction name n answer ↔ answer = h.nearest? direction name n := by
  constructor
  · exact fun hfinds => hfinds.unique (ht.finds_nearest? direction name n)
  · rintro rfl
    exact ht.finds_nearest? direction name n

/-- A repeated search in a tree comes to an end, with just one list. -/
theorem findsAll_iff {n : Node} {found : List Node} :
    h.FindsAll direction name n boundary found ↔ found = h.allUntil direction name n boundary := by
  constructor
  · exact fun hfound => hfound.unique (ht.findsAll_allUntil direction name n boundary)
  · rintro rfl
    exact ht.findsAll_allUntil direction name n boundary

/-- The answers of a repeated search stand side by side in the direction of the search, each with
the ones before it and with the start. -/
theorem pairwise_cons_allUntil (direction : Direction) (name : String) {n : Node}
    (hboundary : boundary ≠ some n) :
    (n :: h.allUntil direction name n boundary).Pairwise (direction.orient h.Beside) := by
  have := ht.isStrictOrder_beside
  rw [allUntil, if_neg hboundary]
  exact ((ht.goesForward_nearest? direction name).pairwise_cons_walk h.size n).sublist
    (.cons_cons n (upTo_sublist boundary _))

/-- A repeated search goes through the document in the direction of the search. -/
theorem pairwise_allUntil (direction : Direction) (name : String) (n : Node)
    (boundary : Option Node) :
    (h.allUntil direction name n boundary).Pairwise (direction.orient h.Precedes) := by
  by_cases hboundary : boundary = some n
  · rw [allUntil, if_pos hboundary]
    exact List.pairwise_singleton _ n
  · have hbeside := (List.pairwise_cons.mp (ht.pairwise_cons_allUntil direction name hboundary)).2
    exact hbeside.imp (Direction.orient_imp Beside.precedes)

theorem nodup_allUntil (direction : Direction) (name : String) (n : Node)
    (boundary : Option Node) : (h.allUntil direction name n boundary).Nodup := by
  have := ht.isStrictOrder_precedes
  apply (ht.pairwise_allUntil direction name n boundary).imp
  rintro m k hmk rfl
  exact irrefl_of (direction.orient h.Precedes) m hmk

/-- A repeated search that does not start at its boundary leaves the start, and all above and below
it, aside. -/
theorem apart_of_mem_allUntil {n m : Node} (hboundary : boundary ≠ some n)
    (hm : m ∈ h.allUntil direction name n boundary) :
    m ≠ n ∧ m ∉ h.ancestors n ∧ m ∉ h.descendants n := by
  have hnm := (List.pairwise_cons.mp (ht.pairwise_cons_allUntil direction name hboundary)).1 m hm
  obtain ⟨hbelow, habove⟩ := ht.not_mem_subtree_of_orient_beside hnm
  rw [mem_subtree_iff, not_or] at hbelow habove
  exact ⟨hbelow.1, mt ht.mem_ancestors_iff.mp habove.2, hbelow.2⟩

end IsTree

theorem length_allUntil_le {n : Nat} (hn : n < h.size) :
    (h.allUntil direction name n boundary).length ≤ h.size := by
  unfold allUntil
  split
  · exact Nat.lt_of_le_of_lt (Nat.zero_le n) hn
  · exact Nat.le_trans (upTo_sublist _ _).length_le (length_walk_le _ _ _)

/-- In a tree both searches come to an end. The list of the repeated search goes through the
document strictly in the direction of the search, and is no longer than there are nodes. It is the
start alone if that is the boundary, and otherwise holds neither the start nor anything above or
below it. -/
theorem IsTree.allUntil_ends_in_order (ht : h.IsTree) {n : Nat} (hn : n < h.size)
    (direction : Direction) (name : String) (boundary : Option Node) :
    (∀ answer, h.Finds direction name n answer ↔ answer = h.nearest? direction name n) ∧
      (∀ found, h.FindsAll direction name n boundary found ↔
        found = h.allUntil direction name n boundary) ∧
      (h.allUntil direction name n boundary).Pairwise (direction.orient h.Precedes) ∧
      (h.allUntil direction name n boundary).Nodup ∧
      (h.allUntil direction name n boundary).length ≤ h.size ∧
      (boundary = some n → h.allUntil direction name n boundary = [n]) ∧
      (boundary ≠ some n → ∀ m ∈ h.allUntil direction name n boundary,
        m ≠ n ∧ m ∉ h.ancestors n ∧ m ∉ h.descendants n) :=
  ⟨fun _ => ht.finds_iff, fun _ => ht.findsAll_iff,
    ht.pairwise_allUntil direction name n boundary, ht.nodup_allUntil direction name n boundary,
    length_allUntil_le hn, fun hboundary => if_pos hboundary,
    fun hboundary _ hm => ht.apart_of_mem_allUntil hboundary hm⟩

/-- Two rows of a table, one of two cells and one of one cell. -/
def twoRows : Hierarchy :=
  Arena.toHierarchy
    { nodes := #[{ kind := .element, name := some "cell" },
        { kind := .element, name := some "cell" },
        { kind := .element, name := some "row", children := [0, 1] },
        { kind := .element, name := some "cell" },
        { kind := .element, name := some "row", children := [3] },
        { kind := .element, name := some "table", children := [2, 4] }]
      childrenFirst := by decide }

/-- Forwards from the first cell come the other two; backwards from the last one comes the first
cell of the row before, which hides the second one. -/
theorem twoRows_cells :
    twoRows.IsTree ∧ twoRows.allUntil .next "cell" 0 none = [1, 3] ∧
      twoRows.allUntil .previous "cell" 3 none = [0] ∧
      twoRows.FindsAll .next "cell" 0 none [1, 3] ∧ twoRows.FindsAll .previous "cell" 3 none [0] ∧
      [1, 3].Pairwise twoRows.Precedes ∧ 3 ∉ twoRows.ancestors 0 := by
  have htree : twoRows.IsTree := Arena.isTree (by decide) (by decide) (by decide)
  have hnext : twoRows.allUntil .next "cell" 0 none = [1, 3] := by cbv
  have hprevious : twoRows.allUntil .previous "cell" 3 none = [0] := by cbv
  obtain ⟨-, hends, horder, -, -, -, hapart⟩ :=
    htree.allUntil_ends_in_order (n := 0) (by decide) .next "cell" none
  obtain ⟨-, hback, -⟩ :=
    htree.allUntil_ends_in_order (n := 3) (by decide) .previous "cell" none
  rw [hnext] at hends horder hapart
  rw [hprevious] at hback
  exact ⟨htree, hnext, hprevious, (hends [1, 3]).mpr rfl, (hback [0]).mpr rfl, horder,
    (hapart (by decide) 3 (by decide)).2.1⟩

end Hierarchy

end TreeSelect
