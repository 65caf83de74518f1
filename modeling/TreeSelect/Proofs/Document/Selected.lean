/-
# TreeSelect.Proofs.Document.Selected — what a path selects is listed in document order

The chain of a path may come to a node several times and in any order, but what the path selects is
cut out of the descendants of the root, which a tree lists once and in document order. This holds
for every path, also for one that no text means. A path without selectors selects the root.
-/
import TreeSelect.Proofs.Document.Chain
import TreeSelect.Proofs.Hierarchy.Order

namespace TreeSelect

namespace Document

variable (d : Document)

/-- Lookups find nothing but what is below the node that they start at. -/
def LooksBelow : Prop :=
  ∀ {n m : Node} {id : String}, d.supportsIdLookup n = true → d.elementById n id = some m →
    m ∈ d.descendants n

variable {d}

/-- The common lookup, by search, finds nothing but what is below. -/
theorem looksBelow_of_search (hsearch : ∀ n id, d.elementById n id = d.searchById n id) :
    d.LooksBelow := by
  intro n m id _ hfound
  rw [hsearch] at hfound
  exact List.mem_of_find?_eq_some hfound

/-! ## What a selector finds from one node -/

variable (d) in
/-- What a selector finds from a node by its names and its attribute test, before its index picks
one of it. -/
def finds (s : Selector) (n : Node) : List Node := (d.reach s n).filter (d.passesAttribute s)

/-- A step without lookup finds from one node after the other, and its index counts all of that. -/
theorem descend_eq (s : Selector) (current : List Node) :
    d.descend s current = match s.index with
      | none => current.flatMap (d.finds s)
      | some index => (current.flatMap (d.finds s))[index]?.toList := by
  unfold descend
  rw [List.filter_flatMap]
  rfl

/-- What is found are nodes of the place of the selector in their order: children of the node, or
descendants. -/
theorem finds_sublist (s : Selector) (n : Node) :
    (d.finds s n).Sublist (if s.direct then d.children n else d.descendants n) := by
  apply List.Sublist.trans List.filter_sublist
  cases hs : s.direct with
  | true =>
    rw [reach, if_pos hs, if_pos rfl]
    exact List.filter_sublist
  | false =>
    rw [d.reach_below n hs, if_neg Bool.false_ne_true]
    exact List.filter_sublist

theorem inOrder_finds (s : Selector) (n : Node) : d.InOrder (d.finds s n) := by
  apply Hierarchy.InOrder.sublist _ (finds_sublist s n)
  split
  · exact Hierarchy.inOrder_children n
  · exact Hierarchy.inOrder_descendants n

theorem finds_subset_descendants (s : Selector) (n : Node) : d.finds s n ⊆ d.descendants n := by
  intro m hm
  have hplace := (finds_sublist s n).subset hm
  split at hplace
  · exact Hierarchy.subtree_subset_descendants hplace (Hierarchy.mem_subtree_self m)
  · exact hplace

/-- An index picks one of the nodes, or none. -/
theorem toList_getElem?_sublist (nodes : List Node) (index : Nat) :
    nodes[index]?.toList.Sublist nodes := by
  cases hfound : nodes[index]? with
  | none => exact List.nil_sublist nodes
  | some m => exact List.singleton_sublist.mpr (List.mem_of_getElem? hfound)

/-- A step without lookup from one node keeps the order of what its selector finds there. -/
theorem descend_singleton_sublist (s : Selector) (n : Node) :
    (d.descend s [n]).Sublist (d.finds s n) := by
  rw [descend_eq, List.flatMap_singleton]
  split
  · exact List.Sublist.refl _
  · exact toList_getElem?_sublist _ _

/-! ## One step from the root -/

variable (d) in
/-- What is listed in document order and is below a root. -/
def Selected (root : Node) (found : List Node) : Prop :=
  d.InOrder found ∧ found ⊆ d.descendants root

theorem Selected.filter {root : Node} {found : List Node} (h : d.Selected root found)
    (p : Node → Bool) : d.Selected root (found.filter p) :=
  ⟨h.1.sublist List.filter_sublist, List.Subset.trans List.filter_sublist.subset h.2⟩

theorem selected_descend (s : Selector) (root : Node) :
    d.Selected root (d.descend s [root]) :=
  ⟨(inOrder_finds s root).sublist (descend_singleton_sublist s root),
    List.Subset.trans (descend_singleton_sublist s root).subset (finds_subset_descendants s root)⟩

/-- A step from the root alone selects what is below it, in document order. -/
theorem selected_step (hlookup : d.LooksBelow) {s : Selector} {root : Node} {found : List Node}
    (hstep : d.step s [root] = .ok found) : d.Selected root found := by
  unfold step at hstep
  split at hstep
  · split at hstep
    · next id _ =>
      unfold lookup at hstep
      split at hstep
      · next hroot =>
        split at hstep
        · next m hm =>
          obtain rfl := Except.ok.inj hstep
          refine ⟨Hierarchy.inOrder_singleton m, ?_⟩
          exact List.cons_subset.mpr ⟨hlookup hroot hm, List.nil_subset _⟩
        · obtain rfl : [] = found := Except.ok.inj hstep
          exact ⟨Hierarchy.inOrder_nil, List.nil_subset _⟩
      · cases hstep
    · obtain rfl := Except.ok.inj hstep
      exact ⟨Hierarchy.inOrder_nil, List.nil_subset _⟩
  · obtain rfl := Except.ok.inj hstep
    exact selected_descend s root

/-! ## Whole paths -/

/-- In a tree, what a path selects is listed in document order and once, and it is below the root.
Only the path without selectors selects the root itself. -/
theorem resolveAll_inOrder (ht : d.IsTree) (hlookup : d.LooksBelow) {root : Node} {path : Path}
    {found : List Node} (hfound : d.resolveAll root path = .ok found) :
    if path.isEmpty then found = [root]
    else found.Nodup ∧ d.InOrder found ∧ ∀ n ∈ found, n ∈ d.descendants root := by
  have selected (h : d.Selected root found) :
      found.Nodup ∧ d.InOrder found ∧ ∀ n ∈ found, n ∈ d.descendants root :=
    ⟨h.1.nodup ht, h.1, fun n hn => h.2 hn⟩
  obtain ⟨selectors⟩ := path
  match selectors with
  | [] => exact (Except.ok.inj hfound).symm
  | [s] => exact selected (selected_step hlookup hfound)
  | s :: t :: rest =>
    -- The chain only takes nodes away from what the last selector finds anywhere.
    simp only [resolveAll, bind, Except.bind] at hfound
    split at hfound
    · cases hfound
    · next chained _ =>
      obtain rfl := Except.ok.inj hfound
      obtain ⟨horder, hbelow⟩ :=
        selected_descend ((t :: rest).getLast (List.cons_ne_nil t rest)).unanchored root (d := d)
      exact selected ⟨horder.sublist List.filter_sublist,
        List.Subset.trans List.filter_sublist.subset hbelow⟩

/-- A list with an item that holds a mark stands inside of another list, in front of an item of that
one. -/
def nestedLists : Document :=
  Arena.toDocument
    { nodes := #[{ kind := .element, name := some "mark" },
        { kind := .element, name := some "item", children := [0] },
        { kind := .element, name := some "list", children := [1] },
        { kind := .element, name := some "item" },
        { kind := .element, name := some "list", children := [2, 3] },
        { kind := .document, children := [4] }]
      childrenFirst := by decide }

theorem isTree_nestedLists : nestedLists.IsTree :=
  Arena.isTree (by decide) (by decide) (by decide)

/-- The inner item is reached through both lists, and is selected once. -/
theorem nestedLists_items :
    let path : Path := ⟨[.named "list", .named "item"]⟩
    nestedLists.IsTree ∧ nestedLists.LooksBelow ∧
      nestedLists.chain path.selectors [5] = .ok [1, 3, 1] ∧
      nestedLists.resolveAll 5 path = .ok [1, 3] ∧
      ([1, 3] : List Node).Nodup ∧ nestedLists.InOrder [1, 3] ∧
      ∀ n ∈ [1, 3], n ∈ nestedLists.descendants 5 := by
  intro path
  have hlookup : nestedLists.LooksBelow := looksBelow_of_search fun _ _ => rfl
  have hchain : nestedLists.chain path.selectors [5] = .ok [1, 3, 1] := by cbv
  have hrun : nestedLists.resolveAll 5 path = .ok [1, 3] := by cbv
  exact ⟨isTree_nestedLists, hlookup, hchain, hrun,
    resolveAll_inOrder isTree_nestedLists hlookup hrun⟩

end Document

end TreeSelect
