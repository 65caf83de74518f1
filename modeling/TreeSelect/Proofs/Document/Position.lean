/-
# TreeSelect.Proofs.Document.Position — an index at the end of a path

The index of the last selector is applied twice, to what the selector finds anywhere below the root
and to what the chain of all selectors lists at its end. These lists differ: the first one has nodes
that the chain does not reach, and the second one may repeat nodes and have them in another order.
So a node is selected exactly if it has this position in both. Its position among the nodes that the
path selects without the index may be an earlier one, and a path may select nothing although it
selects more nodes than that without the index (`resolveAll_index_eq_iff`).
-/
import TreeSelect.Proofs.Document.Reached

namespace TreeSelect

/-- The selector without its index. -/
def Selector.unindexed (s : Selector) : Selector := { s with index := none }

/-! ## Positions in a filtered list -/

section Positions

variable {α : Type} {p : α → Bool} {l : List α} {i : Nat} {m : α}

/-- In a filtered list, the position of a member that is kept is the number of those kept before. -/
theorem getElem?_filter_countP (hm : l[i]? = some m) (hp : p m = true) :
    (l.filter p)[(l.take i).countP p]? = some m := by
  induction l generalizing i with
  | nil => cases hm
  | cons x rest ih =>
    cases i with
    | zero =>
      obtain rfl : x = m := by simpa using hm
      simp [hp]
    | succ i =>
      have hrest := ih (by simpa using hm)
      cases hx : p x <;> simp [hx, hrest]

/-- Without repetitions, a member that is kept keeps its position exactly if all before it are
kept. -/
theorem getElem?_filter_iff (hnodup : l.Nodup) (hm : l[i]? = some m) (hp : p m = true) :
    (l.filter p)[i]? = some m ↔ ∀ x ∈ l.take i, p x = true := by
  have hlength : (l.take i).length = i :=
    List.length_take_of_le (Nat.le_of_lt (List.getElem?_eq_some_iff.mp hm).1)
  have hposition := getElem?_filter_countP hm hp
  rw [← List.countP_eq_length, hlength]
  constructor
  · intro hi
    have hlt := (List.getElem?_eq_some_iff.mp hposition).1
    exact (List.getElem?_inj hlt (hnodup.filter p)).mp (hposition.trans hi.symm)
  · intro hcount
    rwa [hcount] at hposition

end Positions

/-! ## One position in two lists -/

/-- The node at the index, if it is the same in both lists. -/
def atBoth (index : Nat) (nodes others : List Node) : List Node :=
  if nodes[index]? = others[index]? then nodes[index]?.toList else []

theorem mem_atBoth_iff {index : Nat} {nodes others : List Node} {m : Node} :
    m ∈ atBoth index nodes others ↔ nodes[index]? = some m ∧ others[index]? = some m := by
  unfold atBoth
  split
  · next heq => simp [← heq]
  · next hne =>
    have hnot (hm : nodes[index]? = some m) : others[index]? ≠ some m :=
      fun hm' => hne (hm.trans hm'.symm)
    simpa using hnot

theorem atBoth_cases (index : Nat) (nodes others : List Node) :
    atBoth index nodes others = [] ∨ ∃ m, atBoth index nodes others = [m] := by
  unfold atBoth
  cases nodes[index]? <;> split <;> simp

theorem filter_toList_contains (index : Nat) (nodes others : List Node) :
    nodes[index]?.toList.filter others[index]?.toList.contains = atBoth index nodes others := by
  unfold atBoth
  cases nodes[index]? with
  | none => simp
  | some n => cases others[index]? <;> simp [List.filter_cons, eq_comm]

/-- A node that stands at the index in both lists comes no later among the nodes of the one list
that are in the other. -/
theorem exists_getElem?_of_mem_atBoth {index : Nat} {nodes others : List Node} {m : Node}
    (hm : m ∈ atBoth index nodes others) :
    ∃ i ≤ index, (nodes.filter others.contains)[i]? = some m := by
  obtain ⟨hnode, hother⟩ := mem_atBoth_iff.mp hm
  have hkept : others.contains m = true := by simpa using List.mem_of_getElem? hother
  exact ⟨_, List.countP_le_length.trans (List.length_take_le _ _),
    getElem?_filter_countP hnode hkept⟩

/-- What stands at the index in both lists is what stands there among the nodes of the one list that
are in the other: if there is a node, exactly if all nodes before it are in the other list too; and
if there is none, exactly if so few nodes are in both lists. -/
theorem atBoth_eq_toList_iff {nodes : List Node} (hnodup : nodes.Nodup) (index : Nat)
    (others : List Node) :
    atBoth index nodes others = (nodes.filter others.contains)[index]?.toList ↔
      if atBoth index nodes others = [] then (nodes.filter others.contains).length ≤ index
      else ∀ m ∈ nodes.take index, m ∈ others := by
  rcases atBoth_cases index nodes others with hnone | ⟨m, hone⟩
  · rw [hnone, if_pos rfl, eq_comm, Option.toList_eq_nil_iff, List.getElem?_eq_none_iff]
  · obtain ⟨hnode, hother⟩ := mem_atBoth_iff.mp (hone ▸ List.mem_singleton_self m)
    have hkept : others.contains m = true := by simpa using List.mem_of_getElem? hother
    rw [hone, if_neg (List.cons_ne_nil m []), eq_comm, Option.toList_eq_singleton_iff,
      getElem?_filter_iff hnodup hnode hkept]
    simp

namespace Document

variable {d : Document}

/-! ## The index of the last selector -/

theorem descend_of_index {s : Selector} {index : Nat} (hindex : s.index = some index)
    (current : List Node) :
    d.descend s current = (d.descend s.unindexed current)[index]?.toList := by
  have hunindexed : s.unindexed.index = none := rfl
  rw [descend_eq, descend_eq, hindex, hunindexed]
  rfl

/-- A path whose last selector has an index selects the node that has this position both in what the
last selector finds anywhere below the root and in what the chain lists at its end, where the index
is left out; if these are two nodes or one is missing, it selects nothing. Without the index it
selects all that is in both lists. So what is selected is one of these nodes, and its position among
them is the index or an earlier one. In a tree, the path selects just what stands at the index among
them in two cases: a node is selected, and the chain reaches all that the last selector finds before
it; or none is selected, and there are no more nodes than the index says. -/
theorem resolveAll_index_eq_iff (ht : d.IsTree) {text : String} {init : List Selector}
    {last : Selector} {index : Nat} {root : Node} {found : List Node}
    (hparse : Path.parse text = .ok ⟨init ++ [last]⟩) (hinit : init ≠ [])
    (hindex : last.index = some index)
    (hfound : d.resolveAll root ⟨init ++ [last]⟩ = .ok found) :
    ∃ anywhere reached all,
      d.step last.unindexed.unanchored [root] = .ok anywhere ∧
      d.chain (init ++ [last.unindexed]) [root] = .ok reached ∧
      d.resolveAll root ⟨init ++ [last.unindexed]⟩ = .ok all ∧
      all = anywhere.filter reached.contains ∧
      found = atBoth index anywhere reached ∧
      (∀ m ∈ found, ∃ i ≤ index, all[i]? = some m) ∧
      (found = all[index]?.toList ↔
        if found = [] then all.length ≤ index else ∀ m ∈ anywhere.take index, m ∈ reached) := by
  have hlast : last.byId = false := by
    obtain ⟨first, rest, rfl⟩ := List.exists_cons_of_ne_nil hinit
    exact (Path.expressible_of_parse hparse).byId_eq_false (by simp)
  -- The chain is the same with and without the index, up to its last step.
  rw [resolveAll_append_singleton hinit hlast] at hfound
  rw [resolveAll_append_singleton hinit (show last.unindexed.byId = false from hlast),
    chain_append_singleton]
  cases hchain : d.chain init [root] with
  | error fault => simp [hchain, Except.map] at hfound
  | ok nodes =>
    let anywhere := d.descend last.unindexed.unanchored [root]
    let reached := d.descend last.unindexed nodes
    have hnodup : anywhere.Nodup := (selected_descend _ root).1.nodup ht
    have hanywhere : d.descend last.unanchored [root] = anywhere[index]?.toList :=
      descend_of_index (s := last.unanchored) hindex [root]
    have hreached : d.descend last nodes = reached[index]?.toList := descend_of_index hindex nodes
    have hpick : found = atBoth index anywhere reached := by
      rw [hchain] at hfound
      rw [← filter_toList_contains, ← hanywhere, ← hreached]
      exact (Except.ok.inj hfound).symm
    subst hpick
    refine ⟨anywhere, reached, anywhere.filter reached.contains, ?_, ?_, rfl, rfl, rfl,
      fun m hm => exists_getElem?_of_mem_atBoth hm, atBoth_eq_toList_iff hnodup index reached⟩
    · exact d.step_eq_ok [root] rfl
    · exact d.step_eq_ok nodes hlast

/-- An item stands in front of a list that holds two more. -/
def itemBeforeList : Document :=
  Arena.toDocument
    { nodes := #[{ kind := .element, name := some "item" },
        { kind := .element, name := some "item" },
        { kind := .element, name := some "list", children := [0, 1] },
        { kind := .element, name := some "item" },
        { kind := .document, children := [3, 2] }]
      childrenFirst := by decide }

theorem isTree_itemBeforeList : itemBeforeList.IsTree :=
  Arena.isTree (by decide) (by decide) (by decide)

/-- Behind an item, the second of all items is the first one in the list, where the second one is
another; so `list item(1)` selects nothing. In nested lists it selects the second item, as the first
one is in a list too. -/
theorem itemBeforeList_second_item :
    let list : Selector := .named "list"
    let item : Selector := { names := .single "item", index := some 1 }
    Path.parse "list item(1)" = .ok ⟨[list, item]⟩ ∧
    (itemBeforeList.IsTree ∧ itemBeforeList.resolveAll 4 ⟨[list, item]⟩ = .ok [] ∧
      itemBeforeList.step item.unindexed.unanchored [4] = .ok [3, 0, 1] ∧
      itemBeforeList.chain [list, item.unindexed] [4] = .ok [0, 1] ∧
      itemBeforeList.resolveAll 4 ⟨[list, item.unindexed]⟩ = .ok [0, 1] ∧
      [] = atBoth 1 [3, 0, 1] [0, 1] ∧ [] ≠ ([0, 1] : List Node)[1]?.toList) ∧
    nestedLists.IsTree ∧ nestedLists.resolveAll 5 ⟨[list, item]⟩ = .ok [3] ∧
      nestedLists.step item.unindexed.unanchored [5] = .ok [1, 3] ∧
      nestedLists.chain [list, item.unindexed] [5] = .ok [1, 3, 1] ∧
      nestedLists.resolveAll 5 ⟨[list, item.unindexed]⟩ = .ok [1, 3] ∧
      [3] = atBoth 1 [1, 3] [1, 3, 1] ∧ [3] = ([1, 3] : List Node)[1]?.toList := by
  intro list item
  have hparse : Path.parse "list item(1)" = .ok ⟨[list] ++ [item]⟩ := by cbv
  have hrun : itemBeforeList.resolveAll 4 ⟨[list, item]⟩ = .ok [] := by cbv
  have hanywhere : itemBeforeList.step item.unindexed.unanchored [4] = .ok [3, 0, 1] := by cbv
  have hreached : itemBeforeList.chain [list, item.unindexed] [4] = .ok [0, 1] := by cbv
  have hall : itemBeforeList.resolveAll 4 ⟨[list, item.unindexed]⟩ = .ok [0, 1] := by cbv
  obtain ⟨anywhere, reached, all, hanywhere', hreached', hall', -, hpick, -, hposition⟩ :=
    resolveAll_index_eq_iff isTree_itemBeforeList hparse (by simp) rfl hrun
  obtain rfl : [3, 0, 1] = anywhere := Except.ok.inj (hanywhere.symm.trans hanywhere')
  obtain rfl : [0, 1] = reached := Except.ok.inj (hreached.symm.trans hreached')
  obtain rfl : [0, 1] = all := Except.ok.inj (hall.symm.trans hall')
  have hnot : [] ≠ ([0, 1] : List Node)[1]?.toList := by
    intro heq
    have hfew := hposition.mp heq
    simp at hfew
  have hrunNested : nestedLists.resolveAll 5 ⟨[list, item]⟩ = .ok [3] := by cbv
  have hanywhereNested : nestedLists.step item.unindexed.unanchored [5] = .ok [1, 3] := by cbv
  have hreachedNested : nestedLists.chain [list, item.unindexed] [5] = .ok [1, 3, 1] := by cbv
  have hallNested : nestedLists.resolveAll 5 ⟨[list, item.unindexed]⟩ = .ok [1, 3] := by cbv
  obtain ⟨anywhere, reached, all, hanywhere', hreached', hall', -, hpickNested, -, hposition⟩ :=
    resolveAll_index_eq_iff isTree_nestedLists hparse (by simp) rfl hrunNested
  obtain rfl : [1, 3] = anywhere := Except.ok.inj (hanywhereNested.symm.trans hanywhere')
  obtain rfl : [1, 3, 1] = reached := Except.ok.inj (hreachedNested.symm.trans hreached')
  obtain rfl : [1, 3] = all := Except.ok.inj (hallNested.symm.trans hall')
  exact ⟨hparse, ⟨isTree_itemBeforeList, hrun, hanywhere, hreached, hall, hpick, hnot⟩,
    isTree_nestedLists, hrunNested, hanywhereNested, hreachedNested, hallNested, hpickNested,
    hposition.mpr (by simp)⟩

/-- In a tree, a path whose last selector has an index need not select what stands there among the
nodes that it selects without the index. -/
theorem exists_resolveAll_ne_at_index :
    (¬∀ (d : Document) (root : Node) (text : String) (init : List Selector) (last : Selector)
      (index : Nat) (found : List Node), d.IsTree → Path.parse text = .ok ⟨init ++ [last]⟩ →
      init ≠ [] → last.index = some index → d.resolveAll root ⟨init ++ [last]⟩ = .ok found →
      ∃ all, d.resolveAll root ⟨init ++ [last.unindexed]⟩ = .ok all ∧
        found = all[index]?.toList ∧ (found = [] ↔ all.length ≤ index)) ∧
    itemBeforeList.selectAll 4 "list item" = .ok [0, 1] ∧
    itemBeforeList.selectAll 4 "list item(0)" = .ok [] := by
  refine ⟨fun hevery => ?_, by cbv, by cbv⟩
  let list : Selector := .named "list"
  let item : Selector := { names := .single "item", index := some 0 }
  have hall : itemBeforeList.resolveAll 4 ⟨[list, item.unindexed]⟩ = .ok [0, 1] := by cbv
  obtain ⟨all, hall', heq, -⟩ := hevery itemBeforeList 4 "list item(0)" [list] item 0 []
    isTree_itemBeforeList (by cbv) (by simp) rfl (by cbv)
  obtain rfl : [0, 1] = all := Except.ok.inj (hall.symm.trans hall')
  simp at heq

end Document

end TreeSelect
