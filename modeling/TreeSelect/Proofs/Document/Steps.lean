/-
# TreeSelect.Proofs.Document.Steps — when a step keeps document order

A step lists what its selector finds from one node after the other. If the nodes that it starts from
do not lie below one another, the outcome is in document order again. Otherwise what an inner node
finds may have been found from an outer one already, or may come too late: a step to descendants
then repeats nodes, and a step to children may mix up their order. `step_inOrder_iff` says exactly
when this happens. An index counts what is listed, with all repetitions.
-/
import TreeSelect.Proofs.Document.Selected
import Mathlib.Data.List.Pairwise

namespace TreeSelect

namespace Document

variable {d : Document}

/-! ## What several nodes find -/

/-- Of two different nodes in a list, one stands before the other. -/
theorem pairwise_or_swap {R : Node → Node → Prop} {nodes : List Node} (h : nodes.Pairwise R)
    {n m : Node} (hn : n ∈ nodes) (hm : m ∈ nodes) (hne : n ≠ m) : R n m ∨ R m n := by
  have : Std.Symm fun a b => R a b ∨ R b a := ⟨fun _ _ => Or.symm⟩
  have hswap : nodes.Pairwise fun a b => R a b ∨ R b a := h.imp fun hab => .inl hab
  exact hswap.forall hn hm hne

section Tree

variable (ht : d.IsTree) {current : List Node} (hcurrent : d.InOrder current) (s : Selector)

include ht hcurrent

/-- Of two nodes in a list in document order, one of which is below the other, the upper one stands
first. -/
theorem pairwise_of_mem_descendants {R : Node → Node → Prop} (h : current.Pairwise R)
    {n m : Node} (hn : n ∈ current) (hm : m ∈ current) (hnm : m ∈ d.descendants n) : R n m := by
  have hne : n ≠ m := by
    rintro rfl
    exact Nat.lt_irrefl _ (d.lt_of_mem_descendants hnm)
  rcases pairwise_or_swap (hcurrent.and h) hn hm hne with ⟨-, hR⟩ | ⟨hmn, -⟩
  · exact hR
  · exact absurd (ht.precedes_trans hmn (.below hnm)) (ht.not_precedes_self m)

/-- What a selector finds from a list in document order is in document order exactly if what it
finds from an outer node precedes what it finds from an inner one. -/
theorem inOrder_flatMap_finds_iff :
    d.InOrder (current.flatMap (d.finds s)) ↔
      ∀ n ∈ current, ∀ m ∈ current, m ∈ d.descendants n →
        ∀ x ∈ d.finds s n, ∀ y ∈ d.finds s m, d.Precedes x y := by
  unfold Hierarchy.InOrder
  rw [List.pairwise_flatMap]
  constructor
  · rintro ⟨-, hpairs⟩ n hn m hm hnm
    exact pairwise_of_mem_descendants ht hcurrent hpairs hn hm hnm
  · intro hnested
    refine ⟨fun n _ => inOrder_finds s n, List.Pairwise.imp_of_mem ?_ hcurrent⟩
    intro n m hn hm hnm x hx y hy
    rcases hnm with hbelow | ⟨hbranch, hn', hm'⟩
    · exact hnested n hn m hm hbelow x hx y hy
    · have hxn := List.mem_cons_of_mem n (finds_subset_descendants s n hx)
      have hym := List.mem_cons_of_mem m (finds_subset_descendants s m hy)
      exact .beside hbranch (Hierarchy.subtree_subset hn' hxn) (Hierarchy.subtree_subset hm' hym)

/-- Nodes have different children, so that a step to children repeats nothing. -/
theorem nodup_flatMap_finds_of_direct (hs : s.direct = true) :
    (current.flatMap (d.finds s)).Nodup := by
  unfold List.Nodup
  rw [List.pairwise_flatMap]
  refine ⟨fun n _ => (inOrder_finds s n).nodup ht, (hcurrent.nodup ht).imp ?_⟩
  rintro n m hne x hx y hy rfl
  have hchild (k : Node) (hk : x ∈ d.finds s k) : x ∈ d.children k := by
    have hplace := (finds_sublist s k).subset hk
    rwa [if_pos hs] at hplace
  exact hne (ht.parent_unique (hchild n hx) (hchild m hy))

end Tree

/-- What a step to descendants finds from an inner node, it finds from an outer one too. -/
theorem finds_subset_of_below {s : Selector} (hs : s.direct = false) {n m : Node}
    (hnm : m ∈ d.descendants n) : d.finds s m ⊆ d.finds s n := by
  have hfinds (k x : Node) : x ∈ d.finds s k ↔ x ∈ d.descendants k ∧ d.Qualifies s x := by
    rw [finds, List.mem_filter]
    exact d.mem_reach_below hs
  intro x hx
  obtain ⟨hxm, hq⟩ := (hfinds m x).mp hx
  exact (hfinds n x).mpr ⟨Hierarchy.descendants_subset hnm hxm, hq⟩

/-! ## One step -/

/-- In a tree, a step without lookup from a list in document order succeeds. Without an index, it
lists nodes once if it goes to children, and then they are in document order exactly if what is
found from an outer node precedes what is found from an inner one; if it goes to descendants, they
are listed once, and in document order, exactly if nothing is found from any inner node. With an
index, it picks from what the same step lists without it. -/
theorem step_inOrder_iff (ht : d.IsTree) {current : List Node} (hcurrent : d.InOrder current)
    {s : Selector} (hid : s.byId = false) :
    ∃ all, d.step { s with index := none } current = .ok all ∧
      d.step s current = .ok (s.index.elim all fun index => all[index]?.toList) ∧
      (s.direct = true → all.Nodup ∧
        (d.InOrder all ↔ ∀ n ∈ current, ∀ m ∈ current, m ∈ d.descendants n →
          ∀ x ∈ d.finds s n, ∀ y ∈ d.finds s m, d.Precedes x y)) ∧
      (s.direct = false →
        (all.Nodup ↔ ∀ n ∈ current, ∀ m ∈ current, m ∈ d.descendants n → d.finds s m = []) ∧
        (d.InOrder all ↔ ∀ n ∈ current, ∀ m ∈ current, m ∈ d.descendants n →
          d.finds s m = [])) := by
  have horder := inOrder_flatMap_finds_iff ht hcurrent s
  refine ⟨current.flatMap (d.finds s), ?_, ?_, fun hs => ?_, fun hs => ?_⟩
  · rw [d.step_eq_ok current (s := { s with index := none }) hid, descend_eq]
    rfl
  · rw [d.step_eq_ok current hid, descend_eq]
    cases s.index <;> rfl
  · exact ⟨nodup_flatMap_finds_of_direct ht hcurrent s hs, horder⟩
  · have hempty : d.InOrder (current.flatMap (d.finds s)) ↔ ∀ n ∈ current, ∀ m ∈ current,
        m ∈ d.descendants n → d.finds s m = [] := by
      rw [horder]
      constructor
      · intro hnested n hn m hm hnm
        rw [List.eq_nil_iff_forall_not_mem]
        intro y hy
        have hyn := finds_subset_of_below hs hnm hy
        exact ht.not_precedes_self y (hnested n hn m hm hnm y hyn y hy)
      · intro hnothing n hn m hm hnm x _ y hy
        rw [hnothing n hn m hm hnm] at hy
        cases hy
    refine ⟨⟨fun hnodup n hn m hm hnm => ?_, fun hnothing => ?_⟩, hempty⟩
    · unfold List.Nodup at hnodup
      rw [List.pairwise_flatMap] at hnodup
      rw [List.eq_nil_iff_forall_not_mem]
      intro y hy
      have hdiffer := pairwise_of_mem_descendants ht hcurrent hnodup.2 hn hm hnm
      exact hdiffer y (finds_subset_of_below hs hnm hy) y hy rfl
    · exact (hempty.mpr hnothing).nodup ht

/-- The outer list precedes the inner one. -/
theorem inOrder_nestedLists : nestedLists.InOrder [4, 2] := by
  have hbelow : 2 ∈ nestedLists.descendants 4 :=
    nestedLists.mem_descendants_iff.mpr ⟨2, by decide, .inl rfl⟩
  exact List.pairwise_pair.mpr (.below hbelow)

/-- The item of the inner list is found from both lists, and so it is listed twice. -/
theorem nestedLists_items_repeated :
    let items : Selector := .named "item"
    nestedLists.IsTree ∧ nestedLists.InOrder [4, 2] ∧ items.byId = false ∧
      nestedLists.finds items 2 = [1] ∧ nestedLists.step items [4, 2] = .ok [1, 3, 1] ∧
      ¬([1, 3, 1] : List Node).Nodup := by
  intro items
  have hid : items.byId = false := rfl
  have hfinds : nestedLists.finds items 2 = [1] := by cbv
  have hrun : nestedLists.step items [4, 2] = .ok [1, 3, 1] := by cbv
  obtain ⟨all, hall, -, -, hbelow⟩ := step_inOrder_iff isTree_nestedLists inOrder_nestedLists hid
  obtain rfl : [1, 3, 1] = all := Except.ok.inj (hrun.symm.trans hall)
  refine ⟨isTree_nestedLists, inOrder_nestedLists, hid, hfinds, hrun, fun hnodup => ?_⟩
  have hnothing := (hbelow rfl).1.mp hnodup 4 (by simp) 2 (by simp)
    (nestedLists.mem_descendants_iff.mpr ⟨2, by decide, .inl rfl⟩)
  rw [hfinds] at hnothing
  cases hnothing

/-- A step from a list of nodes of a tree in document order may list a node twice; then a position
among the nodes found may be taken by a node that has been counted before. -/
theorem exists_step_not_nodup :
    (¬∀ d : Document, d.IsTree → ∀ current, d.InOrder current → ∀ s : Selector, s.byId = false →
      ∃ found, d.step s current = .ok found ∧ found.Nodup ∧ d.InOrder found) ∧
    nestedLists.step { names := .single "item", index := some 2 } [4, 2] = .ok [1] ∧
    nestedLists.resolveAll 5 ⟨[.named "list", { names := .single "item", index := some 2 },
      .named "mark"]⟩ = .ok [0] := by
  refine ⟨fun hall => ?_, by cbv, by cbv⟩
  have hrun : nestedLists.step (.named "item") [4, 2] = .ok [1, 3, 1] := by cbv
  obtain ⟨found, hfound, hnodup, -⟩ :=
    hall nestedLists isTree_nestedLists [4, 2] inOrder_nestedLists (.named "item") rfl
  obtain rfl : [1, 3, 1] = found := Except.ok.inj (hrun.symm.trans hfound)
  exact absurd hnodup (by decide)

end Document

end TreeSelect
