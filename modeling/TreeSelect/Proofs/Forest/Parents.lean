/-
# TreeSelect.Proofs.Forest.Parents — parent links of built forests

The parent links of a forest are kept apart from its lists of children: a node gets its link when
the first node that lists it is built, and what is built later finds the link set. So at every time
the links can be told from the lists alone, as the parent of a node is the first one built of all
that list it (`Built.parent_eq_find?`), however often the node was given away. Since no list changes
once its node is built, no link does either (`Grown.parent_eq_some`); and since a parent is built
after its child, the way up ends at a node without one.
-/
import TreeSelect.Proofs.Forest.Workshop
import TreeSelect.Proofs.Hierarchy.Beside
import Mathlib.Order.Bounds.Basic

namespace TreeSelect

namespace Forest

variable {f g : Forest}

/-! ## The first node that lists another one -/

/-- In a built forest the parent of a node is the first node built that lists it. -/
theorem Built.parent_eq_find? (h : Built f) (n : Node) : f.parent n =
    (List.range f.size).find? fun p => (f.toHierarchy.children p).contains n := by
  induction h with
  | empty => rfl
  | @build f c _ ih =>
    -- Of the nodes built before, the same ones list `n` as before; the new one is asked last.
    have hbefore : ∀ p ∈ List.range f.size, ((f.build c).toHierarchy.children p).contains n =
        (f.toHierarchy.children p).contains n := by
      intro p hp
      rw [children_build, if_neg (Nat.ne_of_lt (List.mem_range.mp hp))]
    have hnew : (f.build c).toHierarchy.children f.size = (c.map Fin.val).children := by
      rw [children_build, if_pos rfl]
    rw [size_build, List.range_succ, List.find?_append, List.find?_congr hbefore, ← ih,
      parent_build]
    by_cases hn : n ∈ (c.map Fin.val).children
    · rw [if_pos hn, List.find?_singleton, hnew, if_pos (List.contains_iff_mem.mpr hn)]
    · rw [if_neg hn, List.find?_singleton, hnew, if_neg (mt List.contains_iff_mem.mp hn),
        Option.or_none]

/-- The parent of a node lists it, and was built no later than any other node that does. -/
theorem Built.parent_eq_some_iff (h : Built f) {n p : Node} :
    f.parent n = some p ↔ IsLeast {q | n ∈ f.toHierarchy.children q} p := by
  rw [h.parent_eq_find?, List.find?_range_eq_some]
  constructor
  · rintro ⟨hp, -, hfirst⟩
    refine ⟨List.contains_iff_mem.mp hp, ?_⟩
    intro q hq
    by_contra hlt
    have hnot : n ∉ f.toHierarchy.children q := by
      simpa using hfirst q (Nat.lt_of_not_le hlt)
    exact hnot hq
  · rintro ⟨hp, hfirst⟩
    refine ⟨List.contains_iff_mem.mpr hp, List.mem_range.mpr (f.toHierarchy.lt_size hp), ?_⟩
    intro q hq
    have hnot : n ∉ f.toHierarchy.children q := fun hmem => Nat.not_le_of_lt hq (hfirst hmem)
    simpa using hnot

/-- A node has a parent if some node lists it. -/
theorem Built.exists_parent_iff (h : Built f) {n : Node} :
    (∃ p, f.parent n = some p) ↔ ∃ p < f.size, n ∈ f.toHierarchy.children p := by
  rw [← Option.isSome_iff_exists, h.parent_eq_find?, List.find?_isSome]
  simp

/-! ## The way up -/

theorem Built.goesForward_parent (h : Built f) :
    GoesForward f.size f.parent fun n m => n ∈ f.toHierarchy.descendants m :=
  Hierarchy.goesForward_of_listed fun hp => (h.parent_eq_some_iff.mp hp).1

/-- From any node of a built forest the parent links lead, in finitely many steps and without a
return, to a node that has no parent. -/
theorem Built.run_ancestors (h : Built f) (n : Node) :
    Run f.parent n (f.toHierarchy.ancestors n) ∧ (n :: f.toHierarchy.ancestors n).Nodup :=
  ⟨h.goesForward_parent.run_walk n, h.goesForward_parent.nodup_cons_walk f.size n⟩

/-! ## What stays -/

theorem Grown.size_le (h : Grown f g) : f.size ≤ g.size := by
  induction h with
  | refl => exact Nat.le_refl _
  | build c _ ih =>
    rw [size_build]
    exact Nat.le_succ_of_le ih

/-- The children of a node stay what they were when it was built. -/
theorem Grown.children_eq (h : Grown f g) {n : Nat} (hn : n < f.size) :
    g.toHierarchy.children n = f.toHierarchy.children n := by
  induction h with
  | refl => rfl
  | build c hgrown ih =>
    have hne := Nat.ne_of_lt (Nat.lt_of_lt_of_le hn hgrown.size_le)
    rw [children_build, if_neg hne, ih]

/-- A node keeps its parent once it has one. -/
theorem Grown.parent_eq_some (h : Grown f g) {n p : Node} (hp : f.parent n = some p) :
    g.parent n = some p := by
  induction h with
  | refl => exact hp
  | build c _ ih =>
    rw [parent_build, ih]
    split
    · rfl
    · rfl

end Forest

/-! ## Whole runs -/

namespace Workshop

open Forest

/-- After the first part of a run, the forest is there, and the rest of the run only builds more. -/
theorem exists_run_of_append {before after : List Action} {w' : Workshop}
    (h : run (before ++ after) = some w') :
    ∃ w, run before = some w ∧ Grown w.forest w'.forest := by
  rw [run_append] at h
  obtain ⟨w, hw, hafter⟩ := Option.bind_eq_some_iff.mp h
  exact ⟨w, hw, grown_of_foldlM grown_of_perform hafter⟩

/-- Let a run of actions, which may give a node to several others or several times to one, be
stopped after any of them. A node then has a parent just when some node that is built lists it among
its children, the parent is the first built of these, and the parent links lead from any node,
without a return, to one that has none. When the run goes on to its end, each node keeps its
children, and its parent if it has one. -/
theorem parent_links_of_run (before after : List Action) {w' : Workshop}
    (h : run (before ++ after) = some w') :
    ∃ w, run before = some w ∧
      (∀ n, (∃ p, w.forest.parent n = some p) ↔
        ∃ p < w.forest.size, n ∈ w.forest.toHierarchy.children p) ∧
      (∀ n p, w.forest.parent n = some p ↔
        IsLeast {q | n ∈ w.forest.toHierarchy.children q} p) ∧
      (∀ n, Run w.forest.parent n (w.forest.toHierarchy.ancestors n) ∧
        (n :: w.forest.toHierarchy.ancestors n).Nodup) ∧
      w.forest.size ≤ w'.forest.size ∧
      (∀ n < w.forest.size,
        w'.forest.toHierarchy.children n = w.forest.toHierarchy.children n) ∧
      ∀ n p, w.forest.parent n = some p → w'.forest.parent n = some p := by
  obtain ⟨w, hw, hgrown⟩ := exists_run_of_append h
  have hbuilt := built_of_run hw
  exact ⟨w, hw, fun _ => hbuilt.exists_parent_iff, fun _ _ => hbuilt.parent_eq_some_iff,
    hbuilt.run_ancestors, hgrown.size_le, fun _ hn => hgrown.children_eq hn,
    fun _ _ hp => hgrown.parent_eq_some hp⟩

/-- When `b` is built, `a` gets it for its parent, and keeps it though the outer document lists `a`
too. Both documents list `b`, the inner one twice; the inner one is built first. -/
theorem sharing_parents :
    ∃ w w', run (sharing.take 8) = some w ∧ run sharing = some w' ∧
      w.forest.parent 0 = some 1 ∧ w'.forest.parent 0 = some 1 ∧ w.forest.parent 1 = none ∧
      w'.forest.toHierarchy.children 2 = [1, 1] ∧ w'.forest.toHierarchy.children 3 = [0, 2, 1] ∧
      IsLeast {q | 1 ∈ w'.forest.toHierarchy.children q} 2 ∧
      Run w'.forest.parent 0 [1, 2, 3] := by
  have hbefore : (run (sharing.take 8)).map (fun w => [0, 1].map w.forest.parent) =
      some [some 1, none] := by decide +kernel
  have hafter : (run sharing).map (fun w => (w.forest.parent 1,
      [2, 3].map w.forest.toHierarchy.children, w.forest.toHierarchy.ancestors 0)) =
        some (some 2, [[1, 1], [0, 2, 1]], [1, 2, 3]) := by decide +kernel
  obtain ⟨w', hw'⟩ : ∃ w', run sharing = some w' :=
    Option.isSome_iff_exists.mp (by decide +kernel)
  obtain ⟨w, hw, -, -, -, -, -, hkept⟩ :=
    parent_links_of_run (sharing.take 8) (sharing.drop 8) hw'
  obtain ⟨u, hu, -, hfirst, hup, -⟩ := parent_links_of_run sharing [] hw'
  obtain rfl := Option.some.inj (hw'.symm.trans hu)
  simp only [hw, hw', Option.map_some, Option.some.injEq, List.map_cons, List.map_nil,
    List.cons.injEq, Prod.mk.injEq, and_true] at hbefore hafter
  obtain ⟨ha, hb⟩ := hbefore
  obtain ⟨hinner, ⟨htwo, hthree⟩, habove⟩ := hafter
  have hrun := (hup 0).1
  rw [habove] at hrun
  exact ⟨w, w', hw, hw', ha, hkept 0 1 ha, hb, htwo, hthree, (hfirst 1 2).mp hinner, hrun⟩

end Workshop

end TreeSelect
