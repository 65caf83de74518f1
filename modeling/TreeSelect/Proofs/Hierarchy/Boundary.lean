/-
# TreeSelect.Proofs.Hierarchy.Boundary — repeated searches up to a boundary

A boundary has no say in what a repeated search finds next, only in where it ends: right behind the
boundary, once that is found. So a bounded run is the front part of the unbounded one from the same
start, and the unbounded run from the boundary is the rest of it (`Gathers.cut_at`). This is shown
of the turns of the loop and needs no tree. That every run comes to an end, and that no list has the
boundary in two places, is where the tree comes in.
-/
import TreeSelect.Proofs.Hierarchy.Collected

namespace TreeSelect

namespace Hierarchy

variable {h : Hierarchy} {direction : Direction} {name : String} {n u : Node}

/-! ## Runs with and without a boundary -/

/-- A boundary that is not found does not end a run. -/
theorem Gathers.of_not_mem {found : List Node} (hgathers : h.Gathers direction name none n found)
    (hu : u ∉ found) : h.Gathers direction name (some u) n found := by
  induction hgathers with
  | exhausted hnone => exact .exhausted hnone
  | boundary _ hboundary => cases hboundary
  | @onward n m found hm _ _ ih =>
    obtain ⟨hne, hrest⟩ := List.ne_and_not_mem_of_not_mem_cons hu
    exact .onward hm (mt Option.some.inj hne) (ih hrest)

/-- A boundary ends a run where it is found first, and from there an unbounded run goes on as the
one that was not ended. -/
theorem Gathers.cut_at {found before after : List Node}
    (hgathers : h.Gathers direction name none n found) (hsplit : found = before ++ u :: after)
    (hu : u ∉ before) : h.Gathers direction name (some u) n (before ++ [u]) ∧
      h.Gathers direction name none u after := by
  induction hgathers generalizing before with
  | exhausted _ => exact absurd hsplit.symm (by simp)
  | boundary _ hboundary => cases hboundary
  | onward hm _ hrest ih =>
    cases before with
    | nil =>
      obtain ⟨rfl, rfl⟩ := List.cons.inj hsplit
      exact ⟨.boundary hm rfl, hrest⟩
    | cons m before =>
      obtain ⟨rfl, htail⟩ := List.cons.inj hsplit
      obtain ⟨hne, hbefore⟩ := List.ne_and_not_mem_of_not_mem_cons hu
      obtain ⟨hbounded, hunbounded⟩ := ih htail hbefore
      exact ⟨.onward hm (mt Option.some.inj hne) hbounded, hunbounded⟩

/-! ## Lists with and without a boundary -/

namespace IsTree

variable (ht : h.IsTree)

include ht

/-- Where a repeated search does not start at its boundary, its list is that of the run. -/
theorem gathers_iff {boundary : Option Node} {found : List Node} (hboundary : boundary ≠ some n) :
    h.Gathers direction name boundary n found ↔
      found = h.allUntil direction name n boundary := by
  rw [← ht.findsAll_iff, FindsAll, if_neg hboundary]

theorem gathers_none_iff {found : List Node} :
    h.Gathers direction name none n found ↔ found = h.allUntil direction name n none :=
  ht.gathers_iff (by simp)

/-- Let a repeated search in a tree start elsewhere than at its boundary. If the unbounded list does
not have the boundary, the bounded list is the same. If it has, the bounded list is the part up to
the boundary, with it, and the rest is the unbounded list from the boundary; so the two together are
the unbounded list. -/
theorem allUntil_cut (hne : u ≠ n) (direction : Direction) (name : String) :
    (u ∉ h.allUntil direction name n none →
        h.allUntil direction name n (some u) = h.allUntil direction name n none) ∧
      (∀ before after, h.allUntil direction name n none = before ++ u :: after →
        h.allUntil direction name n (some u) = before ++ [u] ∧
          h.allUntil direction name u none = after) ∧
      (u ∈ h.allUntil direction name n none → h.allUntil direction name n none =
        h.allUntil direction name n (some u) ++ h.allUntil direction name u none) := by
  have hboundary : some u ≠ some n := mt Option.some.inj hne
  have hrun : h.Gathers direction name none n (h.allUntil direction name n none) :=
    ht.gathers_none_iff.mpr rfl
  have hcut {before after : List Node}
      (hsplit : h.allUntil direction name n none = before ++ u :: after) :
      h.allUntil direction name n (some u) = before ++ [u] ∧
        h.allUntil direction name u none = after := by
    -- The list holds nothing twice, so the boundary is found first just where the list is split.
    have hnodup := ht.nodup_allUntil direction name n none
    rw [hsplit] at hnodup
    obtain ⟨hbounded, hunbounded⟩ := hrun.cut_at hsplit (not_mem_passed hnodup)
    exact ⟨((ht.gathers_iff hboundary).mp hbounded).symm,
      (ht.gathers_none_iff.mp hunbounded).symm⟩
  refine ⟨?_, fun _ _ => hcut, ?_⟩
  · intro hu
    exact ((ht.gathers_iff hboundary).mp (hrun.of_not_mem hu)).symm
  · intro hu
    obtain ⟨before, after, hsplit⟩ := List.append_of_mem hu
    obtain ⟨hbounded, hunbounded⟩ := hcut hsplit
    rw [hbounded, hunbounded, List.append_assoc, List.singleton_append, hsplit]

end IsTree

/-- Forwards from the mark, the first cell ends the list as a boundary and is the start of the rest;
a cell inside that one is never found, and ends nothing. -/
theorem nestedCells_next_cut :
    nestedCells.IsTree ∧ nestedCells.allUntil .next "cell" 6 none = [10, 12] ∧
      nestedCells.allUntil .next "cell" 6 (some 10) = [10] ∧
      nestedCells.allUntil .next "cell" 10 none = [12] ∧
      [10, 12] = nestedCells.allUntil .next "cell" 6 (some 10) ++
        nestedCells.allUntil .next "cell" 10 none ∧
      nestedCells.hasName 8 "cell" = true ∧
      nestedCells.allUntil .next "cell" 6 (some 8) = [10, 12] := by
  have hlist : nestedCells.allUntil .next "cell" 6 none = [10, 12] := by cbv
  have hfound : 10 ≠ 6 := by decide
  have hinside : 8 ≠ 6 := by decide
  obtain ⟨-, hcut, hwhole⟩ := isTree_nestedCells.allUntil_cut hfound .next "cell"
  obtain ⟨hsame, -⟩ := isTree_nestedCells.allUntil_cut hinside .next "cell"
  obtain ⟨hbounded, hrest⟩ := hcut [] [12] hlist
  rw [hlist] at hwhole hsame
  exact ⟨isTree_nestedCells, hlist, hbounded, hrest, hwhole (by decide), by decide,
    hsame (by decide)⟩

end Hierarchy

end TreeSelect
