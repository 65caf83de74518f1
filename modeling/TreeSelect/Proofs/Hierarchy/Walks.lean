/-
# TreeSelect.Proofs.Hierarchy.Walks — walks that come to an end

A walk is cut off after as many steps as there are nodes. Where each step goes forward in a strict
order it passes no node twice, so the cut is never felt: the walk is the whole run of its step, down
to a node where the step leads no further (`run_walk`), and what it meets stands in that order.
-/
import TreeSelect.Hierarchy.Nearest
import Mathlib.Data.List.Perm.Subperm
import Mathlib.Order.Defs.Unbundled

namespace TreeSelect

/-! ## Runs without a budget -/

/-- What is met by repeating a step from a place until it leads no further. -/
inductive Run {α : Type} (step : α → Option α) : α → List α → Prop
  | done {x : α} : step x = none → Run step x []
  | next {x y : α} {met : List α} : step x = some y → Run step y met → Run step x (y :: met)

section

variable {α : Type} {step : α → Option α}

/-- A step has one run at most from a place. -/
theorem Run.unique {x : α} {met other : List α} (hrun : Run step x met)
    (hother : Run step x other) : met = other := by
  induction hrun generalizing other with
  | done hx =>
    cases hother with
    | done _ => rfl
    | next hy _ => simp [hx] at hy
  | next hx _ ih =>
    cases hother with
    | done hy => simp [hx] at hy
    | next hy hrest =>
      obtain rfl := Option.some.inj (hx.symm.trans hy)
      rw [ih hrest]

/-- A walk that leaves a part of its budget has come to the end of the run. -/
theorem run_walk_of_length_lt {budget : Nat} {x : α}
    (hlength : (walk step budget x).length < budget) : Run step x (walk step budget x) := by
  fun_induction walk step budget x with
  | case1 => exact absurd hlength (Nat.lt_irrefl 0)
  | case2 _ _ hx => exact .done hx
  | case3 _ _ _ hx ih => exact .next hx (ih (Nat.lt_of_succ_lt_succ hlength))

/-- Each place of a walk is where the step leads to from the place before. -/
theorem isChain_cons_walk (step : α → Option α) (budget : Nat) (x : α) :
    (x :: walk step budget x).IsChain fun y z => step y = some z := by
  fun_induction walk step budget x with
  | case1 => exact .singleton _
  | case2 => exact .singleton _
  | case3 _ _ _ hx ih => exact List.isChain_cons_cons.mpr ⟨hx, ih⟩

end

/-! ## Steps that go forward in an order -/

/-- A step from node to node goes forward in a relation, and only nodes of the hierarchy take part
in it. -/
structure GoesForward (size : Nat) (step : Nat → Option Nat) (R : Nat → Nat → Prop) : Prop where
  forward {x y : Nat} : step x = some y → R x y
  source_lt {x y : Nat} : step x = some y → x < size
  target_lt {x y : Nat} : step x = some y → y < size

namespace GoesForward

variable {size : Nat} {step : Nat → Option Nat} {R : Nat → Nat → Prop} [IsStrictOrder Nat R]

/-- A walk meets its nodes in order, and all of them after the node that it starts from. -/
theorem pairwise_cons_walk (hstep : GoesForward size step R) (budget x : Nat) :
    (x :: walk step budget x).Pairwise R :=
  List.isChain_iff_pairwise.mp ((isChain_cons_walk step budget x).imp fun _ _ => hstep.forward)

theorem of_mem_walk (hstep : GoesForward size step R) {budget x y : Nat}
    (hy : y ∈ walk step budget x) : R x y :=
  (List.pairwise_cons.mp (hstep.pairwise_cons_walk budget x)).1 y hy

omit [IsStrictOrder Nat R] in
theorem lt_of_mem_walk (hstep : GoesForward size step R) {budget x y : Nat}
    (hy : y ∈ walk step budget x) : y < size := by
  fun_induction walk step budget x with
  | case1 => cases hy
  | case2 => cases hy
  | case3 _ _ _ hx ih =>
    rcases List.mem_cons.mp hy with rfl | hy
    · exact hstep.target_lt hx
    · exact ih hy

omit [IsStrictOrder Nat R] in
theorem walk_eq_nil (hstep : GoesForward size step R) {x : Nat} (hx : size ≤ x) (budget : Nat) :
    walk step budget x = [] := by
  fun_cases walk step budget x with
  | case1 => rfl
  | case2 => rfl
  | case3 _ _ hy => exact absurd (hstep.source_lt hy) (Nat.not_lt.mpr hx)

/-- A walk meets no node twice, and never its start. -/
theorem nodup_cons_walk (hstep : GoesForward size step R) (budget x : Nat) :
    (x :: walk step budget x).Nodup := by
  apply (hstep.pairwise_cons_walk budget x).imp
  rintro y z hyz rfl
  exact irrefl_of R y hyz

/-- A walk from a node meets fewer nodes than there are. -/
theorem length_walk_lt (hstep : GoesForward size step R) {x : Nat} (hx : x < size)
    (budget : Nat) : (walk step budget x).length < size := by
  have hsubset : x :: walk step budget x ⊆ List.range size := by
    intro y hy
    rcases List.mem_cons.mp hy with rfl | hy
    · exact List.mem_range.mpr hx
    · exact List.mem_range.mpr (hstep.lt_of_mem_walk hy)
  have hlength := ((hstep.nodup_cons_walk budget x).subperm hsubset).length_le
  rwa [List.length_cons, List.length_range] at hlength

/-- With a budget of as many steps as there are nodes, a walk is the whole run of its step. -/
theorem run_walk (hstep : GoesForward size step R) (x : Nat) : Run step x (walk step size x) := by
  by_cases hx : x < size
  · exact run_walk_of_length_lt (hstep.length_walk_lt hx size)
  · rw [hstep.walk_eq_nil (Nat.not_lt.mp hx)]
    apply Run.done
    cases hy : step x with
    | none => rfl
    | some y => exact absurd (hstep.source_lt hy) hx

/-- A walk is taken up from its first node with the whole budget. -/
theorem walk_eq_cons (hstep : GoesForward size step R) {x y : Nat} (hy : step x = some y) :
    walk step size x = y :: walk step size y :=
  (hstep.run_walk x).unique (.next hy (hstep.run_walk y))

theorem walk_eq_nil_of_step (hstep : GoesForward size step R) {x : Nat} (hx : step x = none) :
    walk step size x = [] :=
  (hstep.run_walk x).unique (.done hx)

end GoesForward

end TreeSelect
