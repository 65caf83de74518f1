/-
# TreeSelect.Hierarchy.Nearest — the nearest node of a name

From a node the search goes forwards or backwards through its siblings, one by one, then through
the siblings of its parent, and so on up to the root. Each sibling is asked first for its own name
and then for the first element of that name below it. Repeating the search from each answer lists
all answers in that direction, if wished up to a boundary.

A search repeats one step, from a node to a node. On finitely many nodes such a walk ends within as
many steps as there are nodes, or it goes round in a circle; so walks are cut off there, and no
answer is lost.
-/
import TreeSelect.Hierarchy.Basic

namespace TreeSelect

/-- The way through the siblings. -/
inductive Direction where
  | previous
  | next
deriving DecidableEq, Repr

/-! ## Walks -/

/-- What is met by repeating a step from `x`, without `x` itself, for at most `budget` steps. -/
def walk {α : Type} (step : α → Option α) (budget : Nat) (x : α) : List α :=
  match budget with
  | 0 => []
  | budget + 1 =>
    match step x with
    | none => []
    | some y => y :: walk step budget y

theorem length_walk_le {α : Type} (step : α → Option α) (budget : Nat) (x : α) :
    (walk step budget x).length ≤ budget := by
  fun_induction walk step budget x with
  | case1 => exact Nat.le_refl _
  | case2 => exact Nat.zero_le _
  | case3 _ _ _ _ ih => exact Nat.succ_le_succ ih

/-- The part of a list up to the first `stop`, which is kept; the whole list if `stop` is not in
it. -/
def upTo {α : Type} [DecidableEq α] (stop : Option α) : List α → List α
  | [] => []
  | x :: rest => if stop = some x then [x] else x :: upTo stop rest

theorem upTo_of_not_mem {α : Type} [DecidableEq α] {stop : Option α} {l : List α}
    (hl : ∀ x ∈ l, stop ≠ some x) : upTo stop l = l := by
  induction l with
  | nil => rfl
  | cons x l ih =>
    rw [upTo, if_neg (hl x (by simp)), ih fun y hy => hl y (by simp [hy])]

namespace Hierarchy

variable (h : Hierarchy)

/-- The nodes above a node, the parent first. -/
def ancestors (n : Node) : List Node := walk h.parent h.size n

/-- The sibling next to a node in a direction. -/
def sibling? : Direction → Node → Option Node
  | .previous => h.previousSibling?
  | .next => h.nextSibling?

/-- The siblings of a node in a direction, the closest first. -/
def siblingsToward (direction : Direction) (n : Node) : List Node :=
  walk (h.sibling? direction) h.size n

/-! ## The search -/

/-- The node itself if it has the name, of whatever kind it is; otherwise the first element of that
name below it. -/
def firstNamed? (name : String) (n : Node) : Option Node :=
  if h.hasName n name then some n else (h.descendantsNamed n (some name)).head?

/-- The nearest node of a name in a direction: the first found among the siblings, then among the
siblings of the parent, and so on upwards. -/
def nearest? (direction : Direction) (name : String) (n : Node) : Option Node :=
  (n :: h.ancestors n).findSome? fun origin =>
    (h.siblingsToward direction origin).findSome? (h.firstNamed? name)

/-- Every further nearest node of a name, each found from the one before, up to the boundary if
there is one. The boundary is part of the list; a search that starts at it finds just that. -/
def allUntil (direction : Direction) (name : String) (n : Node) (boundary : Option Node) :
    List Node :=
  if boundary = some n then [n] else upTo boundary (walk (h.nearest? direction name) h.size n)

/-- The nearest node of a name after a node. -/
def next? (name : String) (n : Node) : Option Node := h.nearest? .next name n

/-- The nearest node of a name before a node. -/
def previous? (name : String) (n : Node) : Option Node := h.nearest? .previous name n

/-- All further nodes of a name after a node, up to the boundary. -/
def allNext (name : String) (n : Node) (boundary : Option Node) : List Node :=
  h.allUntil .next name n boundary

/-- All further nodes of a name before a node, up to the boundary. -/
def allPrevious (name : String) (n : Node) (boundary : Option Node) : List Node :=
  h.allUntil .previous name n boundary

end Hierarchy

end TreeSelect
