/-
# TreeSelect.Hierarchy.Basic — node hierarchies

A hierarchy is a finite collection of document nodes as a reader sees it: each node has a kind,
perhaps a name, some attributes, perhaps a parent, and children in document order. A node is
identified by a number, not by what it holds, so that two nodes with equal contents stay two.

Nodes are numbered in the order in which they were completed, children before their parents
(`child_lt`). So no node is below itself, and the descendants of a node are a finite list. Nothing
else is asked for: a node may sit below several parents, or several times below one, and its own
parent link is taken at its word.
-/

namespace TreeSelect

/-- The kinds of document nodes. -/
inductive NodeKind where
  | document
  | element
  | text
  | comment
  | instruction
deriving DecidableEq, Repr

/-- A node, by its number. -/
abbrev Node := Nat

/-- A finite collection of nodes with their links. Numbers from `size` on name no node of it, and
nothing is below them. -/
structure Hierarchy where
  /-- The number of nodes. -/
  size : Nat
  /-- The kind of a node. -/
  kind : Node → NodeKind
  /-- The name as written in the document, if the node has one. -/
  name : Node → Option String
  /-- The parent, if the node has one. -/
  parent : Node → Option Node
  /-- The children in document order. -/
  children : Node → List Node
  /-- The value of the attribute of the given name. -/
  attrValue : Node → String → Option String
  /-- Children are numbered before their parents. -/
  child_lt : ∀ {n c : Nat}, c ∈ children n → c < n
  /-- Only nodes of the hierarchy have children. -/
  lt_size : ∀ {n c : Nat}, c ∈ children n → n < size

namespace Hierarchy

variable (h : Hierarchy)

/-! ## Names and identifiers -/

/-- Whether the node has this name. -/
def hasName (n : Node) (name : String) : Bool := h.name n == some name

/-- Whether the node is an element. -/
def isElement (n : Node) : Bool := h.kind n == .element

/-- The identifier of a node: the `id` attribute of an element. -/
def identifier (n : Node) : Option String :=
  if h.isElement n then h.attrValue n "id" else none

/-! ## Descendants -/

/-- All nodes below a node in document order: each child, and after it what is below it. -/
def descendants (n : Node) : List Node :=
  (h.children n).flatMap fun c => c :: descendants c
termination_by n
decreasing_by exact h.child_lt ‹_›

theorem mem_descendants_iff {n m : Node} :
    m ∈ h.descendants n ↔ ∃ c ∈ h.children n, m = c ∨ m ∈ h.descendants c := by
  rw [descendants]
  simp only [List.mem_flatMap, List.mem_cons]

/-- What is below a node was completed before it. -/
theorem lt_of_mem_descendants {n m : Nat} (hm : m ∈ h.descendants n) : m < n := by
  induction n using Nat.strongRecOn with
  | ind n ih =>
    obtain ⟨c, hc, rfl | hm⟩ := h.mem_descendants_iff.1 hm
    · exact h.child_lt hc
    · exact Nat.lt_trans (ih c (h.child_lt hc) hm) (h.child_lt hc)

/-- The elements below a node, or those of the given name. -/
def descendantsNamed (n : Node) (name : Option String) : List Node :=
  (h.descendants n).filter fun m => h.isElement m && name.all (h.hasName m)

/-- The nodes below a node, of any kind, that have one of the names. -/
def descendantsNamedAny (n : Node) (names : List String) : List Node :=
  (h.descendants n).filter fun m => (h.name m).any names.contains

/-- The first element below a node that has the given identifier. -/
def searchById (n : Node) (id : String) : Option Node :=
  (h.descendants n).find? fun m => h.identifier m == some id

/-! ## Siblings -/

/-- The children of the parent of a node. -/
def siblings (n : Node) : List Node := (h.parent n).elim [] h.children

/-- The sibling right after the first place of a node among its siblings. -/
def nextSibling? (n : Node) : Option Node :=
  ((h.siblings n).idxOf? n).bind fun i => (h.siblings n)[i + 1]?

/-- The sibling right before the first place of a node among its siblings. -/
def previousSibling? (n : Node) : Option Node :=
  ((h.siblings n).idxOf? n).bind fun i => if i = 0 then none else (h.siblings n)[i - 1]?

end Hierarchy

end TreeSelect
