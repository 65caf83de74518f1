/-
# TreeSelect.Arena — arenas: nodes with given links

An arena is a table of nodes with their links as they come from elsewhere. Any node may have a name,
attributes and children, whatever its kind. A parent link may be given, and then it holds even
where it disagrees with the children; otherwise the parent is the first node of the table that
lists the node. Lookups by identifier go the common way, by search.
-/
import TreeSelect.Attributes
import TreeSelect.Document.Basic

namespace TreeSelect

/-- Where the parent of a node comes from. -/
inductive ParentLink where
  /-- It is the first node that lists the node as a child. -/
  | listed
  /-- It is given. -/
  | given (parent : Option Node)
deriving DecidableEq, Repr

/-- A row of an arena. -/
structure ArenaNode where
  kind : NodeKind
  name : Option String := none
  attributes : Attributes := {}
  children : List Node := []
  parent : ParentLink := .listed
  /-- Whether a lookup may start here, where that does not go by the kind. -/
  lookup : Option Bool := none
deriving Repr

/-- Each node of a table stands after all of its children. -/
def ChildrenFirst (nodes : Array ArenaNode) : Prop :=
  ∀ i : Fin nodes.size, ∀ c : Nat, c ∈ nodes[i].children → c < i.val

instance (nodes : Array ArenaNode) : Decidable (ChildrenFirst nodes) :=
  Nat.decidableForallFin _

/-- A table of nodes, each after all of its children. -/
structure Arena where
  nodes : Array ArenaNode
  childrenFirst : ChildrenFirst nodes

namespace Arena

/-- The arena of a table, if the table has its nodes in order. -/
def ofNodes? (nodes : Array ArenaNode) : Option Arena :=
  if h : ChildrenFirst nodes then some ⟨nodes, h⟩ else none

variable (a : Arena)

/-- The row of a node. -/
def row (n : Node) : ArenaNode := a.nodes.getD n { kind := .text }

/-- The parent of a node. -/
def parent (n : Node) : Option Node :=
  match (a.row n).parent with
  | .given parent => parent
  | .listed => (List.range a.nodes.size).find? fun p => (a.row p).children.contains n

/-- An arena as a hierarchy. -/
def toHierarchy : Hierarchy where
  size := a.nodes.size
  kind n := (a.row n).kind
  name n := (a.row n).name
  parent := a.parent
  children n := (a.row n).children
  attrValue n name := (a.row n).attributes.get? name
  child_lt {n c} hc := by
    simp only [row, Array.getD] at hc
    split at hc
    · next hn => exact a.childrenFirst ⟨n, hn⟩ c hc
    · cases hc
  lt_size {n c} hc := by
    simp only [row, Array.getD] at hc
    split at hc
    · next hn => exact hn
    · cases hc

/-- An arena as a document. -/
def toDocument : Document where
  toHierarchy := a.toHierarchy
  supportsIdLookup n := (a.row n).lookup.getD ((a.row n).kind == .document)

end Arena

end TreeSelect
