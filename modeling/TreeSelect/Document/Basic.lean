/-
# TreeSelect.Document.Basic — documents: hierarchies with identifier lookup

A lookup by identifier is asked of whole documents only. What counts as one and how the element is
found may differ from store to store; without a way of its own a store goes by the node's kind and
searches from the first descendant to the last.
-/
import TreeSelect.Hierarchy.Basic

namespace TreeSelect

/-- A hierarchy whose nodes can be asked for elements by identifier. -/
structure Document extends Hierarchy where
  /-- Whether a lookup may start at the node. -/
  supportsIdLookup : Node → Bool := fun n => kind n == .document
  /-- The element with the given identifier below the node. -/
  elementById : Node → String → Option Node := toHierarchy.searchById

end TreeSelect
