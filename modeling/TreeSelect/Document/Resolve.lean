/-
# TreeSelect.Document.Resolve — resolving paths

A path is resolved from a root. A single selector is one step. With more selectors the last one is
applied twice: without its anchor to all descendants of the root, and at the end of the chain of
all selectors. The answer is what the first application finds, in that order, as far as the chain
reaches it too. So the answer keeps document order however the chain went.

The only fault is a lookup by identifier that starts at a node which is no document.
-/
import TreeSelect.Document.Basic
import TreeSelect.Path.Basic

namespace TreeSelect

/-- The fault of a path that has been read correctly. -/
inductive ResolveError where
  /-- An identifier is looked up from a node that supports no lookup. -/
  | notADocumentRoot
deriving DecidableEq, Repr, Inhabited

/-- The message for the writer of the path. -/
def ResolveError.message : ResolveError → String
  | notADocumentRoot => "'#' selectors must be used from a document node"

namespace Document

variable (d : Document)

/-! ## One step -/

/-- Looks an identifier up from one node after the other, until an element is found. -/
def lookup (id : String) : List Node → Except ResolveError (List Node)
  | [] => .ok []
  | n :: rest =>
    if d.supportsIdLookup n then
      match d.elementById n id with
      | some found => .ok [found]
      | none => lookup id rest
    else .error .notADocumentRoot

/-- The nodes that a selector reaches from one node by its names. A step to children takes nodes of
any kind, and so do alternatives; otherwise only elements are reached below. -/
def reach (s : Selector) (n : Node) : List Node :=
  if s.direct then (d.children n).filter fun c => s.names.accepts (d.name c)
  else
    match s.names with
    | .oneOf names => d.descendantsNamedAny n names
    | .any | .single _ => d.descendantsNamed n s.names.single?

/-- Whether a node passes the attribute test of a selector. -/
def passesAttribute (s : Selector) (n : Node) : Bool :=
  s.attr.all fun test => test.accepts (d.attrValue n test.name)

/-- A node passes if it has the attribute that the selector asks for, if any, with the value that it
asks for, if any. -/
theorem passesAttribute_iff {s : Selector} {n : Node} :
    d.passesAttribute s n = true ↔ ∀ test ∈ s.attr,
      ∃ value ∈ d.attrValue n test.name, ∀ wanted ∈ test.value, value = wanted := by
  unfold passesAttribute
  cases s.attr with
  | none => simp
  | some test =>
    rw [Option.all_some, AttributeTest.accepts_iff]
    simp

/-- The step of a selector without lookup: what is reached from each node in turn, as far as it
passes the attribute test; of these only the one at the index, if there is one. -/
def descend (s : Selector) (current : List Node) : List Node :=
  let found := (current.flatMap (d.reach s)).filter (d.passesAttribute s)
  match s.index with
  | none => found
  | some index => found[index]?.toList

/-- The step of a selector. A lookup needs exactly one name, and looks at nothing else. -/
def step (s : Selector) (current : List Node) : Except ResolveError (List Node) :=
  if s.byId then
    match s.names.single? with
    | some id => d.lookup id current
    | none => .ok []
  else .ok (d.descend s current)

/-! ## Whole paths -/

/-- The steps of all selectors, one after the other. -/
def chain (selectors : List Selector) (current : List Node) : Except ResolveError (List Node) :=
  selectors.foldlM (fun nodes s => d.step s nodes) current

/-- The nodes that a path selects below a root. -/
def resolveAll (root : Node) (path : Path) : Except ResolveError (List Node) :=
  match path.selectors with
  | [] => .ok [root]
  | [s] => d.step s [root]
  | s :: t :: rest => do
    let anywhere := d.descend ((t :: rest).getLast (List.cons_ne_nil t rest)).unanchored [root]
    let chained ← d.chain (s :: t :: rest) [root]
    return anywhere.filter chained.contains

/-- The first of the nodes that a path selects. -/
def resolveFirst (root : Node) (path : Path) : Except ResolveError (Option Node) :=
  (d.resolveAll root path).map List.head?

end Document

end TreeSelect
