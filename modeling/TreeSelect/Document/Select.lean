/-
# TreeSelect.Document.Select — selecting by path text

The text is read as a whole before any node is looked at, so a fault in the text is found whatever
the document is.
-/
import TreeSelect.Document.Resolve
import TreeSelect.Path.Reader

namespace TreeSelect

/-- Why nothing could be selected. -/
inductive SelectError where
  /-- The text is no path. -/
  | grammar (cause : GrammarError)
  /-- The path cannot be resolved. -/
  | resolve (cause : ResolveError)
deriving DecidableEq, Repr

/-- The message for the writer of the path. -/
def SelectError.message : SelectError → String
  | grammar cause => cause.message
  | resolve cause => cause.message

namespace Document

variable (d : Document)

/-- The nodes that path text selects below a root. -/
def selectAll (root : Node) (text : String) : Except SelectError (List Node) := do
  let path ← (Path.parse text).mapError .grammar
  (d.resolveAll root path).mapError .resolve

/-- The first of the nodes that path text selects. -/
def selectFirst (root : Node) (text : String) : Except SelectError (Option Node) := do
  let path ← (Path.parse text).mapError .grammar
  (d.resolveFirst root path).mapError .resolve

end Document

end TreeSelect
