/-
# TreeSelect.Forest.Text — the text of a node

Two texts are made of a node: the characters of the document below it, and one line that shows what
the node itself holds.
-/
import TreeSelect.Forest.Basic
import TreeSelect.Text.Quoted

namespace TreeSelect

/-! ## Text content -/

/-- The text of a document or an element is that of all texts below it, in document order. Any other
node has its own value. -/
def Forest.textContent (f : Forest) (n : Node) : String :=
  match f.content n with
  | .document .. | .element .. =>
    String.join ((f.toHierarchy.descendants n).filterMap fun m => (f.content m).text?)
  | .text value | .comment value => value
  | .instruction _ data => data

/-! ## One line for a node -/

/-- The word for a kind of node. -/
def NodeKind.label : NodeKind → String
  | document => "Document"
  | element => "Element"
  | text => "Text"
  | comment => "Comment"
  | instruction => "ProcessingInstruction"

/-- A value in quotes, or the word for its absence. -/
def showOptional (value : Option String) : String :=
  value.elim "None" fun value => "Some(" ++ Text.quoted value ++ ")"

/-- One line that shows the kind of a node, its name and its value. -/
def Forest.inspect (f : Forest) (n : Node) : String :=
  let content := f.content n
  "SimpleNode \x7b kind: " ++ content.kind.label ++ ", name: " ++ showOptional content.name?
    ++ ", value: " ++ showOptional content.value? ++ ", .. \x7d"

end TreeSelect
