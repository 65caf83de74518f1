/-
# TreeSelect.Forest.Content — what a node holds

Documents and elements hold attributes and children; texts, comments and processing instructions
hold a value. The children are given in whatever way the place of use names nodes.
-/
import TreeSelect.Attributes
import TreeSelect.Hierarchy.Basic

namespace TreeSelect

/-- What a node holds, its children named by `ν`. -/
inductive Content (ν : Type) where
  | document (attributes : Attributes) (children : List ν)
  | element (name : String) (attributes : Attributes) (children : List ν)
  | text (value : String)
  | comment (value : String)
  | instruction (target data : String)
deriving Repr

namespace Content

variable {ν μ : Type}

/-- The kind of the node. -/
def kind : Content ν → NodeKind
  | document .. => .document
  | element .. => .element
  | text _ => .text
  | comment _ => .comment
  | instruction .. => .instruction

/-- The name of an element or the target of a processing instruction. -/
def name? : Content ν → Option String
  | element name .. => some name
  | instruction target _ => some target
  | document .. | text _ | comment _ => none

/-- The value of a text, a comment or a processing instruction. -/
def value? : Content ν → Option String
  | text value | comment value => some value
  | instruction _ data => some data
  | document .. | element .. => none

/-- The characters that a node adds to the text of the document. -/
def text? : Content ν → Option String
  | text value => some value
  | document .. | element .. | comment _ | instruction .. => none

/-- The attributes of a document or an element. -/
def attributes : Content ν → Attributes
  | document attributes _ | element _ attributes _ => attributes
  | text _ | comment _ | instruction .. => {}

/-- The children of a document or an element. -/
def children : Content ν → List ν
  | document _ children | element _ _ children => children
  | text _ | comment _ | instruction .. => []

/-- The same content with its children named in another way. -/
def map (f : ν → μ) : Content ν → Content μ
  | document attributes children => document attributes (children.map f)
  | element name attributes children => element name attributes (children.map f)
  | text value => text value
  | comment value => comment value
  | instruction target data => instruction target data

@[simp] theorem kind_map (f : ν → μ) (c : Content ν) : (c.map f).kind = c.kind := by
  cases c <;> rfl

@[simp] theorem name?_map (f : ν → μ) (c : Content ν) : (c.map f).name? = c.name? := by
  cases c <;> rfl

@[simp] theorem value?_map (f : ν → μ) (c : Content ν) : (c.map f).value? = c.value? := by
  cases c <;> rfl

@[simp] theorem attributes_map (f : ν → μ) (c : Content ν) :
    (c.map f).attributes = c.attributes := by
  cases c <;> rfl

@[simp] theorem children_map (f : ν → μ) (c : Content ν) :
    (c.map f).children = c.children.map f := by
  cases c <;> rfl

end Content

end TreeSelect
