/-
# TreeSelect.Path.Basic — paths and their selectors

A path is a sequence of selectors, the left one nearer to the root. A selector says how to go one
step from the nodes found so far: whether to look an identifier up, to take children or to take
descendants, which names and which attribute to ask for, and which of the nodes found to keep.

Nothing here is checked: a selector made by hand may hold names that no path text can spell.
-/

namespace TreeSelect

/-! ## Tests on one node -/

/-- The name test of a selector. -/
inductive NameTest where
  /-- No name is asked for: the selector goes by attribute or position only. -/
  | any
  /-- The one name asked for. -/
  | single (name : String)
  /-- Any of the names will do. -/
  | oneOf (names : List String)
deriving DecidableEq, Repr, Inhabited

namespace NameTest

/-- The name, where the test asks for exactly one. -/
def single? : NameTest → Option String
  | single name => some name
  | any | oneOf _ => none

/-- Whether a node of this name, or without one, passes the test. Only `any` lets an unnamed node
pass. -/
def accepts : NameTest → Option String → Bool
  | any, _ => true
  | single wanted, some name => wanted == name
  | oneOf wanted, some name => wanted.contains name
  | single _, none | oneOf _, none => false

@[simp] theorem accepts_any (name : Option String) : any.accepts name = true := by
  cases name <;> rfl

@[simp] theorem accepts_single_iff {wanted : String} {name : Option String} :
    (single wanted).accepts name = true ↔ name = some wanted := by
  cases name with
  | none => simp [accepts]
  | some name => simpa [accepts] using eq_comm

@[simp] theorem accepts_oneOf_iff {wanted : List String} {name : Option String} :
    (oneOf wanted).accepts name = true ↔ ∃ w ∈ wanted, name = some w := by
  cases name <;> simp [accepts]

end NameTest

/-- The attribute test of a selector: the attribute has to be present and, if a value is given,
to have that value. -/
structure AttributeTest where
  name : String
  value : Option String := none
deriving DecidableEq, Repr, Inhabited

/-- Whether a node passes on which the tested attribute has the value `found`. -/
def AttributeTest.accepts (test : AttributeTest) (found : Option String) : Bool :=
  match test.value, found with
  | some wanted, some value => wanted == value
  | none, some _ => true
  | _, none => false

/-- A node passes if it has the attribute, with no other value than the one that is given. -/
theorem AttributeTest.accepts_iff {test : AttributeTest} {found : Option String} :
    test.accepts found = true ↔ ∃ value ∈ found, ∀ wanted ∈ test.value, value = wanted := by
  obtain ⟨name, wanted⟩ := test
  cases found with
  | none => cases wanted <;> simp [accepts]
  | some value =>
    cases wanted with
    | none => simp [accepts]
    | some wanted => simpa [accepts] using eq_comm

/-! ## Selectors -/

/-- One step of a path. -/
structure Selector where
  /-- The name test; for a step by identifier, the identifier. -/
  names : NameTest := .any
  /-- The step looks an identifier up; then it goes by nothing but the identifier. -/
  byId : Bool := false
  /-- The step goes to children only. -/
  direct : Bool := false
  /-- The attribute test, if there is one. -/
  attr : Option AttributeTest := none
  /-- The position, counted from zero, of the only node to keep. -/
  index : Option Nat := none
deriving DecidableEq, Repr, Inhabited

namespace Selector

/-- The step to descendants of one name. -/
def named (name : String) : Selector := { names := .single name }

/-- The same tests, applied to all descendants. -/
def unanchored (s : Selector) : Selector := { s with byId := false, direct := false }

end Selector

/-! ## Paths -/

/-- A sequence of selectors, from the root downwards. -/
structure Path where
  selectors : List Selector := []
deriving DecidableEq, Repr, Inhabited

namespace Path

/-- The number of selectors. -/
def length (p : Path) : Nat := p.selectors.length

/-- Whether the path has no selector. -/
def isEmpty (p : Path) : Bool := p.selectors.isEmpty

end Path

end TreeSelect
