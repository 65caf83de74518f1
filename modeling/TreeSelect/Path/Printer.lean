/-
# TreeSelect.Path.Printer — writing paths

The written form of a path is the plainest text that means it: no blanks but one space between two
selectors, the square bracket after the name, the index last and without leading zeros. It is
defined for every path, also for one that no text means.
-/
import TreeSelect.Path.Basic

namespace TreeSelect

namespace NameTest

/-- The names, with a bar between two of them. -/
def toChars : NameTest → List Char
  | any => []
  | single name => name.toList
  | oneOf names => ['|'].intercalate (names.map String.toList)

end NameTest

namespace AttributeTest

/-- The attribute in square brackets, and its value in quotes. -/
def toChars (test : AttributeTest) : List Char :=
  '[' :: test.name.toList ++
    match test.value with
    | some value => ['=', '"'] ++ value.toList ++ ['"', ']']
    | none => [']']

end AttributeTest

namespace Selector

/-- The mark at the head of a selector. A lookup by identifier hides a step to children. -/
def mark (s : Selector) : List Char :=
  if s.byId then ['#'] else if s.direct then ['>'] else []

/-- The index in round brackets. -/
def indexChars (index : Nat) : List Char := '(' :: Nat.toDigits 10 index ++ [')']

/-- The written form, character by character. -/
def toChars (s : Selector) : List Char :=
  s.mark ++ s.names.toChars ++ s.attr.elim [] AttributeTest.toChars
    ++ s.index.elim [] indexChars

/-- The written form of a selector. -/
def render (s : Selector) : String := String.ofList s.toChars

end Selector

namespace Path

/-- The written form, character by character. -/
def toChars (p : Path) : List Char := [' '].intercalate (p.selectors.map Selector.toChars)

/-- The written form of a path. -/
def render (p : Path) : String := String.ofList p.toChars

end Path

end TreeSelect
