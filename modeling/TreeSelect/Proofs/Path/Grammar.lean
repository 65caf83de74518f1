/-
# TreeSelect.Proofs.Path.Grammar — the grammar of words

A word spells a selector in one of two ways: as names with bars between them, or as one name with
at most one square bracket and at most one index, where the bracket may stand anywhere. `Spells`
says so without regard to how a word is read, and `SpellsAll` says it of all words of a path. That
reading inverts these relations is shown where words and texts are read.
-/
import TreeSelect.Path.Reader
import TreeSelect.Proofs.Text.Words
import Mathlib.Algebra.Group.Nat.Defs

namespace TreeSelect

open TreeSelect.Text

/-! ## The parts of a word -/

/-- A character that may stand in a name: no blank, no bar and no reserved character. -/
def NameChar (c : Char) : Prop := isBlank c = false ∧ c ≠ '|' ∧ c ∉ reserved

/-- A name is not empty, and each character of it may stand in a name. -/
def IsName (s : List Char) : Prop := s ≠ [] ∧ ∀ c ∈ s, NameChar c

/-- The mark of an anchor. -/
def Anchor.mark : Anchor → List Char
  | .unmarked => []
  | .id => ['#']
  | .child => ['>']

/-- What stands inside a square bracket, and the attribute test it stands for. -/
inductive Attribute : List Char → AttributeTest → Prop
  | present {name : List Char} : IsName name → Attribute name { name := String.ofList name }
  | valued {name value : List Char} : IsName name → IsName value →
      Attribute (name ++ '=' :: '"' :: (value ++ ['"']))
        { name := String.ofList name, value := some (String.ofList value) }

/-- The square bracket of a plain word, if there is one. -/
inductive Bracket : List Char → Option AttributeTest → Prop
  | absent : Bracket [] none
  | enclosed {content : List Char} {test : AttributeTest} : Attribute content test →
      Bracket ('[' :: (content ++ [']'])) (some test)

/-- What is left of a plain word without its mark and bracket: nothing, a name, or a name with an
index. -/
inductive Core : List Char → NameTest → Option Nat → Prop
  | empty : Core [] .any none
  | name {name : List Char} : IsName name → Core name (.single (String.ofList name)) none
  | indexed {name digits : List Char} : IsName name → digits ≠ [] →
      (∀ d ∈ digits, d.isDigit = true) → Nat.ofDigitChars 10 digits 0 < 2 ^ 64 →
      Core (name ++ '(' :: (digits ++ [')'])) (.single (String.ofList name))
        (some (Nat.ofDigitChars 10 digits 0))

/-- The word spells the selector. Only the first word of a path may be marked as an identifier. -/
inductive Spells (first : Bool) : List Char → Selector → Prop
  | bars {anchor : Anchor} {names : List (List Char)} : anchor ≠ .id → 2 ≤ names.length →
      (∀ name ∈ names, IsName name) →
      Spells first (anchor.mark ++ ['|'].intercalate names)
        { names := .oneOf (names.map String.ofList), direct := anchor = .child }
  | plain {anchor : Anchor} {before bracket after : List Char} {names : NameTest}
      {attr : Option AttributeTest} {index : Option Nat} : (anchor = .id → first = true) →
      Bracket bracket attr → Core (before ++ after) names index →
      (before ++ after = [] → bracket ≠ [] ∧ anchor ≠ .id) →
      Spells first (anchor.mark ++ (before ++ (bracket ++ after)))
        { names, byId := anchor = .id, direct := anchor = .child, attr, index }

/-- The words spell the selectors one by one. -/
inductive SpellsAll : Bool → List (List Char) → List Selector → Prop
  | nil {first : Bool} : SpellsAll first [] []
  | cons {first : Bool} {word : List Char} {s : Selector} {words : List (List Char)}
      {selectors : List Selector} : Spells first word s → SpellsAll false words selectors →
      SpellsAll first (word :: words) (s :: selectors)

end TreeSelect
