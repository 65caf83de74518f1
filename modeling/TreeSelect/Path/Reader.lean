/-
# TreeSelect.Path.Reader — reading paths

A path is read word by word from its respaced text, one selector from each word:

    word      ::= '#' plain | '>' plain | plain | '>' bars | bars
    bars      ::= name '|' name ... '|' name
    plain     ::= name? bracket? index?
    bracket   ::= '[' name ']' | '[' name '="' name '"]'
    index     ::= '(' digits ')'

A `name` is a text that is not empty and holds no bar and no reserved character. A `#` is allowed in
the first word only, and an index needs a name before it. The bracket may stand anywhere in `plain`:
it is cut out first, from the first `[` to the last `]`, and what is left is read as a name with an
index.

Of several faults in one word the first in this order counts: the leading mark, the bars, the
bracket, a missing identifier, the index, the name. Of several faulty words the first counts.
-/
import TreeSelect.Path.Basic
import TreeSelect.Path.GrammarError
import TreeSelect.Path.Spacing

namespace TreeSelect

open TreeSelect.Text

/-! ## Names -/

/-- The characters that no name may hold. -/
def reserved : List Char := ['#', '>', '[', ']', '=', '"', '(', ')']

/-- Whether a text holds a reserved character. -/
def hasReserved (s : List Char) : Bool := s.any fun c => reserved.contains c

theorem hasReserved_eq_false_iff {s : List Char} :
    hasReserved s = false ↔ ∀ c ∈ s, c ∉ reserved := by
  simp [hasReserved]

/-! ## The parts of a word -/

/-- What the leading mark of a word says about its selector. -/
inductive Anchor where
  | unmarked
  | id
  | child
deriving DecidableEq, Repr

/-- Takes the leading mark off a word. -/
def readAnchor (first : Bool) : List Char → Except GrammarError (Anchor × List Char)
  | '#' :: rest =>
    if !first then .error .idNotAtStart
    else if rest.isEmpty then .error .idMissingName
    else .ok (.id, rest)
  | '>' :: rest => if rest.isEmpty then .error .directChildMissingName else .ok (.child, rest)
  | word => .ok (.unmarked, word)

/-- Reads two or more names with bars between them. -/
def readBars (s : List Char) : Except GrammarError NameTest :=
  let names := s.splitOn '|'
  if names.any List.isEmpty then .error .alternationMissingNames
  else if names.any hasReserved then .error .alternationReservedCharacter
  else .ok (.oneOf (names.map String.ofList))

/-- Reads a quoted value up to its closing quote, which has to come last. -/
def readQuoted (s : List Char) : Except GrammarError (List Char) :=
  match cutLast '"' s with
  | some (value, []) => if value.isEmpty then .error .attributeReservedCharacter else .ok value
  | _ => .error .attributeReservedCharacter

/-- Reads what stands inside square brackets. -/
def readAttribute (content : List Char) : Except GrammarError AttributeTest := do
  let (name, value) ←
    match cutPair '=' '"' content with
    | some (name, quoted) => (readQuoted quoted).map fun value => (name, some value)
    | none => .ok (content, none)
  if name.isEmpty || hasReserved name || value.any hasReserved then
    .error .attributeReservedCharacter
  else
    .ok ⟨String.ofList name, value.map String.ofList⟩

/-- Cuts the square bracket out of a word: from the first `[` to the last `]`. Brackets that do not
match stay where they are. -/
def cutBracket (s : List Char) : Option (List Char × List Char) :=
  (cutFirst '[' s).bind fun opened =>
    (cutLast ']' opened.2).map fun closed => (closed.1, opened.1 ++ closed.2)

/-- One more than the largest index: an index fits into 64 bits. -/
def indexLimit : Nat := UInt64.size

/-- Reads a name with the index after it, if there is one: what stands between the first `(` and
the last `)`. Empty or reversed brackets are no index and stay in the name. -/
def readIndex (s : List Char) : Except GrammarError (List Char × Option Nat) :=
  match (cutFirst '(' s).bind fun opened =>
    (cutLast ')' opened.2).map fun closed => (opened.1, closed.1, closed.2) with
  | none => .ok (s, none)
  | some (name, digits, after) =>
    if digits.isEmpty then .ok (s, none)
    else if name.isEmpty || !after.isEmpty || !digits.all Char.isDigit then .error .invalidIndex
    else
      let index := Nat.ofDigitChars 10 digits 0
      if index < indexLimit then .ok (name, some index) else .error .invalidIndex

/-! ## Words and paths -/

namespace Selector

/-- Reads a word without bars after its leading mark. -/
def readPlain (anchor : Anchor) (word : List Char) : Except GrammarError Selector := do
  -- The bracket goes first, wherever it stands; name and index are read from what is left.
  let (rest, attr) ←
    match cutBracket word with
    | some (content, rest) => (readAttribute content).map fun test => (rest, some test)
    | none => .ok (word, none)
  if anchor = .id && (rest.isEmpty || rest.head? = some '(') then .error .idMissingName
  let (name, index) ← readIndex rest
  if hasReserved name then .error .reservedCharacterInName
  let names := if name.isEmpty then .any else .single (String.ofList name)
  return { names, byId := anchor = .id, direct := anchor = .child, attr, index }

/-- Reads one word of respaced path text. The flag says whether it is the first word. -/
def read (first : Bool) (word : List Char) : Except GrammarError Selector := do
  let (anchor, rest) ← readAnchor first word
  if rest.contains '|' then
    -- Names beside bars take no brackets: these are faults in the names.
    if anchor = .id then .error .alternationWithId
    return { names := ← readBars rest, direct := anchor = .child }
  else
    readPlain anchor rest

end Selector

namespace Path

/-- Reads the words of respaced path text. -/
def ofWords : List (List Char) → Except GrammarError Path
  | [] => .ok {}
  | word :: rest => do
    let head ← Selector.read true word
    let tail ← rest.mapM (Selector.read false)
    return ⟨head :: tail⟩

/-- Reads path text. -/
def parse (text : String) : Except GrammarError Path := ofWords (Spacing.tokens text.toList)

/-- Path text in normal spacing. -/
def normalize (text : String) : String := String.ofList (Spacing.normalize text.toList)

/-- The words of path text in normal spacing. -/
def tokens (text : String) : List String := (Spacing.tokens text.toList).map String.ofList

end Path

end TreeSelect
