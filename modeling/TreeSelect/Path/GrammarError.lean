/-
# TreeSelect.Path.GrammarError — faults in path text

Each way in which path text can be wrong has a cause of its own and a message for the person who
wrote the text.
-/

namespace TreeSelect

/-- Why a text is no path. -/
inductive GrammarError where
  /-- A `#` stands at the head of a selector that is not the first. -/
  | idNotAtStart
  /-- No identifier follows a `#`. -/
  | idMissingName
  /-- Nothing follows a `>`. -/
  | directChildMissingName
  /-- A `|` follows a `#`. -/
  | alternationWithId
  /-- A name beside a `|` is missing. -/
  | alternationMissingNames
  /-- A name beside a `|` holds a reserved character. -/
  | alternationReservedCharacter
  /-- What stands in square brackets is not an attribute test. -/
  | attributeReservedCharacter
  /-- What stands in round brackets is not a position after a name. -/
  | invalidIndex
  /-- A name holds a reserved character. -/
  | reservedCharacterInName
deriving DecidableEq, Repr, Inhabited

/-- The message for the writer of the path. -/
def GrammarError.message : GrammarError → String
  | idNotAtStart => "'#' selectors must be at the start of a provided path"
  | idMissingName => "'#' selectors require a following id"
  | directChildMissingName => "'>' selectors require a following node name"
  | alternationWithId =>
    "'#' selectors must not be used in combination with multiple node names"
  | alternationMissingNames => "Multiple node names must be provided when using or selectors"
  | alternationReservedCharacter =>
    "An or selector must not include any reserved characters '#>[]=\"()'"
  | attributeReservedCharacter =>
    "An attribute must not include any reserved characters '#>[]=\"()'"
  | invalidIndex =>
    "'(n)' selectors require an integer with a preceding node name, e.g. w:t(0)"
  | reservedCharacterInName =>
    "A node name must not include any reserved characters '#>[]=\"()'"

end TreeSelect
