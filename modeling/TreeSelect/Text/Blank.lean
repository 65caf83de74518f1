/-
# TreeSelect.Text.Blank — blank characters

A character is blank when it has the Unicode property `White_Space`. Every rule of the selector
language that speaks of blanks uses this one class: the ASCII controls tab to carriage return and
the space, the next-line control, and the separators of the rest of the repertoire. Zero-width
characters and the ASCII information separators are not in it.
-/

namespace TreeSelect.Text

/-- The characters with the property `White_Space`, as closed ranges of code points in ascending
order. -/
def blankRanges : List (Nat × Nat) :=
  [(0x0009, 0x000D), (0x0020, 0x0020), (0x0085, 0x0085), (0x00A0, 0x00A0), (0x1680, 0x1680),
   (0x2000, 0x200A), (0x2028, 0x2029), (0x202F, 0x202F), (0x205F, 0x205F), (0x3000, 0x3000)]

/-- Whether a code point lies in one of the closed ranges. -/
def inRanges (ranges : List (Nat × Nat)) (code : Nat) : Bool :=
  ranges.any fun range => range.1 ≤ code && code ≤ range.2

/-- Whether a character has the property `White_Space`. -/
def isBlank (c : Char) : Bool := inRanges blankRanges c.toNat

/-- Whether a character is not blank. -/
def isInk (c : Char) : Bool := !isBlank c

@[simp] theorem isInk_eq_not_isBlank (c : Char) : isInk c = !isBlank c := rfl

@[simp] theorem isBlank_space : isBlank ' ' = true := by decide

/-- A text cut into its unbroken words: the maximal runs without a blank, in order. -/
def words (s : List Char) : List (List Char) :=
  (s.splitOnP isBlank).filter fun word => !word.isEmpty

/-- No word is empty. -/
theorem ne_nil_of_mem_words {s word : List Char} (h : word ∈ words s) : word ≠ [] := by
  simpa using (List.mem_filter.1 h).2

end TreeSelect.Text
