/-
# TreeSelect.Text.Printable — printable characters

A character is printable when it shows as itself in a quoted text. A code point shows nothing, or
nothing on its own, in four cases:

* it is unassigned;
* its general category is that of a control, a format character, a character for private use, or a
  separator other than the space (`Cc`, `Cf`, `Co`, `Zl`, `Zp`, `Zs`);
* it is one of the Hangul fillers, letters that leave an empty place;
* it extends the character before it. The halfwidth sound marks are an exception: they take a place
  of their own and show in it.
-/
import TreeSelect.Text.Blank
import TreeSelect.Text.Extending
import TreeSelect.Text.Unassigned

namespace TreeSelect.Text

/-- The code points of controls, format characters, characters for private use, and separators other
than the space, as closed ranges in ascending order. -/
def unseenRanges : List (Nat × Nat) :=
  [(0x0, 0x1F), (0x7F, 0xA0), (0xAD, 0xAD), (0x600, 0x605), (0x61C, 0x61C), (0x6DD, 0x6DD),
   (0x70F, 0x70F), (0x890, 0x891), (0x8E2, 0x8E2), (0x1680, 0x1680), (0x180E, 0x180E),
   (0x2000, 0x200F), (0x2028, 0x202F), (0x205F, 0x2064), (0x2066, 0x206F), (0x3000, 0x3000),
   (0xE000, 0xF8FF), (0xFEFF, 0xFEFF), (0xFFF9, 0xFFFB), (0x110BD, 0x110BD), (0x110CD, 0x110CD),
   (0x13430, 0x1343F), (0x1BCA0, 0x1BCA3), (0x1D173, 0x1D17A), (0xE0001, 0xE0001),
   (0xE0020, 0xE007F), (0xF0000, 0xFFFFD), (0x100000, 0x10FFFD)]

/-- The letters that only fill a place in a Hangul syllable, as closed ranges of code points. -/
def fillerRanges : List (Nat × Nat) := [(0x115F, 0x1160), (0x3164, 0x3164), (0xFFA0, 0xFFA0)]

/-- The voiced and the semi-voiced sound mark of halfwidth katakana, as a closed range of code
points. -/
def soundMarkRanges : List (Nat × Nat) := [(0xFF9E, 0xFF9F)]

/-- Whether a code point extends the one before it and takes no place of its own. -/
def isCombining (code : Nat) : Bool :=
  inRanges extendingRanges code && !inRanges soundMarkRanges code

/-- Whether a character shows as itself. -/
def isPrintable (c : Char) : Bool :=
  let code := c.toNat
  !(inRanges unassignedRanges code || inRanges unseenRanges code || inRanges fillerRanges code
    || isCombining code)

end TreeSelect.Text
