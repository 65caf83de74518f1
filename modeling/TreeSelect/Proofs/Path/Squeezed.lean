/-
# TreeSelect.Proofs.Path.Squeezed — path text without needless blanks

Blanks at the ends of a path text can be taken off, and each run of blanks inside can be made one
space. What is left is like the text it was made of: the words of the respaced text are the same,
and so is what reading gives, be it a path or a fault. This holds of every text, whether it is a
path or not.
-/
import TreeSelect.Path.Reader
import TreeSelect.Proofs.Path.Spacing.Alike
import Mathlib.Data.List.DropRight

namespace TreeSelect

open TreeSelect.Text TreeSelect.Spacing

namespace Text

/-- A text without the blanks at its two ends. -/
def trim (s : List Char) : List Char := (s.dropWhile isBlank).rdropWhile isBlank

/-- A text with one space in place of each maximal run of blanks. -/
def squeeze : List Char → List Char
  | [] => []
  | c :: rest =>
    if isBlank c then ' ' :: squeeze (rest.dropWhile isBlank) else c :: squeeze rest
termination_by s => s.length
decreasing_by
  · exact Nat.lt_succ_of_le (List.dropWhile_suffix isBlank).length_le
  · exact Nat.lt_succ_self _

end Text

/-- The path text trimmed and squeezed. -/
def Path.squeezed (text : String) : String := String.ofList (squeeze (trim text.toList))

namespace Spacing

/-! ## Squeezing -/

theorem ink_squeeze (s : List Char) : ink (squeeze s) = ink s := by
  fun_induction squeeze s with
  | case1 => rfl
  | case2 c rest hc ih => rw [ink_blank _ isBlank_space, ih, ink_dropWhile, ink_blank rest hc]
  | case3 c rest hc ih => rw [ink_cons, ink_cons, ih]

/-- A gap is open after squeezing exactly if it was open before. -/
theorem gapAt_squeeze_eq_nil_iff (s : List Char) (k : Nat) :
    gapAt (squeeze s) k = [] ↔ gapAt s k = [] := by
  fun_induction squeeze s generalizing k with
  | case1 => exact Iff.rfl
  | case2 c rest hc ih =>
    cases k with
    | zero =>
      rw [gapAt_blank_zero _ isBlank_space, gapAt_blank_zero _ hc]
      exact iff_of_false (List.cons_ne_nil _ _) (List.cons_ne_nil _ _)
    | succ k =>
      rw [gapAt_blank_succ _ k isBlank_space, gapAt_blank_succ _ k hc, ih, gapAt_dropWhile_succ]
  | case3 c rest hc ih =>
    have hink : isBlank c = false := Bool.eq_false_iff.mpr hc
    cases k with
    | zero => rw [gapAt_ink_zero _ hink, gapAt_ink_zero _ hink]
    | succ k => rw [gapAt_ink_succ _ k hink, gapAt_ink_succ _ k hink, ih]

theorem alike_squeeze (s : List Char) : Alike (squeeze s) s :=
  ⟨ink_squeeze s, fun k _ _ => gapAt_squeeze_eq_nil_iff s k⟩

/-! ## Trimming -/

/-- Blanks at the end of a text make no difference. -/
theorem alike_rdropWhile (s : List Char) : Alike (s.rdropWhile isBlank) s := by
  have hs : s.rdropWhile isBlank ++ s.rtakeWhile isBlank = s := List.rdropWhile_append_rtakeWhile
  have hblank : ink (s.rtakeWhile isBlank) = [] :=
    ink_of_blank fun c hc => List.mem_rtakeWhile_imp hc
  have hink : ink (s.rdropWhile isBlank) = ink s := by
    conv_rhs => rw [← hs, ink_append, hblank, List.append_nil]
  refine ⟨hink, fun k _ hk => ?_⟩
  conv_rhs => rw [← hs, gapAt_append_left _ hk]

/-- A text trimmed and squeezed has the words of the text once both are respaced. -/
theorem tokens_squeeze_trim (s : List Char) : tokens (squeeze (trim s)) = tokens s := by
  calc tokens (squeeze (trim s))
      = tokens (trim s) := (alike_squeeze _).tokens_eq
    _ = tokens (s.dropWhile isBlank) := (alike_rdropWhile _).tokens_eq
    _ = tokens (s.takeWhile isBlank ++ s.dropWhile isBlank) :=
      (Alike.of_blanks (List.all_eq_true.mp List.all_takeWhile) _).symm.tokens_eq
    _ = tokens s := by rw [List.takeWhile_append_dropWhile]

end Spacing

/-- Taking the blanks off the ends of a text and making one space of each run of blanks changes
neither its words nor what it is read as: it is the same path or the same fault. -/
theorem parse_squeezed (text : String) :
    Path.tokens text = Path.tokens (Path.squeezed text) ∧
      Path.parse text = Path.parse (Path.squeezed text) := by
  have htokens : Spacing.tokens (Path.squeezed text).toList = Spacing.tokens text.toList := by
    rw [Path.squeezed, String.toList_ofList, tokens_squeeze_trim]
  constructor
  · rw [Path.tokens, Path.tokens, htokens]
  · rw [Path.parse, Path.parse, htokens]

/-- All blanks count, and the marks of a faulty text stay where they are. -/
example : Path.squeezed "\u2003a \t\n( ) \u0085 #" = "a ( ) #" := by cbv

end TreeSelect
