/-
# TreeSelect.Proofs.Path.Spacing.Words — the words of a text by its gaps

The words of a text are its ink, cut where a gap between two inked characters is open. So respacing
changes the words of a text only by what it makes of these gaps, and how many blanks stand in an
open gap, or at the two ends of the text, is of no account (`words_eq_of_gapAt`).
-/
import TreeSelect.Proofs.Path.Spacing.Gaps
import TreeSelect.Proofs.Text.Words

namespace TreeSelect.Spacing

open TreeSelect.Text

/-- The words of a text by its ink and its gaps: a gap that is open parts two words. -/
def cutInk : List Char → (Nat → List Char) → List (List Char)
  | [], _ => []
  | [c], _ => [[c]]
  | c :: d :: I, gap =>
    if gap 1 = [] then (cutInk (d :: I) fun k => gap (k + 1)).modifyHead (c :: ·)
    else [c] :: cutInk (d :: I) fun k => gap (k + 1)

theorem cutInk_cons_of_ne_nil {c : Char} {I : List Char} {gap : Nat → List Char}
    (h : gap 1 ≠ []) : cutInk (c :: I) gap = [c] :: cutInk I fun k => gap (k + 1) := by
  cases I with
  | nil => rfl
  | cons d I => simp only [cutInk, if_neg h]

/-- For the words it only matters which gaps between two inked characters are open. -/
theorem cutInk_congr {I : List Char} {gap gap' : Nat → List Char}
    (h : ∀ k, 0 < k → k < I.length → (gap k = [] ↔ gap' k = [])) :
    cutInk I gap = cutInk I gap' := by
  fun_induction cutInk I gap generalizing gap' with
  | case1 => rfl
  | case2 => rfl
  | case3 c d I gap hgap ih =>
    have hgap' : gap' 1 = [] := (h 1 Nat.one_pos (by simp)).mp hgap
    rw [cutInk, if_pos hgap']
    exact congrArg _ (ih fun k _ hlen => h (k + 1) (Nat.succ_pos k) (Nat.succ_lt_succ hlen))
  | case4 c d I gap hgap ih =>
    have hgap' : gap' 1 ≠ [] := fun hnil => hgap ((h 1 Nat.one_pos (by simp)).mpr hnil)
    rw [cutInk, if_neg hgap']
    exact congrArg _ (ih fun k _ hlen => h (k + 1) (Nat.succ_pos k) (Nat.succ_lt_succ hlen))

theorem words_eq_cutInk (s : List Char) : words s = cutInk (ink s) (gapAt s) := by
  induction s with
  | nil => rfl
  | cons c s ih =>
    cases hc : isBlank c with
    | true =>
      rw [words_cons_blank hc, ih, ink_blank s hc]
      refine cutInk_congr fun k hk _ => ?_
      obtain ⟨k, rfl⟩ : ∃ j, k = j + 1 := ⟨k - 1, by omega⟩
      rw [gapAt_blank_succ s k hc]
    | false =>
      have hgaps : (fun k => gapAt (c :: s) (k + 1)) = gapAt s :=
        funext fun k => gapAt_ink_succ s k hc
      rw [ink_cons_of_ink hc]
      cases s with
      | nil => exact words_of_not_blank (List.cons_ne_nil _ _) (by simpa using hc)
      | cons d s =>
        cases hd : isBlank d with
        | true =>
          rw [words_ink_blank hc hd, cutInk_cons_of_ne_nil, hgaps, ih]
          rw [gapAt_ink_succ _ 0 hc, gapAt_blank_zero _ hd]
          exact List.cons_ne_nil _ _
        | false =>
          rw [words_ink_ink hc hd, ih, ink_cons_of_ink hd, cutInk, hgaps, if_pos]
          rw [gapAt_ink_succ _ 0 hc, gapAt_ink_zero _ hd]

/-- Cutting the ink loses nothing of it. -/
theorem flatten_cutInk (I : List Char) (gap : Nat → List Char) : (cutInk I gap).flatten = I := by
  fun_induction cutInk I gap with
  | case1 => rfl
  | case2 => rfl
  | case3 c d I gap _ ih =>
    cases hcut : cutInk (d :: I) fun k => gap (k + 1) with
    | nil =>
      rw [hcut] at ih
      cases ih
    | cons first others =>
      rw [hcut] at ih
      exact congrArg (c :: ·) ih
  | case4 c d I gap _ ih => exact congrArg (c :: ·) ih

/-- The ink of a text is what its words hold. -/
theorem ink_eq_flatten_words (s : List Char) : ink s = (words s).flatten := by
  rw [words_eq_cutInk, flatten_cutInk]

/-- Texts with the same ink have the same words if the same gaps between two inked characters are
open. -/
theorem words_eq_of_gapAt {s t : List Char} (hink : ink s = ink t)
    (h : ∀ k c d, inkBefore (ink t) k = some c → (ink t)[k]? = some d →
      (gapAt s k = [] ↔ gapAt t k = [])) : words s = words t := by
  rw [words_eq_cutInk, words_eq_cutInk, hink]
  refine cutInk_congr fun k hk hlen => ?_
  obtain ⟨k, rfl⟩ : ∃ j, k = j + 1 := ⟨k - 1, by omega⟩
  exact h (k + 1) _ _ (List.getElem?_eq_getElem (by omega)) (List.getElem?_eq_getElem hlen)

end TreeSelect.Spacing
