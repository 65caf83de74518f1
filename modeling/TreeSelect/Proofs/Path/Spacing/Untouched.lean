/-
# TreeSelect.Proofs.Path.Spacing.Untouched — what respacing leaves alone

Respacing has business beside marks only. Between two characters of which neither is one, and at an
end of the text where none stands, there are the same blanks after all passes as before them: not
only as many, but the very same. So a name with blanks in it, or beside another name, stays as it
was written. This holds of every text (`normalize_only_beside_marks`).
-/
import TreeSelect.Path.Reader
import TreeSelect.Proofs.Path.Spacing.Loose
import Mathlib

namespace TreeSelect

open TreeSelect.Text

namespace Spacing

/-- The characters beside which respacing changes blanks. -/
def marks : List Char := ['#', '>', '[', ']', '=', '(', ')', '|']

/-- A gap between two characters that are no marks stays as it is; so does one at an end of the
text, where there is one such character or none. -/
theorem gapAt_normalize_of_not_marks {s : List Char} {k : Nat}
    (hbefore : ∀ c ∈ inkBefore (ink s) k, c ∉ marks) (hbehind : ∀ c ∈ (ink s)[k]?, c ∉ marks) :
    gapAt (normalize s) k = gapAt s k := by
  have hne {c : Char} (hc : c ∈ marks) : inkBefore (ink s) k ≠ some c ∧ (ink s)[k]? ≠ some c :=
    ⟨fun h => hbefore c h hc, fun h => hbehind c h hc⟩
  have hround : ∀ c ∈ ['(', ')', '|'], c ∈ marks := by simp [marks]
  rw [gapAt_normalize_of_ne (fun c hc => (hne (hround c hc)).1)
    (fun c hc => (hne (hround c hc)).2), gapAt_spaceMarks, if_neg, if_neg, swept, if_neg]
  · rintro (h | h)
    · exact (hne (by decide)).1 h
    · exact (hne (by decide)).1 h
  · apply not_opens_of_not_mark
    rintro (h | h)
    · exact (hne (by decide)).2 h
    · exact (hne (by decide)).2 h
  · rintro (h | h | h | h)
    · exact (hne (by decide)).1 h
    · exact (hne (by decide)).1 h
    · exact (hne (by decide)).2 h
    · exact (hne (by decide)).2 h

/-! ## Gaps in a text -/

/-- The text is made of a front that ends in an inked character, a gap, and a back that begins with
one. The front or the back is empty where the gap is at an end of the text. -/
structure IsGap (s front gap back : List Char) : Prop where
  eq : s = front ++ (gap ++ back)
  blanks : Blanks gap
  behind : ∀ c ∈ front.getLast?, isBlank c = false
  before : ∀ c ∈ back.head?, isBlank c = false

namespace IsGap

variable {s front gap back : List Char} (h : IsGap s front gap back)

include h

theorem ink_eq : ink s = ink front ++ ink back := by
  rw [h.eq, ink_append, ink_append, ink_of_blank h.blanks, List.nil_append]

/-- The gap is found by counting the inked characters in front of it. -/
theorem gapAt_eq : gapAt s (ink front).length = gap := by
  have hzero : gapAt (gap ++ back) 0 = gap := by
    have hback : gapAt back 0 = [] := by
      cases back with
      | nil => rfl
      | cons c back => exact gapAt_ink_zero back (h.before c rfl)
    rw [gapAt_append_blank_zero h.blanks, hback, List.append_nil]
  have hbehind := h.behind
  rw [h.eq]
  rcases List.eq_nil_or_concat front with rfl | ⟨front, c, rfl⟩
  · exact hzero
  · rw [List.concat_eq_append] at hbehind ⊢
    have hc : isBlank c = false := hbehind c (by simp)
    have hgap := (goesOn_append front (gap ++ back) hc).gap 0
    rw [ink_append, ink_cons_of_ink hc, ink_nil, List.length_append, List.length_singleton,
      List.append_assoc, List.singleton_append]
    exact hgap.trans hzero

theorem inkBefore_eq : inkBefore (ink s) (ink front).length = front.getLast? := by
  have hbehind := h.behind
  rw [h.ink_eq]
  rcases List.eq_nil_or_concat front with rfl | ⟨front, c, rfl⟩
  · rfl
  · rw [List.concat_eq_append] at hbehind ⊢
    have hc : isBlank c = false := hbehind c (by simp)
    rw [ink_append, ink_cons_of_ink hc, ink_nil, List.length_append, List.length_singleton,
      inkBefore_succ, List.getLast?_concat]
    simp

theorem getElem?_eq : (ink s)[(ink front).length]? = back.head? := by
  have hbefore := h.before
  rw [h.ink_eq, List.getElem?_append_right (Nat.le_refl _), Nat.sub_self]
  cases back with
  | nil => rfl
  | cons c back =>
    rw [ink_cons_of_ink (hbefore c rfl)]
    rfl

end IsGap

/-- Wherever the ink of a text is cut in two, there is a gap in the text. -/
theorem exists_isGap {s I J : List Char} (h : ink s = I ++ J) :
    ∃ front gap back, IsGap s front gap back ∧ ink front = I ∧ ink back = J := by
  obtain ⟨front, back, rfl, rfl, rfl⟩ := List.filter_eq_append_iff.mp h
  have hsplit : front.rdropWhile isBlank ++ front.rtakeWhile isBlank = front :=
    List.rdropWhile_append_rtakeWhile
  have hlast : Blanks (front.rtakeWhile isBlank) := fun c hc => List.mem_rtakeWhile_imp hc
  have hfirst : Blanks (back.takeWhile isBlank) := List.all_eq_true.mp List.all_takeWhile
  refine ⟨front.rdropWhile isBlank, front.rtakeWhile isBlank ++ back.takeWhile isBlank,
    back.dropWhile isBlank, ⟨?_, ?_, ?_, ?_⟩, ?_, ?_⟩
  · rw [List.append_assoc, List.takeWhile_append_dropWhile, ← List.append_assoc, hsplit]
  · exact List.forall_mem_append.mpr ⟨hlast, hfirst⟩
  · intro c hc
    obtain ⟨hne, rfl⟩ := List.mem_getLast?_eq_getLast hc
    exact Bool.eq_false_iff.mpr (List.rdropWhile_last_not isBlank front hne)
  · intro c hc
    have hhead := List.head?_dropWhile_not isBlank back
    rw [show (back.dropWhile isBlank).head? = some c from hc] at hhead
    exact hhead
  · show ink (front.rdropWhile isBlank) = ink front
    conv_rhs => rw [← hsplit, ink_append, ink_of_blank hlast, List.append_nil]
  · exact ink_dropWhile back

end Spacing

open Spacing

/-- Respacing a text keeps its ink; and if no mark stands on either side of a gap of the text, the
respaced text has the very same gap at the same place, that is, with the same inked characters in
front of it and behind it. -/
theorem normalize_only_beside_marks (text : String) :
    ink (Path.normalize text).toList = ink text.toList ∧
      ∀ front gap back, IsGap text.toList front gap back → (∀ c ∈ front.getLast?, c ∉ marks) →
        (∀ c ∈ back.head?, c ∉ marks) →
        ∃ front' back', IsGap (Path.normalize text).toList front' gap back' ∧
          ink front' = ink front ∧ ink back' = ink back := by
  have hlist : (Path.normalize text).toList = Spacing.normalize text.toList :=
    String.toList_ofList
  rw [hlist]
  refine ⟨ink_normalize _, fun front gap back hgap hbehind hbefore => ?_⟩
  have hink : ink (Spacing.normalize text.toList) = ink front ++ ink back := by
    rw [ink_normalize, hgap.ink_eq]
  obtain ⟨front', gap', back', hgap', hfront, hback⟩ := exists_isGap hink
  have hsame : gap' = gap := by
    rw [← hgap'.gapAt_eq, ← hgap.gapAt_eq, hfront]
    apply gapAt_normalize_of_not_marks
    · rwa [hgap.inkBefore_eq]
    · rwa [hgap.getElem?_eq]
  exact ⟨front', back', hsame ▸ hgap', hfront, hback⟩

/-- The blanks between two names stay, while those behind the mark of a child go. -/
theorem normalize_keeps_gap_of_names :
    let text := "a \t b >  c"
    let gap := [' ', '\t', ' ']
    IsGap text.toList ['a'] gap ['b', ' ', '>', ' ', ' ', 'c'] ∧
      Path.normalize text = "a \t b >c" ∧
      ∃ front' back', IsGap (Path.normalize text).toList front' gap back' ∧
        ink front' = ['a'] ∧ ink back' = ['b', '>', 'c'] := by
  intro text gap
  have hgap : IsGap text.toList ['a'] gap ['b', ' ', '>', ' ', ' ', 'c'] :=
    ⟨by decide, by decide, by simp; decide, by simp; decide⟩
  have hnormal : Path.normalize text = "a \t b >c" := by cbv
  exact ⟨hgap, hnormal,
    (normalize_only_beside_marks text).2 _ _ _ hgap (by simp [marks]) (by simp [marks])⟩

end TreeSelect
