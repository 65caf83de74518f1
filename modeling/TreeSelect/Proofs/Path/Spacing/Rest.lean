/-
# TreeSelect.Proofs.Path.Spacing.Rest — texts that no pass touches

Whether a pass finds something to do shows at two neighbouring characters: a blank beside a mark
that takes none, or a mark that ought to stand apart and does not. A text without such a pair is at
rest. Each pass leaves it as it is, and so does the whole respacing (`AtRest.normalize`).
-/
import TreeSelect.Path.Spacing.Ink
import Mathlib.Data.List.Chain

namespace TreeSelect.Spacing

open TreeSelect.Text

/-! ## Blanks beside a mark -/

theorem closeAfter_eq_self {m : Char} {s : List Char}
    (h : s.IsChain fun c d => c = m → isBlank d = false) : closeAfter m s = s := by
  suffices hgo : ∀ after : Bool, (after = true → ∀ c ∈ s.head?, isBlank c = false) →
      closeAfter.go m after s = s from hgo false (by simp)
  induction s with
  | nil => exact fun _ _ => rfl
  | cons c rest ih =>
    intro after hafter
    obtain ⟨hhead, hrest⟩ := List.isChain_cons.mp h
    have hc : ¬((after && isBlank c) = true) := by
      rw [Bool.and_eq_true]
      rintro ⟨ha, hb⟩
      exact Bool.false_ne_true ((hafter ha c rfl).symm.trans hb)
    rw [closeAfter.go, if_neg hc, ih hrest]
    intro hm d hd
    exact hhead d hd (beq_iff_eq.mp hm)

theorem closeBefore_eq_self {m : Char} {s : List Char}
    (h : s.IsChain fun c d => isBlank c = true → d ≠ m) : closeBefore m s = s := by
  induction s with
  | nil => rfl
  | cons c rest ih =>
    obtain ⟨hhead, hrest⟩ := List.isChain_cons.mp h
    simp only [closeBefore, ih hrest]
    refine if_neg ?_
    rw [Bool.and_eq_true, beq_iff_eq]
    rintro ⟨hc, hm⟩
    exact hhead m hm hc rfl

theorem closeAround_eq_self {m : Char} {s : List Char}
    (hbefore : s.IsChain fun c d => isBlank c = true → d ≠ m)
    (hafter : s.IsChain fun c d => c = m → isBlank d = false) : closeAround m s = s := by
  rw [closeAround, closeBefore_eq_self hbefore, closeAfter_eq_self hafter]

theorem openBefore_eq_self {m : Char} {s : List Char}
    (h : s.IsChain fun c d => isBlank c = false → d ≠ m) : openBefore m s = s := by
  fun_induction openBefore m s with
  | case1 c d rest hc ih =>
    simp only [isInk_eq_not_isBlank, Bool.and_eq_true, Bool.not_eq_true', beq_iff_eq] at hc
    exact absurd hc.2 ((List.isChain_cons_cons.mp h).1 hc.1)
  | case2 c d rest hc ih => rw [ih (List.isChain_cons_cons.mp h).2]
  | case3 => rfl

/-! ## Round brackets -/

/-- A group puts its text together again, but for the blanks just inside its brackets. -/
theorem eq_of_group? {s inner after : List Char} (h : group? s = some (inner, after)) :
    ∃ before behind, (∀ c ∈ before, isBlank c = true) ∧ (∀ c ∈ behind, isBlank c = true) ∧
      (∀ c ∈ inner, isBlank c = false) ∧
      s = '(' :: (before ++ (inner ++ (behind ++ ')' :: after))) := by
  unfold group? at h
  split at h
  · next s =>
    dsimp only at h
    have hsplit : s = s.takeWhile isBlank ++ ((s.dropWhile isBlank).takeWhile isInk
        ++ (s.dropWhile isBlank).dropWhile isInk) := by
      rw [List.takeWhile_append_dropWhile, List.takeWhile_append_dropWhile]
    have hblank (t : List Char) : ∀ c ∈ t.takeWhile isBlank, isBlank c = true :=
      List.all_eq_true.mp List.all_takeWhile
    have hrun : ∀ c ∈ (s.dropWhile isBlank).takeWhile isInk, isBlank c = false := by
      simpa using List.all_eq_true.mp (@List.all_takeWhile _ isInk (s.dropWhile isBlank))
    split at h
    · next heq =>
      obtain ⟨rfl, rfl⟩ : _ = inner ∧ _ = after := by simpa using h
      refine ⟨_, _, hblank s, hblank ((s.dropWhile isBlank).dropWhile isInk), hrun, ?_⟩
      rw [← heq, List.takeWhile_append_dropWhile, ← hsplit]
    · obtain ⟨⟨a, b⟩, hcut, ⟨⟩⟩ := Option.map_eq_some_iff.mp h
      have hab := (cutLast_eq_some_iff.mp hcut).1
      refine ⟨_, [], hblank s, by simp, fun c hc => hrun c (by simp [hab, hc]), ?_⟩
      rw [hab] at hsplit
      simpa using hsplit
  · cases h

/-- A pair of characters that the gluing of round brackets leaves as it is. -/
def RoundBeside (c d : Char) : Prop :=
  (isBlank c = true → d ≠ '(' ∧ d ≠ ')') ∧ (c = '(' → isBlank d = false)

/-- In such a text blanks do not stand before a round bracket. -/
theorem eq_nil_of_blanks_round {blanks t : List Char} {m : Char}
    (hm : m = '(' ∨ m = ')') (hblanks : ∀ c ∈ blanks, isBlank c = true)
    (h : (blanks ++ m :: t).IsChain RoundBeside) : blanks = [] := by
  rcases List.eq_nil_or_concat blanks with rfl | ⟨front, c, rfl⟩
  · rfl
  · rw [List.concat_eq_append, List.append_assoc, List.singleton_append,
      List.isChain_append_cons_cons] at h
    have hc := h.2.1.1 (hblanks c (by simp))
    rcases hm with rfl | rfl
    · exact absurd rfl hc.1
    · exact absurd rfl hc.2

theorem closeRound_eq_self {s : List Char} (h : s.IsChain RoundBeside) : closeRound s = s := by
  have hsplit (t : List Char) : t.takeWhile isBlank ++ t.dropWhile isBlank = t :=
    List.takeWhile_append_dropWhile
  fun_induction closeRound s with
  | case1 s inner after hgroup ih =>
    obtain ⟨before, behind, hbefore, hbehind, -, heq⟩ := eq_of_group? hgroup
    have hs := hsplit s
    rw [heq] at hs
    rw [← hs] at h
    -- The blanks in front of the group and inside of it are the only ones that could go.
    have hlead : s.takeWhile isBlank = [] :=
      eq_nil_of_blanks_round (.inl rfl) (List.all_eq_true.mp List.all_takeWhile) h
    rw [hlead, List.nil_append] at hs h
    obtain rfl : before = [] := by
      cases before with
      | nil => rfl
      | cons c before =>
        have hc := (List.isChain_cons_cons.mp h).1.2 rfl
        rw [hbefore c List.mem_cons_self] at hc
        cases hc
    rw [List.nil_append] at h hs
    have hinner := (List.isChain_append.mp (List.isChain_cons.mp h).2).2.1
    obtain rfl : behind = [] := eq_nil_of_blanks_round (.inr rfl) hbehind hinner
    rw [List.nil_append] at hinner hs
    rw [ih (List.isChain_cons.mp hinner).2, ← hs]
    rfl
  | case2 s blanks hgroup hnil =>
    have hs := hsplit s
    rwa [hnil, List.append_nil] at hs
  | case3 s blanks hgroup c rest hcons ih =>
    have hs := hsplit s
    rw [hcons] at hs
    rw [← hs] at h
    rw [ih (List.isChain_cons.mp (List.isChain_append.mp h).2.1).2, hs]

/-- The place that a round bracket is parted at lies in the run at the start of the text. -/
theorem not_blank_of_glued? {s before after : List Char} {next : Char}
    (h : glued? s = some (before, next, after)) :
    (∀ c ∈ before, isBlank c = false) ∧ isBlank next = false := by
  induction s generalizing before with
  | nil => cases h
  | cons c rest ih =>
    unfold glued? at h
    split at h
    · cases h
    · next hc =>
      split at h
      · next hrest =>
        obtain ⟨rfl, rfl, rfl⟩ : c :: _ = before ∧ _ = next ∧ _ = after := by simpa using h
        obtain ⟨hbefore, hnext⟩ := ih hrest
        refine ⟨fun d hd => ?_, hnext⟩
        rcases List.mem_cons.mp hd with rfl | hd
        · exact Bool.eq_false_iff.mpr hc
        · exact hbefore d hd
      · split at h
        · split at h
          · next hc' =>
            obtain ⟨rfl, rfl, rfl⟩ : [] = before ∧ _ = next ∧ _ = after := by simpa using h
            simp only [Bool.and_eq_true, isInk_eq_not_isBlank, Bool.not_eq_true'] at hc'
            exact ⟨by simp, hc'.2⟩
          · cases h
        · cases h

/-- Where a closing round bracket stands only in front of blanks, there is no place to part at. -/
theorem glued?_eq_none {s : List Char} (h : s.IsChain fun c d => c = ')' → isBlank d = true) :
    glued? s = none := by
  cases hplace : glued? s with
  | none => rfl
  | some place =>
    obtain ⟨before, next, after⟩ := place
    have hnext := (not_blank_of_glued? hplace).2
    rw [eq_of_glued? hplace, List.isChain_append_cons_cons] at h
    rw [h.2.1 rfl] at hnext
    cases hnext

theorem openAfterRound_eq_self {s : List Char}
    (h : s.IsChain fun c d => c = ')' → isBlank d = true) : openAfterRound s = s := by
  fun_induction openAfterRound s with
  | case1 => rfl
  | case2 c rest before next after hglued ih =>
    split at hglued
    · rw [glued?_eq_none (List.isChain_cons.mp h).2] at hglued
      cases hglued
    · cases hglued
  | case3 c rest _ ih => rw [ih (List.isChain_cons.mp h).2]

/-! ## All passes -/

/-- A pair of characters at which no pass finds anything to do. -/
def Beside (c d : Char) : Prop :=
  (isBlank c = true → d ∉ [']', '=', '(', ')', '|']) ∧
  (isBlank d = true → c ∉ ['#', '>', '[', '=', '(', '|']) ∧
  (isBlank c = false → d ∉ ['#', '>']) ∧
  (c = ')' → isBlank d = true)

/-- A text at rest: no two neighbours in it give a pass anything to do. -/
def AtRest (s : List Char) : Prop := s.IsChain Beside

/-- A text at rest is in normal spacing. -/
theorem AtRest.normalize {s : List Char} (h : AtRest s) : normalize s = s := by
  have after {m : Char} (hm : m ∈ ['#', '>', '[', '=', '(', '|']) :
      s.IsChain fun c d => c = m → isBlank d = false :=
    h.imp fun c d hcd hc => Bool.eq_false_iff.mpr fun hd => hcd.2.1 hd (hc ▸ hm)
  have before {m : Char} (hm : m ∈ [']', '=', '(', ')', '|']) :
      s.IsChain fun c d => isBlank c = true → d ≠ m :=
    h.imp fun c d hcd hc hd => hcd.1 hc (hd ▸ hm)
  have apart {m : Char} (hm : m ∈ ['#', '>']) : s.IsChain fun c d => isBlank c = false → d ≠ m :=
    h.imp fun c d hcd hc hd => hcd.2.2.1 hc (hd ▸ hm)
  have round : s.IsChain RoundBeside :=
    h.imp fun c d hcd => ⟨fun hc => ⟨fun hd => hcd.1 hc (by simp [hd]),
      fun hd => hcd.1 hc (by simp [hd])⟩,
      fun hc => Bool.eq_false_iff.mpr fun hd => hcd.2.1 hd (by simp [hc])⟩
  have parted : s.IsChain fun c d => c = ')' → isBlank d = true := h.imp fun c d hcd => hcd.2.2.2
  rw [Spacing.normalize, closeAfter_eq_self (after (by decide)),
    closeAfter_eq_self (after (by decide)), openBefore_eq_self (apart (by decide)),
    openBefore_eq_self (apart (by decide)), closeBefore_eq_self (before (by decide)),
    closeAfter_eq_self (after (by decide)),
    closeAround_eq_self (before (by decide)) (after (by decide)), closeRound_eq_self round,
    openAfterRound_eq_self parted, closeAround_eq_self (before (by decide)) (after (by decide))]

/-! ## Words beside blanks -/

/-- A word that is at rest and stays so between any blanks. -/
structure Standalone (w : List Char) : Prop where
  not_blank : ∀ c ∈ w, isBlank c = false
  atRest : AtRest w
  head : ∀ c ∈ w.head?, c ∉ [']', '=', '(', ')', '|']
  last : ∀ c ∈ w.getLast?, c ∉ ['#', '>', '[', '=', '(', '|']

/-- A word is at rest when its leading marks are at its head and a closing round bracket is at its
end. -/
theorem atRest_of_not_blank {w : List Char} (hblank : ∀ c ∈ w, isBlank c = false)
    (hmark : ∀ c ∈ w.tail, c ∉ ['#', '>']) (hround : ')' ∉ w.dropLast) : AtRest w := by
  rw [AtRest, List.isChain_iff_forall_rel_of_append_cons_cons]
  intro c d front back hw
  have hc : isBlank c = false := hblank c (by simp [hw])
  have hd : isBlank d = false := hblank d (by simp [hw])
  have hdmark : d ∉ ['#', '>'] := hmark d (by cases front <;> simp [hw])
  refine ⟨fun h => ?_, fun h => ?_, fun _ => hdmark, ?_⟩
  · rw [hc] at h
    cases h
  · rw [hd] at h
    cases h
  · rintro rfl
    rw [hw, List.dropLast_append_cons, List.dropLast_cons_cons] at hround
    simp at hround

/-- A word in front of a blank leaves the text behind the blank at rest. -/
theorem Standalone.atRest_append {w t : List Char} {b : Char} (hw : Standalone w)
    (hb : isBlank b = true) (ht : AtRest t) (hhead : ∀ c ∈ t.head?, c ∉ [']', '=', '(', ')', '|']) :
    AtRest (w ++ b :: t) := by
  have hmarks : ∀ c ∈ ['#', '>', '[', '=', '(', '|'], isBlank c = false := by
    simp only [List.forall_mem_cons, List.not_mem_nil, false_implies, implies_true]
    decide
  refine List.isChain_append.mpr ⟨hw.atRest, List.isChain_cons.mpr ⟨fun d hd => ?_, ht⟩, ?_⟩
  · refine ⟨fun _ => hhead d hd, fun _ hm => ?_, fun h => ?_, ?_⟩
    · rw [hmarks b hm] at hb
      cases hb
    · rw [hb] at h
      cases h
    · rintro rfl
      exact absurd hb (by decide)
  · rintro c hc d hd
    obtain rfl : b = d := by simpa using hd
    refine ⟨fun h => ?_, fun _ => hw.last c hc, fun _ hm => ?_, fun _ => hb⟩
    · rw [hw.not_blank c (List.mem_of_getLast? hc)] at h
      cases h
    · rw [hmarks b (List.mem_append_left ['[', '=', '(', '|'] hm)] at hb
      cases hb

end TreeSelect.Spacing
