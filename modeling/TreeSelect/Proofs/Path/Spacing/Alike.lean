/-
# TreeSelect.Proofs.Path.Spacing.Alike — texts that differ in their blanks only

Two texts are alike if they have the same ink and the same gaps between two inked characters are
open in both. How many blanks stand in an open gap, which ones they are, and what blanks stand at
the ends of the text is left free. No pass looks at more than that: it makes alike texts of alike
texts. So the words of a respaced text depend on the words of the text only (`Alike.tokens_eq`).
-/
import TreeSelect.Proofs.Path.Spacing.Spaced
import TreeSelect.Proofs.Path.Spacing.Words

namespace TreeSelect.Spacing

open TreeSelect.Text

/-! ## Gaps open in both texts -/

/-- From the gap at `n` on, but for the one at the end of the text, the same gaps are open. -/
def SameOpen (n : Nat) (I : List Char) (gap gap' : Nat → List Char) : Prop :=
  ∀ k, n ≤ k → k < I.length → (gap k = [] ↔ gap' k = [])

namespace SameOpen

variable {n : Nat} {I : List Char} {gap gap' : Nat → List Char}

theorem symm (h : SameOpen n I gap gap') : SameOpen n I gap' gap :=
  fun k hn hk => (h k hn hk).symm

theorem joined (h : SameOpen 1 I gap gap') {i k : Nat} (hk : k < I.length)
    (hjoin : Joined gap i k) : Joined gap' i k :=
  fun j hij hjk => (h j (by omega) (by omega)).mp (hjoin j hij hjk)

theorem reaches (h : SameOpen 1 I gap gap') {i m : Nat} (him : Reaches I gap i m) :
    Reaches I gap' i m := by
  have hm : m < I.length := (List.getElem?_eq_some_iff.mp him.closing).1
  refine ⟨him.opening, him.closing, him.lt, fun j hij hjm => ?_⟩
  exact (h j (by omega) (by omega)).mp (him.unbroken j hij hjm)

/-- Whether a gap is opened in front of a mark depends on which gaps are open. -/
theorem opens_eq (h : SameOpen 1 I gap gap') (m : Char) (k : Nat) :
    opens m I gap k = opens m I gap' k := by
  induction k with
  | zero => rfl
  | succ k ih =>
    by_cases hk : I[k + 1]? = some m
    · have hgap := h (k + 1) (by omega) (List.getElem?_eq_some_iff.mp hk).1
      have hempty : (gap (k + 1)).isEmpty = (gap' (k + 1)).isEmpty := by
        rw [Bool.eq_iff_iff, List.isEmpty_iff, List.isEmpty_iff, hgap]
      rw [opens, opens, ih, hempty]
    · rw [opens, opens, beq_eq_false_iff_ne.mpr hk, Bool.false_and, Bool.false_and, Bool.false_and,
        Bool.false_and]

theorem swept (h : SameOpen 1 I gap gap') : SameOpen 1 I (swept I gap) (swept I gap') := by
  intro k hn hk
  rw [swept_eq_nil_iff, swept_eq_nil_iff, h k hn hk]

theorem parts (h : SameOpen 1 I gap gap') {k : Nat} (hk : Parts I gap k) : Parts I gap' k := by
  obtain ⟨i, hik, hopen, hjoin⟩ := hk.opened
  refine ⟨hk.closing, hk.inside, ⟨i, hik, hopen, h.joined hk.inside hjoin⟩,
    fun l hkl hl hclose hlast => ?_⟩
  exact hk.last l hkl hl hclose (h.symm.joined hl hlast)

end SameOpen

/-- The same ink, and the same gaps between two inked characters open. -/
structure Alike (s t : List Char) : Prop where
  ink_eq : ink s = ink t
  gaps : SameOpen 1 (ink s) (gapAt s) (gapAt t)

namespace Alike

variable {s t : List Char}

theorem symm (h : Alike s t) : Alike t s := ⟨h.ink_eq.symm, h.ink_eq ▸ h.gaps.symm⟩

theorem words_eq (h : Alike s t) : words s = words t := by
  refine words_eq_of_gapAt h.ink_eq fun k c d hc hd => ?_
  rw [← h.ink_eq] at hd
  exact h.gaps k (pos_of_inkBefore hc) (List.getElem?_eq_some_iff.mp hd).1

/-- Blanks at the start of a text make no difference. -/
theorem of_blanks {blanks : List Char} (h : ∀ c ∈ blanks, isBlank c = true) (t : List Char) :
    Alike (blanks ++ t) t := by
  have hink : ink (blanks ++ t) = ink t := by rw [ink_append, ink_of_blank h, List.nil_append]
  refine ⟨hink, fun k hk _ => ?_⟩
  obtain ⟨k, rfl⟩ : ∃ j, k = j + 1 := ⟨k - 1, by omega⟩
  rw [gapAt_append_blank h]

/-! ## The passes around single marks -/

theorem spaceMarks (h : Alike s t) : Alike (spaceMarks s) (spaceMarks t) := by
  have hink : ink (Spacing.spaceMarks s) = ink (Spacing.spaceMarks t) := by
    rw [ink_spaceMarks, ink_spaceMarks, h.ink_eq]
  refine ⟨hink, fun k hn hk => ?_⟩
  rw [ink_spaceMarks] at hk
  have hswept := h.gaps.swept
  rw [gapAt_spaceMarks, gapAt_spaceMarks, ← h.ink_eq, hswept.opens_eq, hswept.opens_eq]
  split
  · exact Iff.rfl
  · split
    · exact Iff.rfl
    · exact hswept k hn hk

theorem closeAround {m : Char} (hm : isBlank m = false) (h : Alike s t) :
    Alike (closeAround m s) (closeAround m t) := by
  have hink (u : List Char) : ink (Spacing.closeAround m u) = ink u := by
    rw [Spacing.closeAround, ink_closeAfter, ink_closeBefore]
  refine ⟨by rw [hink, hink, h.ink_eq], fun k hn hk => ?_⟩
  rw [hink] at hk
  rw [gapAt_closeAround hm, gapAt_closeAround hm, ← h.ink_eq]
  split
  · exact Iff.rfl
  · exact h.gaps k hn hk

/-! ## Round brackets -/

theorem openAfterRound (h : Alike s t) : Alike (openAfterRound s) (openAfterRound t) := by
  refine ⟨by rw [ink_openAfterRound, ink_openAfterRound, h.ink_eq], fun k hn hk => ?_⟩
  rw [ink_openAfterRound] at hk
  have hparts : Parts (ink s) (gapAt s) k ↔ Parts (ink t) (gapAt t) k :=
    h.ink_eq ▸ ⟨h.gaps.parts, h.gaps.symm.parts⟩
  rcases gapAt_openAfterRound s k with ⟨hs, hgap⟩ | ⟨hs, hgap⟩
  · rcases gapAt_openAfterRound t k with ⟨-, hgap'⟩ | ⟨ht, -⟩
    · rw [hgap, hgap']
    · exact absurd (hparts.mp hs) ht
  · rcases gapAt_openAfterRound t k with ⟨ht, -⟩ | ⟨-, hgap'⟩
    · exact absurd (hparts.mpr ht) hs
    · rw [hgap, hgap']
      exact h.gaps k hn hk

/-- A text begins with a group if the other one does, and both groups hold equally many inked
characters. -/
theorem group? (h : Alike s t) {inner after : List Char}
    (hs : group? (s.dropWhile isBlank) = some (inner, after)) :
    ∃ inner' after', Spacing.group? (t.dropWhile isBlank) = some (inner', after') ∧
      inner'.length = inner.length := by
  have hreach := h.ink_eq ▸ h.gaps.reaches (goesOn_group hs).2
  cases ht : Spacing.group? (t.dropWhile isBlank) with
  | none => exact absurd hreach (not_reaches_of_group? ht _)
  | some group =>
    obtain ⟨inner', after'⟩ := group
    have hreach' := h.symm.ink_eq ▸ h.symm.gaps.reaches (goesOn_group ht).2
    have hle := le_of_group? ht hreach
    have hle' := le_of_group? hs hreach'
    exact ⟨inner', after', rfl, by omega⟩

end Alike

/-- The rests of two texts behind the same number of inked characters. -/
theorem GoesOn.sameOpen {I J J' : List Char} {gap gap' rest rest' : Nat → List Char} {n l : Nat}
    (h : GoesOn I gap n J rest) (h' : GoesOn I gap' n J' rest') (hl : l ≤ n)
    (hgaps : SameOpen l I gap gap') : J = J' ∧ SameOpen 0 J rest rest' := by
  refine ⟨List.ext_getElem? fun j => (h.ink j).symm.trans (h'.ink j), fun k _ hk => ?_⟩
  rw [← h.gap, ← h'.gap]
  refine hgaps (n + k) (by omega) ?_
  rw [h.length]
  omega

theorem closeRound_of_group? {s inner after : List Char}
    (h : group? (s.dropWhile isBlank) = some (inner, after)) :
    closeRound s = '(' :: inner ++ ')' :: closeRound after := by
  rw [closeRound]
  split
  · next h' =>
    rw [h] at h'
    obtain ⟨rfl, rfl⟩ : inner = _ ∧ after = _ := by simpa using h'
    rfl
  · next h' => cases h.symm.trans h'

theorem closeRound_of_nil {s : List Char} (h : s.dropWhile isBlank = []) : closeRound s = s := by
  have hgroup : group? (s.dropWhile isBlank) = none := by rw [h]; rfl
  have hs : s.takeWhile isBlank ++ s.dropWhile isBlank = s := List.takeWhile_append_dropWhile
  rw [h, List.append_nil] at hs
  rw [closeRound]
  split
  · next h' => cases hgroup.symm.trans h'
  · split
    · exact hs
    · next h' => cases h.symm.trans h'

theorem closeRound_of_cons {s rest : List Char} {c : Char}
    (h : group? (s.dropWhile isBlank) = none) (hs : s.dropWhile isBlank = c :: rest) :
    closeRound s = s.takeWhile isBlank ++ c :: closeRound rest := by
  rw [closeRound]
  split
  · next h' => cases h.symm.trans h'
  · split
    · next hs' => cases hs.symm.trans hs'
    · next hs' =>
      obtain ⟨rfl, rfl⟩ : c = _ ∧ rest = _ := by simpa using hs.symm.trans hs'
      rfl

/-- The closing of groups keeps open gaps the same; also the gap at the start, if that was the
same. -/
theorem SameOpen.closeRound {s t : List Char} {n : Nat} (hink : ink s = ink t) (hn : n ≤ 1)
    (h : SameOpen n (ink s) (gapAt s) (gapAt t)) :
    SameOpen n (ink s) (gapAt (closeRound s)) (gapAt (closeRound t)) := by
  have halike {s t : List Char} {n : Nat} (hink : ink s = ink t) (hn : n ≤ 1)
      (h : SameOpen n (ink s) (gapAt s) (gapAt t)) : Alike s t :=
    ⟨hink, fun k hk hlen => h k (by omega) hlen⟩
  fun_induction Spacing.closeRound s generalizing t n with
  | case1 s inner after hgroup ih =>
    obtain ⟨inner', after', hgroup', hlen⟩ := (halike hink hn h).group? hgroup
    obtain ⟨-, -, -, -, hinner, -⟩ := eq_of_group? hgroup
    obtain ⟨-, -, -, -, hinner', -⟩ := eq_of_group? hgroup'
    have hgoes := (goesOn_group hgroup).1
    have hgoes' := (goesOn_group hgroup').1
    obtain ⟨hclosed, hrest⟩ := goesOn_closeRound_group inner after hinner
    obtain ⟨hclosed', hrest'⟩ := goesOn_closeRound_group inner' after' hinner'
    rw [hlen] at hclosed' hrest' hgoes'
    rw [← hink] at hgoes'
    obtain ⟨hafter, hgaps⟩ := hgoes.sameOpen hgoes' (by omega) h
    rw [closeRound_of_group? hgroup']
    -- The gaps of the two groups are all closed; behind them the texts go on alike.
    intro k hk hlt
    by_cases hinside : k < inner.length + 2
    · rw [hclosed k hinside, hclosed' k hinside]
    · obtain ⟨j, rfl⟩ : ∃ j, k = inner.length + 2 + j := ⟨k - (inner.length + 2), by omega⟩
      rw [hgoes.length] at hlt
      rw [hrest, hrest']
      exact ih hafter (Nat.zero_le 1) hgaps j (Nat.zero_le j) (by omega)
  | case2 s blanks hgroup =>
    rename_i hnil
    intro k _ hlt
    rw [← ink_dropWhile, hnil] at hlt
    exact absurd hlt (Nat.not_lt_zero k)
  | case3 s blanks hgroup c rest hcons =>
    rename_i ih
    have hnone : Spacing.group? (t.dropWhile isBlank) = none := by
      cases ht : Spacing.group? (t.dropWhile isBlank) with
      | none => rfl
      | some group =>
        obtain ⟨_, _, hsome, -⟩ := (halike hink hn h).symm.group? ht
        cases hgroup.symm.trans hsome
    obtain ⟨hc, hblanks, hs⟩ := goesOn_cons hcons
    have hinks : ink s = c :: ink rest := by
      rw [← ink_dropWhile, hcons, ink_cons_of_ink hc]
    obtain ⟨d, rest', hcons'⟩ : ∃ d rest', t.dropWhile isBlank = d :: rest' := by
      apply List.exists_cons_of_ne_nil
      intro hnil
      rw [hink, ← ink_dropWhile, hnil] at hinks
      cases hinks
    obtain ⟨hd, hblanks', ht⟩ := goesOn_cons hcons'
    obtain ⟨hgoes, hzero⟩ := goesOn_blanks hblanks hc rest
    obtain ⟨hgoes', hzero'⟩ := goesOn_blanks hblanks' hd rest'
    obtain ⟨hmade, hmadeZero⟩ := goesOn_blanks hblanks hc (Spacing.closeRound rest)
    obtain ⟨hmade', hmadeZero'⟩ := goesOn_blanks hblanks' hd (Spacing.closeRound rest')
    rw [← hs] at hgoes hzero
    rw [← ht] at hgoes' hzero'
    rw [← hink] at hgoes'
    obtain ⟨hrest, hgaps⟩ := hgoes.sameOpen hgoes' hn h
    rw [closeRound_of_cons hnone hcons']
    intro k hk hlt
    cases k with
    | zero =>
      rw [hmadeZero, hmadeZero', ← hzero, ← hzero']
      exact h 0 hk hlt
    | succ k =>
      rw [hgoes.length] at hlt
      rw [show k + 1 = 1 + k by omega, hmade.gap k, hmade'.gap k]
      exact ih hrest (Nat.zero_le 1) hgaps k (Nat.zero_le k) (by omega)

namespace Alike

variable {s t : List Char}

theorem closeRound (h : Alike s t) : Alike (closeRound s) (closeRound t) := by
  refine ⟨by rw [ink_closeRound, ink_closeRound, h.ink_eq], ?_⟩
  rw [ink_closeRound]
  exact h.gaps.closeRound h.ink_eq (Nat.le_refl 1)

/-! ## All passes -/

theorem normalize (h : Alike s t) : Alike (normalize s) (normalize t) := by
  rw [normalize_eq_spaceMarks, normalize_eq_spaceMarks]
  exact h.spaceMarks.closeRound.openAfterRound.closeAround (by decide)

/-- Alike texts have the same words once they are respaced. -/
theorem tokens_eq (h : Alike s t) : tokens s = tokens t := h.normalize.words_eq

end Alike

end TreeSelect.Spacing
