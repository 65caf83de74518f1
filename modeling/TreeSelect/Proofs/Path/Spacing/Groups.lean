/-
# TreeSelect.Proofs.Path.Spacing.Groups — the gaps beside a group in round brackets

A group runs from an opening bracket to the closing one that it reaches (`Reaches`), and the closing
of groups closes the gaps beside them (`Closes`) and no others. This is exact where no blanks stand
in an empty pair of brackets: such a pair can be used up by a bracket further left, and then the
text behind it is read in another way. After the pass there is no such pair.
-/
import TreeSelect.Proofs.Path.Spacing.Gaps
import TreeSelect.Proofs.Path.Spacing.Rest

namespace TreeSelect.Spacing

open TreeSelect.Text

/-! ## Groups -/

/-- The opening bracket at `i` reaches the closing bracket at `m`: what stands between them is
unbroken but for blanks just inside the two brackets. -/
structure Reaches (I : List Char) (gap : Nat → List Char) (i m : Nat) : Prop where
  opening : I[i]? = some '('
  closing : I[m]? = some ')'
  lt : i < m
  unbroken : ∀ j, i + 1 < j → j < m → gap j = []

/-- A gap lies beside a group: in front of its opening bracket or just inside one of its two. -/
def Closes (I : List Char) (gap : Nat → List Char) (k : Nat) : Prop :=
  ∃ i m, Reaches I gap i m ∧ (k = i ∨ k = i + 1 ∨ k = m)

instance (I : List Char) (gap : Nat → List Char) (i m : Nat) : Decidable (Reaches I gap i m) :=
  decidable_of_iff
    (I[i]? = some '(' ∧ I[m]? = some ')' ∧ i < m ∧ ∀ j, j < m → i + 1 < j → gap j = [])
    ⟨fun ⟨hopen, hclose, hlt, h⟩ => ⟨hopen, hclose, hlt, fun j hij hjm => h j hjm hij⟩,
      fun h => ⟨h.opening, h.closing, h.lt, fun j hjm hij => h.unbroken j hij hjm⟩⟩

instance (I : List Char) (gap : Nat → List Char) (k : Nat) : Decidable (Closes I gap k) :=
  decidable_of_iff
    (∃ i, i < I.length ∧ ∃ m, m < I.length ∧ Reaches I gap i m ∧ (k = i ∨ k = i + 1 ∨ k = m))
    ⟨fun ⟨i, _, m, _, h⟩ => ⟨i, m, h⟩, fun ⟨i, m, h, hk⟩ =>
      ⟨i, (List.getElem?_eq_some_iff.mp h.opening).1, m,
        (List.getElem?_eq_some_iff.mp h.closing).1, h, hk⟩⟩

/-- The gaps once those beside a group are closed. -/
def grouped (I : List Char) (gap : Nat → List Char) (k : Nat) : List Char :=
  if Closes I gap k then [] else gap k

/-- No blanks stand in an empty pair of brackets. -/
def NoHollow (I : List Char) (gap : Nat → List Char) : Prop :=
  ∀ i, I[i]? = some '(' → I[i + 1]? = some ')' → gap (i + 1) = []

/-- Whether one bracket reaches another does not depend on the blanks at the start of the text. -/
theorem Reaches.congr {I : List Char} {gap gap' : Nat → List Char} {i m : Nat}
    (h : Reaches I gap i m) (hgap : ∀ k, gap (k + 1) = gap' (k + 1)) : Reaches I gap' i m := by
  refine ⟨h.opening, h.closing, h.lt, fun j hij hjm => ?_⟩
  have hj := h.unbroken j hij hjm
  rwa [show j = j - 1 + 1 by omega, hgap, show j - 1 + 1 = j by omega] at hj

section GoesOn

variable {I J : List Char} {gap gap' : Nat → List Char} {n : Nat}

theorem GoesOn.reaches_iff (h : GoesOn I gap n J gap') {i m : Nat} :
    Reaches I gap (n + i) (n + m) ↔ Reaches J gap' i m := by
  constructor
  · rintro ⟨hopen, hclose, hlt, hunbroken⟩
    refine ⟨h.ink i ▸ hopen, h.ink m ▸ hclose, by omega, fun j hij hjm => ?_⟩
    rw [← h.gap j]
    exact hunbroken (n + j) (by omega) (by omega)
  · rintro ⟨hopen, hclose, hlt, hunbroken⟩
    refine ⟨(h.ink i).trans hopen, (h.ink m).trans hclose, by omega, fun j hij hjm => ?_⟩
    have hj := hunbroken (j - n) (by omega) (by omega)
    rwa [← h.gap, show n + (j - n) = j by omega] at hj

theorem GoesOn.closes (h : GoesOn I gap n J gap') {k : Nat} (hk : Closes J gap' k) :
    Closes I gap (n + k) := by
  obtain ⟨i, m, hreach, hk⟩ := hk
  exact ⟨n + i, n + m, h.reaches_iff.mpr hreach, by omega⟩

/-- A group that begins in the rest of a text lies beside the gaps of the rest. -/
theorem GoesOn.closes_of_le (h : GoesOn I gap n J gap') {i m k : Nat} (hreach : Reaches I gap i m)
    (hi : n ≤ i) (hk : n + k = i ∨ n + k = i + 1 ∨ n + k = m) : Closes J gap' k := by
  have hlt := hreach.lt
  refine ⟨i - n, m - n, h.reaches_iff.mp ?_, by omega⟩
  rwa [show n + (i - n) = i by omega, show n + (m - n) = m by omega]

theorem GoesOn.noHollow (h : GoesOn I gap n J gap') (hI : NoHollow I gap) : NoHollow J gap' := by
  intro i hopen hclose
  rw [← h.gap]
  exact hI (n + i) ((h.ink i).trans hopen) ((h.ink (i + 1)).trans hclose)

end GoesOn

/-- The first run of a text, behind its first blanks. -/
def firstRun (t : List Char) : List Char := (t.dropWhile isBlank).takeWhile isInk

/-- What follows the first run of a text. -/
def afterRun (t : List Char) : List Char := (t.dropWhile isBlank).dropWhile isInk

/-- The group that a bracket at the start of the text opens, by the run behind the bracket. -/
theorem group?_open (t : List Char) :
    group? ('(' :: t) =
      match (afterRun t).dropWhile isBlank with
      | ')' :: after => some (firstRun t, after)
      | _ => (cutLast ')' (firstRun t)).map fun cut => (cut.1, cut.2 ++ afterRun t) := rfl

theorem not_blank_of_mem_firstRun (t : List Char) : ∀ c ∈ firstRun t, isBlank c = false := by
  simpa [firstRun] using List.all_eq_true.mp (@List.all_takeWhile _ isInk (t.dropWhile isBlank))

theorem firstRun_append_afterRun (t : List Char) :
    firstRun t ++ afterRun t = t.dropWhile isBlank := List.takeWhile_append_dropWhile

/-- The first run ends at a blank or with the text. -/
theorem gapAt_afterRun {t : List Char} (h : afterRun t ≠ []) : gapAt (afterRun t) 0 ≠ [] := by
  obtain ⟨b, rest, hb⟩ := List.exists_cons_of_ne_nil h
  have hhead := @List.head?_dropWhile_not _ isInk (t.dropWhile isBlank)
  have hblank : isInk b = false := by
    rw [show (t.dropWhile isBlank).dropWhile isInk = b :: rest from hb] at hhead
    exact hhead
  rw [hb, gapAt_blank_zero rest (by simpa using hblank)]
  exact List.cons_ne_nil _ _

/-- The first run is empty only in a text of blanks. -/
theorem firstRun_pos {t : List Char} (h : afterRun t ≠ []) : 0 < (firstRun t).length := by
  rw [List.length_pos_iff]
  intro hnil
  have hsplit := firstRun_append_afterRun t
  rw [hnil, List.nil_append] at hsplit
  apply gapAt_afterRun h
  rw [hsplit, gapAt_dropWhile_zero]

/-- What the bracket at the start of a text reaches: a closing bracket in the run behind it, or the
one that follows the run after blanks. -/
theorem exists_of_reaches {t : List Char} {m : Nat}
    (h : Reaches (ink ('(' :: t)) (gapAt ('(' :: t)) 0 m) :
    ∃ j, m = j + 1 ∧ ((firstRun t)[j]? = some ')' ∨
      j = (firstRun t).length ∧ ∃ after, (afterRun t).dropWhile isBlank = ')' :: after) := by
  have hopen : isBlank '(' = false := by decide
  obtain ⟨-, hclose, hlt, hunbroken⟩ := h
  obtain ⟨j, rfl⟩ : ∃ j, m = j + 1 := ⟨m - 1, by omega⟩
  refine ⟨j, rfl, ?_⟩
  have hrun := not_blank_of_mem_firstRun t
  have hink : ink t = firstRun t ++ ink (afterRun t) := by
    rw [← ink_dropWhile, ← firstRun_append_afterRun, ink_append, ink_of_not_blank hrun]
  rw [ink_cons_of_ink hopen, List.getElem?_cons_succ, hink] at hclose
  by_cases hj : j < (firstRun t).length
  · left
    rwa [List.getElem?_append_left hj] at hclose
  · right
    rw [List.getElem?_append_right (by omega)] at hclose
    have hne : afterRun t ≠ [] := by
      intro hnil
      rw [hnil] at hclose
      cases hclose
    have hpos := firstRun_pos hne
    -- The run ends at a blank, so the text is not unbroken beyond it.
    have hle : ¬(firstRun t).length < j := by
      intro hlt
      have hgap := hunbroken ((firstRun t).length + 1) (by omega) (by omega)
      obtain ⟨l, hl⟩ : ∃ l, (firstRun t).length = l + 1 := ⟨_, (Nat.sub_add_cancel hpos).symm⟩
      rw [gapAt_ink_succ _ _ hopen, hl, ← gapAt_dropWhile_succ, ← firstRun_append_afterRun, ← hl]
        at hgap
      exact gapAt_afterRun hne ((gapAt_append_add hrun (afterRun t) 0).symm.trans hgap)
    have hjeq : j = (firstRun t).length := by omega
    refine ⟨hjeq, ?_⟩
    have hhead := head?_of_gapAt (gapAt_dropWhile_zero (afterRun t))
    rw [ink_dropWhile] at hhead
    rw [hjeq, Nat.sub_self] at hclose
    exact List.head?_eq_some_iff.mp (hhead.trans hclose)

/-- If the first inked character of a text reaches something, the text begins, behind its blanks,
with an opening bracket that reaches the same. -/
theorem exists_open_of_reaches {s : List Char} {m : Nat} (h : Reaches (ink s) (gapAt s) 0 m) :
    ∃ t, s.dropWhile isBlank = '(' :: t ∧ Reaches (ink ('(' :: t)) (gapAt ('(' :: t)) 0 m := by
  have hhead := head?_of_gapAt (gapAt_dropWhile_zero s)
  rw [ink_dropWhile, h.opening] at hhead
  obtain ⟨t, ht⟩ := List.head?_eq_some_iff.mp hhead
  refine ⟨t, ht, ?_⟩
  rw [← ht, ink_dropWhile]
  exact h.congr fun k => (gapAt_dropWhile_succ s k).symm

/-- A bracket that opens no group reaches nothing. -/
theorem not_reaches_of_group? {s : List Char} (hgroup : group? (s.dropWhile isBlank) = none)
    (m : Nat) : ¬Reaches (ink s) (gapAt s) 0 m := by
  intro h
  obtain ⟨t, ht, h⟩ := exists_open_of_reaches h
  rw [ht] at hgroup
  obtain ⟨j, -, hj⟩ := exists_of_reaches h
  rw [group?_open] at hgroup
  split at hgroup
  · cases hgroup
  · next hnone =>
    rw [Option.map_eq_none_iff, cutLast_eq_none_iff] at hgroup
    rcases hj with hj | ⟨-, after, hafter⟩
    · exact hgroup (List.mem_of_getElem? hj)
    · exact hnone after hafter

/-- A bracket that opens a group reaches no further than to the end of the group. -/
theorem le_of_group? {s inner after : List Char} {m : Nat}
    (hgroup : group? (s.dropWhile isBlank) = some (inner, after))
    (h : Reaches (ink s) (gapAt s) 0 m) : m ≤ inner.length + 1 := by
  obtain ⟨t, ht, h⟩ := exists_open_of_reaches h
  rw [ht] at hgroup
  obtain ⟨j, rfl, hj⟩ := exists_of_reaches h
  rw [group?_open] at hgroup
  split at hgroup
  · obtain ⟨rfl, rfl⟩ : _ = inner ∧ _ = after := by simpa using hgroup
    rcases hj with hj | ⟨hj, -⟩
    · have := (List.getElem?_eq_some_iff.mp hj).1
      omega
    · omega
  · next hnone =>
    obtain ⟨⟨a, b⟩, hcut, ⟨⟩⟩ := Option.map_eq_some_iff.mp hgroup
    obtain ⟨hrun, hlast⟩ := cutLast_eq_some_iff.mp hcut
    rcases hj with hj | ⟨-, after, hafter⟩
    · -- Behind the last closing bracket of the run there is none to be reached.
      show j + 1 ≤ a.length + 1
      apply Nat.succ_le_succ
      apply Nat.le_of_not_lt
      intro hlt
      rw [hrun, List.getElem?_append_right (by omega), show j - a.length
        = j - a.length - 1 + 1 by omega, List.getElem?_cons_succ] at hj
      exact hlast (List.mem_of_getElem? hj)
    · exact absurd hafter (hnone after)

/-- The ink and the gaps of a text that begins with a group. -/
theorem goesOn_group {s inner after : List Char}
    (hgroup : group? (s.dropWhile isBlank) = some (inner, after)) :
    GoesOn (ink s) (gapAt s) (inner.length + 2) (ink after) (gapAt after) ∧
      Reaches (ink s) (gapAt s) 0 (inner.length + 1) := by
  obtain ⟨before, behind, hbefore, hbehind, hinner, heq⟩ := eq_of_group? hgroup
  have hopen : isBlank '(' = false := by decide
  have hclose : isBlank ')' = false := by decide
  have hlead : ∀ c ∈ s.takeWhile isBlank, isBlank c = true :=
    List.all_eq_true.mp List.all_takeWhile
  have hs : s = s.takeWhile isBlank ++ '(' :: (before ++ (inner ++ (behind ++ ')' :: after))) := by
    rw [← heq, List.takeWhile_append_dropWhile]
  have hink : ink s = '(' :: (inner ++ ')' :: ink after) := by
    rw [hs]
    simp only [ink_append, ink_of_blank hlead, ink_of_blank hbefore, ink_of_blank hbehind,
      ink_of_not_blank hinner, ink_cons_of_ink hopen, ink_cons_of_ink hclose, List.nil_append]
  refine ⟨?_, ⟨?_, ?_, Nat.succ_pos _, fun k hk hkm => ?_⟩⟩
  · have hq := goesOn_append (s.takeWhile isBlank ++ '(' :: (before ++ (inner ++ behind))) after
      hclose
    simp only [ink_append, ink_of_blank hlead, ink_of_blank hbefore, ink_of_blank hbehind,
      ink_of_not_blank hinner, ink_cons_of_ink hopen, List.nil_append, List.append_nil,
      List.length_cons, List.append_assoc, List.cons_append] at hq
    rw [hink, hs]
    simpa only [ink_append, ink_of_blank hlead, ink_of_blank hbefore, ink_of_blank hbehind,
      ink_of_not_blank hinner, ink_cons_of_ink hopen, ink_cons_of_ink hclose,
      List.nil_append] using hq
  · rw [hink]
    rfl
  · rw [hink, List.getElem?_cons_succ, List.getElem?_append_right (Nat.le_refl _), Nat.sub_self]
    rfl
  · have hrest := (goesOn_append (s.takeWhile isBlank)
      (before ++ (inner ++ (behind ++ ')' :: after))) hopen).gap (k - 2 + 1)
    rw [← hs, ink_of_blank hlead, gapAt_append_blank hbefore,
      gapAt_append_of_lt hinner _ (by omega)] at hrest
    rwa [show [].length + 1 + (k - 2 + 1) = k by simp; omega] at hrest

/-! ## The closing of groups -/

/-- What the closing of groups makes of the rest of a text behind a group. -/
theorem goesOn_closeRound_group (inner after : List Char)
    (hinner : ∀ c ∈ inner, isBlank c = false) :
    (∀ k, k < inner.length + 2 → gapAt ('(' :: inner ++ ')' :: closeRound after) k = []) ∧
      ∀ k, gapAt ('(' :: inner ++ ')' :: closeRound after) (inner.length + 2 + k)
        = gapAt (closeRound after) k := by
  have hrun : ∀ c ∈ '(' :: (inner ++ [')']), isBlank c = false := by
    intro c hc
    rcases List.mem_cons.mp hc with rfl | hc
    · decide
    · rcases List.mem_append.mp hc with hc | hc
      · exact hinner c hc
      · rw [List.mem_singleton.mp hc]
        decide
  have heq : '(' :: inner ++ ')' :: closeRound after
      = ('(' :: (inner ++ [')'])) ++ closeRound after := by simp
  have hlen : ('(' :: (inner ++ [')'])).length = inner.length + 2 := by simp
  rw [heq]
  refine ⟨fun k hk => gapAt_append_of_lt hrun _ (by omega), fun k => ?_⟩
  rw [← hlen]
  exact gapAt_append_add hrun _ k

/-- The closing of groups leaves a gap as it is unless the gap lies beside a group. -/
theorem gapAt_closeRound (s : List Char) (k : Nat) :
    gapAt (closeRound s) k = gapAt s k ∨
      gapAt (closeRound s) k = [] ∧ Closes (ink s) (gapAt s) k := by
  fun_induction closeRound s generalizing k with
  | case1 s inner after hgroup ih =>
    obtain ⟨-, -, -, -, hinner, -⟩ := eq_of_group? hgroup
    obtain ⟨hgoes, hreach⟩ := goesOn_group hgroup
    obtain ⟨hclosed, hrest⟩ := goesOn_closeRound_group inner after hinner
    -- All gaps of the group are closed, and its own two brackets account for those that were open.
    by_cases hk : k < inner.length + 2
    · rw [hclosed k hk]
      by_cases hbeside : k = 0 ∨ k = 0 + 1 ∨ k = inner.length + 1
      · exact .inr ⟨rfl, 0, inner.length + 1, hreach, hbeside⟩
      · left
        exact (hreach.unbroken k (by omega) (by omega)).symm
    · obtain ⟨j, rfl⟩ : ∃ j, k = inner.length + 2 + j := ⟨k - (inner.length + 2), by omega⟩
      rw [hrest, hgoes.gap]
      rcases ih j with hj | ⟨hj, hbeside⟩
      · exact .inl hj
      · exact .inr ⟨hj, hgoes.closes hbeside⟩
  | case2 s blanks hgroup hnil =>
    left
    have hs : s = s.takeWhile isBlank ++ s.dropWhile isBlank :=
      List.takeWhile_append_dropWhile.symm
    rw [hnil, List.append_nil] at hs
    exact congrArg (gapAt · k) hs.symm
  | case3 s blanks hgroup c rest hcons ih =>
    obtain ⟨hc, hblanks, hs⟩ := goesOn_cons hcons
    obtain ⟨hgoes, hzero⟩ := goesOn_blanks hblanks hc rest
    obtain ⟨hgoes', hzero'⟩ := goesOn_blanks hblanks hc (closeRound rest)
    rw [← hs] at hgoes hzero
    cases k with
    | zero => exact .inl (hzero'.trans hzero.symm)
    | succ k =>
      rw [show k + 1 = 1 + k by omega, hgoes.gap k]
      rw [hgoes'.gap k]
      rcases ih k with hk | ⟨hk, hbeside⟩
      · exact .inl hk
      · exact .inr ⟨hk, hgoes.closes hbeside⟩

/-- After the closing of groups no blanks stand in an empty pair of brackets. -/
theorem noHollow_closeRound (s : List Char) : NoHollow (ink s) (gapAt (closeRound s)) := by
  fun_induction closeRound s with
  | case1 s inner after hgroup ih =>
    obtain ⟨-, -, -, -, hinner, -⟩ := eq_of_group? hgroup
    obtain ⟨hgoes, hreach⟩ := goesOn_group hgroup
    obtain ⟨hclosed, hrest⟩ := goesOn_closeRound_group inner after hinner
    intro i hopen hclose
    by_cases hi : i + 1 < inner.length + 2
    · exact hclosed _ hi
    · have hne : i ≠ inner.length + 1 := by
        rintro rfl
        rw [hreach.closing] at hopen
        cases hopen
      obtain ⟨j, rfl⟩ : ∃ j, i = inner.length + 2 + j := ⟨i - (inner.length + 2), by omega⟩
      rw [Nat.add_assoc, hrest]
      exact ih j ((hgoes.ink j).symm.trans hopen) ((hgoes.ink (j + 1)).symm.trans hclose)
  | case2 s blanks hgroup hnil =>
    intro i hopen
    rw [← ink_dropWhile, hnil] at hopen
    cases hopen
  | case3 s blanks hgroup c rest hcons ih =>
    obtain ⟨hc, hblanks, hs⟩ := goesOn_cons hcons
    have hgoes := (goesOn_blanks hblanks hc rest).1
    have hgoes' := (goesOn_blanks hblanks hc (closeRound rest)).1
    rw [← hs] at hgoes
    intro i hopen hclose
    cases i with
    | zero =>
      -- An opening bracket right before a closing one opens a group.
      refine absurd ⟨hopen, hclose, Nat.zero_lt_one, fun j hj hj' => ?_⟩
        (not_reaches_of_group? hgroup 1)
      omega
    | succ i =>
      rw [show i + 1 + 1 = 1 + (i + 1) by omega]
      rw [hgoes'.gap (i + 1)]
      rw [show i + 1 = 1 + i by omega, hgoes.ink] at hopen
      rw [show i + 1 + 1 = 1 + (i + 1) by omega, hgoes.ink] at hclose
      exact ih i hopen hclose

/-- Where no blanks stand in an empty pair of brackets, each gap beside a group is closed. -/
theorem gapAt_closeRound_of_closes {s : List Char} (hollow : NoHollow (ink s) (gapAt s)) {k : Nat}
    (hk : Closes (ink s) (gapAt s) k) : gapAt (closeRound s) k = [] := by
  fun_induction closeRound s generalizing k with
  | case1 s inner after hgroup ih =>
    obtain ⟨-, -, -, -, hinner, -⟩ := eq_of_group? hgroup
    obtain ⟨hgoes, hreach⟩ := goesOn_group hgroup
    obtain ⟨hclosed, hrest⟩ := goesOn_closeRound_group inner after hinner
    by_cases hlt : k < inner.length + 2
    · exact hclosed k hlt
    · obtain ⟨i, m, him, hbeside⟩ := hk
      have hnext : ∀ j, k = inner.length + 2 + j → Closes (ink after) (gapAt after) j →
          gapAt ('(' :: inner ++ ')' :: closeRound after) k = [] := by
        rintro j rfl hj
        rw [hrest]
        exact ih (hgoes.noHollow hollow) hj
      by_cases hi : inner.length + 2 ≤ i
      · refine hnext (k - (inner.length + 2)) (by omega) (hgoes.closes_of_le him hi (by omega))
      · -- The bracket stands inside the group, and would reach beyond its end.
        have hne : i ≠ inner.length + 1 := by
          rintro rfl
          have hopen := him.opening
          rw [hreach.closing] at hopen
          cases hopen
        have hkm : k = m := by omega
        subst hkm
        refine absurd (le_of_group? hgroup ⟨hreach.opening, him.closing, by omega, ?_⟩) (by omega)
        intro j hj hjm
        by_cases hji : i + 1 < j
        · exact him.unbroken j hji hjm
        · by_cases hjn : j < inner.length + 1
          · exact hreach.unbroken j hj hjn
          · have hin : i + 1 = inner.length + 1 := by omega
            obtain rfl : j = i + 1 := by omega
            exact hollow i him.opening (hin ▸ hreach.closing)
  | case2 s blanks hgroup hnil =>
    obtain ⟨i, m, him, -⟩ := hk
    have hopen := him.opening
    rw [← ink_dropWhile, hnil] at hopen
    cases hopen
  | case3 s blanks hgroup c rest hcons ih =>
    obtain ⟨hc, hblanks, hs⟩ := goesOn_cons hcons
    have hgoes := (goesOn_blanks hblanks hc rest).1
    have hgoes' := (goesOn_blanks hblanks hc (closeRound rest)).1
    rw [← hs] at hgoes
    obtain ⟨i, m, him, hbeside⟩ := hk
    have hi : i ≠ 0 := by
      rintro rfl
      exact not_reaches_of_group? hgroup m him
    have hlt := him.lt
    obtain ⟨j, rfl⟩ : ∃ j, k = 1 + j := ⟨k - 1, by omega⟩
    rw [hgoes'.gap j]
    exact ih (hgoes.noHollow hollow) (hgoes.closes_of_le him (by omega) hbeside)

/-- Where no blanks stand in an empty pair of brackets, the gaps beside a group are closed and all
others stay as they are. -/
theorem gapAt_closeRound_eq_grouped {s : List Char} (hollow : NoHollow (ink s) (gapAt s))
    (k : Nat) :
    gapAt (closeRound s) k = grouped (ink s) (gapAt s) k := by
  unfold grouped
  split
  · next hk => exact gapAt_closeRound_of_closes hollow hk
  · next hk =>
    rcases gapAt_closeRound s k with h | ⟨-, h⟩
    · exact h
    · exact absurd h hk

end TreeSelect.Spacing
