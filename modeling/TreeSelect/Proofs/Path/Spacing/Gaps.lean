/-
# TreeSelect.Proofs.Path.Spacing.Gaps — what the passes do to the gaps of a text

A text is its ink and the gaps in it: the blanks in front of each inked character, and those at the
end. Since a pass keeps the ink, it is known by what becomes of each gap, and for the passes around
single marks this depends on the characters beside the gap only. The one exception is the parting of
marks in a row, where every second gap is opened (`opens`).
-/
import TreeSelect.Path.Spacing.Ink

namespace TreeSelect.Spacing

open TreeSelect.Text

/-! ## Gaps -/

/-- The blanks in front of the `k`-th inked character, counted from zero. Behind the last inked
character they are the blanks at the end of the text. -/
def gapAt : List Char → Nat → List Char
  | [], _ => []
  | c :: s, 0 => if isBlank c then c :: gapAt s 0 else []
  | c :: s, k + 1 => if isBlank c then gapAt s (k + 1) else gapAt s k

/-- The inked character in front of a gap, if there is one. -/
def inkBefore (I : List Char) : Nat → Option Char
  | 0 => none
  | k + 1 => I[k]?

section Cons

variable {c : Char} (s : List Char) (k : Nat)

@[simp] theorem gapAt_nil : gapAt [] k = [] := by cases k <;> rfl

theorem gapAt_blank_zero (h : isBlank c = true) : gapAt (c :: s) 0 = c :: gapAt s 0 := by
  rw [gapAt, if_pos h]

theorem gapAt_blank_succ (h : isBlank c = true) : gapAt (c :: s) (k + 1) = gapAt s (k + 1) := by
  rw [gapAt, if_pos h]

theorem gapAt_ink_zero (h : isBlank c = false) : gapAt (c :: s) 0 = [] := by
  rw [gapAt, h, if_neg Bool.false_ne_true]

theorem gapAt_ink_succ (h : isBlank c = false) : gapAt (c :: s) (k + 1) = gapAt s k := by
  rw [gapAt, h, if_neg Bool.false_ne_true]

theorem ink_blank (h : isBlank c = true) : ink (c :: s) = ink s := by rw [ink_cons, if_pos h]

@[simp] theorem inkBefore_zero (I : List Char) : inkBefore I 0 = none := rfl

@[simp] theorem inkBefore_succ (I : List Char) : inkBefore I (k + 1) = I[k]? := rfl

/-- No inked character stands in front of the first gap. -/
theorem pos_of_inkBefore {I : List Char} {k : Nat} {c : Char} (h : inkBefore I k = some c) :
    0 < k := by
  cases k with
  | zero => cases h
  | succ k => exact Nat.succ_pos k

end Cons

/-- A text that begins without a blank begins with its first inked character. -/
theorem head?_of_gapAt {s : List Char} (h : gapAt s 0 = []) : s.head? = (ink s)[0]? := by
  cases s with
  | nil => rfl
  | cons c s =>
    cases hc : isBlank c with
    | true =>
      rw [gapAt_blank_zero s hc] at h
      cases h
    | false =>
      rw [ink_cons_of_ink hc]
      rfl

/-- The ink and the gaps make the text. -/
theorem eq_of_gapAt {s t : List Char} (hink : ink s = ink t)
    (h : ∀ k, gapAt s k = gapAt t k) : s = t := by
  induction s generalizing t with
  | nil =>
    have hhead := head?_of_gapAt (h 0).symm
    rw [← hink] at hhead
    exact (List.head?_eq_none_iff.mp hhead).symm
  | cons c s ih =>
    cases hc : isBlank c with
    | true =>
      -- The first blank is the first of the gap in front, on both sides.
      have hzero := h 0
      rw [gapAt_blank_zero s hc] at hzero
      cases t with
      | nil => cases hzero
      | cons d t =>
        cases hd : isBlank d with
        | false =>
          rw [gapAt_ink_zero t hd] at hzero
          cases hzero
        | true =>
          rw [gapAt_blank_zero t hd, List.cons.injEq] at hzero
          obtain ⟨rfl, hzero⟩ := hzero
          rw [ink_blank s hc, ink_blank t hc] at hink
          refine congrArg (c :: ·) (ih hink fun k => ?_)
          cases k with
          | zero => exact hzero
          | succ k =>
            have hk := h (k + 1)
            rwa [gapAt_blank_succ s k hc, gapAt_blank_succ t k hc] at hk
    | false =>
      have hzero := h 0
      rw [gapAt_ink_zero s hc] at hzero
      have hhead := head?_of_gapAt hzero.symm
      rw [← hink, ink_cons_of_ink hc, List.getElem?_cons_zero] at hhead
      obtain ⟨t, rfl⟩ := List.head?_eq_some_iff.mp hhead
      rw [ink_cons_of_ink hc, ink_cons_of_ink hc, List.cons.injEq] at hink
      refine congrArg (c :: ·) (ih hink.2 fun k => ?_)
      have hk := h (k + 1)
      rwa [gapAt_ink_succ s k hc, gapAt_ink_succ t k hc] at hk

/-! ## The rest of a text -/

/-- From place `n` on, a text with ink `I` goes on like one with ink `J`. -/
structure GoesOn (I : List Char) (gap : Nat → List Char) (n : Nat) (J : List Char)
    (gap' : Nat → List Char) : Prop where
  length : I.length = n + J.length
  ink : ∀ j, I[n + j]? = J[j]?
  gap : ∀ j, gap (n + j) = gap' j

/-- Behind an inked character a text goes on as what follows the character. -/
theorem goesOn_append (q : List Char) {c : Char} (t : List Char) (hc : isBlank c = false) :
    GoesOn (ink (q ++ c :: t)) (gapAt (q ++ c :: t)) ((ink q).length + 1) (ink t) (gapAt t) := by
  have hink : ink (q ++ c :: t) = ink q ++ c :: ink t := by rw [ink_append, ink_cons_of_ink hc]
  refine ⟨?_, fun j => ?_, fun j => ?_⟩
  · rw [hink, List.length_append, List.length_cons]
    omega
  · rw [hink, List.getElem?_append_right (by omega), show (ink q).length + 1 + j - (ink q).length
      = j + 1 by omega, List.getElem?_cons_succ]
  · induction q with
    | nil =>
      show gapAt (c :: t) (0 + 1 + j) = gapAt t j
      rw [show 0 + 1 + j = j + 1 by omega, gapAt_ink_succ t j hc]
    | cons d q ih =>
      have ih := ih (by rw [ink_append, ink_cons_of_ink hc])
      cases hd : isBlank d with
      | true =>
        rw [ink_blank q hd, ← ih, List.cons_append, show (ink q).length + 1 + j
          = (ink q).length + j + 1 by omega, gapAt_blank_succ _ _ hd]
      | false =>
        rw [ink_cons_of_ink hd, ← ih, List.cons_append, List.length_cons, show (ink q).length + 1
          + 1 + j = (ink q).length + 1 + j + 1 by omega, gapAt_ink_succ _ _ hd]

/-- In an unbroken piece there are no gaps. -/
theorem gapAt_append_of_lt {run : List Char} (hrun : ∀ c ∈ run, isBlank c = false)
    (t : List Char) {k : Nat} (hk : k < run.length) : gapAt (run ++ t) k = [] := by
  induction run generalizing k with
  | nil => exact absurd hk (Nat.not_lt_zero k)
  | cons c run ih =>
    have hc := hrun c List.mem_cons_self
    cases k with
    | zero => exact gapAt_ink_zero _ hc
    | succ k =>
      rw [List.cons_append, gapAt_ink_succ _ k hc]
      exact ih (fun d hd => hrun d (List.mem_cons_of_mem _ hd)) (Nat.lt_of_succ_lt_succ hk)

/-- What follows the last inked character of a text does not change the gaps in front of it. -/
theorem gapAt_append_left {s : List Char} (t : List Char) {k : Nat} (hk : k < (ink s).length) :
    gapAt (s ++ t) k = gapAt s k := by
  induction s generalizing k with
  | nil => exact absurd hk (Nat.not_lt_zero k)
  | cons c s ih =>
    cases hc : isBlank c with
    | true =>
      rw [ink_blank s hc] at hk
      cases k with
      | zero => rw [List.cons_append, gapAt_blank_zero _ hc, gapAt_blank_zero _ hc, ih hk]
      | succ k => rw [List.cons_append, gapAt_blank_succ _ k hc, gapAt_blank_succ _ k hc, ih hk]
    | false =>
      rw [ink_cons_of_ink hc] at hk
      cases k with
      | zero => rw [List.cons_append, gapAt_ink_zero _ hc, gapAt_ink_zero _ hc]
      | succ k =>
        rw [List.cons_append, gapAt_ink_succ _ k hc, gapAt_ink_succ _ k hc]
        exact ih (Nat.lt_of_succ_lt_succ hk)

/-- Behind an unbroken piece the gaps are those of the text that follows it. -/
theorem gapAt_append_add {run : List Char} (hrun : ∀ c ∈ run, isBlank c = false)
    (t : List Char) (k : Nat) : gapAt (run ++ t) (run.length + k) = gapAt t k := by
  induction run with
  | nil => rw [List.nil_append, List.length_nil, Nat.zero_add]
  | cons c run ih =>
    rw [List.cons_append, List.length_cons, show run.length + 1 + k = run.length + k + 1 by omega,
      gapAt_ink_succ _ _ (hrun c List.mem_cons_self)]
    exact ih fun d hd => hrun d (List.mem_cons_of_mem _ hd)

theorem ink_of_not_blank {run : List Char} (hrun : ∀ c ∈ run, isBlank c = false) :
    ink run = run := by
  rw [ink, List.filter_eq_self]
  intro c hc
  rw [isInk_eq_not_isBlank, hrun c hc]
  rfl

theorem ink_of_blank {blanks : List Char} (h : ∀ c ∈ blanks, isBlank c = true) :
    ink blanks = [] := by
  rw [ink, List.filter_eq_nil_iff]
  intro c hc
  rw [isInk_eq_not_isBlank, h c hc]
  exact Bool.false_ne_true

theorem gapAt_append_blank {blanks : List Char} (h : ∀ c ∈ blanks, isBlank c = true)
    (t : List Char) (k : Nat) : gapAt (blanks ++ t) (k + 1) = gapAt t (k + 1) := by
  induction blanks with
  | nil => rfl
  | cons c blanks ih =>
    rw [List.cons_append, gapAt_blank_succ _ k (h c List.mem_cons_self)]
    exact ih fun d hd => h d (List.mem_cons_of_mem _ hd)

theorem gapAt_append_blank_zero {blanks : List Char} (h : ∀ c ∈ blanks, isBlank c = true)
    (t : List Char) : gapAt (blanks ++ t) 0 = blanks ++ gapAt t 0 := by
  induction blanks with
  | nil => rfl
  | cons c blanks ih =>
    rw [List.cons_append, gapAt_blank_zero _ (h c List.mem_cons_self), List.cons_append]
    exact congrArg (c :: ·) (ih fun d hd => h d (List.mem_cons_of_mem _ hd))

theorem gapAt_dropWhile_zero (s : List Char) : gapAt (s.dropWhile isBlank) 0 = [] := by
  induction s with
  | nil => rfl
  | cons c s ih =>
    cases hc : isBlank c with
    | true => rwa [List.dropWhile_cons_of_pos hc]
    | false =>
      rw [List.dropWhile_cons_of_neg (by simp [hc])]
      exact gapAt_ink_zero s hc

theorem gapAt_dropWhile_succ (s : List Char) (k : Nat) :
    gapAt (s.dropWhile isBlank) (k + 1) = gapAt s (k + 1) := by
  induction s with
  | nil => rfl
  | cons c s ih =>
    cases hc : isBlank c with
    | true => rw [List.dropWhile_cons_of_pos hc, ih, gapAt_blank_succ s k hc]
    | false => rw [List.dropWhile_cons_of_neg (by simp [hc])]

/-- A text that begins, behind blanks, with an inked character. -/
theorem goesOn_blanks {blanks : List Char} {c : Char} (hblanks : ∀ b ∈ blanks, isBlank b = true)
    (hc : isBlank c = false) (t : List Char) :
    GoesOn (ink (blanks ++ c :: t)) (gapAt (blanks ++ c :: t)) 1 (ink t) (gapAt t) ∧
      gapAt (blanks ++ c :: t) 0 = blanks := by
  have h := goesOn_append blanks t hc
  rw [ink_of_blank hblanks, List.length_nil, Nat.zero_add] at h
  refine ⟨h, ?_⟩
  rw [gapAt_append_blank_zero hblanks, gapAt_ink_zero t hc, List.append_nil]

/-- A text is its first blanks and what begins with its first inked character. -/
theorem goesOn_cons {s rest : List Char} {c : Char} (hcons : s.dropWhile isBlank = c :: rest) :
    isBlank c = false ∧ (∀ b ∈ s.takeWhile isBlank, isBlank b = true) ∧
      s = s.takeWhile isBlank ++ c :: rest := by
  refine ⟨?_, List.all_eq_true.mp List.all_takeWhile, ?_⟩
  · have hzero := gapAt_dropWhile_zero s
    cases hc : isBlank c with
    | false => rfl
    | true =>
      rw [hcons, gapAt_blank_zero rest hc] at hzero
      cases hzero
  · rw [← hcons, List.takeWhile_append_dropWhile]

/-! ## Blanks beside a mark -/

variable {m : Char}

theorem gapAt_closeAfter (hm : isBlank m = false) (s : List Char) (k : Nat) :
    gapAt (closeAfter m s) k = if inkBefore (ink s) k = some m then [] else gapAt s k := by
  suffices hgo : ∀ (after : Bool) (k : Nat), gapAt (closeAfter.go m after s) k =
      if (k = 0 ∧ after = true) ∨ inkBefore (ink s) k = some m then [] else gapAt s k by
    have hstart := hgo false k
    simp only [Bool.false_eq_true, and_false, false_or] at hstart
    exact hstart
  induction s with
  | nil =>
    intro after k
    rw [closeAfter.go, gapAt_nil, ite_self]
  | cons c rest ih =>
    intro after k
    cases hc : isBlank c with
    | true =>
      have hne : (c == m) = false := by
        rw [beq_eq_false_iff_ne]
        rintro rfl
        exact Bool.false_ne_true (hm.symm.trans hc)
      rw [closeAfter.go, hc, Bool.and_true, ink_blank rest hc]
      cases after with
      | true =>
        rw [if_pos rfl, ih true k]
        cases k with
        | zero => simp
        | succ k => rw [gapAt_blank_succ rest k hc]
      | false =>
        rw [if_neg Bool.false_ne_true, hne]
        cases k with
        | zero => rw [gapAt_blank_zero _ hc, gapAt_blank_zero _ hc, ih false 0]; simp
        | succ k => rw [gapAt_blank_succ _ k hc, gapAt_blank_succ _ k hc, ih false (k + 1)]
    | false =>
      rw [closeAfter.go, hc, Bool.and_false, if_neg Bool.false_ne_true, ink_cons_of_ink hc]
      cases k with
      | zero => rw [gapAt_ink_zero _ hc, gapAt_ink_zero _ hc, ite_self]
      | succ k =>
        rw [gapAt_ink_succ _ k hc, gapAt_ink_succ _ k hc, ih (c == m) k]
        cases k with
        | zero => simp
        | succ k => simp

theorem gapAt_closeBefore (hm : isBlank m = false) (s : List Char) (k : Nat) :
    gapAt (closeBefore m s) k = if (ink s)[k]? = some m then [] else gapAt s k := by
  induction s generalizing k with
  | nil => rw [closeBefore, gapAt_nil, ite_self]
  | cons c rest ih =>
    simp only [closeBefore]
    cases hc : isBlank c with
    | true =>
      rw [ink_blank rest hc, Bool.true_and]
      by_cases hhead : (closeBefore m rest).head? = some m
      · -- The blank goes: the mark follows it.
        rw [if_pos (beq_iff_eq.mpr hhead), ih k]
        cases k with
        | zero =>
          obtain ⟨t, ht⟩ := List.head?_eq_some_iff.mp hhead
          have hink := ink_closeBefore m rest
          rw [ht, ink_cons_of_ink hm] at hink
          rw [← hink]
          simp
        | succ k => rw [gapAt_blank_succ rest k hc]
      · rw [if_neg (fun h => hhead (beq_iff_eq.mp h))]
        cases k with
        | zero =>
          have hne : (ink rest)[0]? ≠ some m := by
            intro hfirst
            have hzero := ih 0
            rw [if_pos hfirst] at hzero
            have := head?_of_gapAt hzero
            rw [ink_closeBefore] at this
            exact hhead (this.trans hfirst)
          rw [gapAt_blank_zero _ hc, gapAt_blank_zero _ hc, ih 0, if_neg hne, if_neg hne]
        | succ k => rw [gapAt_blank_succ _ k hc, gapAt_blank_succ _ k hc, ih (k + 1)]
    | false =>
      rw [Bool.false_and, if_neg Bool.false_ne_true, ink_cons_of_ink hc]
      cases k with
      | zero => rw [gapAt_ink_zero _ hc, gapAt_ink_zero _ hc, ite_self]
      | succ k => rw [gapAt_ink_succ _ k hc, gapAt_ink_succ _ k hc, ih k, List.getElem?_cons_succ]

theorem gapAt_closeAround (hm : isBlank m = false) (s : List Char) (k : Nat) :
    gapAt (closeAround m s) k =
      if inkBefore (ink s) k = some m ∨ (ink s)[k]? = some m then [] else gapAt s k := by
  rw [closeAround, gapAt_closeAfter hm, gapAt_closeBefore hm, ink_closeBefore]
  by_cases hbefore : inkBefore (ink s) k = some m
  · rw [if_pos hbefore, if_pos (.inl hbefore)]
  · rw [if_neg hbefore]
    by_cases hbehind : (ink s)[k]? = some m
    · rw [if_pos hbehind, if_pos (.inr hbehind)]
    · rw [if_neg hbehind, if_neg (not_or.mpr ⟨hbefore, hbehind⟩)]

/-! ## Marks in a row -/

/-- Whether the parting of `m` opens a gap: an `m` stands right behind it, an inked character right
before it, and that character is not itself an `m` that has just been parted. -/
def opens (m : Char) (I : List Char) (gap : Nat → List Char) : Nat → Bool
  | 0 => false
  | k + 1 => I[k + 1]? == some m && (gap (k + 1)).isEmpty && !opens m I gap k

theorem opens_succ {I : List Char} {gap : Nat → List Char} {k : Nat} :
    opens m I gap (k + 1) = true ↔
      I[k + 1]? = some m ∧ gap (k + 1) = [] ∧ opens m I gap k = false := by
  simp [opens, and_assoc]

theorem opens_congr {I : List Char} {gap gap' : Nat → List Char}
    (h : ∀ k, I[k + 1]? = some m → gap (k + 1) = gap' (k + 1)) (k : Nat) :
    opens m I gap k = opens m I gap' k := by
  induction k with
  | zero => rfl
  | succ k ih =>
    by_cases hk : I[k + 1]? = some m
    · rw [opens, opens, ih, h k hk]
    · rw [opens, opens, beq_eq_false_iff_ne.mpr hk, Bool.false_and, Bool.false_and, Bool.false_and,
        Bool.false_and]

/-- A gap is opened only in front of a mark, and only if it is none so far. -/
theorem getElem?_of_opens {I : List Char} {gap : Nat → List Char} {k : Nat}
    (h : opens m I gap k = true) : I[k]? = some m ∧ gap k = [] ∧ 0 < k := by
  cases k with
  | zero => cases h
  | succ k =>
    obtain ⟨hm, hgap, -⟩ := opens_succ.mp h
    exact ⟨hm, hgap, Nat.succ_pos k⟩

/-- In front of the first mark of a row nothing hinders the parting. -/
theorem opens_of_head {I : List Char} {gap : Nat → List Char} {k : Nat}
    (hhead : inkBefore I k ≠ some m) :
    opens m I gap k = true ↔ I[k]? = some m ∧ gap k = [] ∧ 0 < k := by
  refine ⟨getElem?_of_opens, fun ⟨hm, hgap, hk⟩ => ?_⟩
  obtain ⟨k, rfl⟩ : ∃ j, k = j + 1 := ⟨k - 1, by omega⟩
  refine opens_succ.mpr ⟨hm, hgap, Bool.eq_false_iff.mpr fun h => ?_⟩
  exact hhead (getElem?_of_opens h).1

/-- In front of an inked character the parting is the same as behind it, unless it opens the gap
between the two. -/
theorem opens_ink {c : Char} {s : List Char} (hc : isBlank c = false)
    (h : opens m (ink (c :: s)) (gapAt (c :: s)) 1 = false) (k : Nat) :
    opens m (ink (c :: s)) (gapAt (c :: s)) (k + 1) = opens m (ink s) (gapAt s) k := by
  induction k with
  | zero => exact h
  | succ k ih =>
    rw [opens, ih, opens, ink_cons_of_ink hc, List.getElem?_cons_succ, gapAt_ink_succ _ _ hc]

/-- In front of a character other than the mark no gap is opened, so the parting is that of the
text behind the character. -/
theorem opens_ink_of_ne {c d : Char} {rest : List Char} (hc : isBlank c = false) (hd : d ≠ m)
    (k : Nat) : opens m (ink (c :: d :: rest)) (gapAt (c :: d :: rest)) (k + 1)
      = opens m (ink (d :: rest)) (gapAt (d :: rest)) k := by
  apply opens_ink hc
  rw [← Bool.not_eq_true, opens_succ, gapAt_ink_succ _ 0 hc, ink_cons_of_ink hc]
  rintro ⟨hfirst, hgap, -⟩
  have hhead := head?_of_gapAt hgap
  rw [List.getElem?_cons_succ] at hfirst
  rw [hfirst, List.head?_cons, Option.some.injEq] at hhead
  exact hd hhead

/-- An inked character and a mark right behind it: the gap between them is opened, and behind the
mark the parting starts anew. -/
theorem opens_pair {c : Char} {rest : List Char} (hc : isBlank c = false) (hm : isBlank m = false) :
    opens m (ink (c :: m :: rest)) (gapAt (c :: m :: rest)) 1 = true ∧
      ∀ k, opens m (ink (c :: m :: rest)) (gapAt (c :: m :: rest)) (k + 2)
        = opens m (ink rest) (gapAt rest) k := by
  have hone : opens m (ink (c :: m :: rest)) (gapAt (c :: m :: rest)) 1 = true := by
    rw [opens_succ, ink_cons_of_ink hc, ink_cons_of_ink hm, gapAt_ink_succ _ 0 hc,
      gapAt_ink_zero _ hm]
    exact ⟨rfl, rfl, rfl⟩
  refine ⟨hone, fun k => ?_⟩
  induction k with
  | zero =>
    show opens m (ink (c :: m :: rest)) (gapAt (c :: m :: rest)) 2 = false
    rw [opens, hone, Bool.not_true, Bool.and_false]
  | succ k ih =>
    rw [opens, ih, opens, ink_cons_of_ink hc, ink_cons_of_ink hm, List.getElem?_cons_succ,
      List.getElem?_cons_succ, gapAt_ink_succ _ _ hc, gapAt_ink_succ _ _ hm]

/-- In a text of at most one character no gap is opened. -/
theorem opens_of_length_le {s : List Char} (hs : s.length ≤ 1) (k : Nat) :
    opens m (ink s) (gapAt s) k = false := by
  cases k with
  | zero => rfl
  | succ k =>
    rw [← Bool.not_eq_true, opens_succ]
    rintro ⟨hget, -⟩
    have hlen := (List.getElem?_eq_some_iff.mp hget).1
    have hink : (ink s).length ≤ s.length := List.length_filter_le ..
    omega

/-- The parting opens gaps in front of its mark, with one space each, and leaves all others as they
are. -/
theorem gapAt_openBefore (hm : isBlank m = false) (s : List Char) (k : Nat) :
    gapAt (openBefore m s) k =
      if opens m (ink s) (gapAt s) k = true then [' '] else gapAt s k := by
  fun_induction openBefore m s generalizing k with
  | case1 c d rest hcd ih =>
    simp only [isInk_eq_not_isBlank, Bool.and_eq_true, Bool.not_eq_true', beq_iff_eq] at hcd
    obtain ⟨hc, rfl⟩ := hcd
    obtain ⟨hone, hnext⟩ := @opens_pair d c rest hc hm
    cases k with
    | zero =>
      rw [gapAt_ink_zero _ hc, gapAt_ink_zero _ hc]
      rfl
    | succ k =>
      cases k with
      | zero =>
        rw [if_pos hone, gapAt_ink_succ _ 0 hc, gapAt_blank_zero _ isBlank_space,
          gapAt_ink_zero _ hm]
      | succ k =>
        rw [hnext k, gapAt_ink_succ _ (k + 1) hc, gapAt_blank_succ _ k isBlank_space,
          gapAt_ink_succ _ k hm, ih k, gapAt_ink_succ _ (k + 1) hc, gapAt_ink_succ _ k hm]
  | case2 c d rest hcd ih =>
    simp only [isInk_eq_not_isBlank, Bool.and_eq_true, Bool.not_eq_true', beq_iff_eq,
      not_and] at hcd
    cases hc : isBlank c with
    | true =>
      rw [ink_blank _ hc]
      cases k with
      | zero =>
        rw [gapAt_blank_zero _ hc, gapAt_blank_zero _ hc, ih 0]
        rfl
      | succ k =>
        rw [gapAt_blank_succ _ k hc, gapAt_blank_succ _ k hc, ih (k + 1),
          opens_congr (fun j _ => (gapAt_blank_succ (d :: rest) j hc).symm)]
    | false =>
      cases k with
      | zero =>
        rw [gapAt_ink_zero _ hc, gapAt_ink_zero _ hc]
        rfl
      | succ k =>
        rw [opens_ink_of_ne hc (hcd hc) k, gapAt_ink_succ _ k hc, gapAt_ink_succ _ k hc, ih k]
  | case3 s hs =>
    have hlen : s.length ≤ 1 := by
      rcases s with _ | ⟨c, _ | ⟨d, rest⟩⟩
      · exact Nat.zero_le 1
      · exact Nat.le_refl 1
      · exact absurd rfl (hs c d rest)
    rw [opens_of_length_le hlen k, if_neg Bool.false_ne_true]

end TreeSelect.Spacing
