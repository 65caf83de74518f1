/-
# TreeSelect.Text.Cut — cutting a text at a mark

A cut takes one mark out of a text and gives what stands before it and after it. Three choices of
the mark are needed: the first one, the last one, and the first of two marks in a row. The two
statements `cutFirst_eq_some_iff` and `cutLast_eq_some_iff` say that a cut puts the text back
together around the mark, and on which side no further mark is left.
-/

namespace TreeSelect.Text

variable {m : Char} {s a b : List Char}

/-! ## At the first mark -/

/-- The texts before and after the first `m`. -/
def cutFirst (m : Char) : List Char → Option (List Char × List Char)
  | [] => none
  | c :: rest =>
    if c = m then some ([], rest) else (cutFirst m rest).map fun cut => (c :: cut.1, cut.2)

theorem cutFirst_eq_none_iff : cutFirst m s = none ↔ m ∉ s := by
  induction s with
  | nil => simp [cutFirst]
  | cons c rest ih =>
    by_cases h : c = m
    · simp [cutFirst, h]
    · simp [cutFirst, h, ih, Ne.symm h]

theorem cutFirst_append (h : m ∉ a) : cutFirst m (a ++ m :: b) = some (a, b) := by
  induction a with
  | nil => simp [cutFirst]
  | cons c a ih =>
    simp only [List.mem_cons, not_or] at h
    simp [cutFirst, Ne.symm h.1, ih h.2]

theorem cutFirst_eq_some_iff : cutFirst m s = some (a, b) ↔ s = a ++ m :: b ∧ m ∉ a := by
  constructor
  · intro h
    induction s generalizing a with
    | nil => cases h
    | cons c rest ih =>
      by_cases hc : c = m
      · obtain ⟨rfl, rfl⟩ : [] = a ∧ rest = b := by simpa [cutFirst, hc] using h
        simp [hc]
      · obtain ⟨a', hcut, rfl⟩ : ∃ a', cutFirst m rest = some (a', b) ∧ c :: a' = a := by
          simpa [cutFirst, hc] using h
        obtain ⟨rfl, hm⟩ := ih hcut
        simp [hm, Ne.symm hc]
  · rintro ⟨rfl, h⟩
    exact cutFirst_append h

/-! ## At the last mark -/

/-- The texts before and after the last `m`. -/
def cutLast (m : Char) : List Char → Option (List Char × List Char)
  | [] => none
  | c :: rest =>
    match cutLast m rest with
    | some (before, after) => some (c :: before, after)
    | none => if c = m then some ([], rest) else none

theorem cutLast_eq_none_iff : cutLast m s = none ↔ m ∉ s := by
  induction s with
  | nil => simp [cutLast]
  | cons c rest ih =>
    simp only [cutLast, List.mem_cons, not_or]
    split
    · next h =>
      have hm : m ∈ rest := Classical.not_not.1 fun hm => by simp [ih.2 hm] at h
      simp [hm]
    · next h =>
      by_cases hc : c = m
      · simp [hc]
      · simp [hc, ih.1 h, Ne.symm hc]

theorem cutLast_append (h : m ∉ b) : cutLast m (a ++ m :: b) = some (a, b) := by
  induction a with
  | nil => simp [cutLast, cutLast_eq_none_iff.2 h]
  | cons c a ih => simp [cutLast, ih]

theorem cutLast_eq_some_iff : cutLast m s = some (a, b) ↔ s = a ++ m :: b ∧ m ∉ b := by
  constructor
  · intro h
    induction s generalizing a with
    | nil => cases h
    | cons c rest ih =>
      rw [cutLast] at h
      split at h
      · next before after hcut =>
        obtain ⟨rfl, rfl⟩ : c :: before = a ∧ after = b := by simpa using h
        obtain ⟨rfl, hm⟩ := ih hcut
        exact ⟨rfl, hm⟩
      · next hcut =>
        obtain ⟨rfl, rfl, rfl⟩ : c = m ∧ [] = a ∧ rest = b := by simpa using h
        exact ⟨rfl, cutLast_eq_none_iff.1 hcut⟩
  · rintro ⟨rfl, h⟩
    exact cutLast_append h

/-! ## At the first pair of marks -/

/-- The texts before and after the first `m` that an `n` follows at once. -/
def cutPair (m n : Char) : List Char → Option (List Char × List Char)
  | c :: d :: rest =>
    if c = m ∧ d = n then some ([], rest)
    else (cutPair m n (d :: rest)).map fun cut => (c :: cut.1, cut.2)
  | _ => none

theorem eq_of_cutPair {n : Char} (h : cutPair m n s = some (a, b)) : s = a ++ m :: n :: b := by
  fun_induction cutPair m n s generalizing a with
  | case1 c d rest hcd => obtain ⟨⟩ := h; simp [hcd]
  | case2 c d rest hcd ih =>
    obtain ⟨⟨a', b'⟩, hcut, ⟨⟩⟩ := Option.map_eq_some_iff.1 h
    simp [ih hcut]
  | case3 => cases h

end TreeSelect.Text
