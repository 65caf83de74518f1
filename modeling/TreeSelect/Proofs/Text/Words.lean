/-
# TreeSelect.Proofs.Text.Words — the words of a text

A word holds no blank. A text that is one blank-free piece is its own only word, and a blank between
two texts parts their words, so the words of a text are found piece by piece.
-/
import TreeSelect.Text.Blank

namespace TreeSelect.Text

/-- No piece of a text cut at some characters holds one of them. -/
theorem not_mem_of_mem_splitOnP {p : Char → Bool} {s piece : List Char}
    (h : piece ∈ s.splitOnP p) : ∀ c ∈ piece, p c = false := by
  induction s generalizing piece with
  | nil =>
    rw [List.splitOnP_nil, List.mem_singleton] at h
    simp [h]
  | cons c s ih =>
    obtain ⟨first, others, hs⟩ := List.exists_cons_of_ne_nil (List.splitOnP_ne_nil p s)
    rw [List.splitOnP_cons_eq_if_modifyHead] at h
    split at h
    · rcases List.mem_cons.mp h with rfl | h
      · simp
      · exact ih h
    · next hc =>
      rw [hs] at h ih
      rcases List.mem_cons.mp h with rfl | h
      · intro d hd
        rcases List.mem_cons.mp hd with rfl | hd
        · simpa using hc
        · exact ih List.mem_cons_self d hd
      · exact ih (List.mem_cons_of_mem _ h)

/-- No word holds a blank. -/
theorem not_blank_of_mem_words {s word : List Char} (h : word ∈ words s) :
    ∀ c ∈ word, isBlank c = false :=
  not_mem_of_mem_splitOnP (List.mem_filter.mp h).1

@[simp] theorem words_nil : words [] = [] := rfl

/-- A text without a blank is its own only word. -/
theorem words_of_not_blank {word : List Char} (hne : word ≠ [])
    (h : ∀ c ∈ word, isBlank c = false) : words word = [word] := by
  rw [words, List.splitOnP_eq_singleton h]
  simp [hne]

/-- A blank parts the words before it from the words after it. -/
theorem words_append_blank (a b : List Char) {c : Char} (hc : isBlank c = true) :
    words (a ++ c :: b) = words a ++ words b := by
  rw [words, List.splitOnP_append_cons a b hc, List.filter_append, words, words]

theorem words_cons_blank {c : Char} (hc : isBlank c = true) (s : List Char) :
    words (c :: s) = words s := words_append_blank [] s hc

/-- A character in front of a blank is a word by itself. -/
theorem words_ink_blank {c b : Char} (hc : isBlank c = false) (hb : isBlank b = true)
    (s : List Char) : words (c :: b :: s) = [c] :: words (b :: s) := by
  have hword : words [c] = [[c]] := words_of_not_blank (List.cons_ne_nil _ _) (by simpa using hc)
  have h := words_append_blank [c] s hb
  rwa [hword, ← words_cons_blank hb s] at h

/-- A character right in front of another one belongs to the same word. -/
theorem words_ink_ink {c d : Char} (hc : isBlank c = false) (hd : isBlank d = false)
    (s : List Char) : words (c :: d :: s) = (words (d :: s)).modifyHead (c :: ·) := by
  obtain ⟨first, others, hs⟩ := List.exists_cons_of_ne_nil (List.splitOnP_ne_nil isBlank s)
  simp [words, List.splitOnP_cons_eq_if_modifyHead, hc, hd, hs]

end TreeSelect.Text
