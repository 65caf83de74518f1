/-
# TreeSelect.Proofs.Path.Spacing.Pairs — texts whose round brackets come in pairs

In the words of a path the round brackets enclose the digits of an index, so each is one of a pair
with an unbroken text between the two. `Rounds` says so of a text, piece by piece, and `Paired` of
its ink and gaps.
-/
import TreeSelect.Proofs.Path.Spacing.Gaps

namespace TreeSelect.Spacing

open TreeSelect.Text

/-- A character that may stand between a pair of round brackets. -/
def Inner (c : Char) : Prop := isBlank c = false ∧ c ∉ ['(', ')', '|']

/-- The round brackets of the text come in pairs, each around an unbroken text that is not empty
and holds no round bracket and no bar. -/
inductive Rounds : List Char → Prop
  | nil : Rounds []
  | cons {c : Char} {s : List Char} : c ∉ ['(', ')'] → Rounds s → Rounds (c :: s)
  | pair {inner s : List Char} : inner ≠ [] → (∀ c ∈ inner, Inner c) → Rounds s →
      Rounds ('(' :: (inner ++ ')' :: s))

namespace Rounds

variable {s t : List Char}

theorem append (hs : Rounds s) (ht : Rounds t) : Rounds (s ++ t) := by
  induction hs with
  | nil => exact ht
  | cons hc _ ih => exact .cons hc ih
  | pair hne hinner _ ih =>
    rw [List.cons_append, List.append_assoc, List.cons_append]
    exact .pair hne hinner ih

theorem of_not_mem (h : ∀ c ∈ s, c ∉ ['(', ')']) : Rounds s := by
  induction s with
  | nil => exact .nil
  | cons c s ih =>
    exact .cons (h c List.mem_cons_self) (ih fun d hd => h d (List.mem_cons_of_mem _ hd))

end Rounds

/-- The brackets at `i` and at `m` are a pair, and there are no gaps inside. -/
structure Encloses (I : List Char) (gap : Nat → List Char) (i m : Nat) : Prop where
  opening : I[i]? = some '('
  closing : I[m]? = some ')'
  apart : i + 1 < m
  inner : ∀ j, i < j → j < m → ∃ c, I[j]? = some c ∧ Inner c
  unbroken : ∀ j, i < j → j ≤ m → gap j = []

/-- Each round bracket is one of a pair. -/
structure Paired (I : List Char) (gap : Nat → List Char) : Prop where
  opening : ∀ i, I[i]? = some '(' → ∃ m, Encloses I gap i m
  closing : ∀ m, I[m]? = some ')' → ∃ i, Encloses I gap i m

theorem Encloses.congr {I : List Char} {gap gap' : Nat → List Char} {i m : Nat}
    (h : Encloses I gap i m) (hgap : ∀ k, gap (k + 1) = gap' (k + 1)) : Encloses I gap' i m := by
  refine ⟨h.opening, h.closing, h.apart, h.inner, fun j hij hjm => ?_⟩
  have hj := h.unbroken j hij hjm
  rwa [show j = j - 1 + 1 by omega, hgap, show j - 1 + 1 = j by omega] at hj

/-- Up to the end of a pair there are no round brackets but its own two. -/
theorem Encloses.eq_of_round {I : List Char} {gap : Nat → List Char} {i m j : Nat}
    (h : Encloses I gap i m) (hij : i ≤ j) (hjm : j ≤ m) :
    (I[j]? = some '(' → j = i) ∧ (I[j]? = some ')' → j = m) := by
  have hinner : i < j → j < m → ∀ c ∈ ['(', ')', '|'], I[j]? ≠ some c := by
    intro hi hm c hc hget
    obtain ⟨d, hd, -, hround⟩ := h.inner j hi hm
    exact hround (Option.some.inj (hd.symm.trans hget) ▸ hc)
  refine ⟨fun hopen => ?_, fun hclose => ?_⟩
  · rcases Nat.eq_or_lt_of_le hij with rfl | hi
    · rfl
    · rcases Nat.eq_or_lt_of_le hjm with rfl | hm
      · cases h.closing.symm.trans hopen
      · exact absurd hopen (hinner hi hm '(' (by simp))
  · rcases Nat.eq_or_lt_of_le hjm with rfl | hm
    · rfl
    · rcases Nat.eq_or_lt_of_le hij with rfl | hi
      · cases h.opening.symm.trans hclose
      · exact absurd hclose (hinner hi hm ')' (by simp))

section GoesOn

variable {I J : List Char} {gap gap' : Nat → List Char} {n : Nat}

theorem GoesOn.encloses (h : GoesOn I gap n J gap') {i m : Nat} (him : Encloses J gap' i m) :
    Encloses I gap (n + i) (n + m) := by
  have hapart := him.apart
  refine ⟨(h.ink i).trans him.opening, (h.ink m).trans him.closing, by omega,
    fun j hij hjm => ?_, fun j hij hjm => ?_⟩
  · obtain ⟨j, rfl⟩ : ∃ l, j = n + l := ⟨j - n, by omega⟩
    rw [h.ink]
    exact him.inner j (by omega) (by omega)
  · obtain ⟨j, rfl⟩ : ∃ l, j = n + l := ⟨j - n, by omega⟩
    rw [h.gap]
    exact him.unbroken j (by omega) (by omega)

/-- If the brackets in front of the rest of a text are in pairs and those of the rest are, all
are. -/
theorem GoesOn.paired (h : GoesOn I gap n J gap') (hJ : Paired J gap')
    (hopen : ∀ i, i < n → I[i]? = some '(' → ∃ m, Encloses I gap i m)
    (hclose : ∀ m, m < n → I[m]? = some ')' → ∃ i, Encloses I gap i m) : Paired I gap := by
  refine ⟨fun i hi => ?_, fun m hm => ?_⟩
  · by_cases hlt : i < n
    · exact hopen i hlt hi
    · obtain ⟨i, rfl⟩ : ∃ l, i = n + l := ⟨i - n, by omega⟩
      obtain ⟨m, him⟩ := hJ.opening i ((h.ink i).symm.trans hi)
      exact ⟨_, h.encloses him⟩
  · by_cases hlt : m < n
    · exact hclose m hlt hm
    · obtain ⟨m, rfl⟩ : ∃ l, m = n + l := ⟨m - n, by omega⟩
      obtain ⟨i, him⟩ := hJ.closing m ((h.ink m).symm.trans hm)
      exact ⟨_, h.encloses him⟩

end GoesOn

/-- A pair at the start of a text. -/
theorem encloses_pair {inner : List Char} (hne : inner ≠ []) (hinner : ∀ c ∈ inner, Inner c)
    (s : List Char) : Encloses (ink ('(' :: (inner ++ ')' :: s)))
      (gapAt ('(' :: (inner ++ ')' :: s))) 0 (inner.length + 1) := by
  have hrun : ∀ c ∈ '(' :: (inner ++ [')']), isBlank c = false := by
    simp only [List.mem_cons, List.mem_append, List.not_mem_nil, or_false]
    rintro c (rfl | hc | rfl)
    · decide
    · exact (hinner c hc).1
    · decide
  have hs : '(' :: (inner ++ ')' :: s) = '(' :: (inner ++ [')']) ++ s := by simp
  have hpos := List.length_pos_iff.mpr hne
  rw [hs, ink_append, ink_of_not_blank hrun]
  refine ⟨rfl, by simp, by omega, fun j hj hjm => ?_, fun j hj hjm => ?_⟩
  · obtain ⟨j, rfl⟩ : ∃ l, j = l + 1 := ⟨j - 1, by omega⟩
    have hlt : j < inner.length := by omega
    refine ⟨inner[j], ?_, hinner _ (List.getElem_mem hlt)⟩
    simp [List.getElem?_append_left hlt]
  · apply gapAt_append_of_lt hrun
    simp only [List.length_cons, List.length_append, List.length_nil]
    omega

theorem Rounds.paired {s : List Char} (h : Rounds s) : Paired (ink s) (gapAt s) := by
  induction h with
  | nil => exact ⟨fun i hi => (by cases hi), fun m hm => (by cases hm)⟩
  | @cons c s hround _ ih =>
    cases hc : isBlank c with
    | true =>
      have hgap : ∀ k, gapAt s (k + 1) = gapAt (c :: s) (k + 1) :=
        fun k => (gapAt_blank_succ s k hc).symm
      rw [ink_blank s hc]
      exact ⟨fun i hi => (ih.opening i hi).imp fun m him => him.congr hgap,
        fun m hm => (ih.closing m hm).imp fun i him => him.congr hgap⟩
    | false =>
      obtain ⟨hgoes, -⟩ := @goesOn_blanks [] c (by simp) hc s
      rw [List.nil_append] at hgoes
      have hfirst : ∀ d ∈ ['(', ')'], ∀ i, i < 1 → (ink (c :: s))[i]? ≠ some d := by
        intro d hd i hi hget
        obtain rfl : i = 0 := by omega
        rw [ink_cons_of_ink hc, List.getElem?_cons_zero, Option.some.injEq] at hget
        exact hround (hget ▸ hd)
      exact hgoes.paired ih (fun i hi hget => absurd hget (hfirst '(' (by simp) i hi))
        fun m hm hget => absurd hget (hfirst ')' (by simp) m hm)
  | @pair inner s hne hinner _ ih =>
    have hpair := encloses_pair hne hinner s
    have hopened : ∀ c ∈ '(' :: inner, isBlank c = false := by
      rintro c (_ | ⟨_, hc⟩)
      · decide
      · exact (hinner c hc).1
    have hgoes := goesOn_append ('(' :: inner) s (by decide : isBlank ')' = false)
    rw [ink_of_not_blank hopened, List.cons_append, List.length_cons] at hgoes
    refine hgoes.paired ih (fun i hi hget => ?_) fun m hm hget => ?_
    · rw [(hpair.eq_of_round (Nat.zero_le i) (by omega)).1 hget]
      exact ⟨_, hpair⟩
    · rw [(hpair.eq_of_round (Nat.zero_le m) (by omega)).2 hget]
      exact ⟨_, hpair⟩

end TreeSelect.Spacing
