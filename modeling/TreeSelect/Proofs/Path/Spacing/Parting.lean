/-
# TreeSelect.Proofs.Path.Spacing.Parting — the gap behind a closed round bracket

The parting of round brackets looks at each unbroken run by itself. In a run with an opening bracket
it opens one gap: behind the last closing bracket that something is glued to, if that stands behind
the opening bracket (`Parts`). All other gaps stay as they are.
-/
import TreeSelect.Proofs.Path.Spacing.Gaps
import TreeSelect.Proofs.Path.Spacing.Rest

namespace TreeSelect.Spacing

open TreeSelect.Text

/-- Two inked characters stand in one unbroken run: there are no gaps between them. -/
def Joined (gap : Nat → List Char) (i k : Nat) : Prop := ∀ j, i < j → j ≤ k → gap j = []

/-- The gap at `k` is parted: it lies behind a closing bracket in a run with an opening bracket, and
the run holds no later closing bracket that something is glued to. -/
structure Parts (I : List Char) (gap : Nat → List Char) (k : Nat) : Prop where
  closing : inkBefore I k = some ')'
  inside : k < I.length
  opened : ∃ i, i < k ∧ I[i]? = some '(' ∧ Joined gap i k
  last : ∀ l, k < l → l < I.length → inkBefore I l = some ')' → ¬Joined gap k l

theorem Joined.congr {gap gap' : Nat → List Char} (h : ∀ k, gap (k + 1) = gap' (k + 1)) {i k : Nat}
    (hjoin : Joined gap i k) : Joined gap' i k := by
  intro j hij hjk
  have hj := hjoin j hij hjk
  rwa [show j = j - 1 + 1 by omega, h, show j - 1 + 1 = j by omega] at hj

theorem Joined.gap_eq_nil {gap : Nat → List Char} {i k : Nat} (h : Joined gap i k) (hik : i < k) :
    gap k = [] := h k hik (Nat.le_refl k)

theorem Parts.gap_eq_nil {I : List Char} {gap : Nat → List Char} {k : Nat} (h : Parts I gap k) :
    gap k = [] := by
  obtain ⟨i, hik, -, hjoin⟩ := h.opened
  exact hjoin.gap_eq_nil hik

/-- Parting does not depend on the blanks at the start of the text. -/
theorem Parts.congr {I : List Char} {gap gap' : Nat → List Char} {k : Nat} (h : Parts I gap k)
    (hgap : ∀ k, gap (k + 1) = gap' (k + 1)) : Parts I gap' k := by
  obtain ⟨i, hik, hopen, hjoin⟩ := h.opened
  refine ⟨h.closing, h.inside, ⟨i, hik, hopen, hjoin.congr hgap⟩, fun l hkl hl hclose hjoin' => ?_⟩
  exact h.last l hkl hl hclose (hjoin'.congr fun k => (hgap k).symm)

section GoesOn

variable {I J : List Char} {gap gap' : Nat → List Char} {n : Nat}

theorem GoesOn.joined_iff (h : GoesOn I gap n J gap') {i k : Nat} :
    Joined gap (n + i) (n + k) ↔ Joined gap' i k := by
  constructor
  · intro hjoin j hij hjk
    rw [← h.gap j]
    exact hjoin (n + j) (by omega) (by omega)
  · intro hjoin j hij hjk
    have hj := hjoin (j - n) (by omega) (by omega)
    rwa [← h.gap, show n + (j - n) = j by omega] at hj

theorem GoesOn.inkBefore (h : GoesOn I gap n J gap') {k : Nat} (hk : 0 < k) :
    inkBefore I (n + k) = inkBefore J k := by
  obtain ⟨j, rfl⟩ : ∃ j, k = j + 1 := ⟨k - 1, by omega⟩
  exact h.ink j

/-- In the rest of a text the parting is that of the rest by itself, if the opening bracket is in
the rest too. -/
theorem GoesOn.parts_iff (h : GoesOn I gap n J gap') {k : Nat} :
    Parts J gap' k ↔ Parts I gap (n + k) ∧
      ∃ i, i < k ∧ I[n + i]? = some '(' ∧ Joined gap (n + i) (n + k) := by
  constructor
  · intro hparts
    obtain ⟨i, hik, hopen, hjoin⟩ := hparts.opened
    have hopen' : I[n + i]? = some '(' := (h.ink i).trans hopen
    have hjoin' : Joined gap (n + i) (n + k) := h.joined_iff.mpr hjoin
    refine ⟨⟨?_, ?_, ⟨n + i, by omega, hopen', hjoin'⟩, ?_⟩, i, hik, hopen', hjoin'⟩
    · rw [h.inkBefore (by omega)]
      exact hparts.closing
    · rw [h.length]
      exact Nat.add_lt_add_left hparts.inside n
    · intro l hkl hl hclose hlast
      obtain ⟨l, rfl⟩ : ∃ j, l = n + j := ⟨l - n, by omega⟩
      rw [h.length] at hl
      rw [h.inkBefore (by omega)] at hclose
      exact hparts.last l (by omega) (by omega) hclose (h.joined_iff.mp hlast)
  · rintro ⟨hparts, i, hik, hopen, hjoin⟩
    refine ⟨?_, ?_, ⟨i, hik, (h.ink i).symm.trans hopen, h.joined_iff.mp hjoin⟩, ?_⟩
    · rw [← h.inkBefore (by omega)]
      exact hparts.closing
    · have hinside := hparts.inside
      rw [h.length] at hinside
      omega
    · intro l hkl hl hclose hlast
      refine hparts.last (n + l) (by omega) ?_ ?_ (h.joined_iff.mpr hlast)
      · rw [h.length]
        omega
      · rw [h.inkBefore (by omega)]
        exact hclose

end GoesOn

/-! ## The place that a run is parted at -/

/-- At `k`, in the run at the start of the text, something is glued to a closing bracket. -/
structure GluedAt (s : List Char) (k : Nat) : Prop where
  closing : inkBefore (ink s) k = some ')'
  inside : k < (ink s).length
  unbroken : ∀ j, j ≤ k → gapAt s j = []

/-- Behind the first character of a run there are the places of the rest of the run. -/
theorem GluedAt.of_cons {c : Char} {s : List Char} {k : Nat} (h : GluedAt (c :: s) (k + 1)) :
    isBlank c = false ∧ (k = 0 ∧ c = ')' ∧ s ≠ [] ∧ gapAt s 0 = [] ∨ GluedAt s k) := by
  have hc : isBlank c = false := by
    have hzero := h.unbroken 0 (Nat.zero_le _)
    cases hc : isBlank c with
    | false => rfl
    | true =>
      rw [gapAt_blank_zero s hc] at hzero
      cases hzero
  have hgap : ∀ j, j ≤ k → gapAt s j = [] := fun j hj => by
    rw [← gapAt_ink_succ s j hc]
    exact h.unbroken (j + 1) (by omega)
  have hclose := h.closing
  have hinside := h.inside
  rw [ink_cons_of_ink hc] at hclose hinside
  refine ⟨hc, ?_⟩
  cases k with
  | zero =>
    left
    refine ⟨rfl, by simpa using hclose, ?_, hgap 0 (Nat.le_refl 0)⟩
    rintro rfl
    simp at hinside
  | succ k =>
    right
    exact ⟨by simpa using hclose, by simpa using hinside, hgap⟩

/-- The search finds the last place. -/
theorem glued?_last {s : List Char} {k : Nat} (h : GluedAt s k) :
    ∃ before next after, glued? s = some (before, next, after) ∧ k ≤ before.length + 1 := by
  induction s generalizing k with
  | nil => exact absurd h.inside (Nat.not_lt_zero k)
  | cons c rest ih =>
    cases k with
    | zero => cases h.closing
    | succ k =>
      obtain ⟨hc, hk⟩ := h.of_cons
      unfold glued?
      rw [hc, if_neg Bool.false_ne_true]
      rcases hk with ⟨rfl, rfl, hne, hgap⟩ | hk
      · cases hrest : glued? rest with
        | some found => exact ⟨_, _, _, rfl, by omega⟩
        | none =>
          obtain ⟨next, after, rfl⟩ := List.exists_cons_of_ne_nil hne
          have hnext : isBlank next = false := by
            cases hb : isBlank next with
            | false => rfl
            | true =>
              rw [gapAt_blank_zero after hb] at hgap
              cases hgap
          refine ⟨[], next, after, ?_, by simp⟩
          simp [hnext]
      · obtain ⟨before, next, after, hrest, hle⟩ := ih hk
        refine ⟨c :: before, next, after, ?_, ?_⟩
        · rw [hrest]
        · rw [List.length_cons]
          omega

/-- In a run that begins with an opening bracket the last place is where the search stops. -/
theorem le_of_glued? {rest before after : List Char} {next : Char} {l : Nat}
    (hglued : glued? rest = some (before, next, after))
    (hclose : inkBefore (ink ('(' :: rest)) l = some ')') (hl : l < (ink ('(' :: rest)).length)
    (hjoin : Joined (gapAt ('(' :: rest)) 0 l) : l ≤ before.length + 2 := by
  have hplace : GluedAt ('(' :: rest) l := by
    refine ⟨hclose, hl, fun j hj => ?_⟩
    cases j with
    | zero => exact gapAt_ink_zero rest (by decide)
    | succ j => exact hjoin (j + 1) (Nat.succ_pos j) hj
  cases l with
  | zero => omega
  | succ l =>
    rcases hplace.of_cons.2 with ⟨-, hc, -⟩ | hplace
    · cases hc
    · obtain ⟨_, _, _, hfound, hle⟩ := glued?_last hplace
      rw [hglued] at hfound
      obtain ⟨rfl, -, -⟩ : before = _ ∧ _ ∧ _ := by simpa using hfound
      omega

theorem not_blank_of_glued {before : List Char} (hbefore : ∀ c ∈ before, isBlank c = false) :
    ∀ c ∈ '(' :: (before ++ [')']), isBlank c = false := by
  intro c hc
  rcases List.mem_cons.mp hc with rfl | hc
  · decide
  · rcases List.mem_append.mp hc with hc | hc
    · exact hbefore c hc
    · rw [List.mem_singleton.mp hc]
      decide

/-- Behind the place that it is parted at, a run goes on with the rest of the text. -/
theorem goesOn_glued {before : List Char} {next : Char}
    (hbefore : ∀ c ∈ before, isBlank c = false) (hnext : isBlank next = false) (t : List Char) :
    GoesOn (ink ('(' :: (before ++ ')' :: next :: t))) (gapAt ('(' :: (before ++ ')' :: next :: t)))
      (before.length + 3) (ink t) (gapAt t) := by
  have h := goesOn_append ('(' :: (before ++ [')'])) t hnext
  rw [ink_of_not_blank (not_blank_of_glued hbefore)] at h
  have hlen : ('(' :: (before ++ [')'])).length + 1 = before.length + 3 := by simp
  have heq : '(' :: (before ++ [')']) ++ next :: t = '(' :: (before ++ ')' :: next :: t) := by simp
  rwa [hlen, heq] at h

/-- The gaps of a run with a place to part at, before the parting and after it. -/
theorem gapAt_glued {before : List Char} {next : Char}
    (hbefore : ∀ c ∈ before, isBlank c = false) (hnext : isBlank next = false) (t : List Char) :
    (∀ k, k < before.length + 3 → gapAt ('(' :: (before ++ ')' :: next :: t)) k = []) ∧
      (∀ k, k < before.length + 2 → gapAt ('(' :: before ++ ')' :: ' ' :: next :: t) k = []) ∧
      gapAt ('(' :: before ++ ')' :: ' ' :: next :: t) (before.length + 2) = [' '] ∧
      ∀ k, gapAt ('(' :: before ++ ')' :: ' ' :: next :: t) (before.length + 3 + k)
        = gapAt t k := by
  have hrun := not_blank_of_glued hbefore
  have hrunNext : ∀ c ∈ '(' :: (before ++ [')']) ++ [next], isBlank c = false := by
    intro c hc
    rcases List.mem_append.mp hc with hc | hc
    · exact hrun c hc
    · rwa [List.mem_singleton.mp hc]
  have hlen : ('(' :: (before ++ [')'])).length = before.length + 2 := by simp
  have hglued : '(' :: (before ++ ')' :: next :: t) = '(' :: (before ++ [')']) ++ [next] ++ t := by
    simp
  have hparted : '(' :: before ++ ')' :: ' ' :: next :: t
      = '(' :: (before ++ [')']) ++ ' ' :: next :: t := by simp
  rw [hglued, hparted]
  refine ⟨fun k hk => ?_, fun k hk => ?_, ?_, fun k => ?_⟩
  · apply gapAt_append_of_lt hrunNext
    rw [List.length_append, hlen]
    exact hk
  · apply gapAt_append_of_lt hrun
    rw [hlen]
    exact hk
  · have hgap := gapAt_append_add hrun (' ' :: next :: t) 0
    rwa [hlen, gapAt_blank_zero _ isBlank_space, gapAt_ink_zero _ hnext] at hgap
  · have hgap := gapAt_append_add hrun (' ' :: next :: t) (k + 1)
    rwa [hlen, gapAt_blank_succ _ _ isBlank_space, gapAt_ink_succ _ _ hnext,
      show before.length + 2 + (k + 1) = before.length + 3 + k by omega] at hgap

/-- Blanks at the start of a text do not matter for the parting. -/
theorem parts_blank_iff {c : Char} {rest : List Char} (hc : isBlank c = true) {k : Nat} :
    Parts (ink (c :: rest)) (gapAt (c :: rest)) k ↔ Parts (ink rest) (gapAt rest) k := by
  have hgap : ∀ j, gapAt (c :: rest) (j + 1) = gapAt rest (j + 1) :=
    fun j => gapAt_blank_succ rest j hc
  rw [ink_blank rest hc]
  exact ⟨fun h => h.congr hgap, fun h => h.congr fun j => (hgap j).symm⟩

/-- Behind a character from which the search finds nothing, the parting is that of the rest. -/
theorem parts_ink_iff {c : Char} {rest : List Char} (hc : isBlank c = false)
    (hnone : c = '(' → glued? rest = none) {k : Nat} :
    Parts (ink (c :: rest)) (gapAt (c :: rest)) (k + 1) ↔ Parts (ink rest) (gapAt rest) k := by
  obtain ⟨hgoes, -⟩ := @goesOn_blanks [] c (by simp) hc rest
  rw [List.nil_append] at hgoes
  rw [hgoes.parts_iff, show 1 + k = k + 1 by omega]
  refine ⟨fun hparts => ⟨hparts, ?_⟩, fun h => h.1⟩
  obtain ⟨i, hik, hopen, hjoin⟩ := hparts.opened
  cases i with
  | zero =>
    -- From an opening bracket at the start the search would have found this place.
    have hplace : GluedAt (c :: rest) (k + 1) := by
      refine ⟨hparts.closing, hparts.inside, fun j hj => ?_⟩
      cases j with
      | zero => exact gapAt_ink_zero rest hc
      | succ j => exact hjoin (j + 1) (Nat.succ_pos j) hj
    rw [ink_cons_of_ink hc, List.getElem?_cons_zero, Option.some.injEq] at hopen
    rcases hplace.of_cons.2 with ⟨-, hclose, -⟩ | hplace
    · rw [hopen] at hclose
      cases hclose
    · obtain ⟨_, _, _, hfound, -⟩ := glued?_last hplace
      rw [hnone hopen] at hfound
      cases hfound
  | succ i =>
    refine ⟨i, by omega, ?_, ?_⟩
    · rwa [Nat.add_comm]
    · rwa [Nat.add_comm 1]

/-- A run that begins with an opening bracket is parted where the search stops, nowhere before, and
behind that as the rest of the text. -/
theorem parts_glued {rest before after : List Char} {next : Char}
    (hglued : glued? rest = some (before, next, after)) :
    (∀ k, k < before.length + 2 → ¬Parts (ink ('(' :: rest)) (gapAt ('(' :: rest)) k) ∧
      Parts (ink ('(' :: rest)) (gapAt ('(' :: rest)) (before.length + 2) ∧
      ∀ j, Parts (ink ('(' :: rest)) (gapAt ('(' :: rest)) (before.length + 3 + j)
        ↔ Parts (ink after) (gapAt after) j := by
  obtain ⟨hbefore, hnext⟩ := not_blank_of_glued? hglued
  have hrest := eq_of_glued? hglued
  have hgoes := goesOn_glued hbefore hnext after
  obtain ⟨hrun, -, -, -⟩ := gapAt_glued hbefore hnext after
  have hink : ink ('(' :: rest) = '(' :: (before ++ ')' :: next :: ink after) := by
    rw [hrest, ink_cons_of_ink (by decide), ink_append, ink_of_not_blank hbefore,
      ink_cons_of_ink (by decide), ink_cons_of_ink hnext]
  rw [← hrest] at hgoes hrun
  have hclose : inkBefore (ink ('(' :: rest)) (before.length + 2) = some ')' := by
    rw [hink, inkBefore_succ, List.getElem?_cons_succ, List.getElem?_append_right (by omega),
      Nat.sub_self, List.getElem?_cons_zero]
  have hinside : before.length + 2 < (ink ('(' :: rest)).length := by
    rw [hgoes.length]
    omega
  have hjoined : ∀ i k, k < before.length + 3 → Joined (gapAt ('(' :: rest)) i k :=
    fun i k hk j _ hjk => hrun j (by omega)
  -- A later place of the same run would have been found instead.
  have hlast : ∀ i l, i < before.length + 3 → inkBefore (ink ('(' :: rest)) l = some ')' →
      l < (ink ('(' :: rest)).length → Joined (gapAt ('(' :: rest)) i l →
      l ≤ before.length + 2 := by
    intro i l hi hl hlen hjoin
    refine le_of_glued? hglued hl hlen fun j hj hjl => ?_
    by_cases hij : i < j
    · exact hjoin j hij hjl
    · exact hrun j (by omega)
  refine ⟨fun k hk hparts => ?_, ⟨hclose, hinside, ⟨0, by omega, ?_, hjoined 0 _ (by omega)⟩, ?_⟩,
    fun j => ?_⟩
  · exact hparts.last _ hk hinside hclose (hjoined k _ (by omega))
  · rw [hink, List.getElem?_cons_zero]
  · intro l hkl hl hcl hjoin
    have := hlast _ l (by omega) hcl hl hjoin
    omega
  · rw [hgoes.parts_iff]
    refine ⟨fun hparts => ⟨hparts, ?_⟩, fun h => h.1⟩
    obtain ⟨i, hik, hopen, hjoin⟩ := hparts.opened
    by_cases hi : i < before.length + 3
    · have := hlast i _ hi hparts.closing hparts.inside hjoin
      omega
    · obtain ⟨i, rfl⟩ : ∃ l, i = before.length + 3 + l := ⟨i - (before.length + 3), by omega⟩
      exact ⟨i, by omega, hopen, hjoin⟩

/-- The parting opens the gap that is parted, with one space, and leaves all others as they are. -/
theorem gapAt_openAfterRound (s : List Char) (k : Nat) :
    Parts (ink s) (gapAt s) k ∧ gapAt (openAfterRound s) k = [' '] ∨
      ¬Parts (ink s) (gapAt s) k ∧ gapAt (openAfterRound s) k = gapAt s k := by
  fun_induction openAfterRound s generalizing k with
  | case1 =>
    right
    exact ⟨fun h => Nat.not_lt_zero _ h.inside, rfl⟩
  | case2 c rest before next after hglued ih =>
    split at hglued
    · next hc =>
      subst hc
      obtain ⟨hbefore, hnext⟩ := not_blank_of_glued? hglued
      obtain ⟨hno, hparts, hiff⟩ := parts_glued hglued
      obtain ⟨hrun, -, -, -⟩ := gapAt_glued hbefore hnext after
      obtain ⟨-, hclosed, hopened, hbehind⟩ := gapAt_glued hbefore hnext (openAfterRound after)
      have hgoes := goesOn_glued hbefore hnext after
      rw [← eq_of_glued? hglued] at hrun hgoes
      -- The run is parted at one place; behind it the search goes on.
      rcases Nat.lt_trichotomy k (before.length + 2) with hk | rfl | hk
      · right
        rw [hclosed k hk, hrun k (by omega)]
        exact ⟨hno k hk, rfl⟩
      · left
        exact ⟨hparts, hopened⟩
      · obtain ⟨j, rfl⟩ : ∃ j, k = before.length + 3 + j := ⟨k - (before.length + 3), by omega⟩
        rw [hbehind, hgoes.gap, hiff]
        exact ih j
    · cases hglued
  | case3 c rest hglued ih =>
    cases hc : isBlank c with
    | true =>
      rw [parts_blank_iff hc]
      cases k with
      | zero =>
        rw [gapAt_blank_zero _ hc, gapAt_blank_zero _ hc]
        right
        rcases ih 0 with ⟨hparts, -⟩ | ⟨hparts, hzero⟩
        · cases hparts.closing
        · exact ⟨hparts, congrArg (c :: ·) hzero⟩
      | succ k =>
        rw [gapAt_blank_succ _ k hc, gapAt_blank_succ _ k hc]
        exact ih (k + 1)
    | false =>
      cases k with
      | zero =>
        right
        rw [gapAt_ink_zero _ hc, gapAt_ink_zero _ hc]
        refine ⟨fun hparts => ?_, rfl⟩
        cases hparts.closing
      | succ k =>
        have hnone : c = '(' → glued? rest = none := fun ho => by rwa [dif_pos ho] at hglued
        rw [gapAt_ink_succ _ k hc, gapAt_ink_succ _ k hc, parts_ink_iff hc hnone]
        exact ih k

/-! ## Closing brackets that stay glued -/

theorem Joined.trans {gap : Nat → List Char} {i k l : Nat} (hik : Joined gap i k)
    (hkl : Joined gap k l) : Joined gap i l := by
  intro j hij hjl
  by_cases hjk : j ≤ k
  · exact hik j hij hjk
  · exact hkl j (by omega) hjl

/-- A run with a closing bracket that something is glued to, behind an opening one, is parted there
or further on. -/
theorem exists_parts {I : List Char} {gap : Nat → List Char} {i k : Nat}
    (hopen : I[i]? = some '(') (hik : i < k) (hjoin : Joined gap i k)
    (hclose : inkBefore I k = some ')') (hk : k < I.length) :
    ∃ l, k ≤ l ∧ Joined gap k l ∧ Parts I gap l := by
  by_cases hlast : ∀ l, k < l → l < I.length → inkBefore I l = some ')' → ¬Joined gap k l
  · refine ⟨k, Nat.le_refl k, fun j hkj hjk => ?_, ⟨hclose, hk, ⟨i, hik, hopen, hjoin⟩, hlast⟩⟩
    omega
  · push Not at hlast
    obtain ⟨l, hkl, hl, hlclose, hljoin⟩ := hlast
    obtain ⟨m, hlm, hmjoin, hparts⟩ :=
      exists_parts hopen (by omega) (hjoin.trans hljoin) hlclose hl
    exact ⟨m, by omega, hljoin.trans hmjoin, hparts⟩
termination_by I.length - k

/-- After the parting, what is still glued to a closing bracket behind an opening one has another
closing bracket in its run. -/
theorem exists_closing_of_joined {s : List Char} {i k : Nat} (hopen : (ink s)[i]? = some '(')
    (hik : i < k) (hjoin : Joined (gapAt (openAfterRound s)) i k)
    (hclose : inkBefore (ink s) k = some ')') (hk : k < (ink s).length) :
    ∃ l, k ≤ l ∧ (ink s)[l]? = some ')' ∧ Joined (gapAt (openAfterRound s)) k l := by
  have hbefore : Joined (gapAt s) i k := by
    intro j hij hjk
    have hj := hjoin j hij hjk
    rcases gapAt_openAfterRound s j with ⟨hparts, -⟩ | ⟨-, hsame⟩
    · exact hparts.gap_eq_nil
    · rwa [hsame] at hj
  obtain ⟨l, hkl, hkljoin, hparts⟩ := exists_parts hopen hik hbefore hclose hk
  -- The place that is parted is not this one, for here there is no gap afterwards.
  have hne : l ≠ k := by
    rintro rfl
    rcases gapAt_openAfterRound s l with ⟨-, hopened⟩ | ⟨hno, -⟩
    · rw [hjoin.gap_eq_nil hik] at hopened
      cases hopened
    · exact hno hparts
  obtain ⟨m, rfl⟩ : ∃ m, l = m + 1 := ⟨l - 1, by omega⟩
  refine ⟨m, by omega, hparts.closing, fun j hkj hjm => ?_⟩
  rcases gapAt_openAfterRound s j with ⟨hearlier, -⟩ | ⟨-, hsame⟩
  · refine absurd (fun n hjn hnm => hkljoin n (by omega) hnm)
      (hearlier.last (m + 1) (by omega) hparts.inside hparts.closing)
  · rw [hsame]
    exact hkljoin j hkj (by omega)

end TreeSelect.Spacing
