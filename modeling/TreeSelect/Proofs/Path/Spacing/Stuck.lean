/-
# TreeSelect.Proofs.Path.Spacing.Stuck — words with nothing between them

A word that ends with a round bracket may have the next word written right behind it. A leading
`>` parts the two again, wherever it stands. The pass behind round brackets, though, parts a run
of words at one place only: in front of the last word of the run. So of three words or more in a
run, all but the last one stick together. `tokens_joinAt` says which words come out of a sequence
of words with nothing between some of them.
-/
import TreeSelect.Proofs.Path.Spacing.Apart

namespace TreeSelect.Spacing

open TreeSelect.Text

variable {m : Char} {s t u w : List Char}

/-! ## Passes over an unbroken run -/

/-- In a text without blanks, what holds of any two inked characters holds of all neighbours. -/
theorem isChain_of_not_blank {R : Char → Char → Prop} (hs : ∀ c ∈ s, isBlank c = false)
    (hR : ∀ {c d : Char}, isBlank c = false → isBlank d = false → R c d) : s.IsChain R := by
  induction s with
  | nil => exact .nil
  | cons c s ih =>
    obtain ⟨hc, hs⟩ := List.forall_mem_cons.mp hs
    exact List.isChain_cons.mpr ⟨fun d hd => hR hc (hs d (List.mem_of_mem_head? hd)), ih hs⟩

theorem closeAfter_of_not_blank (hs : ∀ c ∈ s, isBlank c = false) (m : Char) :
    closeAfter m s = s :=
  closeAfter_eq_self (isChain_of_not_blank hs fun _ hd _ => hd)

theorem closeBefore_of_not_blank (hs : ∀ c ∈ s, isBlank c = false) (m : Char) :
    closeBefore m s = s :=
  closeBefore_eq_self (isChain_of_not_blank hs fun hc _ h => by simp [hc] at h)

theorem closeAround_of_not_blank (hs : ∀ c ∈ s, isBlank c = false) (m : Char) :
    closeAround m s = s := by
  rw [closeAround, closeBefore_of_not_blank hs, closeAfter_of_not_blank hs]

/-- A mark that stands at most at the head of a text is not parted from anything in it. -/
theorem openBefore_of_not_mem_tail (hs : m ∉ s.tail) : openBefore m s = s := by
  apply openBefore_eq_self
  induction s with
  | nil => exact .nil
  | cons c s ih =>
    rw [List.tail_cons] at hs
    refine List.isChain_cons.mpr ⟨fun d hd _ hdm => ?_, ih fun h => hs (List.mem_of_mem_tail h)⟩
    exact hs (hdm ▸ List.mem_of_mem_head? hd)

theorem exists_openBefore_cons (m c : Char) (s : List Char) :
    ∃ t, openBefore m (c :: s) = c :: t := by
  cases s with
  | nil => exact ⟨[], rfl⟩
  | cons d s =>
    rw [openBefore]
    split
    · exact ⟨_, rfl⟩
    · exact ⟨_, rfl⟩

/-- A mark behind an unbroken run is parted from it. -/
theorem openBefore_append_mark (hu : ∀ c ∈ u, isBlank c = false) (hne : u ≠ []) (hm : m ∉ u.tail)
    (t : List Char) : openBefore m (u ++ m :: t) = u ++ ' ' :: m :: openBefore m t := by
  induction u with
  | nil => exact absurd rfl hne
  | cons c u ih =>
    obtain ⟨hc, hu⟩ := List.forall_mem_cons.mp hu
    rw [List.tail_cons] at hm
    cases u with
    | nil => simp [openBefore, hc]
    | cons d u =>
      have hd : d ≠ m := fun h => hm (h ▸ List.mem_cons_self)
      have hrest := ih hu (List.cons_ne_nil d u) fun h => hm (List.mem_cons_of_mem d h)
      rw [List.cons_append, List.cons_append, openBefore, if_neg (by simp [hd]),
        ← List.cons_append, hrest]
      rfl

/-! ## The last place behind a round bracket -/

theorem openAfterRound_append (hs : '(' ∉ s) (t : List Char) :
    openAfterRound (s ++ t) = s ++ openAfterRound t := by
  induction s with
  | nil => rfl
  | cons c s ih =>
    rw [List.mem_cons, not_or] at hs
    rw [List.cons_append, openAfterRound_of_none fun hc => absurd hc.symm hs.1, ih hs.2]
    rfl

/-- The last place of a run is where its last closing bracket has something behind it. -/
theorem glued?_append {c : Char} (hs : ∀ d ∈ s, isBlank d = false) (hc : isBlank c = false)
    (h : (c :: t).IsChain fun c d => c = ')' → isBlank d = true) :
    glued? (s ++ ')' :: c :: t) = some (s, c, t) := by
  induction s with
  | nil =>
    have hround : isBlank ')' = false := by decide
    rw [List.nil_append, glued?_cons, glued?_eq_none h]
    simp [hround, hc]
  | cons d s ih =>
    obtain ⟨hd, hs⟩ := List.forall_mem_cons.mp hs
    rw [List.cons_append, glued?_cons, hd, ih hs]
    rfl

/-! ## Runs of words -/

/-- An unbroken run that ends with a round bracket and has a leading mark at most at its head: one
word with an index, or several of them with nothing between them. -/
structure Bracketed (u : List Char) : Prop where
  not_blank : ∀ c ∈ u, isBlank c = false
  unmarked : ∀ c ∈ u.tail, c ∉ ['#', '>']
  opened : '(' ∈ u
  closed : u.getLast? = some ')'

theorem Bracketed.ne_nil (hu : Bracketed u) : u ≠ [] := List.ne_nil_of_mem hu.opened

theorem AtRest.unmarked (h : AtRest s) (hs : ∀ c ∈ s, isBlank c = false) :
    ∀ c ∈ s.tail, c ∉ ['#', '>'] := by
  induction s with
  | nil => simp
  | cons d s ih =>
    obtain ⟨hd, hs⟩ := List.forall_mem_cons.mp hs
    cases s with
    | nil => simp
    | cons e s =>
      obtain ⟨hde, hrest⟩ := List.isChain_cons_cons.mp h
      exact List.forall_mem_cons.mpr ⟨hde.2.2.1 hd, ih hrest hs⟩

/-- A word behind a run, where no leading mark comes between the two. -/
theorem Bracketed.unmarked_append (hu : Bracketed u) (hw : Standalone w)
    (hhead : ∀ c ∈ w.head?, c ∉ ['#', '>']) : ∀ c ∈ (u ++ w).tail, c ∉ ['#', '>'] := by
  intro c hc
  rw [List.tail_append_of_ne_nil hu.ne_nil, List.mem_append] at hc
  rcases hc with hc | hc
  · exact hu.unmarked c hc
  · cases w with
    | nil => cases hc
    | cons d w =>
      rcases List.mem_cons.mp hc with rfl | hc
      · exact hhead c rfl
      · exact hw.atRest.unmarked hw.not_blank c hc

theorem Bracketed.append (hu : Bracketed u) (hw : Standalone w) (hwu : Bracketed w)
    (hhead : ∀ c ∈ w.head?, c ∉ ['#', '>']) : Bracketed (u ++ w) where
  not_blank c hc := (List.mem_append.mp hc).elim (hu.not_blank c) (hw.not_blank c)
  unmarked := hu.unmarked_append hw hhead
  opened := List.mem_append_left w hu.opened
  closed := by rw [List.getLast?_append, hwu.closed, Option.some_or]

/-- Of a run with one more word behind it, the word is parted. -/
theorem openAfterRound_run (hu : Bracketed u) (hw : Standalone w) (hne : w ≠ []) :
    openAfterRound (u ++ w) = u ++ ' ' :: w := by
  obtain ⟨front, inner, rfl, hfront⟩ := List.eq_append_cons_of_mem hu.opened
  obtain ⟨c, w, rfl⟩ := List.exists_cons_of_ne_nil hne
  have hparted : (c :: w).IsChain fun c d => c = ')' → isBlank d = true :=
    hw.atRest.imp fun _ _ h => h.2.2.2
  -- Behind the first opening bracket the run goes on up to its last character, a closing one.
  obtain ⟨inner, rfl⟩ : ∃ rest, inner = rest ++ [')'] := by
    have hclosed := hu.closed
    rcases List.eq_nil_or_concat inner with rfl | ⟨rest, d, rfl⟩
    · simp at hclosed
    · exact ⟨rest, by simpa [List.getLast?_cons] using hclosed⟩
  have hinner : ∀ d ∈ inner, isBlank d = false := fun d hd => hu.not_blank d (by simp [hd])
  have hplace : glued? (inner ++ ')' :: c :: w) = some (inner, c, w) :=
    glued?_append hinner (hw.not_blank c List.mem_cons_self) hparted
  rw [List.append_assoc, openAfterRound_append hfront]
  simp [openAfterRound_of_glued? hplace, openAfterRound_eq_self (List.isChain_cons.mp hparted).2]

/-- Respacing parts a run in front of its last word, and nowhere else. -/
theorem normalize_run (hu : Bracketed u) (hw : Standalone w) (hne : w ≠ [])
    (hhead : ∀ c ∈ w.head?, c ∉ ['#', '>']) : normalize (u ++ w) = u ++ ' ' :: w := by
  have hblank : ∀ c ∈ u ++ w, isBlank c = false := fun c hc =>
    (List.mem_append.mp hc).elim (hu.not_blank c) (hw.not_blank c)
  have hmarks := hu.unmarked_append hw hhead
  have opened {m : Char} (hm : m ∈ ['#', '>']) : openBefore m (u ++ w) = u ++ w :=
    openBefore_of_not_mem_tail fun h => hmarks m h hm
  have hround : closeRound (u ++ w) = u ++ w :=
    closeRound_eq_self (isChain_of_not_blank hblank fun hc hd =>
      ⟨fun h => by simp [hc] at h, fun _ => hd⟩)
  rw [normalize, closeAfter_of_not_blank hblank, closeAfter_of_not_blank hblank,
    opened (by decide), opened (by decide), closeBefore_of_not_blank hblank,
    closeAfter_of_not_blank hblank, closeAround_of_not_blank hblank, hround,
    openAfterRound_run hu hw hne, closeAround_append_blank (by decide) isBlank_space,
    closeAround_of_not_blank hu.not_blank, closeAround_of_not_blank hw.not_blank]
  · rw [ink_of_not_blank hu.not_blank, hu.closed]
    decide
  · rw [ink_of_not_blank hw.not_blank]
    exact fun h => hw.head '|' h (by decide)

/-! ## A leading mark behind a run -/

/-- Behind a run the passes that close the gap behind a leading mark find nothing to do up to the
ink that follows a `>`. -/
theorem closeAfter_append_mark (hu : Bracketed u) (hm : m ∈ ['#', '>']) {c : Char}
    (hc : isBlank c = false) (hmark : c ∉ ['#', '>']) (t : List Char) :
    closeAfter m (u ++ '>' :: c :: t) = u ++ '>' :: c :: closeAfter m t ∧
      closeAfter m (u ++ ' ' :: '>' :: c :: t) = u ++ ' ' :: '>' :: c :: closeAfter m t := by
  have hcm : (c == m) = false := beq_eq_false_iff_ne.mpr fun h => hmark (h ▸ hm)
  have hspace : (' ' == m) = false := beq_eq_false_iff_ne.mpr fun h => absurd (h ▸ hm) (by decide)
  have hlast : (ink u).getLast? ≠ some m := by
    rw [ink_of_not_blank hu.not_blank, hu.closed]
    rintro ⟨⟩
    exact absurd hm (by decide)
  have hblank : isBlank m = false := not_blank_of_sealedBehind m (List.mem_append_left _ hm)
  have hink : isBlank '>' = false := by decide
  rw [closeAfter_append hblank hlast, closeAfter_append hblank hlast,
    closeAfter_of_not_blank hu.not_blank]
  simp [closeAfter, closeAfter.go, hc, hcm, hspace, hink]

/-- Whether a leading `>` stands right behind a run or a space behind it, respacing makes the same
of the text. -/
theorem normalize_append_mark (hu : Bracketed u) {c : Char} (hc : isBlank c = false)
    (hmark : c ∉ ['#', '>']) (t : List Char) :
    normalize (u ++ '>' :: c :: t) = normalize (u ++ ' ' :: '>' :: c :: t) := by
  have hchild {v : List Char} : openBefore '>' (u ++ '>' :: c :: v)
      = openBefore '>' (u ++ ' ' :: '>' :: c :: v) := by
    have hunmarked : '>' ∉ u.tail := fun h => hu.unmarked '>' h (by decide)
    have hstart : openBefore '>' ('>' :: c :: v) = '>' :: openBefore '>' (c :: v) :=
      openBefore_append ['>'] fun h => hmark (by simp [Option.some.inj h])
    rw [openBefore_append_mark hu.not_blank hu.ne_nil hunmarked,
      openBefore_append_blank (by decide) isBlank_space, openBefore_of_not_mem_tail hunmarked,
      hstart]
  have hid (v : List Char) : ∃ v', openBefore '#' (u ++ '>' :: c :: v) = u ++ '>' :: c :: v' ∧
      openBefore '#' (u ++ ' ' :: '>' :: c :: v) = u ++ ' ' :: '>' :: c :: v' := by
    obtain ⟨v', hv'⟩ := exists_openBefore_cons '#' c v
    have hunmarked : '#' ∉ u.tail := fun h => hu.unmarked '#' h (by decide)
    have hnext : (c :: v).head? ≠ some '#' := fun h => hmark (by simp [Option.some.inj h])
    have hrun : openBefore '#' u = u := openBefore_of_not_mem_tail hunmarked
    have hstart : openBefore '#' ('>' :: c :: v) = '>' :: c :: v' := by
      rw [← hv']
      exact openBefore_append ['>'] hnext
    refine ⟨v', ?_, ?_⟩
    · rw [openBefore_append u (by simp), hrun, hstart]
    · rw [openBefore_append_blank (by decide) isBlank_space, hrun, hstart]
  obtain ⟨v, hglued, hspaced⟩ := hid (closeAfter '>' (closeAfter '#' t))
  have hclose := closeAfter_append_mark hu (m := '#') (by decide) hc hmark t
  have hclose' := closeAfter_append_mark hu (m := '>') (by decide) hc hmark (closeAfter '#' t)
  rw [normalize, normalize, hclose.1, hclose.2, hclose'.1, hclose'.2, hglued, hspaced, hchild]

/-! ## Words in sequence -/

/-- Words in sequence, with nothing written at the glued boundaries and one space at all others.
Boundary `i` is the one behind word `i`. -/
def joinAt (glued : Nat → Bool) : List (List Char) → List Char
  | [] => []
  | [w] => w
  | w :: v :: ws =>
    w ++ ((if glued 0 then [] else [' ']) ++ joinAt (fun i => glued (i + 1)) (v :: ws))

/-- The words that come out of words in sequence. The run of words before them is written in front;
it sticks to the next word if no leading mark stands between the two and if this word is not the
last one of the run. -/
def stuckWords (glued : Nat → Bool) : List Char → List (List Char) → List (List Char)
  | _, [] => []
  | run, [w] => behind run w
  | run, w :: v :: ws =>
    if glued 0 && v.head? != some '>' then stuckWords (fun i => glued (i + 1)) (run ++ w) (v :: ws)
    else behind run w ++ stuckWords (fun i => glued (i + 1)) [] (v :: ws)
where
  /-- A run and the word that is parted from it. -/
  behind (run w : List Char) : List (List Char) := if run = [] then [w] else [run, w]

/-- Words that may be written in sequence with nothing at the glued boundaries: there the left one
ends with a round bracket. Only the first word may be marked as an identifier. -/
inductive Joinable : (Nat → Bool) → List (List Char) → Prop
  | single {glued : Nat → Bool} {w : List Char} : Standalone w → w ≠ [] → Joinable glued [w]
  | cons {glued : Nat → Bool} {w v : List Char} {ws : List (List Char)} : Standalone w → w ≠ [] →
      (glued 0 = true → Bracketed w) → v.head? ≠ some '#' →
      Joinable (fun i => glued (i + 1)) (v :: ws) → Joinable glued (w :: v :: ws)

/-- A word may follow a run, if there is one, when no leading mark comes between the two. -/
def Follows (run w : List Char) : Prop :=
  run = [] ∨ Bracketed run ∧ ∀ c ∈ w.head?, c ∉ ['#', '>']

/-- A run and its last word come out as two words. -/
theorem tokens_run {run : List Char} (hrun : Follows run w) (hw : Standalone w) (hne : w ≠ []) :
    tokens (run ++ w) = stuckWords.behind run w := by
  unfold stuckWords.behind
  rcases hrun with rfl | ⟨hrun, hhead⟩
  · rw [if_pos rfl, List.nil_append, tokens, hw.atRest.normalize,
      words_of_not_blank hne hw.not_blank]
  · rw [if_neg hrun.ne_nil, tokens, normalize_run hrun hw hne hhead,
      words_append_blank _ _ isBlank_space, words_of_not_blank hrun.ne_nil hrun.not_blank,
      words_of_not_blank hne hw.not_blank]
    rfl

theorem Follows.bracketed {run : List Char} (hrun : Follows run w) (hw : Standalone w)
    (hbracketed : Bracketed w) : Bracketed (run ++ w) := by
  rcases hrun with rfl | ⟨hrun, hhead⟩
  · exact hbracketed
  · exact hrun.append hw hbracketed hhead

theorem Follows.not_blank {run : List Char} (hrun : Follows run w) (hw : Standalone w) :
    ∀ c ∈ run ++ w, isBlank c = false := by
  intro c hc
  rcases List.mem_append.mp hc with hc | hc
  · rcases hrun with rfl | ⟨hrun, -⟩
    · cases hc
    · exact hrun.not_blank c hc
  · exact hw.not_blank c hc

theorem joinAt_cons (glued : Nat → Bool) (w : List Char) (ws : List (List Char)) :
    ∃ t, joinAt glued (w :: ws) = w ++ t := by
  cases ws with
  | nil => exact ⟨[], (List.append_nil w).symm⟩
  | cons v ws => exact ⟨_, rfl⟩

theorem Joinable.standalone {glued : Nat → Bool} {ws : List (List Char)}
    (h : Joinable glued (w :: ws)) : Standalone w ∧ w ≠ [] := by
  cases h with
  | single hw hne => exact ⟨hw, hne⟩
  | cons hw hne _ _ _ => exact ⟨hw, hne⟩

/-- A run is kept apart from the words that follow it, by a space or by their leading mark. -/
theorem tokens_append_joinAt {glued : Nat → Bool} {run v : List Char} {ws : List (List Char)}
    (hrun : Follows run w) (hw : Standalone w) (hne : w ≠ []) (h : Joinable glued (v :: ws))
    {gap : List Char} (hgap : gap = [' '] ∨ gap = [] ∧ Bracketed w ∧ v.head? = some '>') :
    tokens (run ++ w ++ (gap ++ joinAt glued (v :: ws)))
      = tokens (run ++ w) ++ tokens (joinAt glued (v :: ws)) := by
  obtain ⟨hv, hvne⟩ := h.standalone
  obtain ⟨t, ht⟩ := joinAt_cons glued v ws
  have hapart : Apart (run ++ w) (joinAt glued (v :: ws)) := by
    refine ⟨fun c hc hlast => ?_, fun c hc hhead => ?_⟩
    · rw [ink_of_not_blank (hrun.not_blank hw), List.getLast?_append_of_ne_nil _ hne] at hlast
      exact hw.last c hlast hc
    · rw [ht, ink_append, ink_of_not_blank hv.not_blank,
        List.head?_append_of_ne_nil _ hvne] at hhead
      exact hv.head c hhead hc
  have hspaced : tokens (run ++ w ++ ([' '] ++ joinAt glued (v :: ws)))
      = tokens (run ++ w) ++ tokens (joinAt glued (v :: ws)) :=
    tokens_append_blanks (by simp) (by simp) hapart
  rcases hgap with rfl | ⟨rfl, hbracketed, hmark⟩
  · exact hspaced
  · -- The mark is followed by ink of its word.
    obtain ⟨v, rfl⟩ := List.head?_eq_some_iff.mp hmark
    obtain ⟨c, v, rfl⟩ : ∃ c v', v = c :: v' := by
      refine List.exists_cons_of_ne_nil fun hnil => ?_
      exact hv.last '>' (by rw [hnil]; rfl) (by decide)
    have hunmarked : c ∉ ['#', '>'] :=
      hv.atRest.unmarked hv.not_blank c List.mem_cons_self
    have hparted := normalize_append_mark (hrun.bracketed hw hbracketed) (hv.not_blank c (by simp))
      hunmarked (v ++ t)
    rw [ht] at hspaced ⊢
    rw [← hspaced, tokens, tokens]
    exact congrArg words hparted

/-- The words of words in sequence. -/
theorem tokens_joinAt {glued : Nat → Bool} {ws : List (List Char)} (run : List Char)
    (h : Joinable glued ws) (hrun : ∀ w ∈ ws.head?, Follows run w) :
    tokens (run ++ joinAt glued ws) = stuckWords glued run ws := by
  induction h generalizing run with
  | @single glued w hw hne => exact tokens_run (hrun w rfl) hw hne
  | @cons glued w v ws hw hne hbracketed hid hrest ih =>
    have hfollows : Follows run w := hrun w rfl
    rw [joinAt, stuckWords, ← List.append_assoc]
    by_cases hsticks : (glued 0 && v.head? != some '>') = true
    · rw [if_pos hsticks]
      rw [Bool.and_eq_true, bne_iff_ne] at hsticks
      obtain ⟨hglued, hmark⟩ := hsticks
      rw [if_pos hglued, List.nil_append]
      refine ih (run ++ w) fun u hu => .inr ⟨hfollows.bracketed hw (hbracketed hglued), ?_⟩
      intro c hc
      obtain rfl : v = u := Option.some.inj hu
      rw [List.mem_pair, not_or]
      exact ⟨fun h => hid (h ▸ hc), fun h => hmark (h ▸ hc)⟩
    · have hgap : (if glued 0 = true then [] else [' ']) = [' '] ∨
          (if glued 0 = true then [] else [' ']) = [] ∧ Bracketed w ∧ v.head? = some '>' := by
        cases hglued : glued 0 with
        | false => exact .inl rfl
        | true =>
          rw [hglued, Bool.true_and, bne_iff_ne, not_not] at hsticks
          exact .inr ⟨rfl, hbracketed hglued, hsticks⟩
      have hwords : tokens ([] ++ joinAt (fun i => glued (i + 1)) (v :: ws))
          = stuckWords (fun i => glued (i + 1)) [] (v :: ws) := ih [] fun _ _ => .inl rfl
      rw [List.nil_append] at hwords
      rw [if_neg hsticks, tokens_append_joinAt hfollows hw hne hrest hgap, hwords,
        tokens_run hfollows hw hne]

/-! ## Which words stick together -/

/-- Nothing stands at a boundary, neither a blank nor a leading mark. -/
def Bare (glued : Nat → Bool) (ws : List (List Char)) (i : Nat) : Prop :=
  glued i = true ∧ ∃ v, ws[i + 1]? = some v ∧ v.head? ≠ some '>'

theorem bare_zero_iff {glued : Nat → Bool} {w v : List Char} {ws : List (List Char)} :
    Bare glued (w :: v :: ws) 0 ↔ (glued 0 && v.head? != some '>') = true := by
  simp [Bare]

theorem bare_succ_iff {glued : Nat → Bool} {w : List Char} {ws : List (List Char)} {i : Nat} :
    Bare glued (w :: ws) (i + 1) ↔ Bare (fun i => glued (i + 1)) ws i := Iff.rfl

/-- Where no two boundaries in a row are bare, all words come out. -/
theorem stuckWords_eq_self : ∀ (ws : List (List Char)) (glued : Nat → Bool), (∀ w ∈ ws, w ≠ []) →
    (∀ i, Bare glued ws i → ¬Bare glued ws (i + 1)) → stuckWords glued [] ws = ws
  | [], _, _, _ => rfl
  | [_], _, _, _ => rfl
  | [w, v], glued, hne, _ => by
    have hw : w ≠ [] := hne w List.mem_cons_self
    simp [stuckWords, stuckWords.behind, hw]
  | w :: v :: u :: ws, glued, hne, h => by
    have hw : w ≠ [] := hne w List.mem_cons_self
    rw [stuckWords]
    split
    · next hbare =>
      -- Behind two words that stick together the next boundary parts them from the others.
      have hnext : ¬(glued 1 && u.head? != some '>') = true := fun hu =>
        h 0 (bare_zero_iff.mpr hbare) (bare_succ_iff.mpr (bare_zero_iff.mpr hu))
      rw [stuckWords, if_neg hnext, List.nil_append, stuckWords.behind, if_neg hw,
        stuckWords_eq_self (u :: ws) _ (fun x hx => hne x (by simp [List.mem_cons.mp hx]))
          fun i => h (i + 2)]
      rfl
    · rw [stuckWords_eq_self (v :: u :: ws) _ (fun x hx => hne x (List.mem_cons_of_mem w hx))
        fun i => h (i + 1)]
      rfl

theorem mem_behind {run w : List Char} (hrun : run ≠ []) : run ∈ stuckWords.behind run w := by
  rw [stuckWords.behind, if_neg hrun]
  exact List.mem_cons_self

/-- A run in which two words stick together comes out as a part of one word. -/
theorem exists_mem_stuckWords_of_run {ws : List (List Char)} (hws : ws ≠ []) (glued : Nat → Bool)
    {run : List Char} (hrun : 2 ≤ run.count '(') :
    ∃ w ∈ stuckWords glued run ws, 2 ≤ w.count '(' := by
  have hne : run ≠ [] := by
    rintro rfl
    simp at hrun
  fun_induction stuckWords glued run ws with
  | case1 => exact absurd rfl hws
  | case2 => exact ⟨_, mem_behind hne, hrun⟩
  | case3 glued run w v ws hsticks ih =>
    refine ih (List.cons_ne_nil v ws) ?_ (by simp [hne])
    rw [List.count_append]
    exact Nat.le_add_right_of_le hrun
  | case4 glued run w v ws hparts _ =>
    exact ⟨run, List.mem_append_left _ (mem_behind hne), hrun⟩

/-- Where two boundaries in a row are bare behind words with a round bracket, a word with two of
them comes out. -/
theorem exists_mem_stuckWords {ws : List (List Char)} {glued : Nat → Bool} {i : Nat}
    (hopened : ∀ j w, Bare glued ws j → ws[j]? = some w → '(' ∈ w)
    (hi : Bare glued ws i) (hnext : Bare glued ws (i + 1)) (run : List Char) :
    ∃ w ∈ stuckWords glued run ws, 2 ≤ w.count '(' := by
  induction i generalizing ws glued run with
  | zero =>
    obtain ⟨u, hu, -⟩ := hnext.2
    match ws, hu with
    | w :: v :: _ :: ws, rfl =>
      have hw : '(' ∈ w := hopened 0 w hi rfl
      have hv : '(' ∈ v := hopened 1 v hnext rfl
      rw [stuckWords, if_pos (bare_zero_iff.mp hi), stuckWords,
        if_pos (bare_zero_iff.mp (bare_succ_iff.mp hnext))]
      refine exists_mem_stuckWords_of_run (List.cons_ne_nil _ _) _ ?_
      rw [List.count_append, List.count_append]
      have hwCount := List.count_pos_iff.mpr hw
      have hvCount := List.count_pos_iff.mpr hv
      omega
  | succ i ih =>
    obtain ⟨u, hu, -⟩ := hi.2
    match ws, hu with
    | w :: v :: ws, _ =>
      have hrest (run : List Char) : ∃ x ∈ stuckWords (fun i => glued (i + 1)) run (v :: ws),
          2 ≤ x.count '(' :=
        ih (fun j x hj hx => hopened (j + 1) x hj hx) hi hnext run
      rw [stuckWords]
      split
      · exact hrest (run ++ w)
      · obtain ⟨x, hx, hcount⟩ := hrest []
        exact ⟨x, List.mem_append_right _ hx, hcount⟩

end TreeSelect.Spacing
