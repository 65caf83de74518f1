/-
# TreeSelect.Proofs.Path.Spacing.Apart — two texts with a blank between them

The passes look across blanks: before a bracket, around an equality sign or a bar, behind a leading
mark. So a blank between two texts keeps them apart only if the first one does not end, and the
second one does not begin, with a character that such a look starts from (`Apart`). Then each pass
does to the whole what it does to the two parts, and so does their sequence
(`normalize_append_blank`).
-/
import TreeSelect.Proofs.Path.Spacing.Alike
import TreeSelect.Proofs.Path.Spacing.Loose

namespace TreeSelect.Spacing

open TreeSelect.Text

variable {m b : Char} {s t : List Char}

/-! ## Passes around single marks -/

theorem head?_append_cons (s : List Char) (b : Char) (t : List Char) :
    (s ++ b :: t).head? = some (s.head?.getD b) := by
  cases s <;> rfl

theorem ne_of_blank (hm : isBlank m = false) (hb : isBlank b = true) : b ≠ m := fun h =>
  Bool.false_ne_true (hm.symm.trans (h ▸ hb))

/-- Behind a text that does not end with the mark, up to blanks, the pass starts anew. -/
theorem closeAfter_append (hm : isBlank m = false) (hs : (ink s).getLast? ≠ some m)
    (t : List Char) : closeAfter m (s ++ t) = closeAfter m s ++ closeAfter m t := by
  -- While a mark has just been written, the text still has ink to come.
  suffices hgo : ∀ after : Bool, (ink s = [] → after = false) →
      closeAfter.go m after (s ++ t) = closeAfter.go m after s ++ closeAfter.go m false t
    from hgo false fun _ => rfl
  induction s with
  | nil =>
    intro after hafter
    rw [hafter rfl]
    rfl
  | cons c s ih =>
    intro after hafter
    rw [List.cons_append, closeAfter.go, closeAfter.go]
    cases hc : isBlank c with
    | true =>
      rw [ink_blank s hc] at hs hafter
      have hcm : (c == m) = false := beq_eq_false_iff_ne.mpr (ne_of_blank hm hc)
      cases after with
      | true => exact ih hs true fun h => hafter h
      | false =>
        rw [Bool.false_and, if_neg Bool.false_ne_true, if_neg Bool.false_ne_true, hcm,
          ih hs false fun _ => rfl]
        rfl
    | false =>
      rw [ink_cons_of_ink hc] at hs
      have hlast : (ink s).getLast? ≠ some m ∧ (ink s = [] → (c == m) = false) := by
        cases hink : ink s with
        | nil =>
          rw [hink] at hs
          exact ⟨by simp, fun _ => by simpa using hs⟩
        | cons d I =>
          rw [hink, List.getLast?_cons_cons] at hs
          exact ⟨hs, fun h => absurd h (List.cons_ne_nil _ _)⟩
      rw [Bool.and_false, if_neg Bool.false_ne_true, if_neg Bool.false_ne_true,
        ih hlast.1 _ hlast.2]
      rfl

theorem closeAfter_append_blank (hm : isBlank m = false) (hb : isBlank b = true) (t : List Char)
    (hs : (ink s).getLast? ≠ some m) :
    closeAfter m (s ++ b :: t) = closeAfter m s ++ b :: closeAfter m t := by
  have hblank : closeAfter m (b :: t) = b :: closeAfter m t := by
    rw [closeAfter, closeAfter.go, Bool.false_and, if_neg Bool.false_ne_true,
      beq_eq_false_iff_ne.mpr (ne_of_blank hm hb)]
    rfl
  rw [closeAfter_append hm hs, hblank]

theorem closeBefore_append_blank (hm : isBlank m = false) (hb : isBlank b = true) (s : List Char)
    (ht : (ink t).head? ≠ some m) :
    closeBefore m (s ++ b :: t) = closeBefore m s ++ b :: closeBefore m t := by
  induction s with
  | nil =>
    have hhead : (closeBefore m t).head? ≠ some m := by
      intro h
      obtain ⟨t', ht'⟩ := List.head?_eq_some_iff.mp h
      have hink := ink_closeBefore m t
      rw [ht', ink_cons_of_ink hm] at hink
      exact ht (hink ▸ rfl)
    simp only [List.nil_append, closeBefore]
    rw [hb, Bool.true_and, if_neg (by simpa using hhead)]
  | cons c s ih =>
    have hhead : ((closeBefore m s ++ b :: closeBefore m t).head? == some m)
        = ((closeBefore m s).head? == some m) := by
      rw [head?_append_cons]
      cases (closeBefore m s).head? with
      | none => simpa using ne_of_blank hm hb
      | some d => rfl
    simp only [List.cons_append, closeBefore, ih]
    rw [hhead]
    split
    · rfl
    · rfl

theorem closeAround_append_blank (hm : isBlank m = false) (hb : isBlank b = true)
    (hs : (ink s).getLast? ≠ some m) (ht : (ink t).head? ≠ some m) :
    closeAround m (s ++ b :: t) = closeAround m s ++ b :: closeAround m t := by
  rw [closeAround, closeBefore_append_blank hm hb s ht, closeAfter_append_blank hm hb]
  · rfl
  · rwa [ink_closeBefore]

/-- In front of anything but the mark, the pass starts anew. -/
theorem openBefore_append (s : List Char) (ht : t.head? ≠ some m) :
    openBefore m (s ++ t) = openBefore m s ++ openBefore m t := by
  fun_induction openBefore m s with
  | case1 c d rest hcd ih =>
    rw [List.cons_append, List.cons_append, openBefore, if_pos hcd, ih]
    rfl
  | case2 c d rest hcd ih =>
    rw [List.cons_append] at ih
    rw [List.cons_append, List.cons_append, openBefore, if_neg hcd, ih]
    rfl
  | case3 s hs =>
    rcases s with _ | ⟨c, _ | ⟨d, rest⟩⟩
    · rfl
    · cases t with
      | nil => rfl
      | cons e t =>
        have he : e ≠ m := fun h => ht (congrArg some h)
        rw [List.cons_append, List.nil_append, openBefore, if_neg (by simp [he])]
        rfl
    · exact absurd rfl (hs c d rest)

theorem openBefore_append_blank (hm : isBlank m = false) (hb : isBlank b = true)
    (s t : List Char) : openBefore m (s ++ b :: t) = openBefore m s ++ b :: openBefore m t := by
  have hstart : openBefore m (b :: t) = b :: openBefore m t := by
    cases t with
    | nil => rfl
    | cons d t => simp [openBefore, hb]
  have hhead : (b :: t).head? ≠ some m := fun h => ne_of_blank hm hb (Option.some.inj h)
  rw [openBefore_append s hhead, hstart]

/-! ## Round brackets -/

theorem dropWhile_append_cons (t : List Char) (hs : ink s ≠ []) :
    (s ++ t).dropWhile isBlank = s.dropWhile isBlank ++ t := by
  rw [List.dropWhile_append, if_neg]
  intro h
  apply hs
  rw [← ink_dropWhile, List.isEmpty_iff.mp h, ink_nil]

/-- The first run of a text ends before the blank, if it does not end earlier. -/
theorem firstRun_append_blank (hb : isBlank b = true) (t : List Char) (hs : ink s ≠ []) :
    firstRun (s ++ b :: t) = firstRun s ∧ afterRun (s ++ b :: t) = afterRun s ++ b :: t := by
  rw [firstRun, afterRun, dropWhile_append_cons _ hs, firstRun, afterRun]
  induction s.dropWhile isBlank with
  | nil => simp [hb]
  | cons c u ih =>
    cases hc : isBlank c with
    | true => simp [hc]
    | false => simpa [hc] using ih

/-- A bracket that opens a group opens the same one when a blank and a further text follow; one that
opens none still opens none, unless it stands right before the blank or the further text begins with
a closing bracket. -/
theorem group?_append_blank (hb : isBlank b = true) (hs : (ink s).getLast? ≠ some '(')
    (ht : (ink t).head? ≠ some ')') :
    group? (s ++ b :: t) = (group? s).map fun group => (group.1, group.2 ++ b :: t) := by
  cases s with
  | nil =>
    have hbr : b ≠ '(' := ne_of_blank (by decide) hb
    simp [group?, hbr]
  | cons c s =>
    by_cases hc : c = '('
    · subst hc
      have hne : ink s ≠ [] := by
        intro hnil
        rw [ink_cons_of_ink (by decide), hnil] at hs
        exact hs rfl
      obtain ⟨hrun, hafter⟩ := firstRun_append_blank hb t hne
      have hnext : (t.dropWhile isBlank).head? ≠ some ')' := by
        rw [head?_of_gapAt (gapAt_dropWhile_zero t), ink_dropWhile, ← List.head?_eq_getElem?]
        exact ht
      have hreach : ((afterRun s ++ b :: t).dropWhile isBlank) =
          if ((afterRun s).dropWhile isBlank) = [] then t.dropWhile isBlank
          else (afterRun s).dropWhile isBlank ++ b :: t := by
        rw [List.dropWhile_append, List.dropWhile_cons_of_pos hb]
        simp only [List.isEmpty_iff]
      rw [List.cons_append, group?_open, group?_open, hrun, hafter, hreach]
      cases hrest : (afterRun s).dropWhile isBlank with
      | nil =>
        rw [if_pos rfl]
        split
        · next h =>
          rw [h] at hnext
          exact absurd rfl hnext
        · simp [Function.comp_def]
      | cons d u =>
        rw [if_neg (List.cons_ne_nil d u), List.cons_append]
        by_cases hd : d = ')'
        · subst hd
          rfl
        · simp [hd, Function.comp_def]
    · simp [group?, hc]

theorem takeWhile_append_cons (t : List Char) (hs : ink s ≠ []) :
    (s ++ t).takeWhile isBlank = s.takeWhile isBlank := by
  induction s with
  | nil => exact absurd rfl hs
  | cons c s ih =>
    cases hc : isBlank c with
    | true =>
      rw [ink_blank s hc] at hs
      rw [List.cons_append, List.takeWhile_cons_of_pos hc, List.takeWhile_cons_of_pos hc, ih hs]
    | false => simp [hc]

/-- In front of a text that begins with no group the blanks stay. -/
theorem closeRound_blanks {blanks : List Char} (hblanks : ∀ c ∈ blanks, isBlank c = true)
    (hopen : (ink t).head? ≠ some '(') : closeRound (blanks ++ t) = blanks ++ closeRound t := by
  have hnone : group? (t.dropWhile isBlank) = none := by
    have hhead := head?_of_gapAt (gapAt_dropWhile_zero t)
    rw [ink_dropWhile, ← List.head?_eq_getElem?] at hhead
    rw [← hhead] at hopen
    cases hdrop : t.dropWhile isBlank with
    | nil => rfl
    | cons c u =>
      rw [hdrop] at hopen
      have hc : c ≠ '(' := fun h => hopen (h ▸ rfl)
      simp [group?, hc]
  have hdrop : (blanks ++ t).dropWhile isBlank = t.dropWhile isBlank :=
    List.dropWhile_append_of_pos hblanks
  have htake : (blanks ++ t).takeWhile isBlank = blanks ++ t.takeWhile isBlank :=
    List.takeWhile_append_of_pos hblanks
  cases hrest : t.dropWhile isBlank with
  | nil =>
    rw [closeRound_of_nil (hdrop.trans hrest), closeRound_of_nil hrest]
  | cons c u =>
    rw [closeRound_of_cons (hdrop ▸ hnone) (hdrop.trans hrest), closeRound_of_cons hnone hrest,
      htake, List.append_assoc]

theorem closeRound_append_blank (hb : isBlank b = true) (hs : (ink s).getLast? ≠ some '(')
    (hopen : (ink t).head? ≠ some '(') (hclose : (ink t).head? ≠ some ')') :
    closeRound (s ++ b :: t) = closeRound s ++ b :: closeRound t := by
  induction hlen : s.length using Nat.strongRecOn generalizing s with
  | ind n ih =>
  subst hlen
  have hgroup := group?_append_blank (s := s.dropWhile isBlank) hb (by rwa [ink_dropWhile]) hclose
  cases hrest : s.dropWhile isBlank with
  | nil =>
    have hall : s.takeWhile isBlank = s := by
      conv_rhs => rw [← List.takeWhile_append_dropWhile (p := isBlank) (l := s), hrest,
        List.append_nil]
    have hblanks : ∀ c ∈ s ++ [b], isBlank c = true := by
      have hblank : ∀ c ∈ s.takeWhile isBlank, isBlank c = true :=
        List.all_eq_true.mp List.all_takeWhile
      rw [hall] at hblank
      simpa [or_imp, forall_and] using ⟨hblank, hb⟩
    have h := closeRound_blanks hblanks hopen
    rw [closeRound_of_nil hrest]
    simpa using h
  | cons c rest =>
    obtain ⟨hc, -, hcut⟩ := goesOn_cons hrest
    have hink : ink s = c :: ink rest := by rw [← ink_dropWhile, hrest, ink_cons_of_ink hc]
    have hne : ink s ≠ [] := hink ▸ List.cons_ne_nil _ _
    rw [← dropWhile_append_cons _ hne] at hgroup
    cases hfound : group? (s.dropWhile isBlank) with
    | some group =>
      obtain ⟨inner, after⟩ := group
      rw [hfound, Option.map_some] at hgroup
      rw [closeRound_of_group? hfound, closeRound_of_group? hgroup]
      have hshort : after.length < s.length :=
        Nat.lt_of_lt_of_le (length_lt_of_group? hfound) (List.dropWhile_suffix _).length_le
      have hlast : (ink after).getLast? ≠ some '(' := by
        intro h
        apply hs
        rw [← ink_dropWhile, ink_group? hfound, List.getLast?_append, List.getLast?_cons, h]
        rfl
      rw [ih after.length hshort hlast rfl]
      simp
    | none =>
      rw [hfound, Option.map_none] at hgroup
      have hlast : (ink rest).getLast? ≠ some '(' := by
        intro h
        apply hs
        rw [hink, List.getLast?_cons, h]
        rfl
      have hshort : rest.length < s.length := by
        have hle := (List.dropWhile_suffix isBlank (l := s)).length_le
        rw [hrest] at hle
        exact hle
      have hdrop : (s ++ b :: t).dropWhile isBlank = c :: (rest ++ b :: t) := by
        rw [dropWhile_append_cons _ hne, hrest, List.cons_append]
      rw [closeRound_of_cons hfound hrest, closeRound_of_cons hgroup hdrop,
        takeWhile_append_cons _ hne, ih rest.length hshort hlast rfl]
      simp

/-! ## Parting behind round brackets -/

theorem glued?_cons (c : Char) (s : List Char) :
    glued? (c :: s) =
      if isBlank c then none
      else
        match glued? s with
        | some (before, next, after) => some (c :: before, next, after)
        | none =>
          match s with
          | next :: after => if c == ')' && isInk next then some ([], next, after) else none
          | [] => none := glued?.eq_def _

theorem glued?_append_blank (hb : isBlank b = true) (s t : List Char) :
    glued? (s ++ b :: t) =
      (glued? s).map fun place => (place.1, place.2.1, place.2.2 ++ b :: t) := by
  induction s with
  | nil => simp [glued?_cons, glued?, hb]
  | cons c s ih =>
    rw [List.cons_append, glued?_cons, glued?_cons, ih]
    cases hc : isBlank c with
    | true => rfl
    | false =>
      cases hplace : glued? s with
      | some place => rfl
      | none =>
        cases s with
        | nil => simp [hb]
        | cons d s =>
          simp only [List.cons_append, Bool.false_eq_true, if_false, Option.map_none]
          split
          · rfl
          · rfl

theorem openAfterRound_of_glued? {s before after : List Char} {next : Char}
    (h : glued? s = some (before, next, after)) :
    openAfterRound ('(' :: s) = '(' :: before ++ ')' :: ' ' :: next :: openAfterRound after := by
  rw [openAfterRound]
  split
  · next h' =>
    rw [if_pos rfl, h] at h'
    obtain ⟨rfl, rfl, rfl⟩ : before = _ ∧ next = _ ∧ after = _ := by simpa using h'
    rfl
  · next h' =>
    rw [if_pos rfl, h] at h'
    cases h'

theorem openAfterRound_of_none {c : Char} {s : List Char} (h : c = '(' → glued? s = none) :
    openAfterRound (c :: s) = c :: openAfterRound s := by
  rw [openAfterRound]
  split
  · next h' =>
    split at h'
    · next hc => cases (h hc).symm.trans h'
    · cases h'
  · rfl

theorem openAfterRound_append_blank (hb : isBlank b = true) (s t : List Char) :
    openAfterRound (s ++ b :: t) = openAfterRound s ++ b :: openAfterRound t := by
  fun_induction openAfterRound s with
  | case1 => exact openAfterRound_of_none fun h => absurd h (ne_of_blank (by decide) hb)
  | case2 c rest before next after =>
    rename_i hglued ih
    split at hglued
    · next hc =>
      subst hc
      have hplace : glued? (rest ++ b :: t) = some (before, next, after ++ b :: t) := by
        rw [glued?_append_blank hb, hglued]
        rfl
      rw [List.cons_append, openAfterRound_of_glued? hplace, ih]
      simp
    · cases hglued
  | case3 c rest =>
    rename_i hglued ih
    have hnone : c = '(' → glued? (rest ++ b :: t) = none := by
      intro hc
      rw [dif_pos hc] at hglued
      rw [glued?_append_blank hb, hglued]
      rfl
    rw [List.cons_append, openAfterRound_of_none hnone, ih]
    rfl

/-! ## All passes -/

/-- A blank between the two texts keeps them apart: the first one does not end with a character that
closes the gap behind it, and the second one does not begin with one that closes the gap before
it. -/
structure Apart (s t : List Char) : Prop where
  behind : ∀ c ∈ sealedBehind, (ink s).getLast? ≠ some c
  before : ∀ c ∈ sealedBefore, (ink t).head? ≠ some c

/-- Respacing goes by itself on both sides of a blank that keeps two texts apart. -/
theorem normalize_append_blank (hb : isBlank b = true) (h : Apart s t) :
    normalize (s ++ b :: t) = normalize s ++ b :: normalize t := by
  obtain ⟨hs, ht⟩ := h
  simp only [normalize]
  rw [closeAfter_append_blank (by decide) hb t (hs '#' (by decide)),
    closeAfter_append_blank (by decide) hb, openBefore_append_blank (by decide) hb,
    openBefore_append_blank (by decide) hb, closeBefore_append_blank (by decide) hb,
    closeAfter_append_blank (by decide) hb, closeAround_append_blank (by decide) hb,
    closeRound_append_blank hb, openAfterRound_append_blank hb,
    closeAround_append_blank (by decide) hb]
  all_goals
    simp only [closeAround, ink_closeAfter, ink_closeBefore, ink_openBefore, ink_closeRound,
      ink_openAfterRound]
  · exact hs '|' (by decide)
  · exact ht '|' (by decide)
  · exact hs '(' (by decide)
  · exact ht '(' (by decide)
  · exact ht ')' (by decide)
  · exact hs '=' (by decide)
  · exact ht '=' (by decide)
  · exact hs '[' (by decide)
  · exact ht ']' (by decide)
  · exact hs '>' (by decide)

/-- The words on both sides of blanks that keep two texts apart. -/
theorem tokens_append_blanks {blanks : List Char} (hne : blanks ≠ [])
    (hblanks : ∀ c ∈ blanks, isBlank c = true) (h : Apart s t) :
    tokens (s ++ (blanks ++ t)) = tokens s ++ tokens t := by
  obtain ⟨b, rest, rfl⟩ := List.exists_cons_of_ne_nil hne
  obtain ⟨hb, hrest⟩ := List.forall_mem_cons.mp hblanks
  have hapart : Apart s (rest ++ t) := by
    refine ⟨h.behind, fun c hc => ?_⟩
    rw [ink_append, ink_of_blank hrest, List.nil_append]
    exact h.before c hc
  have hright : tokens (rest ++ t) = tokens t := (Alike.of_blanks hrest t).tokens_eq
  rw [List.cons_append, tokens, normalize_append_blank hb hapart, words_append_blank _ _ hb,
    ← tokens, ← tokens, hright]

end TreeSelect.Spacing
