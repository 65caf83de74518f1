/-
# TreeSelect.Proofs.Path.Spacing.Settled — when respacing twice is respacing once

Respacing a text that was respaced before mostly finds nothing to do, but not always, for a pass
does not look again at what it has written. Two things are left to chance: where the parting of a
row of marks begins, and what becomes of the gaps beside round brackets. A respaced text is settled
when both come out as they are (`RowsSettled`, `RoundsSettled`), and this is exactly when respacing
leaves it unchanged.
-/
import TreeSelect.Path.Reader
import TreeSelect.Proofs.Path.Spacing.Spaced
import Mathlib

namespace TreeSelect.Spacing

open TreeSelect.Text

/-! ## Rows of marks -/

/-- A row of like marks begins glued exactly if it is glued to what stands before it, or if that is
the other mark. -/
def RowsSettled (I : List Char) (gap : Nat → List Char) : Prop :=
  ∀ k m, IsMark (some m) → I[k]? = some m → I[k + 1]? = some m → inkBefore I k ≠ some m →
    (gap (k + 1) = [] ↔ 0 < k ∧ (gap k = [] ∨ IsMark (inkBefore I k)))

/-- What the parting does in a row of marks. -/
theorem opens_row {I : List Char} {gap : Nat → List Char} {k : Nat} {m : Char}
    (hm : IsMark (some m)) (hk : I[k]? = some m) (hnext : I[k + 1]? = some m) :
    opens m I (swept I gap) (k + 1) = true ↔ opens m I (swept I gap) k = false := by
  rw [opens_succ, swept_eq_nil_iff, inkBefore_succ, hk]
  exact ⟨fun h => h.2.2, fun h => ⟨hnext, .inr hm, h⟩⟩

/-- In settled rows the parting opens the gaps that are open. -/
theorem opens_iff_of_settled {I : List Char} {gap : Nat → List Char} (h : Spaced I gap)
    (hrows : RowsSettled I gap) {m : Char} (hm : IsMark (some m)) {k : Nat}
    (hk : I[k]? = some m) (hnext : I[k + 1]? = some m) :
    opens m I (swept I gap) (k + 1) = true ↔ gap (k + 1) ≠ [] := by
  have hhead : ∀ k, I[k]? = some m → I[k + 1]? = some m → inkBefore I k ≠ some m →
      (opens m I (swept I gap) (k + 1) = true ↔ gap (k + 1) ≠ []) := by
    intro k hk hnext hne
    rw [opens_row hm hk hnext, ← Bool.not_eq_true, opens_of_head hne, swept_eq_nil_iff]
    apply not_congr
    rw [hrows k m hm hk hnext hne]
    exact ⟨fun h => ⟨h.2.2, h.2.1⟩, fun h => ⟨hk, h.2, h.1⟩⟩
  induction k with
  | zero => exact hhead 0 hk hnext (Option.some_ne_none m).symm
  | succ j ih =>
    by_cases hlike : I[j]? = some m
    · -- Further on in a row both sides alternate.
      have hprev : opens m I (swept I gap) (j + 1) = true ↔ gap (j + 1) ≠ [] := ih hlike hk
      have hbefore : inkBefore I (j + 1) = some m := hlike
      rw [opens_row hm hk hnext, ← Bool.not_eq_true, hprev]
      apply not_congr
      exact (h.alternate (j + 1) (hbefore ▸ hm) (hk.trans hbefore.symm)
        (hnext.trans hk.symm)).symm
    · exact hhead (j + 1) hk hnext hlike

/-! ## Round brackets -/

/-- The gaps as the closing of groups finds them: no blanks in front of a closing square bracket or
an equality sign, and a space in front of a leading mark that is glued to a bar or to an opening
round bracket. -/
def exposed (I : List Char) (gap : Nat → List Char) (k : Nat) : List Char :=
  if I[k]? = some ']' ∨ I[k]? = some '=' then []
  else if IsMark I[k]? ∧ (inkBefore I k = some '|' ∨ inkBefore I k = some '(') ∧ gap k = [] then
    [' ']
  else gap k

/-- What the closing of groups closes stays closed, but for the gap that is parted; and a leading
mark is glued to an opening round bracket only where that closing glues it. -/
structure RoundsSettled (I : List Char) (gap : Nat → List Char) : Prop where
  closed : ∀ k, inkBefore I k ≠ some '|' → I[k]? ≠ some '|' → grouped I (exposed I gap) k = [] →
    Parts I (grouped I (exposed I gap)) k ∧ gap k = [' '] ∨
      ¬Parts I (grouped I (exposed I gap)) k ∧ gap k = []
  marked : ∀ k, inkBefore I k = some '(' → IsMark I[k]? → gap k = [] →
    grouped I (exposed I gap) k = []

theorem exposed_of_ne {I : List Char} {gap : Nat → List Char} {k : Nat}
    (hbehind : I[k]? ≠ some ']' ∧ I[k]? ≠ some '=')
    (hmark : IsMark I[k]? → (inkBefore I k = some '|' ∨ inkBefore I k = some '(') → gap k ≠ []) :
    exposed I gap k = gap k := by
  rw [exposed, if_neg (not_or.mpr hbehind), if_neg]
  rintro ⟨hk, hbefore, hgap⟩
  exact hmark hk hbefore hgap

/-- In front of a mark that is not glued to a bar or to an opening bracket nothing is exposed. -/
theorem exposed_mark {I : List Char} {gap : Nat → List Char} {k : Nat} (hk : IsMark I[k]?)
    (hmark : (inkBefore I k = some '|' ∨ inkBefore I k = some '(') → gap k ≠ []) :
    exposed I gap k = gap k :=
  exposed_of_ne ⟨hk.ne (by decide), hk.ne (by decide)⟩ fun _ => hmark

/-- The gap between two leading marks in a respaced text with settled rows. -/
theorem gapAt_spaceMarks_between {t : List Char} (h : Spaced (ink t) (gapAt t))
    (hrows : RowsSettled (ink t) (gapAt t)) {k : Nat} {m : Char} (hm : IsMark (some m))
    (hk : (ink t)[k]? = some m) (hprev : IsMark (inkBefore (ink t) k)) :
    gapAt (spaceMarks t) k = gapAt t k := by
  obtain ⟨c, hc⟩ := hprev.exists_eq
  rw [gapAt_spaceMarks_mark hm hk ⟨hprev.ne (by decide), hprev.ne (by decide)⟩, swept,
    if_pos hprev]
  by_cases hlike : inkBefore (ink t) k = some m
  · obtain ⟨j, rfl⟩ : ∃ j, k = j + 1 := ⟨k - 1, (Nat.sub_add_cancel (pos_of_inkBefore hc)).symm⟩
    have hopens := opens_iff_of_settled h hrows hm hlike hk
    rcases h.like_marks (j + 1) hprev (hk.trans hlike.symm) with hgap | hgap
    · rw [if_neg fun ho => hopens.mp ho hgap, hgap]
    · rw [if_pos (hopens.mpr (hgap ▸ List.cons_ne_nil _ _)), hgap]
  · rw [h.between_marks k hprev (hk ▸ hm) (hk ▸ Ne.symm hlike), if_pos]
    rw [opens_of_head hlike, swept, if_pos hprev]
    exact ⟨hk, rfl, pos_of_inkBefore hc⟩

/-- The gap in front of a leading mark that follows none, in a respaced text. It is opened only
where the mark is glued to a bar or to an opening bracket. -/
theorem gapAt_spaceMarks_head {t : List Char} (h : Spaced (ink t) (gapAt t)) {k : Nat} {m : Char}
    (hm : IsMark (some m)) (hk : (ink t)[k]? = some m) (hprev : ¬IsMark (inkBefore (ink t) k))
    (hbefore : inkBefore (ink t) k ≠ some '[' ∧ inkBefore (ink t) k ≠ some '=') :
    gapAt (spaceMarks t) k = exposed (ink t) (gapAt t) k := by
  have hmark : IsMark (ink t)[k]? := hk ▸ hm
  have hswept : swept (ink t) (gapAt t) k = gapAt t k := if_neg hprev
  have hopens : opens m (ink t) (swept (ink t) (gapAt t)) k = true ↔ _ :=
    opens_of_head fun hlike => hprev (hlike ▸ hm)
  rw [gapAt_spaceMarks_mark hm hk hbefore, hswept]
  rw [hswept] at hopens
  by_cases hopen : gapAt t k = [] ∧ 0 < k
  · obtain ⟨hgap, hpos⟩ := hopen
    have hround : inkBefore (ink t) k = some '|' ∨ inkBefore (ink t) k = some '(' := by
      refine Classical.byContradiction fun hno => ?_
      refine h.before_mark k hpos hmark hprev (fun c hc => ?_) hgap
      simp only [List.mem_cons, List.not_mem_nil, or_false] at hc
      rcases hc with rfl | rfl | rfl | rfl
      · exact hbefore.1
      · exact hbefore.2
      · exact fun hb => hno (.inl hb)
      · exact fun hb => hno (.inr hb)
    rw [if_pos (hopens.mpr ⟨hk, hgap, hpos⟩), exposed, if_neg, if_pos ⟨hmark, hround, hgap⟩]
    rintro (hb | hb)
    · exact hmark.ne (by decide) hb
    · exact hmark.ne (by decide) hb
  · rw [if_neg fun ho => hopen (hopens.mp ho).2, exposed_mark hmark]
    intro hround hgap
    apply hopen
    rcases hround with hround | hround
    · exact ⟨hgap, pos_of_inkBefore hround⟩
    · exact ⟨hgap, pos_of_inkBefore hround⟩

/-- In a respaced text with settled rows the passes around single marks only expose gaps. -/
theorem gapAt_spaceMarks_eq_exposed {t : List Char} (h : Spaced (ink t) (gapAt t))
    (hrows : RowsSettled (ink t) (gapAt t)) (k : Nat) :
    gapAt (spaceMarks t) k = exposed (ink t) (gapAt t) k := by
  by_cases hbefore : inkBefore (ink t) k = some '[' ∨ inkBefore (ink t) k = some '='
  · have hgap : gapAt t k = [] := by
      rcases hbefore with hb | hb
      · exact h.closed k (.inl hb)
      · exact h.closed k (.inr (.inl hb))
    have hexposed : exposed (ink t) (gapAt t) k = [] := by
      unfold exposed
      split
      · rfl
      · rw [if_neg, hgap]
        rintro ⟨-, hround, -⟩
        rcases hbefore with hb | hb <;> rcases hround with hr | hr <;> rw [hb] at hr <;> cases hr
    rw [hexposed, gapAt_spaceMarks, if_pos]
    rcases hbefore with hb | hb
    · exact .inl hb
    · exact .inr (.inl hb)
  · obtain ⟨hsquare, hequal⟩ := not_or.mp hbefore
    by_cases hmark : IsMark (ink t)[k]?
    · obtain ⟨m, hk⟩ := hmark.exists_eq
      by_cases hprev : IsMark (inkBefore (ink t) k)
      · rw [gapAt_spaceMarks_between h hrows (hk ▸ hmark) hk hprev, exposed_mark hmark]
        rintro (hb | hb)
        · exact absurd hb (hprev.ne (by decide))
        · exact absurd hb (hprev.ne (by decide))
      · exact gapAt_spaceMarks_head h (hk ▸ hmark) hk hprev ⟨hsquare, hequal⟩
    · have hswept : swept (ink t) (gapAt t) k = gapAt t k := by
        unfold swept
        split
        · next hb => exact (h.behind_mark k hb hmark).symm
        · rfl
      rw [gapAt_spaceMarks, if_neg (not_opens_of_not_mark hmark), hswept, exposed]
      by_cases hbehind : (ink t)[k]? = some ']' ∨ (ink t)[k]? = some '='
      · rw [if_pos (.inr (.inr hbehind)), if_pos hbehind]
      · rw [if_neg hbehind, if_neg, if_neg fun hm => hmark hm.1]
        rintro (hb | hb | hb | hb)
        · exact hsquare hb
        · exact hequal hb
        · exact hbehind (.inl hb)
        · exact hbehind (.inr hb)

/-! ## Settled texts -/

/-- A text that respacing leaves unchanged has settled rows. -/
theorem rowsSettled_of_normalize {t : List Char} (h : normalize t = t) :
    RowsSettled (ink t) (gapAt t) := by
  intro k m hm hk hnext hhead
  have hbefore : IsMark (inkBefore (ink t) (k + 1)) := by
    rw [inkBefore_succ, hk]
    exact hm
  have hgap := gapAt_normalize_marks hm hnext hbefore
  have hrow : opens m (ink t) (swept (ink t) (gapAt t)) (k + 1) = true ↔ _ :=
    opens_row hm hk hnext
  have hfirst : opens m (ink t) (swept (ink t) (gapAt t)) k = true ↔ _ := opens_of_head hhead
  rw [swept_eq_nil_iff] at hfirst
  rw [h] at hgap
  rw [hgap]
  cases hopens : opens m (ink t) (swept (ink t) (gapAt t)) k with
  | true =>
    rw [if_neg (by rw [hrow, hopens]; decide)]
    exact ⟨fun _ => ⟨(hfirst.mp hopens).2.2, (hfirst.mp hopens).2.1⟩, fun _ => rfl⟩
  | false =>
    rw [if_pos (hrow.mpr hopens)]
    refine ⟨fun hne => absurd hne (List.cons_ne_nil _ _), fun hall => ?_⟩
    rw [hfirst.mpr ⟨hk, hall.2, hall.1⟩] at hopens
    cases hopens

/-- In a respaced text with settled rows, no blanks in empty brackets and no bar beside a gap,
respacing does to the gap what the two passes on round brackets do to it once it is exposed. -/
theorem gapAt_normalize_round {t : List Char}
    (hexposed : gapAt (spaceMarks t) = exposed (ink t) (gapAt t))
    (hollow : NoHollow (ink t) (exposed (ink t) (gapAt t))) {k : Nat}
    (hbefore : inkBefore (ink t) k ≠ some '|') (hbehind : (ink t)[k]? ≠ some '|') :
    Parts (ink t) (grouped (ink t) (exposed (ink t) (gapAt t))) k ∧
        gapAt (normalize t) k = [' '] ∨
      ¬Parts (ink t) (grouped (ink t) (exposed (ink t) (gapAt t))) k ∧
        gapAt (normalize t) k = grouped (ink t) (exposed (ink t) (gapAt t)) k := by
  have hgrouped : gapAt (closeRound (spaceMarks t))
      = grouped (ink t) (exposed (ink t) (gapAt t)) := by
    funext j
    rw [gapAt_closeRound_eq_grouped, ink_spaceMarks, hexposed]
    rwa [ink_spaceMarks, hexposed]
  have hround := gapAt_openAfterRound (closeRound (spaceMarks t)) k
  rw [ink_closeRound, ink_spaceMarks, hgrouped] at hround
  rwa [gapAt_normalize_of_not_bar hbefore hbehind]

/-- Nothing is exposed in front of a closing round bracket. -/
theorem exposed_hollow {I : List Char} {gap : Nat → List Char} {i : Nat}
    (hclose : I[i + 1]? = some ')') : exposed I gap (i + 1) = gap (i + 1) := by
  apply exposed_of_ne
  · rw [hclose]
    decide
  · intro hmark
    exact absurd hclose (hmark.ne (by decide))

/-- A respaced text that respacing leaves unchanged has settled round brackets. -/
theorem roundsSettled_of_normalize {t : List Char} (hspaced : Spaced (ink t) (gapAt t))
    (h : normalize t = t) : RoundsSettled (ink t) (gapAt t) := by
  have hexposed : gapAt (spaceMarks t) = exposed (ink t) (gapAt t) :=
    funext (gapAt_spaceMarks_eq_exposed hspaced (rowsSettled_of_normalize h))
  have hollow : NoHollow (ink t) (exposed (ink t) (gapAt t)) := by
    intro i hopen hclose
    have hbefore : inkBefore (ink t) (i + 1) = some '(' := hopen
    have hgap := @gapAt_normalize_of_not_bar t (i + 1) (by rw [hbefore]; decide)
      (by rw [hclose]; decide)
    rw [gapAt_openAfterRound_of_ne, h] at hgap
    · rw [exposed_hollow hclose, hgap]
      apply noHollow_closeRound (spaceMarks t)
      · rwa [ink_spaceMarks]
      · rwa [ink_spaceMarks]
    · rw [ink_closeRound, ink_spaceMarks, hbefore]
      decide
  refine ⟨fun k hbefore hbehind hgrouped => ?_, fun k hbefore hmark hgap => ?_⟩
  · have hround := gapAt_normalize_round hexposed hollow hbefore hbehind
    rwa [h, hgrouped] at hround
  · have hround := @gapAt_normalize_round t hexposed hollow k (by rw [hbefore]; decide)
      (hmark.ne (by decide))
    rw [h, hgap] at hround
    rcases hround with ⟨-, hk⟩ | ⟨-, hk⟩
    · cases hk
    · exact hk.symm

namespace RoundsSettled

variable {I : List Char} {gap : Nat → List Char}

/-- With settled round brackets no blanks stand in an empty pair of them. -/
theorem noHollow (h : RoundsSettled I gap) : NoHollow I (exposed I gap) := by
  intro i hopen hclose
  have hbefore : inkBefore I (i + 1) = some '(' := hopen
  have hgrouped : grouped I (exposed I gap) (i + 1) = [] := by
    rw [grouped, if_pos]
    refine ⟨i, i + 1, ⟨hopen, hclose, Nat.lt_succ_self i, fun j hj hj' => ?_⟩, .inr (.inl rfl)⟩
    omega
  rw [exposed_hollow hclose]
  rcases h.closed (i + 1) (by rw [hbefore]; decide) (by rw [hclose]; decide) hgrouped with
    ⟨hparts, -⟩ | ⟨-, hgap⟩
  · have hparted := hparts.closing
    rw [hbefore] at hparted
    cases hparted
  · exact hgap

/-- A gap that the closing of groups leaves open is no exposed one. -/
theorem grouped_of_open (h : RoundsSettled I gap) {k : Nat} (hbar : inkBefore I k ≠ some '|')
    (hopen : grouped I (exposed I gap) k ≠ []) : grouped I (exposed I gap) k = gap k := by
  by_cases hcloses : Closes I (exposed I gap) k
  · exact absurd (if_pos hcloses) hopen
  · have hgrouped : grouped I (exposed I gap) k = exposed I gap k := if_neg hcloses
    rw [hgrouped] at hopen ⊢
    apply exposed_of_ne
    · rw [← not_or]
      intro hb
      exact hopen (if_pos hb)
    · intro hmark hround hgap
      rcases hround with hb | hb
      · exact hbar hb
      · exact hopen (hgrouped.symm.trans (h.marked k hb hmark hgap))

end RoundsSettled

/-- A respaced text that is settled is left unchanged. -/
theorem normalize_of_settled {t : List Char} (hspaced : Spaced (ink t) (gapAt t))
    (hrows : RowsSettled (ink t) (gapAt t)) (hrounds : RoundsSettled (ink t) (gapAt t)) :
    normalize t = t := by
  have hexposed : gapAt (spaceMarks t) = exposed (ink t) (gapAt t) :=
    funext (gapAt_spaceMarks_eq_exposed hspaced hrows)
  refine eq_of_gapAt (ink_normalize t) fun k => ?_
  by_cases hbar : inkBefore (ink t) k = some '|' ∨ (ink t)[k]? = some '|'
  · rw [gapAt_normalize_bar hbar]
    exact (hspaced.closed k (.inr (.inr hbar))).symm
  · obtain ⟨hbefore, hbehind⟩ := not_or.mp hbar
    have hround := gapAt_normalize_round hexposed hrounds.noHollow hbefore hbehind
    by_cases hgrouped : grouped (ink t) (exposed (ink t) (gapAt t)) k = []
    · -- A gap that is closed: it is parted or not, now as before.
      rw [hgrouped] at hround
      rcases hrounds.closed k hbefore hbehind hgrouped with ⟨hparts, hgap⟩ | ⟨hparts, hgap⟩
      · rcases hround with ⟨-, hk⟩ | ⟨hno, -⟩
        · rw [hk, hgap]
        · exact absurd hparts hno
      · rcases hround with ⟨hyes, -⟩ | ⟨-, hk⟩
        · exact absurd hyes hparts
        · rw [hk, hgap]
    · rcases hround with ⟨hparts, -⟩ | ⟨-, hk⟩
      · exact absurd hparts.gap_eq_nil hgrouped
      · rw [hk, hrounds.grouped_of_open hbefore hgrouped]

/-- A respaced text is left unchanged by respacing exactly if it is settled. -/
theorem normalize_eq_self_iff {t : List Char} (hspaced : Spaced (ink t) (gapAt t)) :
    normalize t = t ↔ RowsSettled (ink t) (gapAt t) ∧ RoundsSettled (ink t) (gapAt t) :=
  ⟨fun h => ⟨rowsSettled_of_normalize h, roundsSettled_of_normalize hspaced h⟩,
    fun ⟨hrows, hrounds⟩ => normalize_of_settled hspaced hrows hrounds⟩

end TreeSelect.Spacing

namespace TreeSelect

open TreeSelect.Spacing

/-- Respacing a text twice gives what respacing it once gives exactly if, after the first time, the
rows of marks and the round brackets are settled. -/
theorem normalize_normalize_eq_iff (text : String) :
    Path.normalize (Path.normalize text) = Path.normalize text ↔
      RowsSettled (ink text.toList) (gapAt (Path.normalize text).toList) ∧
        RoundsSettled (ink text.toList) (gapAt (Path.normalize text).toList) := by
  have hlist : (Path.normalize text).toList = Spacing.normalize text.toList :=
    String.toList_ofList
  have hspaced := spaced_normalize text.toList
  rw [← ink_normalize, ← hlist] at hspaced ⊢
  rw [← normalize_eq_self_iff hspaced]
  constructor
  · intro h
    have hchars := congrArg String.toList h
    rwa [Path.normalize, String.toList_ofList] at hchars
  · intro h
    rw [Path.normalize, h, String.ofList_toList]

/-- In `a ##` the row of marks begins glued although it is parted from the name, so respacing the
respaced text changes it again. -/
theorem normalize_normalize_ne_of_row :
    Path.normalize (Path.normalize "a##") ≠ Path.normalize "a##" := by
  have hfirst : Path.normalize "a##" = "a ##" := by cbv
  have hsecond : Path.normalize "a ##" = "a # #" := by cbv
  rw [hfirst, hsecond]
  decide

end TreeSelect
