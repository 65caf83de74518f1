/-
# TreeSelect.Proofs.Path.Spacing.Spaced — the gaps of every respaced text

Whatever text is respaced, the gaps of the outcome obey some rules (`Spaced`). They come from the
passes around single marks: beside a leading mark, a square bracket, an equality sign or a bar the
later passes change nothing but what they open behind a closing round bracket.
-/
import TreeSelect.Proofs.Path.Spacing.Groups
import TreeSelect.Proofs.Path.Spacing.Parting

namespace TreeSelect.Spacing

open TreeSelect.Text

/-! ## The passes around single marks -/

/-- One of the two leading marks. -/
def IsMark (c : Option Char) : Prop := c = some '#' ∨ c = some '>'

instance (c : Option Char) : Decidable (IsMark c) := inferInstanceAs (Decidable (_ ∨ _))

theorem IsMark.exists_eq {o : Option Char} (h : IsMark o) : ∃ m, o = some m := by
  rcases h with h | h
  · exact ⟨_, h⟩
  · exact ⟨_, h⟩

theorem IsMark.ne {o : Option Char} (h : IsMark o) {c : Char} (hc : ¬IsMark (some c)) :
    o ≠ some c := fun ho => hc (ho ▸ h)

/-- The passes before those on round brackets. -/
def spaceMarks (s : List Char) : List Char :=
  s |> closeAfter '#' |> closeAfter '>'
    |> openBefore '#' |> openBefore '>'
    |> closeBefore ']' |> closeAfter '['
    |> closeAround '='

theorem normalize_eq_spaceMarks (s : List Char) :
    normalize s = closeAround '|' (openAfterRound (closeRound (spaceMarks s))) := rfl

theorem ink_spaceMarks (s : List Char) : ink (spaceMarks s) = ink s := by
  simp only [spaceMarks, closeAround, ink_closeAfter, ink_closeBefore, ink_openBefore]

/-- The gaps once those behind the leading marks are closed. -/
def swept (I : List Char) (gap : Nat → List Char) (k : Nat) : List Char :=
  if IsMark (inkBefore I k) then [] else gap k

theorem swept_eq_nil_iff {I : List Char} {gap : Nat → List Char} {k : Nat} :
    swept I gap k = [] ↔ gap k = [] ∨ IsMark (inkBefore I k) := by
  unfold swept
  split
  · next h => exact ⟨fun _ => .inr h, fun _ => rfl⟩
  · next h => exact ⟨.inl, fun hk => hk.resolve_right h⟩

/-- What the passes around single marks make of a gap. -/
theorem gapAt_spaceMarks (s : List Char) (k : Nat) :
    gapAt (spaceMarks s) k =
      if inkBefore (ink s) k = some '[' ∨ inkBefore (ink s) k = some '=' ∨
        (ink s)[k]? = some ']' ∨ (ink s)[k]? = some '=' then []
      else if opens '#' (ink s) (swept (ink s) (gapAt s)) k = true ∨
        opens '>' (ink s) (swept (ink s) (gapAt s)) k = true then [' ']
      else swept (ink s) (gapAt s) k := by
  have hswept : gapAt (closeAfter '>' (closeAfter '#' s)) = swept (ink s) (gapAt s) := by
    funext j
    rw [gapAt_closeAfter (by decide), gapAt_closeAfter (by decide), ink_closeAfter, swept]
    by_cases hid : inkBefore (ink s) j = some '#'
    · rw [if_pos hid, ite_self, if_pos (.inl hid)]
    · rw [if_neg hid]
      by_cases hchild : inkBefore (ink s) j = some '>'
      · rw [if_pos hchild, if_pos (.inr hchild)]
      · rw [if_neg hchild, if_neg fun h => h.elim hid hchild]
  -- The second parting sees the gaps in front of its own marks as the first one found them.
  have hsecond : opens '>' (ink s) (gapAt (openBefore '#' (closeAfter '>' (closeAfter '#' s)))) k
      = opens '>' (ink s) (swept (ink s) (gapAt s)) k := by
    refine opens_congr (fun j hj => ?_) k
    rw [gapAt_openBefore (by decide), hswept, ink_closeAfter, ink_closeAfter, if_neg]
    intro hopens
    rw [(getElem?_of_opens hopens).1] at hj
    cases hj
  rw [spaceMarks, gapAt_closeAround (by decide), gapAt_closeAfter (by decide),
    gapAt_closeBefore (by decide), gapAt_openBefore (by decide), gapAt_openBefore (by decide)]
  simp only [ink_closeAfter, ink_closeBefore, ink_openBefore] at hsecond ⊢
  rw [hsecond, hswept]
  by_cases hclosed : inkBefore (ink s) k = some '[' ∨ inkBefore (ink s) k = some '=' ∨
      (ink s)[k]? = some ']' ∨ (ink s)[k]? = some '='
  · rw [if_pos hclosed]
    grind
  · rw [if_neg hclosed]
    grind

/-! ## Gaps away from round brackets and bars -/

theorem gapAt_openAfterRound_of_ne {s : List Char} {k : Nat}
    (h : inkBefore (ink s) k ≠ some ')') : gapAt (openAfterRound s) k = gapAt s k := by
  rcases gapAt_openAfterRound s k with ⟨hparts, -⟩ | ⟨-, hk⟩
  · exact absurd hparts.closing h
  · exact hk

/-- The parting behind closing round brackets closes no gap. -/
theorem gapAt_openAfterRound_ne_nil {s : List Char} {k : Nat} (h : gapAt s k ≠ []) :
    gapAt (openAfterRound s) k ≠ [] := by
  rcases gapAt_openAfterRound s k with ⟨-, hk⟩ | ⟨-, hk⟩
  · rw [hk]
    exact List.cons_ne_nil _ _
  · rwa [hk]

theorem gapAt_closeRound_of_nil {s : List Char} {k : Nat} (h : gapAt s k = []) :
    gapAt (closeRound s) k = [] := by
  rcases gapAt_closeRound s k with hk | ⟨hk, -⟩
  · exact hk.trans h
  · exact hk

theorem gapAt_closeRound_of_ne {s : List Char} {k : Nat} (hbefore : inkBefore (ink s) k ≠ some '(')
    (hopen : (ink s)[k]? ≠ some '(') (hclose : (ink s)[k]? ≠ some ')') :
    gapAt (closeRound s) k = gapAt s k := by
  rcases gapAt_closeRound s k with hk | ⟨-, i, m, hreach, rfl | rfl | rfl⟩
  · exact hk
  · exact absurd hreach.opening hopen
  · exact absurd hreach.opening hbefore
  · exact absurd hreach.closing hclose

/-- Bars lose the blanks beside them. -/
theorem gapAt_normalize_bar {s : List Char} {k : Nat}
    (h : inkBefore (ink s) k = some '|' ∨ (ink s)[k]? = some '|') :
    gapAt (normalize s) k = [] := by
  rw [normalize_eq_spaceMarks, gapAt_closeAround (by decide), if_pos]
  rwa [ink_openAfterRound, ink_closeRound, ink_spaceMarks]

theorem gapAt_normalize_of_not_bar {s : List Char} {k : Nat}
    (hbefore : inkBefore (ink s) k ≠ some '|') (hbehind : (ink s)[k]? ≠ some '|') :
    gapAt (normalize s) k = gapAt (openAfterRound (closeRound (spaceMarks s))) k := by
  rw [normalize_eq_spaceMarks, gapAt_closeAround (by decide), if_neg]
  rw [ink_openAfterRound, ink_closeRound, ink_spaceMarks]
  exact not_or.mpr ⟨hbefore, hbehind⟩

/-- A gap that the passes around single marks close stays closed, unless a closing round bracket
stands in front of it. -/
theorem gapAt_normalize_of_nil {s : List Char} {k : Nat}
    (hbefore : inkBefore (ink s) k ≠ some ')') (h : gapAt (spaceMarks s) k = []) :
    gapAt (normalize s) k = [] := by
  by_cases hbar : inkBefore (ink s) k = some '|' ∨ (ink s)[k]? = some '|'
  · exact gapAt_normalize_bar hbar
  · obtain ⟨hb, hb'⟩ := not_or.mp hbar
    rw [gapAt_normalize_of_not_bar hb hb', gapAt_openAfterRound_of_ne]
    · exact gapAt_closeRound_of_nil h
    · rwa [ink_closeRound, ink_spaceMarks]

/-- Beside no round bracket and no bar the passes around single marks have the last word. -/
theorem gapAt_normalize_of_ne {s : List Char} {k : Nat}
    (hbefore : ∀ c ∈ ['(', ')', '|'], inkBefore (ink s) k ≠ some c)
    (hbehind : ∀ c ∈ ['(', ')', '|'], (ink s)[k]? ≠ some c) :
    gapAt (normalize s) k = gapAt (spaceMarks s) k := by
  rw [gapAt_normalize_of_not_bar (hbefore '|' (by simp)) (hbehind '|' (by simp)),
    gapAt_openAfterRound_of_ne, gapAt_closeRound_of_ne]
  · rw [ink_spaceMarks]
    exact hbefore '(' (by simp)
  · rw [ink_spaceMarks]
    exact hbehind '(' (by simp)
  · rw [ink_spaceMarks]
    exact hbehind ')' (by simp)
  · rw [ink_closeRound, ink_spaceMarks]
    exact hbefore ')' (by simp)

/-! ## Respaced texts -/

/-- What holds of the gaps of every respaced text. -/
structure Spaced (I : List Char) (gap : Nat → List Char) : Prop where
  /-- No blanks stand behind an opening square bracket or an equality sign, or beside a bar. -/
  closed : ∀ k, inkBefore I k = some '[' ∨ inkBefore I k = some '=' ∨ inkBefore I k = some '|' ∨
    I[k]? = some '|' → gap k = []
  /-- A leading mark is glued to what follows it, if that is no leading mark. -/
  behind_mark : ∀ k, IsMark (inkBefore I k) → ¬IsMark I[k]? → gap k = []
  /-- Two different leading marks are parted by one space. -/
  between_marks : ∀ k, IsMark (inkBefore I k) → IsMark I[k]? → I[k]? ≠ inkBefore I k →
    gap k = [' ']
  /-- Two like marks are glued or parted by one space. -/
  like_marks : ∀ k, IsMark (inkBefore I k) → I[k]? = inkBefore I k → gap k = [] ∨ gap k = [' ']
  /-- In a row of like marks every second gap is open. -/
  alternate : ∀ k, IsMark (inkBefore I k) → I[k]? = inkBefore I k → I[k + 1]? = I[k]? →
    (gap (k + 1) = [] ↔ gap k ≠ [])
  /-- A leading mark is parted from what stands before it. -/
  before_mark : ∀ k, 0 < k → IsMark I[k]? → ¬IsMark (inkBefore I k) →
    (∀ c ∈ ['[', '=', '|', '('], inkBefore I k ≠ some c) → gap k ≠ []

/-- A gap in front of a mark is opened only by the parting of that mark. -/
theorem opens_iff_of_mark {I : List Char} {gap : Nat → List Char} {k : Nat} {m : Char}
    (hm : IsMark (some m)) (hk : I[k]? = some m) :
    (opens '#' I gap k = true ∨ opens '>' I gap k = true) ↔ opens m I gap k = true := by
  have hother : ∀ c, opens c I gap k = true → c = m := fun c hc =>
    Option.some.inj ((getElem?_of_opens hc).1.symm.trans hk)
  constructor
  · rintro (h | h)
    · rwa [← hother _ h]
    · rwa [← hother _ h]
  · intro h
    rcases hm with hm | hm
    · exact .inl (Option.some.inj hm ▸ h)
    · exact .inr (Option.some.inj hm ▸ h)

/-- In front of anything but a leading mark no gap is opened. -/
theorem not_opens_of_not_mark {I : List Char} {gap : Nat → List Char} {k : Nat}
    (hk : ¬IsMark I[k]?) : ¬(opens '#' I gap k = true ∨ opens '>' I gap k = true) := by
  rintro (h | h)
  · exact hk (.inl (getElem?_of_opens h).1)
  · exact hk (.inr (getElem?_of_opens h).1)

/-- What the passes around single marks make of a gap in front of a leading mark. -/
theorem gapAt_spaceMarks_mark {s : List Char} {k : Nat} {m : Char} (hm : IsMark (some m))
    (hk : (ink s)[k]? = some m)
    (hbefore : inkBefore (ink s) k ≠ some '[' ∧ inkBefore (ink s) k ≠ some '=') :
    gapAt (spaceMarks s) k =
      if opens m (ink s) (swept (ink s) (gapAt s)) k = true then [' ']
      else swept (ink s) (gapAt s) k := by
  have hmark : IsMark (ink s)[k]? := hk ▸ hm
  rw [gapAt_spaceMarks, if_neg]
  · simp only [opens_iff_of_mark hm hk]
  · rintro (h | h | h | h)
    · exact hbefore.1 h
    · exact hbefore.2 h
    · exact hmark.ne (by decide) h
    · exact hmark.ne (by decide) h

/-- Between two leading marks a gap is open or closed as the parting says. -/
theorem gapAt_normalize_marks {s : List Char} {k : Nat} {m : Char} (hm : IsMark (some m))
    (hk : (ink s)[k]? = some m) (hbefore : IsMark (inkBefore (ink s) k)) :
    gapAt (normalize s) k =
      if opens m (ink s) (swept (ink s) (gapAt s)) k = true then [' '] else [] := by
  have hmark : IsMark (ink s)[k]? := hk ▸ hm
  have hround : ∀ c ∈ ['(', ')', '|'], ¬IsMark (some c) := by
    simp only [List.forall_mem_cons, List.not_mem_nil, false_implies, implies_true]
    decide
  rw [gapAt_normalize_of_ne (fun c hc => hbefore.ne (hround c hc))
    (fun c hc => hmark.ne (hround c hc)),
    gapAt_spaceMarks_mark hm hk ⟨hbefore.ne (by decide), hbefore.ne (by decide)⟩, swept,
    if_pos hbefore]

/-- In a row of like marks the parting opens every second gap. -/
theorem gapAt_normalize_succ_eq_nil_iff {s : List Char} {k : Nat} {m : Char}
    (hm : IsMark (some m)) (hbefore : IsMark (inkBefore (ink s) k)) (hk : (ink s)[k]? = some m)
    (hnext : (ink s)[k + 1]? = some m) :
    gapAt (normalize s) (k + 1) = [] ↔ gapAt (normalize s) k ≠ [] := by
  have hbefore' : IsMark (inkBefore (ink s) (k + 1)) := by
    rw [inkBefore_succ, hk]
    exact hm
  have hstep : opens m (ink s) (swept (ink s) (gapAt s)) (k + 1) = true ↔
      opens m (ink s) (swept (ink s) (gapAt s)) k = false := by
    rw [opens_succ, swept, if_pos hbefore']
    exact ⟨fun h => h.2.2, fun h => ⟨hnext, rfl, h⟩⟩
  rw [gapAt_normalize_marks hm hnext hbefore', gapAt_normalize_marks hm hk hbefore]
  cases hopens : opens m (ink s) (swept (ink s) (gapAt s)) k with
  | true => simp [hstep, hopens]
  | false => simp [hstep.mpr hopens]

/-- In front of a mark that follows no mark there is a gap: if there was none, the parting of the
mark has made one. -/
theorem gapAt_spaceMarks_ne_nil {s : List Char} {k : Nat} {m : Char} (hm : IsMark (some m))
    (hk : (ink s)[k]? = some m) (hpos : 0 < k) (hmark : ¬IsMark (inkBefore (ink s) k))
    (hbefore : inkBefore (ink s) k ≠ some '[' ∧ inkBefore (ink s) k ≠ some '=') :
    gapAt (spaceMarks s) k ≠ [] := by
  rw [gapAt_spaceMarks_mark hm hk hbefore]
  split
  · exact List.cons_ne_nil _ _
  · next hopens =>
    rw [swept, if_neg hmark]
    intro hgap
    apply hopens
    rw [opens_of_head (fun h => hmark (h ▸ hm))]
    exact ⟨hk, by rw [swept, if_neg hmark, hgap], hpos⟩

/-- The gaps of a respaced text obey the rules. -/
theorem spaced_normalize (s : List Char) : Spaced (ink s) (gapAt (normalize s)) where
  closed k h := by
    rcases h with h | h | h
    · apply gapAt_normalize_of_nil
      · rw [h]
        decide
      · rw [gapAt_spaceMarks, if_pos (.inl h)]
    · apply gapAt_normalize_of_nil
      · rw [h]
        decide
      · rw [gapAt_spaceMarks, if_pos (.inr (.inl h))]
    · exact gapAt_normalize_bar h
  behind_mark k hbefore hbehind := by
    apply gapAt_normalize_of_nil (hbefore.ne (by decide))
    rw [gapAt_spaceMarks, if_neg (not_opens_of_not_mark hbehind), swept, if_pos hbefore, ite_self]
  between_marks k hbefore hbehind hne := by
    obtain ⟨m, hk⟩ := hbehind.exists_eq
    rw [gapAt_normalize_marks (hk ▸ hbehind) hk hbefore, if_pos]
    rw [opens_of_head (hk ▸ hne.symm)]
    obtain ⟨c, hc⟩ := hbefore.exists_eq
    exact ⟨hk, if_pos hbefore, pos_of_inkBefore hc⟩
  like_marks k hbefore hlike := by
    obtain ⟨m, hm⟩ := hbefore.exists_eq
    have hk : (ink s)[k]? = some m := hlike.trans hm
    rw [gapAt_normalize_marks (hk ▸ hlike ▸ hbefore) hk hbefore]
    split
    · exact .inr rfl
    · exact .inl rfl
  alternate k hbefore hlike hnext := by
    obtain ⟨m, hm⟩ := hbefore.exists_eq
    have hk : (ink s)[k]? = some m := hlike.trans hm
    exact gapAt_normalize_succ_eq_nil_iff (hm ▸ hbefore) hbefore hk (hnext.trans hk)
  before_mark k hpos hbehind hbefore hne := by
    obtain ⟨m, hk⟩ := hbehind.exists_eq
    rw [gapAt_normalize_of_not_bar (hne '|' (by simp)) (hbehind.ne (by decide))]
    apply gapAt_openAfterRound_ne_nil
    rw [gapAt_closeRound_of_ne]
    · exact gapAt_spaceMarks_ne_nil (hk ▸ hbehind) hk hpos hbefore
        ⟨hne '[' (by simp), hne '=' (by simp)⟩
    · rw [ink_spaceMarks]
      exact hne '(' (by simp)
    · rw [ink_spaceMarks]
      exact hbehind.ne (by decide)
    · rw [ink_spaceMarks]
      exact hbehind.ne (by decide)

end TreeSelect.Spacing
