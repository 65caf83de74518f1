/-
# TreeSelect.Proofs.Path.Normal — the normal form of path text

Respacing does not come to rest on every text, but it does on each text that is a path. The words of
such a text spell selectors, and this leaves one thing only for another round of passes to do: to
part what is glued to a closing round bracket. But if the first round leaves something glued to such
a bracket behind an opening one, then the same word holds a closing bracket further on
(`mem_of_mem_words_normalize`), and no spelled word does. So the words of the text stand alone, and
any text that lays them out is in normal spacing and is read as the same path
(`normalize_of_laidOut`).
-/
import TreeSelect.Proofs.Path.RoundTrip
import TreeSelect.Proofs.Path.Spacing.Layout

namespace TreeSelect

open TreeSelect.Text TreeSelect.Spacing

namespace Spacing

/-! ## Closing brackets in a respaced word -/

/-- In a respaced text, what is still glued to a closing bracket behind an opening one, with no bar
near, has another closing bracket in its run. -/
theorem exists_closing_of_joined_normalize {s : List Char} {i k : Nat}
    (hopen : (ink s)[i]? = some '(') (hik : i < k) (hjoin : Joined (gapAt (normalize s)) i k)
    (hclose : inkBefore (ink s) k = some ')') (hk : k < (ink s).length)
    (hbar : ∀ j, i ≤ j → j ≤ k → (ink s)[j]? ≠ some '|') :
    ∃ l, k ≤ l ∧ (ink s)[l]? = some ')' ∧ Joined (gapAt (normalize s)) k l := by
  let before := closeRound (spaceMarks s)
  have hink : ink before = ink s := by rw [ink_closeRound, ink_spaceMarks]
  have hparted : Joined (gapAt (openAfterRound before)) i k := by
    intro j hij hjk
    obtain ⟨j, rfl⟩ : ∃ l, j = l + 1 := ⟨j - 1, by omega⟩
    have hfront : inkBefore (ink s) (j + 1) ≠ some '|' := hbar j (by omega) (by omega)
    have hbehind : (ink s)[j + 1]? ≠ some '|' := hbar (j + 1) (by omega) hjk
    exact (gapAt_normalize_of_not_bar hfront hbehind).symm.trans (hjoin (j + 1) hij hjk)
  rw [← hink] at hopen hclose hk
  obtain ⟨l, hkl, hl, hjoined⟩ := exists_closing_of_joined hopen hik hparted hclose hk
  rw [hink] at hl
  refine ⟨l, hkl, hl, fun j hkj hjl => ?_⟩
  -- The last pass closes gaps only.
  rw [normalize_eq_spaceMarks, gapAt_closeAround (by decide)]
  split
  · rfl
  · exact hjoined j hkj hjl

/-- What is joined to a character of an unbroken piece is in the piece, if a blank or nothing
follows that. -/
theorem lt_length_of_joined {I run q : List Char} {gap : Nat → List Char} {n k j : Nat}
    (hgoes : GoesOn I gap n (ink (run ++ q)) (gapAt (run ++ q)))
    (hblank : ∀ c ∈ run, isBlank c = false) (hq : ∀ c ∈ q.head?, isBlank c = true)
    (hk : k < run.length) (hj : n + j < I.length) (hjoin : Joined gap (n + k) (n + j)) :
    j < run.length := by
  by_contra hbeyond
  have hend : gap (n + run.length) = [] := hjoin _ (by omega) (by omega)
  rw [hgoes.gap, ← Nat.add_zero run.length, gapAt_append_add hblank] at hend
  cases q with
  | nil =>
    rw [hgoes.length, List.append_nil, ink_of_not_blank hblank] at hj
    omega
  | cons b q =>
    rw [gapAt_blank_zero q (hq b rfl)] at hend
    cases hend

/-- If an unbroken piece behind an opening bracket of a respaced text holds no bar, and something
follows a closing bracket in it, then it holds another closing bracket behind that. -/
theorem mem_of_normalize_eq {s p q inner y : List Char}
    (htext : normalize s = p ++ '(' :: ((inner ++ ')' :: y) ++ q))
    (hblank : ∀ c ∈ inner ++ ')' :: y, isBlank c = false) (hbar : '|' ∉ inner ++ ')' :: y)
    (hq : ∀ c ∈ q.head?, isBlank c = true) (hy : y ≠ []) : ')' ∈ y := by
  generalize hrun : inner ++ ')' :: y = run at htext hblank hbar
  have hlen : run.length = inner.length + 1 + y.length := by
    rw [← hrun, List.length_append, List.length_cons]
    omega
  have hypos : 0 < y.length := List.length_pos_iff.mpr hy
  have hbracket : isBlank '(' = false := by decide
  have hgoes := goesOn_append p (run ++ q) hbracket
  have hopen : (ink (normalize s))[(ink p).length]? = some '(' := by
    rw [htext, ink_append, ink_cons_of_ink hbracket, List.getElem?_append_right (Nat.le_refl _),
      Nat.sub_self, List.getElem?_cons_zero]
  rw [← htext] at hgoes
  rw [ink_normalize] at hgoes hopen
  generalize (ink p).length = n at hgoes hopen
  have hchar {j : Nat} (hj : j < run.length) : (ink s)[n + 1 + j]? = run[j]? := by
    rw [hgoes.ink, ink_append, ink_of_not_blank hblank, List.getElem?_append_left hj]
  obtain ⟨l, hkl, hl, hjoined⟩ : ∃ l, n + 1 + (inner.length + 1) ≤ l ∧ (ink s)[l]? = some ')' ∧
      Joined (gapAt (normalize s)) (n + 1 + (inner.length + 1)) l := by
    apply exists_closing_of_joined_normalize hopen (by omega)
    · intro j hnj hjk
      obtain ⟨j, rfl⟩ : ∃ m, j = n + 1 + m := ⟨j - (n + 1), by omega⟩
      rw [hgoes.gap]
      exact gapAt_append_of_lt hblank q (by omega)
    · show (ink s)[n + 1 + inner.length]? = some ')'
      rw [hchar (by omega), ← hrun, List.getElem?_append_right (Nat.le_refl _), Nat.sub_self,
        List.getElem?_cons_zero]
    · rw [hgoes.length, ink_append, ink_of_not_blank hblank, List.length_append]
      omega
    · intro j hnj hjk
      rcases Nat.eq_or_lt_of_le hnj with rfl | hnj
      · rw [hopen]
        decide
      · obtain ⟨j, rfl⟩ : ∃ m, j = n + 1 + m := ⟨j - (n + 1), by omega⟩
        rw [hchar (by omega)]
        intro hmem
        exact hbar (List.mem_of_getElem? hmem)
  obtain ⟨j, rfl⟩ : ∃ m, l = n + 1 + m := ⟨l - (n + 1), by omega⟩
  have hj : j < run.length :=
    lt_length_of_joined hgoes hblank hq (by omega) (List.getElem?_eq_some_iff.mp hl).1 hjoined
  obtain ⟨m, rfl⟩ : ∃ m, j = inner.length + (m + 1) := ⟨j - (inner.length + 1), by omega⟩
  rw [hchar hj, ← hrun, List.getElem?_append_right (by omega), Nat.add_sub_cancel_left,
    List.getElem?_cons_succ] at hl
  exact List.mem_of_getElem? hl

/-- If a word of a respaced text holds no bar, and something follows a closing round bracket in it
that stands behind an opening one, then it holds another closing bracket behind that. -/
theorem mem_of_mem_words_normalize {s x y : List Char}
    (hword : x ++ ')' :: y ∈ words (normalize s)) (hopen : '(' ∈ x) (hbar : '|' ∉ x ++ ')' :: y)
    (hy : y ≠ []) : ')' ∈ y := by
  have hblank := not_blank_of_mem_words hword
  obtain ⟨p, q, htext, hq⟩ := (laidOut_words (normalize s)).exists_of_mem hword
  obtain ⟨front, inner, rfl⟩ := List.append_of_mem hopen
  have hrest : front ++ '(' :: inner ++ ')' :: y = (front ++ ['(']) ++ (inner ++ ')' :: y) := by
    simp
  have hpiece : normalize s = (p ++ front) ++ '(' :: ((inner ++ ')' :: y) ++ q) := by
    rw [htext]
    simp
  rw [hrest] at hblank hbar
  exact mem_of_normalize_eq hpiece (fun c hc => hblank c (List.mem_append_right _ hc))
    (fun hc => hbar (List.mem_append_right _ hc)) hq hy

end Spacing

/-! ## Texts that are paths -/

/-- The words of a text that is a path stand alone. -/
theorem standalone_of_parse {text : String} {p : Path} (h : Path.parse text = .ok p) :
    ∀ w ∈ Spacing.tokens text.toList, Standalone w := by
  intro w hw
  obtain ⟨hlen, hall⟩ := spellsAll_iff.mp (parse_eq_ok_iff.mp h)
  obtain ⟨i, hi⟩ := List.mem_iff_getElem?.mp hw
  have hlt : i < p.selectors.length := hlen ▸ (List.getElem?_eq_some_iff.mp hi).1
  have hspells : Spells (true && i == 0) w p.selectors[i] :=
    hall i w _ hi (List.getElem?_eq_getElem hlt)
  apply hspells.standalone
  intro hround
  obtain ⟨x, y, hxy⟩ := List.append_of_mem hround
  have hword : w = x ++ ')' :: (y ++ [w.getLast hspells.ne_nil]) := by
    conv_lhs => rw [← List.dropLast_concat_getLast hspells.ne_nil, hxy]
    simp
  rw [hword] at hw hspells
  obtain ⟨hopen, hclose, hbar⟩ := hspells.round_of_append
  exact hclose (mem_of_mem_words_normalize hw hopen hbar (by simp))

/-- If a text is a path, then respacing comes to rest on it after one time; and any text in which
the words of the respaced one stand in their order, with any blanks between them and at the ends, is
in normal spacing, has the same words and is read as the same path. -/
theorem normalize_of_laidOut {source : String} {p : Path} (h : Path.parse source = .ok p) :
    Path.normalize (Path.normalize source) = Path.normalize source ∧
      ∀ text : String, LaidOut (Spacing.tokens source.toList) text.toList →
        Path.normalize text = text ∧ Path.tokens text = Path.tokens source ∧
          Path.parse text = Path.parse source := by
  have hstands := standalone_of_parse h
  have hnormal {s : List Char} (hs : LaidOut (Spacing.tokens source.toList) s) :
      Spacing.normalize s = s := (hs.atRest hstands).1.normalize
  constructor
  · rw [Path.normalize, Path.normalize, String.toList_ofList, hnormal]
    exact laidOut_words _
  · intro text htext
    have htokens : Spacing.tokens text.toList = Spacing.tokens source.toList := by
      have hreadable : Readable (Spacing.tokens source.toList) := readable_words _
      rw [Spacing.tokens, hnormal htext]
      exact htext.words_eq (fun w hw => (hreadable w hw).1) fun w hw => (hreadable w hw).2
    refine ⟨?_, ?_, ?_⟩
    · rw [Path.normalize, hnormal htext, String.ofList_toList]
    · rw [Path.tokens, Path.tokens, htokens]
    · rw [Path.parse, Path.parse, htokens]

/-- A bracket inside of an index, laid out with a line break in front and a tab before the mark. -/
theorem normalize_of_laidOut_split_index :
    let p : Path := ⟨[
      { names := .single "a", attr := some { name := "x" }, index := some 1 },
      { names := .single "b", direct := true }]⟩
    let text := "\na(0[x]1)\t >b "
    Path.parse "a (0[ x ]1)> b" = .ok p ∧
      LaidOut (Spacing.tokens "a (0[ x ]1)> b".toList) text.toList ∧
      Path.normalize text = text ∧ Path.parse text = Path.parse "a (0[ x ]1)> b" := by
  intro p text
  have hread : Path.parse "a (0[ x ]1)> b" = .ok p := by cbv
  let first := ['a', '(', '0', '[', 'x', ']', '1', ')']
  have htokens : Spacing.tokens "a (0[ x ]1)> b".toList = [first, ['>', 'b']] := by cbv
  have htext : text.toList = ['\n'] ++ (first ++ (['\t', ' '] ++ (['>', 'b'] ++ [' ']))) := by cbv
  have hlaid : LaidOut (Spacing.tokens "a (0[ x ]1)> b".toList) text.toList := by
    rw [htokens, htext]
    have hsecond : LaidOut [['>', 'b']] (['\t', ' '] ++ (['>', 'b'] ++ [' '])) :=
      .cons (by decide) (.nil (by decide)) (by simp)
    have htab : isBlank '\t' = true := by decide
    exact .cons (by decide) hsecond (by simpa using htab)
  obtain ⟨hnormal, -, hparse⟩ := (normalize_of_laidOut hread).2 _ hlaid
  exact ⟨hread, hlaid, hnormal, hparse⟩

end TreeSelect
