/-
# TreeSelect.Proofs.Path.Spacing.Loose — texts with blanks where respacing takes them

A text `Loosens` another one if it has blanks beside marks that take none, other blanks between two
words, or none where the mark of a child tells the words apart. If the tighter text is at rest and
its round brackets come in pairs, then pass by pass the gaps of the looser text become those of the
tighter one, and in the end both have the same words (`words_normalize_of_loosens`).
-/
import TreeSelect.Proofs.Path.Spacing.Pairs
import TreeSelect.Proofs.Path.Spacing.Spaced
import TreeSelect.Proofs.Path.Spacing.Words

namespace TreeSelect.Spacing

open TreeSelect.Text

/-! ## The gaps of a text at rest -/

/-- The characters that respacing closes the gap behind. -/
def sealedBehind : List Char := ['#', '>', '[', '=', '(', '|']

/-- The characters that respacing closes the gap before. -/
def sealedBefore : List Char := [']', '=', '(', ')', '|']

theorem not_blank_of_sealedBehind : ∀ c ∈ sealedBehind, isBlank c = false := by
  simp only [sealedBehind, List.forall_mem_cons, List.not_mem_nil, false_implies, implies_true]
  decide

theorem not_blank_of_sealedBefore : ∀ c ∈ sealedBefore, isBlank c = false := by
  simp only [sealedBefore, List.forall_mem_cons, List.not_mem_nil, false_implies, implies_true]
  decide

/-- In front of an open gap in a text at rest there is no character that seals it. -/
theorem AtRest.not_sealedBefore {s : List Char} (h : AtRest s) {d : Char}
    (hd : (ink s)[0]? = some d) (hgap : gapAt s 0 ≠ []) : d ∉ sealedBefore := by
  induction s with
  | nil => cases hd
  | cons b s ih =>
    obtain ⟨hb, hs⟩ := List.isChain_cons.mp h
    cases hblank : isBlank b with
    | false =>
      rw [gapAt_ink_zero s hblank] at hgap
      exact absurd rfl hgap
    | true =>
      rw [ink_blank s hblank] at hd
      by_cases hzero : gapAt s 0 = []
      · have hhead := head?_of_gapAt hzero
        rw [hd] at hhead
        exact (hb d hhead).1 hblank
      · exact ih hs hd hzero

/-- The gap behind the first character of a text at rest. -/
theorem AtRest.gap_cons {s : List Char} {c d : Char} (h : AtRest (c :: s))
    (hc : isBlank c = false) (hd : (ink s)[0]? = some d) :
    (gapAt s 0 = [] → c ≠ ')' ∧ ¬IsMark (some d)) ∧
      (gapAt s 0 ≠ [] → c ∉ sealedBehind ∧ d ∉ sealedBefore) := by
  obtain ⟨hnext, hs⟩ := List.isChain_cons.mp h
  refine ⟨fun hgap => ?_, fun hgap => ⟨?_, AtRest.not_sealedBefore hs hd hgap⟩⟩
  · have hhead := head?_of_gapAt hgap
    rw [hd] at hhead
    obtain ⟨-, -, hmark, hround⟩ := hnext d hhead
    have hink : isBlank d = false := by
      simpa using (List.mem_filter.mp (List.mem_of_getElem? hd)).2
    refine ⟨fun hc => ?_, by simpa [IsMark] using hmark hc⟩
    exact Bool.false_ne_true (hink.symm.trans (hround hc))
  · cases s with
    | nil => cases hd
    | cons b s =>
      cases hb : isBlank b with
      | true => exact (hnext b rfl).2.1 hb
      | false =>
        rw [gapAt_ink_zero s hb] at hgap
        exact absurd rfl hgap

/-- The characters beside a gap of a text at rest: no mark behind it and no closing round bracket
before it where the gap is none, and none that seals it where it is open. -/
theorem AtRest.gap {s : List Char} (h : AtRest s) {k : Nat} {c d : Char}
    (hc : inkBefore (ink s) k = some c) (hd : (ink s)[k]? = some d) :
    (gapAt s k = [] → c ≠ ')' ∧ ¬IsMark (some d)) ∧
      (gapAt s k ≠ [] → c ∉ sealedBehind ∧ d ∉ sealedBefore) := by
  induction s generalizing k with
  | nil => cases hd
  | cons a s ih =>
    have hs : AtRest s := (List.isChain_cons.mp h).2
    cases k with
    | zero => cases hc
    | succ k =>
      cases ha : isBlank a with
      | true =>
        rw [gapAt_blank_succ s k ha]
        rw [ink_blank s ha] at hc hd
        exact ih hs hc hd
      | false =>
        rw [gapAt_ink_succ s k ha]
        rw [ink_cons_of_ink ha] at hc hd
        cases k with
        | zero =>
          obtain rfl : a = c := by simpa using hc
          exact h.gap_cons ha hd
        | succ k => exact ih hs hc hd

/-! ## Looser texts -/

/-- A text of blanks only, perhaps of none. -/
def Blanks (s : List Char) : Prop := ∀ c ∈ s, isBlank c = true

instance (s : List Char) : Decidable (Blanks s) := List.decidableBAll _ _

@[simp] theorem blanks_nil : Blanks [] := by simp [Blanks]

/-- The first text is the second one with blanks written beside characters that take none, and with
any blanks for each space. A space can be left out in front of a mark for a child. -/
inductive Loosens : List Char → List Char → Prop
  | blank {blanks : List Char} : Blanks blanks → Loosens blanks []
  | inked {c : Char} {before behind x w : List Char} : isBlank c = false → Blanks before →
      Blanks behind → (before ≠ [] → c ∈ sealedBefore) → (behind ≠ [] → c ∈ sealedBehind) →
      Loosens x w → Loosens (before ++ c :: (behind ++ x)) (c :: w)
  | space {blanks x w : List Char} : Blanks blanks → (blanks = [] → w.head? = some '>') →
      Loosens x w → Loosens (blanks ++ x) (' ' :: w)

namespace Loosens

variable {x w : List Char}

theorem ink_eq (h : Loosens x w) : ink x = ink w := by
  induction h with
  | blank hblanks => exact ink_of_blank hblanks
  | inked hc hbefore hbehind _ _ _ ih =>
    rw [ink_append, ink_of_blank hbefore, ink_cons_of_ink hc, ink_append, ink_of_blank hbehind, ih,
      ink_cons_of_ink hc, List.nil_append, List.nil_append]
  | space hblanks _ _ ih =>
    rw [ink_append, ink_of_blank hblanks, ih, ink_blank _ isBlank_space, List.nil_append]

/-- Where the gaps of the looser text may differ: beside a character that seals them, and in front
of a mark for a child. -/
theorem gap (h : Loosens x w) {k : Nat} {d : Char} (hd : (ink w)[k]? = some d) :
    (gapAt w k = [] → gapAt x k = [] ∨
      (∃ c ∈ sealedBehind, inkBefore (ink w) k = some c) ∨ d ∈ sealedBefore) ∧
    (gapAt w k ≠ [] → gapAt x k ≠ [] ∨ d = '>') := by
  induction h generalizing k with
  | blank _ => cases hd
  | @inked c before behind x w hc hbefore hbehind hcBefore hcBehind _ ih =>
    obtain ⟨hgoes, hzero⟩ := goesOn_blanks hbefore hc (behind ++ x)
    rw [ink_cons_of_ink hc] at hd ⊢
    cases k with
    | zero =>
      obtain rfl : c = d := by simpa using hd
      rw [hzero, gapAt_ink_zero w hc]
      refine ⟨fun _ => ?_, fun h => absurd rfl h⟩
      by_cases hnil : before = []
      · exact .inl hnil
      · exact .inr (.inr (hcBefore hnil))
    | succ k =>
      have hd : (ink w)[k]? = some d := hd
      have hgap := hgoes.gap k
      rw [Nat.add_comm] at hgap
      rw [gapAt_ink_succ w k hc, hgap]
      obtain ⟨hglued, hparted⟩ := ih hd
      cases k with
      | zero =>
        rw [gapAt_append_blank_zero hbehind]
        refine ⟨fun hw => ?_, fun hw => ?_⟩
        · by_cases hnil : behind = []
          · rcases hglued hw with hx | ⟨_, -, h⟩ | h
            · exact .inl (by rw [hnil, hx, List.nil_append])
            · cases h
            · exact .inr (.inr h)
          · exact .inr (.inl ⟨c, hcBehind hnil, rfl⟩)
        · refine (hparted hw).imp_left fun hx hnil => hx ?_
          exact (List.append_eq_nil_iff.mp hnil).2
      | succ k =>
        rw [gapAt_append_blank hbehind]
        exact ⟨hglued, hparted⟩
  | @space blanks x w hblanks hchild _ ih =>
    rw [ink_blank w isBlank_space] at hd ⊢
    obtain ⟨hglued, hparted⟩ := ih hd
    cases k with
    | zero =>
      rw [gapAt_blank_zero w isBlank_space, gapAt_append_blank_zero hblanks]
      refine ⟨fun h => absurd h (List.cons_ne_nil _ _), fun _ => ?_⟩
      by_cases hnil : blanks = []
      · obtain ⟨w, rfl⟩ := List.head?_eq_some_iff.mp (hchild hnil)
        rw [ink_cons_of_ink (by decide), List.getElem?_cons_zero] at hd
        exact .inr (Option.some.inj hd).symm
      · exact .inl fun h => hnil (List.append_eq_nil_iff.mp h).1
    | succ k =>
      rw [gapAt_blank_succ w k isBlank_space, gapAt_append_blank hblanks]
      exact ⟨hglued, hparted⟩

/-- An unbroken piece in front of a looser text. -/
theorem append {run : List Char} (hrun : ∀ c ∈ run, isBlank c = false) (h : Loosens x w) :
    Loosens (run ++ x) (run ++ w) := by
  induction run with
  | nil => exact h
  | cons c run ih =>
    have hc := hrun c List.mem_cons_self
    exact @Loosens.inked c [] [] _ _ hc (by simp) (by simp) (by simp) (by simp)
      (ih fun d hd => hrun d (List.mem_cons_of_mem _ hd))

/-- Blanks behind a character that seals the gap. -/
theorem behind {c : Char} {blanks : List Char} (hc : c ∈ sealedBehind) (hblanks : Blanks blanks)
    (h : Loosens x w) : Loosens (c :: (blanks ++ x)) (c :: w) := by
  exact @Loosens.inked c [] blanks _ _ (not_blank_of_sealedBehind c hc) (by simp) hblanks (by simp)
    (fun _ => hc) h

/-- Blanks before a character that seals the gap. -/
theorem before {c : Char} {blanks : List Char} (hc : c ∈ sealedBefore) (hblanks : Blanks blanks)
    (h : Loosens x w) : Loosens (blanks ++ c :: x) (c :: w) := by
  exact @Loosens.inked c blanks [] _ _ (not_blank_of_sealedBefore c hc) hblanks (by simp)
    (fun _ => hc) (by simp) h

/-- Blanks around a character that seals both gaps. -/
theorem around {c : Char} {blanks blanks' : List Char} (hc : c ∈ sealedBefore)
    (hc' : c ∈ sealedBehind) (hblanks : Blanks blanks) (hblanks' : Blanks blanks')
    (h : Loosens x w) : Loosens (blanks ++ c :: (blanks' ++ x)) (c :: w) := by
  exact .inked (not_blank_of_sealedBefore c hc) hblanks hblanks' (fun _ => hc) (fun _ => hc') h

end Loosens

/-! ## Respacing a looser text -/

/-- The gaps of a text that loosens another one, between two inked characters. -/
structure Looser (I : List Char) (gap gap' : Nat → List Char) : Prop where
  /-- A gap that is none in the tighter text is open at most beside a character that seals it. -/
  glued : ∀ k c d, inkBefore I k = some c → I[k]? = some d → gap' k = [] →
    gap k = [] ∨ c ∈ sealedBehind ∨ d ∈ sealedBefore
  /-- A gap that is open in the tighter text is missing at most in front of the mark of a child. -/
  parted : ∀ k c d, inkBefore I k = some c → I[k]? = some d → gap' k ≠ [] → gap k ≠ [] ∨ d = '>'

/-- Blanks at the start make no difference. -/
theorem Loosens.looser {x w lead : List Char} (h : Loosens x w)
    (hlead : Blanks lead) :
    Looser (ink w) (gapAt (lead ++ x)) (gapAt w) := by
  have hgap : ∀ k c, inkBefore (ink w) k = some c → gapAt (lead ++ x) k = gapAt x k := by
    intro k c hc
    cases k with
    | zero => cases hc
    | succ k => exact gapAt_append_blank hlead x k
  refine ⟨fun k c d hc hd hw => ?_, fun k c d hc hd hw => ?_⟩
  · rw [hgap k c hc]
    rcases (h.gap hd).1 hw with hx | ⟨b, hb, hbefore⟩ | hd
    · exact .inl hx
    · rw [hc] at hbefore
      exact .inr (.inl (Option.some.inj hbefore ▸ hb))
    · exact .inr (.inr hd)
  · rw [hgap k c hc]
    exact (h.gap hd).2 hw

section Normalize

variable {s w : List Char} {k : Nat} {c d : Char}

/-- After the passes around single marks a gap is that of the tighter text, but beside round
brackets and bars. -/
theorem gapAt_spaceMarks_of_looser (hink : ink s = ink w)
    (h : Looser (ink w) (gapAt s) (gapAt w)) (hrest : AtRest w)
    (hc : inkBefore (ink w) k = some c) (hd : (ink w)[k]? = some d) :
    (gapAt w k = [] → c ∉ ['(', '|'] → d ∉ ['(', ')', '|'] → gapAt (spaceMarks s) k = []) ∧
      (gapAt w k ≠ [] → gapAt (spaceMarks s) k ≠ []) := by
  obtain ⟨hglued, hparted⟩ := hrest.gap hc hd
  rw [gapAt_spaceMarks, hink]
  refine ⟨fun hw hcr hdr => ?_, fun hw => ?_⟩
  · -- What seals the gap is a square bracket, an equality sign or a leading mark.
    rw [if_neg (not_opens_of_not_mark (hd ▸ (hglued hw).2)), swept, hc, hd]
    rcases h.glued k c d hc hd hw with hs | hs | hs
    · rw [hs, ite_self, ite_self]
    · have hmark : (c = '[' ∨ c = '=') ∨ IsMark (some c) := by
        simp only [sealedBehind, List.mem_cons, List.not_mem_nil, or_false, not_or] at hs hcr
        simp only [IsMark, Option.some.injEq]
        tauto
      rcases hmark with (rfl | rfl) | hmark
      · exact if_pos (.inl rfl)
      · exact if_pos (.inr (.inl rfl))
      · rw [if_pos hmark, ite_self]
    · have hmark : d = ']' ∨ d = '=' := by
        simp only [sealedBefore, List.mem_cons, List.not_mem_nil, or_false, not_or] at hs hdr
        tauto
      rcases hmark with rfl | rfl
      · exact if_pos (.inr (.inr (.inl rfl)))
      · exact if_pos (.inr (.inr (.inr rfl)))
  · obtain ⟨hcs, hds⟩ := hparted hw
    have hne : ∀ m ∈ sealedBehind, inkBefore (ink w) k ≠ some m := fun m hm hcm =>
      hcs (Option.some.inj (hc.symm.trans hcm) ▸ hm)
    have hne' : ∀ m ∈ sealedBefore, (ink w)[k]? ≠ some m := fun m hm hdm =>
      hds (Option.some.inj (hd.symm.trans hdm) ▸ hm)
    have hmark : ¬IsMark (inkBefore (ink w) k) := by
      rintro (hm | hm)
      · exact hne '#' (by decide) hm
      · exact hne '>' (by decide) hm
    rw [if_neg, swept, if_neg hmark]
    · split
      · exact List.cons_ne_nil _ _
      · next hopens =>
        -- A gap that is missing in front of the mark of a child would have been opened.
        intro hs
        rcases h.parted k c d hc hd hw with hopen | rfl
        · exact hopen hs
        · refine hopens (.inr ((opens_of_head (hne '>' (by decide))).mpr ⟨hd, ?_, ?_⟩))
          · rw [swept, if_neg hmark, hs]
          · exact pos_of_inkBefore hc
    · rintro (hm | hm | hm | hm)
      · exact hne '[' (by decide) hm
      · exact hne '=' (by decide) hm
      · exact hne' ']' (by decide) hm
      · exact hne' '=' (by decide) hm

/-- A pair of the tighter text is a group of the looser one, which its bracket reaches. -/
theorem Encloses.reaches (hink : ink s = ink w) (h : Looser (ink w) (gapAt s) (gapAt w))
    (hrest : AtRest w) {i m : Nat} (him : Encloses (ink w) (gapAt w) i m) :
    Reaches (ink w) (gapAt (spaceMarks s)) i m := by
  refine ⟨him.opening, him.closing, Nat.lt_of_succ_lt him.apart, fun j hij hjm => ?_⟩
  obtain ⟨j, rfl⟩ : ∃ l, j = l + 1 := ⟨j - 1, by omega⟩
  obtain ⟨c, hc, -, hcr⟩ := him.inner j (by omega) (by omega)
  obtain ⟨d, hd, -, hdr⟩ := him.inner (j + 1) (by omega) hjm
  have hw : gapAt w (j + 1) = [] := him.unbroken (j + 1) (by omega) (by omega)
  have hbefore : inkBefore (ink w) (j + 1) = some c := hc
  refine (gapAt_spaceMarks_of_looser hink h hrest hbefore hd).1 hw (fun hmem => hcr ?_) hdr
  simp only [List.mem_cons, List.not_mem_nil, or_false] at hmem ⊢
  exact hmem.imp_right .inr

/-- After the closing of groups a gap is that of the tighter text, but beside bars. -/
theorem gapAt_closeRound_of_looser (hink : ink s = ink w)
    (h : Looser (ink w) (gapAt s) (gapAt w)) (hrest : AtRest w) (hpaired : Paired (ink w) (gapAt w))
    (hc : inkBefore (ink w) k = some c) (hd : (ink w)[k]? = some d) :
    (gapAt w k = [] → c ≠ '|' → d ≠ '|' → gapAt (closeRound (spaceMarks s)) k = []) ∧
      (gapAt w k ≠ [] → gapAt (closeRound (spaceMarks s)) k ≠ []) := by
  have hink' : ink (spaceMarks s) = ink w := (ink_spaceMarks s).trans hink
  obtain ⟨hglued, hparted⟩ := gapAt_spaceMarks_of_looser hink h hrest hc hd
  refine ⟨fun hw hcbar hdbar => ?_, fun hw => ?_⟩
  · have hollow : NoHollow (ink w) (gapAt (spaceMarks s)) := by
      intro i hopen hclose
      obtain ⟨m, him⟩ := hpaired.opening i hopen
      have := (him.eq_of_round (Nat.le_succ i) (Nat.le_of_lt him.apart)).2 hclose
      have := him.apart
      omega
    have hcloses (hround : c = '(' ∨ d = '(' ∨ d = ')') :
        Closes (ink w) (gapAt (spaceMarks s)) k := by
      rcases hround with rfl | rfl | rfl
      · obtain ⟨i, rfl⟩ : ∃ i, k = i + 1 := ⟨k - 1, by have := pos_of_inkBefore hc; omega⟩
        obtain ⟨m, him⟩ := hpaired.opening i hc
        exact ⟨i, m, him.reaches hink h hrest, .inr (.inl rfl)⟩
      · obtain ⟨m, him⟩ := hpaired.opening k hd
        exact ⟨k, m, him.reaches hink h hrest, .inl rfl⟩
      · obtain ⟨i, him⟩ := hpaired.closing k hd
        exact ⟨i, k, him.reaches hink h hrest, .inr (.inr rfl)⟩
    rw [← hink'] at hollow hcloses
    by_cases hround : c = '(' ∨ d = '(' ∨ d = ')'
    · exact gapAt_closeRound_of_closes hollow (hcloses hround)
    · simp only [not_or] at hround
      exact gapAt_closeRound_of_nil (hglued hw (by simp [hround, hcbar]) (by simp [hround, hdbar]))
  · obtain ⟨hcs, hds⟩ := (hrest.gap hc hd).2 hw
    rw [gapAt_closeRound_of_ne]
    · exact hparted hw
    · rw [hink', hc]
      rintro ⟨⟩
      exact hcs (by decide)
    · rw [hink', hd]
      rintro ⟨⟩
      exact hds (by decide)
    · rw [hink', hd]
      rintro ⟨⟩
      exact hds (by decide)

/-- Respacing opens exactly those gaps of the looser text that are open in the tighter one. -/
theorem gapAt_normalize_of_looser (hink : ink s = ink w)
    (h : Looser (ink w) (gapAt s) (gapAt w)) (hrest : AtRest w) (hpaired : Paired (ink w) (gapAt w))
    (hc : inkBefore (ink w) k = some c) (hd : (ink w)[k]? = some d) :
    gapAt (normalize s) k = [] ↔ gapAt w k = [] := by
  obtain ⟨hglued, hparted⟩ := gapAt_closeRound_of_looser hink h hrest hpaired hc hd
  have hbar : inkBefore (ink s) k = some '|' ∨ (ink s)[k]? = some '|' ↔ c = '|' ∨ d = '|' := by
    rw [hink, hc, hd, Option.some.injEq, Option.some.injEq]
  constructor
  · intro hs
    by_contra hw
    obtain ⟨hcs, hds⟩ := (hrest.gap hc hd).2 hw
    have hnone : ¬(inkBefore (ink s) k = some '|' ∨ (ink s)[k]? = some '|') := by
      rw [hbar]
      rintro (rfl | rfl)
      · exact hcs (by decide)
      · exact hds (by decide)
    rw [gapAt_normalize_of_not_bar (not_or.mp hnone).1 (not_or.mp hnone).2] at hs
    exact gapAt_openAfterRound_ne_nil (hparted hw) hs
  · intro hw
    by_cases hbars : c = '|' ∨ d = '|'
    · exact gapAt_normalize_bar (hbar.mpr hbars)
    · have hnone := mt hbar.mp hbars
      rw [gapAt_normalize_of_not_bar (not_or.mp hnone).1 (not_or.mp hnone).2,
        gapAt_openAfterRound_of_ne]
      · exact hglued hw (not_or.mp hbars).1 (not_or.mp hbars).2
      · rw [ink_closeRound, ink_spaceMarks, hink, hc]
        rintro ⟨⟩
        exact ((hrest.gap hc hd).1 hw).1 rfl

end Normalize

/-- A text that loosens a text at rest, whatever blanks stand at its start, has the same words as
that once it is respaced. -/
theorem words_normalize_of_loosens {x w lead : List Char} (h : Loosens x w)
    (hlead : Blanks lead) (hrest : AtRest w) (hrounds : Rounds w) :
    words (normalize (lead ++ x)) = words w := by
  have hink : ink (lead ++ x) = ink w := by
    rw [ink_append, ink_of_blank hlead, h.ink_eq, List.nil_append]
  refine words_eq_of_gapAt ((ink_normalize _).trans hink) fun k c d hc hd => ?_
  exact gapAt_normalize_of_looser hink (h.looser hlead) hrest hrounds.paired hc hd

end TreeSelect.Spacing
