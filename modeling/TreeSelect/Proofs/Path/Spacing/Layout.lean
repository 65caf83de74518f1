/-
# TreeSelect.Proofs.Path.Spacing.Layout — words with any blanks between them

Words can be laid out in a text in many ways: with a space between each two of them, with more
blanks or with others, and with blanks at the two ends. Each text is a layout of its own words
(`laidOut_words`). The words are read off every layout (`LaidOut.words_eq`), and if each of them
stands alone, then respacing finds nothing to do in any layout (`LaidOut.atRest`).
-/
import TreeSelect.Proofs.Path.Spacing.Loose

namespace TreeSelect

namespace Text

open Spacing (Blanks)

theorem words_blanks_append {blanks : List Char} (h : Blanks blanks) (s : List Char) :
    words (blanks ++ s) = words s := by
  induction blanks with
  | nil => rfl
  | cons b blanks ih =>
    obtain ⟨hb, hblanks⟩ := List.forall_mem_cons.mp h
    rw [List.cons_append, words_cons_blank hb, ih hblanks]

end Text

namespace Spacing

open TreeSelect.Text

/-- The text holds the words in their order. Any blanks may stand in front of a word, and what
follows it is nothing or begins with a blank. -/
inductive LaidOut : List (List Char) → List Char → Prop
  | nil {blanks : List Char} : Blanks blanks → LaidOut [] blanks
  | cons {blanks w s : List Char} {ws : List (List Char)} : Blanks blanks → LaidOut ws s →
      (∀ c ∈ s.head?, isBlank c = true) → LaidOut (w :: ws) (blanks ++ (w ++ s))

/-! ## The layout that a text is -/

namespace LaidOut

variable {ws : List (List Char)} {w s : List Char}

theorem blanks_append {blanks : List Char} (hblanks : Blanks blanks) (h : LaidOut ws s) :
    LaidOut ws (blanks ++ s) := by
  cases h with
  | nil hs => exact .nil (List.forall_mem_append.mpr ⟨hblanks, hs⟩)
  | cons hlead hrest hhead =>
    rw [← List.append_assoc]
    exact .cons (List.forall_mem_append.mpr ⟨hblanks, hlead⟩) hrest hhead

/-- A character in front of an inked one belongs to the first word. -/
theorem ink_cons (c : Char) {d : Char} (hd : isBlank d = false) (h : LaidOut ws (d :: s)) :
    LaidOut (ws.modifyHead (c :: ·)) (c :: d :: s) := by
  have hfirst {blanks t : List Char} (hblanks : Blanks blanks) (ht : d :: s = blanks ++ t) :
      blanks = [] := by
    cases blanks with
    | nil => rfl
    | cons b blanks =>
      obtain rfl : d = b := (List.cons.inj ht).1
      exact absurd (hblanks d List.mem_cons_self) (by simp [hd])
  generalize ht : d :: s = t at h
  cases h with
  | nil hblanks =>
    have hnil := hfirst hblanks (ht.trans (List.append_nil t).symm)
    rw [← ht] at hnil
    cases hnil
  | @cons blanks w rest ws hblanks hrest hhead =>
    obtain rfl := hfirst hblanks ht
    exact .cons (w := c :: w) blanks_nil hrest hhead

/-- A word of a layout stands before the end of the text or before a blank. -/
theorem exists_of_mem (h : LaidOut ws s) (hw : w ∈ ws) :
    ∃ p q, s = p ++ (w ++ q) ∧ ∀ c ∈ q.head?, isBlank c = true := by
  induction h with
  | nil => cases hw
  | @cons blanks v rest ws hblanks hrest hhead ih =>
    rcases List.mem_cons.mp hw with rfl | hw
    · exact ⟨blanks, rest, rfl, hhead⟩
    · obtain ⟨p, q, rfl, hq⟩ := ih hw
      exact ⟨blanks ++ (v ++ p), q, by simp, hq⟩

end LaidOut

/-- A text is a layout of its words. -/
theorem laidOut_words (s : List Char) : LaidOut (words s) s := by
  induction s with
  | nil => exact .nil blanks_nil
  | cons c s ih =>
    cases hc : isBlank c with
    | true =>
      have hblanks : Blanks [c] := by simpa [Blanks] using hc
      rw [words_cons_blank hc]
      exact ih.blanks_append hblanks
    | false =>
      cases s with
      | nil =>
        rw [words_of_not_blank (List.cons_ne_nil c []) (by simpa using hc)]
        exact .cons (w := [c]) blanks_nil (.nil blanks_nil) (by simp)
      | cons d s =>
        cases hd : isBlank d with
        | true =>
          rw [words_ink_blank hc hd]
          exact .cons (w := [c]) blanks_nil ih (by simpa using hd)
        | false =>
          rw [words_ink_ink hc hd]
          exact ih.ink_cons c hd

/-- Words with single spaces between them are laid out. -/
theorem laidOut_intercalate (ws : List (List Char)) : LaidOut ws ([' '].intercalate ws) := by
  induction ws with
  | nil => exact .nil blanks_nil
  | cons w ws ih =>
    cases ws with
    | nil =>
      rw [List.intercalate_singleton]
      have h := LaidOut.cons (w := w) blanks_nil (.nil blanks_nil) (by simp)
      rwa [List.append_nil] at h
    | cons v ws =>
      rw [List.intercalate_cons_cons, List.append_assoc]
      exact .cons blanks_nil (ih.blanks_append (by decide)) (by simp)

/-! ## Reading and respacing a layout -/

/-- Blanks can be written in front of a text at rest, unless it begins with a character that takes
none before it. -/
theorem atRest_blanks_append {blanks t : List Char} (hblanks : Blanks blanks) (ht : AtRest t)
    (hhead : ∀ c ∈ t.head?, c ∉ sealedBefore) :
    AtRest (blanks ++ t) ∧ ∀ c ∈ (blanks ++ t).head?, c ∉ sealedBefore := by
  have hnothing : Standalone [] := ⟨by simp, .nil, by simp, by simp⟩
  induction blanks with
  | nil => exact ⟨ht, hhead⟩
  | cons b blanks ih =>
    obtain ⟨hb, hblanks⟩ := List.forall_mem_cons.mp hblanks
    obtain ⟨hrest, hrestHead⟩ := ih hblanks
    refine ⟨hnothing.atRest_append hb hrest hrestHead, fun c hc hsealed => ?_⟩
    obtain rfl : b = c := Option.some.inj hc
    rw [not_blank_of_sealedBefore b hsealed] at hb
    cases hb

namespace LaidOut

variable {ws : List (List Char)} {s : List Char}

/-- The words are read off their layout. -/
theorem words_eq (h : LaidOut ws s) (hne : ∀ w ∈ ws, w ≠ [])
    (hblank : ∀ w ∈ ws, ∀ c ∈ w, isBlank c = false) : words s = ws := by
  induction h with
  | @nil blanks hblanks =>
    have hwords := words_blanks_append hblanks []
    rwa [List.append_nil] at hwords
  | @cons blanks w rest ws hblanks hrest hhead ih =>
    obtain ⟨hwne, hne⟩ := List.forall_mem_cons.mp hne
    obtain ⟨hwblank, hblank⟩ := List.forall_mem_cons.mp hblank
    have hw : words w = [w] := words_of_not_blank hwne hwblank
    have hws : words rest = ws := ih hne hblank
    rw [words_blanks_append hblanks]
    cases rest with
    | nil =>
      obtain rfl : [] = ws := hws
      rw [List.append_nil, hw]
    | cons b rest =>
      have hb : isBlank b = true := hhead b rfl
      rw [words_append_blank w rest hb, hw, ← words_cons_blank hb, hws]
      rfl

/-- Words that stand alone are at rest in every layout. -/
theorem atRest (h : LaidOut ws s) (hws : ∀ w ∈ ws, Standalone w) :
    AtRest s ∧ ∀ c ∈ s.head?, c ∉ sealedBefore := by
  induction h with
  | @nil blanks hblanks =>
    have hnothing := atRest_blanks_append hblanks .nil (by simp)
    rwa [List.append_nil] at hnothing
  | @cons blanks w rest ws hblanks hrest hhead ih =>
    obtain ⟨hw, hws⟩ := List.forall_mem_cons.mp hws
    obtain ⟨hrestAt, hrestHead⟩ := ih hws
    apply atRest_blanks_append hblanks
    · cases rest with
      | nil =>
        rw [List.append_nil]
        exact hw.atRest
      | cons b rest =>
        have hb : isBlank b = true := hhead b rfl
        obtain ⟨hnext, hat⟩ := List.isChain_cons.mp hrestAt
        exact hw.atRest_append hb hat fun c hc => (hnext c hc).1 hb
    · cases w with
      | nil => exact hrestHead
      | cons d w => exact hw.head

end LaidOut

/-- Words that stand alone, written with single spaces between them, are a text at rest. -/
theorem atRest_intercalate {ws : List (List Char)} (h : ∀ w ∈ ws, Standalone w) :
    AtRest ([' '].intercalate ws) ∧
      ∀ c ∈ ([' '].intercalate ws).head?, c ∉ [']', '=', '(', ')', '|'] :=
  (laidOut_intercalate ws).atRest h

end Spacing

namespace Text

/-- The words of some words written with single spaces between them. -/
theorem words_intercalate {ws : List (List Char)} (hne : ∀ w ∈ ws, w ≠ [])
    (h : ∀ w ∈ ws, ∀ c ∈ w, isBlank c = false) : words ([' '].intercalate ws) = ws :=
  (Spacing.laidOut_intercalate ws).words_eq hne h

end Text

end TreeSelect
