/-
# TreeSelect.Proofs.Path.RoundTrip — the written form of a path is read back

A path that was read from some text may have been spelled in many ways: with blanks, with its square
bracket in the middle of a name or of an index, with zeros in front of an index. Its written form is
one of these spellings (`SpellsAll.toChars`), and a text at rest; so respacing leaves the written
form as it is, and reading it gives the same path. This holds of all expressible paths, and of no
others.
-/
import TreeSelect.Proofs.Path.Acceptance
import TreeSelect.Proofs.Path.Expressible
import TreeSelect.Proofs.Path.Spacing.Layout
import Mathlib

namespace TreeSelect

open TreeSelect.Text TreeSelect.Spacing

/-! ## The written form is at rest -/

/-- A spelled word stands alone unless something follows a closing round bracket in it. -/
theorem Spells.standalone {first : Bool} {word : List Char} {s : Selector}
    (h : Spells first word s) (hround : ')' ∉ word.dropLast) : Standalone word := by
  have hhead := h.head
  have hlast := h.last
  obtain ⟨anchor, body, rfl, -, hbody, -, -⟩ := h.shape
  have hmark (c : Char) : c ∈ anchor.mark → isBlank c = false := by
    cases anchor <;> simp [Anchor.mark] <;> rintro rfl <;> decide
  have hblank : ∀ c ∈ anchor.mark ++ body, isBlank c = false := fun c hc =>
    (List.mem_append.mp hc).elim (hmark c) fun hc => (hbody c hc).1
  refine ⟨hblank, atRest_of_not_blank hblank (fun c hc => ?_) hround, hhead, hlast⟩
  have hc : c ∈ body := by
    cases anchor with
    | unmarked => exact List.mem_of_mem_tail hc
    | id => exact hc
    | child => exact hc
  exact (hbody c hc).2

/-- The written form of an expressible selector, whatever zeros stand in front of its index, stands
alone. -/
theorem Selector.Expressible.standalone {first : Bool} {s : Selector} (h : s.Expressible first)
    (zeros : Nat) : Standalone (s.toCharsZeroed zeros) :=
  (h.spells zeros).standalone (h.not_mem_dropLast zeros)

/-- The written forms of spelled selectors spell them and stand alone. -/
theorem SpellsAll.toChars {first : Bool} {ws : List (List Char)} {selectors : List Selector}
    (h : SpellsAll first ws selectors) :
    SpellsAll first (selectors.map Selector.toChars) selectors ∧
      ∀ w ∈ selectors.map Selector.toChars, w ≠ [] ∧ Standalone w := by
  induction h with
  | nil => exact ⟨.nil, by simp⟩
  | @cons first word s words selectors hs _ ih =>
    have hwritten := hs.expressible.spells 0
    have hstands := hs.expressible.standalone 0
    rw [s.toCharsZeroed_zero] at hwritten hstands
    obtain ⟨hrest, hall⟩ := ih
    refine ⟨.cons hwritten hrest, fun w hw => ?_⟩
    rcases List.mem_cons.mp hw with rfl | hw
    · exact ⟨hwritten.ne_nil, hstands⟩
    · exact hall w hw

/-! ## Reading what was written -/

/-- A path that was read from a text is read again from its written form, which is in normal
spacing. -/
theorem parse_render_of_parse (text : String) (p : Path) (h : Path.parse text = .ok p) :
    Path.normalize p.render = p.render ∧ Path.parse p.render = .ok p := by
  obtain ⟨hwritten, hall⟩ := (parse_eq_ok_iff.mp h).toChars
  have hchars : p.render.toList = [' '].intercalate (p.selectors.map Selector.toChars) :=
    String.toList_ofList
  have hnormal : Spacing.normalize p.render.toList = p.render.toList := by
    rw [hchars]
    exact (atRest_intercalate fun w hw => (hall w hw).2).1.normalize
  have htokens : Spacing.tokens p.render.toList = p.selectors.map Selector.toChars := by
    rw [Spacing.tokens, hnormal, hchars]
    exact words_intercalate (fun w hw => (hall w hw).1) fun w hw => (hall w hw).2.not_blank
  refine ⟨?_, ?_⟩
  · rw [Path.normalize, hnormal, String.ofList_toList]
  · rw [parse_eq_ok_iff, htokens]
    exact hwritten

/-- A path whose second selector was spelled with a bracket inside its index. -/
theorem parse_render_of_split_index :
    let p : Path := ⟨[
      { names := .single "a", byId := true },
      { names := .single "b", direct := true, attr := some { name := "x", value := some "1" },
        index := some 2 },
      { names := .oneOf ["c", "d"] }]⟩
    Path.parse "#a > b(00[ x = \"1\" ]2) c|d" = .ok p ∧ p.render = "#a >b[x=\"1\"](2) c|d" ∧
      Path.normalize p.render = p.render ∧ Path.parse p.render = .ok p := by
  intro p
  have hread : Path.parse "#a > b(00[ x = \"1\" ]2) c|d" = .ok p := by cbv
  have hwritten : p.render = "#a >b[x=\"1\"](2) c|d" := by cbv
  exact ⟨hread, hwritten, parse_render_of_parse _ p hread⟩

/-! ## The paths that are read back -/

/-- The written form of an expressible path is read as the path. -/
theorem Path.Expressible.parse_render {p : Path} (h : p.Expressible) :
    Path.parse p.render = .ok p := by
  have hspelled : SpellsAll true (p.selectors.map Selector.toChars) p.selectors := by
    refine spellsAll_iff.mpr ⟨(List.length_map _).symm, fun i w s hw hs => ?_⟩
    rw [List.getElem?_map, hs] at hw
    obtain rfl : s.toChars = w := by simpa using hw
    rw [← s.toCharsZeroed_zero]
    exact (h i s hs).spells 0
  have hall := hspelled.toChars.2
  have htokens : Spacing.tokens p.render.toList = p.selectors.map Selector.toChars := by
    rw [Path.render, String.toList_ofList, Path.toChars, Spacing.tokens,
      (atRest_intercalate fun w hw => (hall w hw).2).1.normalize]
    exact words_intercalate (fun w hw => (hall w hw).1) fun w hw => (hall w hw).2.not_blank
  rw [parse_eq_ok_iff, htokens]
  exact hspelled

/-- What is read from a text is expressible. -/
theorem Path.expressible_of_parse {text : String} {p : Path} (h : Path.parse text = .ok p) :
    p.Expressible := by
  obtain ⟨hlen, hall⟩ := spellsAll_iff.mp (parse_eq_ok_iff.mp h)
  intro i s hs
  have hi : i < (Spacing.tokens text.toList).length :=
    hlen ▸ (List.getElem?_eq_some_iff.mp hs).1
  exact (hall i _ s (List.getElem?_eq_getElem hi) hs).expressible

/-- A path is read back from its written form exactly when each of its selectors is expressible,
and these are the paths that some text means. -/
theorem parse_render_iff_expressible (p : Path) :
    (Path.parse p.render = .ok p ↔ p.Expressible) ∧
      ((∃ text, Path.parse text = .ok p) ↔ p.Expressible) := by
  refine ⟨⟨Path.expressible_of_parse, fun h => h.parse_render⟩, ?_, fun h => ⟨_, h.parse_render⟩⟩
  rintro ⟨text, h⟩
  exact Path.expressible_of_parse h

end TreeSelect
