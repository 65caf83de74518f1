/-
# TreeSelect.Proofs.Path.Glued — selectors written right behind an index

Behind an index the space before the next selector may be left out. That works at one place, and at
several of them as long as each one but the last is followed by a parted boundary: a space, or the
mark of a step to children. Where two boundaries in a row are left bare, the pass that parts words
behind an index finds only the second one, and the text is no path at all. `parse_renderGlued_iff`
says so of every path and every choice of boundaries.
-/
import TreeSelect.Proofs.Path.RoundTrip
import TreeSelect.Proofs.Path.Spacing.Stuck

namespace TreeSelect

open TreeSelect.Text TreeSelect.Spacing

/-! ## Marks and round brackets of a word -/

/-- The mark at the head of a spelled word. -/
theorem Spells.head?_eq_iff {first : Bool} {word : List Char} {s : Selector}
    (h : Spells first word s) :
    (word.head? = some '#' ↔ s.byId = true) ∧ (word.head? = some '>' ↔ s.direct = true) := by
  have unmarked {body : List Char} (hhead : ∀ c, body.head? = some c → c = '[' ∨ NameChar c)
      {m : Char} (hm : m ∈ ['#', '>']) : body.head? ≠ some m := by
    intro hc
    rcases hhead m hc with rfl | hname
    · exact absurd hm (by decide)
    · exact hname.not_mem (by decide) hm
  have marked (anchor : Anchor) {body : List Char}
      (hhead : ∀ c, body.head? = some c → c = '[' ∨ NameChar c) :
      ((anchor.mark ++ body).head? = some '#' ↔ anchor = .id) ∧
        ((anchor.mark ++ body).head? = some '>' ↔ anchor = .child) := by
    cases anchor with
    | unmarked => simp [Anchor.mark, unmarked hhead]
    | id => simp [Anchor.mark]
    | child => simp [Anchor.mark]
  rcases h with @⟨anchor, ws, hid, -, hws⟩ |
    @⟨anchor, before, bracket, after, _, _, _, -, hb, hc, -⟩
  · simpa [hid] using marked anchor fun c hc => .inr (intercalate_head hws hc)
  · simpa using marked anchor fun c => hb.head hc

/-- A spelled word has one opening round bracket at most. -/
theorem Spells.count_open_le {first : Bool} {word : List Char} {s : Selector}
    (h : Spells first word s) : word.count '(' ≤ 1 := by
  have hround : isRound '(' = true := rfl
  rw [← List.count_filter hround]
  rcases h.filter_isRound with hnone | ⟨hpair, -⟩
  · rw [hnone]
    decide
  · rw [hpair]
    decide

/-- Words that spell selectors have one opening round bracket each at most. -/
theorem SpellsAll.count_open_le {first : Bool} {ws : List (List Char)} {selectors : List Selector}
    (h : SpellsAll first ws selectors) : ∀ w ∈ ws, w.count '(' ≤ 1 := by
  induction h with
  | nil => simp
  | cons hs _ ih => exact List.forall_mem_cons.mpr ⟨hs.count_open_le, ih⟩

/-- The written form of a selector with an index is a run that ends with its round bracket. -/
theorem Selector.Expressible.bracketed {first : Bool} {s : Selector} (h : s.Expressible first)
    (hindex : s.index ≠ none) : Bracketed s.toChars := by
  obtain ⟨index, hindex⟩ := Option.ne_none_iff_exists'.mp hindex
  have hstands := h.standalone 0
  rw [s.toCharsZeroed_zero] at hstands
  have hchars : s.toChars = s.frontChars ++ '(' :: Nat.toDigits 10 index ++ [')'] := by
    simp [Selector.toChars, Selector.frontChars, Selector.indexChars, hindex]
  refine ⟨hstands.not_blank, hstands.atRest.unmarked hstands.not_blank, ?_, ?_⟩
  · rw [hchars]
    simp
  · rw [hchars, List.getLast?_concat]

/-! ## Paths with bare boundaries -/

namespace Path

/-- The written forms of the selectors in order, with nothing written at the glued boundaries and
one space at all others. Boundary `i` is the one behind selector `i`. -/
def renderGlued (glued : Nat → Bool) (p : Path) : String :=
  String.ofList (joinAt glued (p.selectors.map Selector.toChars))

/-- Two boundaries in a row are glued, and neither has the mark of a step to children behind it. -/
def Crowded (glued : Nat → Bool) (p : Path) : Prop :=
  ∃ i s t, glued i = true ∧ p.selectors[i + 1]? = some s ∧ s.direct = false ∧
    glued (i + 1) = true ∧ p.selectors[i + 2]? = some t ∧ t.direct = false

/-- At a glued boundary of an expressible path nothing stands, unless a step to children follows. -/
theorem Expressible.bare_iff {p : Path} (h : p.Expressible) {glued : Nat → Bool} {i : Nat} :
    Bare glued (p.selectors.map Selector.toChars) i ↔
      glued i = true ∧ ∃ s, p.selectors[i + 1]? = some s ∧ s.direct = false := by
  refine and_congr_right fun _ => ?_
  rw [List.getElem?_map]
  cases hs : p.selectors[i + 1]? with
  | none => simp
  | some s =>
    have hspelled := (h (i + 1) s hs).spells 0
    rw [s.toCharsZeroed_zero] at hspelled
    simpa using not_congr hspelled.head?_eq_iff.2

theorem Expressible.crowded_iff {p : Path} (h : p.Expressible) {glued : Nat → Bool} :
    p.Crowded glued ↔ ∃ i, Bare glued (p.selectors.map Selector.toChars) i ∧
      Bare glued (p.selectors.map Selector.toChars) (i + 1) := by
  simp only [h.bare_iff]
  constructor
  · rintro ⟨i, s, t, hi, hs, hsDirect, hnext, ht, htDirect⟩
    exact ⟨i, ⟨hi, s, hs, hsDirect⟩, hnext, t, ht, htDirect⟩
  · rintro ⟨i, ⟨hi, s, hs, hsDirect⟩, hnext, t, ht, htDirect⟩
    exact ⟨i, s, t, hi, hs, hsDirect, hnext, ht, htDirect⟩

end Path

/-- Spelled selectors may be joined wherever the left one has an index. -/
theorem SpellsAll.joinable {first : Bool} {ws : List (List Char)} {selectors : List Selector}
    (h : SpellsAll first ws selectors) (hne : selectors ≠ []) {glued : Nat → Bool}
    (hindex : ∀ i s, selectors[i]? = some s → i + 1 < selectors.length → glued i = true →
      s.index ≠ none) : Joinable glued (selectors.map Selector.toChars) := by
  induction h generalizing glued with
  | nil => exact absurd rfl hne
  | @cons first word s words rest hs hrest ih =>
    have hwritten := hs.expressible.spells 0
    have hstands := hs.expressible.standalone 0
    rw [s.toCharsZeroed_zero] at hwritten hstands
    cases rest with
    | nil => exact .single hstands hwritten.ne_nil
    | cons t rest =>
      refine .cons hstands hwritten.ne_nil ?_ ?_ ?_
      · exact fun hglued => hs.expressible.bracketed (hindex 0 s rfl (by simp) hglued)
      · -- Behind another selector there is no lookup by identifier.
        intro hid
        cases hrest with
        | cons ht _ =>
          have htWritten := ht.expressible.spells 0
          rw [t.toCharsZeroed_zero] at htWritten
          exact Bool.false_ne_true (ht.expressible.byId (htWritten.head?_eq_iff.1.mp hid)).1
      · refine ih (List.cons_ne_nil t rest) fun i u hu hlt hglued => ?_
        exact hindex (i + 1) u hu (Nat.succ_lt_succ hlt) hglued

/-! ## Reading glued text -/

/-- A path that was read from a text is read again from its written form with nothing behind some
of its indices, exactly when no two such boundaries follow one another without a step to children
behind one of them. Otherwise the text is no path. -/
theorem parse_renderGlued_iff (text : String) (p : Path) (glued : Nat → Bool)
    (hp : Path.parse text = .ok p)
    (hindex : ∀ i s, p.selectors[i]? = some s → i + 1 < p.length → glued i = true →
      s.index ≠ none) :
    (Path.parse (p.renderGlued glued) = .ok p ↔ ¬p.Crowded glued) ∧
      (p.Crowded glued → ∃ fault, Path.parse (p.renderGlued glued) = .error fault) := by
  have hspelled := parse_eq_ok_iff.mp hp
  have hexpressible := Path.expressible_of_parse hp
  obtain ⟨hwritten, hall⟩ := hspelled.toChars
  have htokens : Spacing.tokens (p.renderGlued glued).toList =
      stuckWords glued [] (p.selectors.map Selector.toChars) := by
    rw [Path.renderGlued, String.toList_ofList]
    by_cases hne : p.selectors = []
    · rw [hne, List.map_nil, joinAt, stuckWords, Spacing.tokens, AtRest.normalize .nil, words_nil]
    · exact tokens_joinAt [] (hspelled.joinable hne hindex) fun _ _ => .inl rfl
  have hloose : ¬p.Crowded glued → Path.parse (p.renderGlued glued) = .ok p := by
    intro hnot
    rw [parse_eq_ok_iff, htokens, stuckWords_eq_self _ _ fun w hw => (hall w hw).1]
    · exact hwritten
    · exact fun i hi hnext => hnot (hexpressible.crowded_iff.mpr ⟨i, hi, hnext⟩)
  have hcrowded : p.Crowded glued → ∃ fault, Path.parse (p.renderGlued glued) = .error fault := by
    intro h
    obtain ⟨i, hi, hnext⟩ := hexpressible.crowded_iff.mp h
    have hopened (j : Nat) (w : List Char) (hj : Bare glued (p.selectors.map Selector.toChars) j)
        (hw : (p.selectors.map Selector.toChars)[j]? = some w) : '(' ∈ w := by
      obtain ⟨hglued, t, ht, -⟩ := hexpressible.bare_iff.mp hj
      rw [List.getElem?_map] at hw
      obtain ⟨s, hs, rfl⟩ := Option.map_eq_some_iff.mp hw
      have hlt : j + 1 < p.length := (List.getElem?_eq_some_iff.mp ht).1
      exact ((hexpressible j s hs).bracketed (hindex j s hs hlt hglued)).opened
    obtain ⟨w, hw, hcount⟩ := exists_mem_stuckWords hopened hi hnext []
    cases hread : Path.parse (p.renderGlued glued) with
    | error fault => exact ⟨fault, rfl⟩
    | ok q =>
      have hq := parse_eq_ok_iff.mp hread
      rw [htokens] at hq
      exact absurd hcount (Nat.not_le.mpr (Nat.lt_succ_of_le (hq.count_open_le w hw)))
  refine ⟨⟨fun hok h => ?_, hloose⟩, hcrowded⟩
  obtain ⟨fault, hfault⟩ := hcrowded h
  cases hfault.symm.trans hok

/-- Behind the first and the third of four indices the space may be left out, and in front of a step
to children too. -/
theorem parse_renderGlued_four :
    let p : Path := ⟨[
      { names := .single "a", index := some 1 },
      { names := .single "b", index := some 2 },
      { names := .single "c", direct := true, index := some 3 },
      { names := .single "d" }]⟩
    Path.parse "a(1) b(2) >c(3) d" = .ok p ∧ p.renderGlued (fun _ => true) = "a(1)b(2)>c(3)d" ∧
      Path.parse (p.renderGlued fun _ => true) = .ok p := by
  intro p
  have hread : Path.parse "a(1) b(2) >c(3) d" = .ok p := by cbv
  have hwritten : p.renderGlued (fun _ => true) = "a(1)b(2)>c(3)d" := by cbv
  have hindex (i : Nat) (s : Selector) (hs : p.selectors[i]? = some s) (hlt : i + 1 < p.length)
      (_ : true = true) : s.index ≠ none := by
    rcases i with _ | _ | _ | i
    · obtain rfl := Option.some.inj hs
      decide
    · obtain rfl := Option.some.inj hs
      decide
    · obtain rfl := Option.some.inj hs
      decide
    · exact absurd hlt (Nat.not_lt.mpr (Nat.le_add_left 4 i))
  have hloose : ¬p.Crowded fun _ => true := by
    rintro ⟨i, s, t, -, hs, hsDirect, -, ht, htDirect⟩
    rcases i with _ | _ | i
    · obtain rfl := Option.some.inj ht
      cases htDirect
    · obtain rfl := Option.some.inj hs
      cases hsDirect
    · cases ht
  exact ⟨hread, hwritten, (parse_renderGlued_iff _ p _ hread hindex).1.mpr hloose⟩

/-- Behind two indices in a row the space may not be left out: only the second one is parted from
what follows. -/
theorem parse_renderGlued_ne_of_three :
    let p : Path := ⟨[
      { names := .single "a", index := some 1 },
      { names := .single "b", index := some 2 },
      { names := .single "c" }]⟩
    Path.parse "a(1) b(2) c" = .ok p ∧ p.selectors.dropLast.all (·.index.isSome) = true ∧
      p.renderGlued (fun _ => true) = "a(1)b(2)c" ∧
      Path.tokens "a(1)b(2)c" = ["a(1)b(2)", "c"] ∧
      Path.parse "a(1)b(2)c" = .error .invalidIndex := by
  cbv

end TreeSelect
