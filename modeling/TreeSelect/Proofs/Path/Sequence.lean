/-
# TreeSelect.Proofs.Path.Sequence — paths written one after the other

Two path texts with blanks between them are read as the two paths in sequence. What makes this so is
that no text that is a path ends or begins with a character that respacing looks past a blank from
(`SpellsAll.apart`); so the words of the whole are the words of the two texts. The only fault that
can come up is a lookup by identifier that no longer stands at the start.
-/
import TreeSelect.Proofs.Path.Acceptance
import TreeSelect.Proofs.Path.Spacing.Apart
import Mathlib

namespace TreeSelect

open TreeSelect.Text TreeSelect.Spacing

/-! ## The ends of a text that is a path -/

theorem SpellsAll.flatten_head {first : Bool} {ws : List (List Char)} {selectors : List Selector}
    (h : SpellsAll first ws selectors) : ∀ c ∈ ws.flatten.head?, c ∉ sealedBefore := by
  rcases h with _ | ⟨hs, -⟩
  · simp
  · obtain ⟨c, w, rfl⟩ := List.exists_cons_of_ne_nil hs.ne_nil
    exact hs.head

theorem SpellsAll.flatten_last {first : Bool} {ws : List (List Char)} {selectors : List Selector}
    (h : SpellsAll first ws selectors) : ∀ c ∈ ws.flatten.getLast?, c ∉ sealedBehind := by
  induction h with
  | nil => simp
  | @cons first w s ws selectors hs _ ih =>
    intro c hc
    rw [List.flatten_cons, List.getLast?_append] at hc
    cases hlast : ws.flatten.getLast? with
    | none =>
      rw [hlast, Option.none_or] at hc
      exact hs.last c hc
    | some d =>
      rw [hlast, Option.some_or] at hc
      exact ih c (hlast.trans hc)

/-- Texts whose words spell selectors are kept apart by a blank. -/
theorem SpellsAll.apart {first first' : Bool} {s t : List Char}
    {selectors selectors' : List Selector} (h : SpellsAll first (Spacing.tokens s) selectors)
    (h' : SpellsAll first' (Spacing.tokens t) selectors') : Apart s t := by
  have hink (u : List Char) : ink u = (Spacing.tokens u).flatten := by
    rw [← ink_normalize, ink_eq_flatten_words, Spacing.tokens]
  refine ⟨fun c hc hlast => ?_, fun c hc hhead => ?_⟩
  · rw [hink] at hlast
    exact h.flatten_last c hlast hc
  · rw [hink] at hhead
    exact h'.flatten_head c hhead hc

/-! ## Words in sequence -/

/-- Words in sequence spell selectors in sequence. Behind other words no word is the first one. -/
theorem SpellsAll.append {first : Bool} {ws ws' : List (List Char)}
    {selectors selectors' : List Selector} (h : SpellsAll first ws selectors)
    (h' : SpellsAll (first && selectors.isEmpty) ws' selectors') :
    SpellsAll first (ws ++ ws') (selectors ++ selectors') := by
  induction h with
  | @nil first =>
    rw [List.isEmpty_nil, Bool.and_true] at h'
    exact h'
  | cons hs _ ih =>
    rw [List.isEmpty_cons, Bool.and_false] at h'
    exact .cons hs (ih h')

/-- A word that spells no lookup by identifier can stand anywhere. -/
theorem Spells.of_byId_eq_false {first : Bool} {word : List Char} {s : Selector}
    (h : Spells first word s) (hid : s.byId = false) : Spells false word s := by
  rcases h with ⟨hnid, hlen, hws⟩ | ⟨-, hbracket, hcore, hempty⟩
  · exact .bars hnid hlen hws
  · exact .plain (fun h => absurd h (of_decide_eq_false hid)) hbracket hcore hempty

/-- A word that spells a lookup by identifier is a fault behind other words. -/
theorem Spells.read_of_byId {first : Bool} {word : List Char} {s : Selector}
    (h : Spells first word s) (hid : s.byId = true) :
    Selector.read false word = .error .idNotAtStart := by
  rcases h with _ | @⟨anchor, _, _, _, _, _, _, _, _, _, _⟩
  · cases hid
  · obtain rfl : anchor = .id := of_decide_eq_true hid
    rfl

/-- Whether a path begins with a lookup by identifier. -/
def Path.startsById (p : Path) : Bool := p.selectors.head?.any Selector.byId

/-- Selectors that begin with no lookup by identifier can follow others. -/
theorem SpellsAll.of_startsById_eq_false {first : Bool} {ws : List (List Char)} {p : Path}
    (h : SpellsAll first ws p.selectors) (hid : p.startsById = false) :
    SpellsAll false ws p.selectors := by
  obtain ⟨selectors⟩ := p
  rcases h with _ | ⟨hs, hrest⟩
  · exact .nil
  · exact .cons (hs.of_byId_eq_false hid) hrest

/-- A lookup by identifier behind other selectors is a fault. -/
theorem ofWords_append_of_startsById {ws ws' : List (List Char)} {p q : Path}
    (h : SpellsAll true ws p.selectors) (hne : p.isEmpty = false) (hws : Readable ws)
    (h' : SpellsAll true ws' q.selectors) (hid : q.startsById = true) :
    Path.ofWords (ws ++ ws') = .error .idNotAtStart := by
  obtain ⟨selectors⟩ := p
  obtain ⟨selectors'⟩ := q
  rcases h with _ | @⟨_, w, s, ws, selectors, hs, hrest⟩
  · cases hne
  · rcases h' with _ | @⟨_, v, t, ws', _, ht, -⟩
    · cases hid
    · obtain ⟨-, hblank⟩ := hws w List.mem_cons_self
      have hmapM : ws.mapM (Selector.read false) = .ok selectors :=
        (mapM_read_eq_ok_iff fun u hu => hws u (List.mem_cons_of_mem w hu)).mpr hrest
      simp [Path.ofWords, List.mapM_append, read_of_spells hblank hs, hmapM, ht.read_of_byId hid,
        bind, Except.bind]

/-! ## Texts in sequence -/

/-- Two path texts with blanks between them are read as the two paths in sequence, unless the second
one looks an identifier up and the first one is not empty. -/
theorem parse_append_blanks (source text blanks : String) (p q : Path)
    (hp : Path.parse source = .ok p) (hq : Path.parse text = .ok q) (hne : blanks ≠ "")
    (hblanks : Blanks blanks.toList) :
    Path.parse (source ++ blanks ++ text) =
      if p.isEmpty || !q.startsById then .ok ⟨p.selectors ++ q.selectors⟩
      else .error .idNotAtStart := by
  have hspelled := parse_eq_ok_iff.mp hp
  have hspelled' := parse_eq_ok_iff.mp hq
  have htokens : Spacing.tokens (source ++ blanks ++ text).toList =
      Spacing.tokens source.toList ++ Spacing.tokens text.toList := by
    rw [String.toList_append, String.toList_append, List.append_assoc]
    refine tokens_append_blanks (fun h => hne ?_) hblanks (hspelled.apart hspelled')
    exact String.toList_eq_nil_iff.mp h
  cases hempty : p.isEmpty with
  | true =>
    rw [Bool.true_or, if_pos rfl, parse_eq_ok_iff, htokens]
    refine hspelled.append ?_
    rw [show p.selectors.isEmpty = true from hempty]
    exact hspelled'
  | false =>
    cases hid : q.startsById with
    | true =>
      rw [Path.parse, htokens]
      exact ofWords_append_of_startsById hspelled hempty (readable_words _) hspelled' hid
    | false =>
      rw [Bool.not_false, Bool.or_true, if_pos rfl, parse_eq_ok_iff, htokens]
      refine hspelled.append ?_
      rw [show p.selectors.isEmpty = false from hempty]
      exact hspelled'.of_startsById_eq_false hid

/-- A path behind another one, and a lookup behind a path. -/
theorem parse_append_blanks_of_index :
    let p : Path := ⟨[{ names := .single "a", index := some 1 }]⟩
    let q : Path := ⟨[{ names := .single "b", direct := true }]⟩
    let lookup : Path := ⟨[{ names := .single "x", byId := true }]⟩
    Path.parse "a ( 1 )" = .ok p ∧ Path.parse "> b" = .ok q ∧ Path.parse "# x" = .ok lookup ∧
      Path.parse ("a ( 1 )" ++ "\u2003\n" ++ "> b") = .ok ⟨p.selectors ++ q.selectors⟩ ∧
      Path.parse ("a ( 1 )" ++ "\u2003\n" ++ "# x") = .error .idNotAtStart := by
  intro p q lookup
  have hp : Path.parse "a ( 1 )" = .ok p := by cbv
  have hq : Path.parse "> b" = .ok q := by cbv
  have hlookup : Path.parse "# x" = .ok lookup := by cbv
  have hblanks : Blanks "\u2003\n".toList := by decide
  exact ⟨hp, hq, hlookup, parse_append_blanks _ _ _ p q hp hq (by decide) hblanks,
    parse_append_blanks _ _ _ p lookup hp hlookup (by decide) hblanks⟩

end TreeSelect
