/-
# TreeSelect.Proofs.Path.Acceptance — the texts that are paths

Reading a word gives a selector exactly when the word spells it, and so reading a text gives a path
exactly when its words spell the selectors of the path in their order. A word that spells no
selector makes the whole text a fault, wherever it stands.
-/
import TreeSelect.Proofs.Path.Reading

namespace TreeSelect

open TreeSelect.Text

/-! ## Words -/

/-- How reading goes on behind the mark. -/
theorem Selector.read_of_anchor {first : Bool} {anchor : Anchor} {word rest : List Char}
    (h : readAnchor first word = .ok (anchor, rest)) :
    Selector.read first word =
      if '|' ∈ rest then
        if anchor = .id then .error .alternationWithId
        else (readBars rest).map fun names => { names, direct := anchor = .child }
      else readPlain anchor rest := by
  simp only [Selector.read, h, bind, Except.bind, List.contains_iff_mem]
  split
  · split
    · rfl
    · cases readBars rest <;> rfl
  · rfl

theorem spells_of_read {first : Bool} {word : List Char} {s : Selector} (hne : word ≠ [])
    (h : ∀ c ∈ word, isBlank c = false) (hread : Selector.read first word = .ok s) :
    Spells first word s := by
  cases hanchor : readAnchor first word with
  | error e => simp [Selector.read, hanchor, bind, Except.bind] at hread
  | ok found =>
    obtain ⟨anchor, rest⟩ := found
    rw [Selector.read_of_anchor hanchor] at hread
    obtain ⟨rfl, hid, hrest, -⟩ := readAnchor_eq_ok_iff.mp hanchor
    have hblank : ∀ c ∈ rest, isBlank c = false := fun c hc => h c (by simp [hc])
    -- A bar behind the mark makes the word a list of names; otherwise it is a plain one.
    split at hread
    · next hbar =>
      split at hread
      · cases hread
      · next hnid =>
        cases hbars : readBars rest with
        | error e => simp [hbars, Except.map] at hread
        | ok names =>
          obtain ⟨ws, rfl, hlen, hws, rfl⟩ := (readBars_eq_ok_iff hblank hbar).mp hbars
          rw [hbars] at hread
          obtain rfl := Except.ok.inj hread
          exact .bars hnid hlen hws
    · next hbar =>
      have hunbroken : Unbroken rest := fun c hc => ⟨hblank c hc, fun e => hbar (e ▸ hc)⟩
      have hrest : rest ≠ [] := by
        cases anchor with
        | unmarked => simpa [Anchor.mark] using hne
        | id => exact hrest (by decide)
        | child => exact hrest (by decide)
      obtain ⟨before, bracket, after, names, attr, index, rfl, hbracket, hcore, hempty, rfl⟩ :=
        (Selector.readPlain_eq_ok_iff hunbroken hrest).mp hread
      exact .plain hid hbracket hcore hempty

theorem read_of_spells {first : Bool} {word : List Char} {s : Selector}
    (h : ∀ c ∈ word, isBlank c = false) (hs : Spells first word s) :
    Selector.read first word = .ok s := by
  rcases hs with @⟨anchor, ws, hnid, hlen, hws⟩ |
    @⟨anchor, before, bracket, after, names, attr, index, hid, hbracket, hcore, hempty⟩
  · -- Neither a name nor a bracket begins with a mark, so the mark is read off as it was put on.
    have hbar := mem_intercalate hlen '|'
    have hanchor : readAnchor first (anchor.mark ++ ['|'].intercalate ws) = .ok _ :=
      readAnchor_mark (fun e => absurd e hnid) (List.ne_nil_of_mem hbar)
        fun c hc => .inr (intercalate_head hws hc)
    have hbars : readBars (['|'].intercalate ws) = .ok _ :=
      (readBars_eq_ok_iff (fun c hc => h c (by simp [hc])) hbar).mpr ⟨ws, rfl, hlen, hws, rfl⟩
    rw [Selector.read_of_anchor hanchor, if_pos hbar, if_neg hnid, hbars]
    rfl
  · have hne : before ++ (bracket ++ after) ≠ [] := by
      intro hnil
      simp only [List.append_eq_nil_iff] at hnil
      exact (hempty (by simp [hnil])).1 hnil.2.1
    have hcoreBar : '|' ∉ before ++ after := hcore.not_mem (by simp) (by decide) (by decide)
    have hbar : '|' ∉ before ++ (bracket ++ after) := by
      have := hbracket.not_mem_bar
      simp_all
    have hunbroken : Unbroken (before ++ (bracket ++ after)) := fun c hc =>
      ⟨h c (by simp only [List.mem_append] at hc ⊢; exact .inr hc), fun e => hbar (e ▸ hc)⟩
    have hanchor : readAnchor first (anchor.mark ++ (before ++ (bracket ++ after))) = .ok _ :=
      readAnchor_mark hid hne fun c => hbracket.head hcore
    rw [Selector.read_of_anchor hanchor, if_neg hbar]
    exact (Selector.readPlain_eq_ok_iff hunbroken hne).mpr
      ⟨before, bracket, after, names, attr, index, rfl, hbracket, hcore, hempty, rfl⟩

/-- A word is read as the selector that it spells, and as no other. -/
theorem read_eq_ok_iff {first : Bool} {word : List Char} {s : Selector} (hne : word ≠ [])
    (h : ∀ c ∈ word, isBlank c = false) :
    Selector.read first word = .ok s ↔ Spells first word s :=
  ⟨spells_of_read hne h, read_of_spells h⟩

/-! ## Sequences of words -/

/-- The words can be read: none is empty, and none holds a blank. -/
def Readable (ws : List (List Char)) : Prop := ∀ w ∈ ws, w ≠ [] ∧ ∀ c ∈ w, isBlank c = false

theorem readable_words (s : List Char) : Readable (words s) :=
  fun _ hw => ⟨ne_nil_of_mem_words hw, not_blank_of_mem_words hw⟩

theorem mapM_read_eq_ok_iff {ws : List (List Char)} {selectors : List Selector}
    (h : Readable ws) :
    ws.mapM (Selector.read false) = .ok selectors ↔ SpellsAll false ws selectors := by
  induction ws generalizing selectors with
  | nil =>
    constructor
    · intro hread
      obtain rfl : [] = selectors := by simpa [pure, Except.pure] using hread
      exact .nil
    · rintro ⟨⟩
      rfl
  | cons w ws ih =>
    have hws : Readable ws := fun v hv => h v (List.mem_cons_of_mem _ hv)
    obtain ⟨hne, hblank⟩ := h w List.mem_cons_self
    simp only [List.mapM_cons, bind, Except.bind]
    constructor
    · intro hread
      split at hread
      · cases hread
      · next s hs =>
        split at hread
        · cases hread
        · next rest hrest =>
          obtain rfl : s :: rest = selectors := by simpa [pure, Except.pure] using hread
          exact .cons ((read_eq_ok_iff hne hblank).mp hs) ((ih hws).mp hrest)
    · rintro (_ | ⟨hs, hrest⟩)
      rw [(read_eq_ok_iff hne hblank).mpr hs, (ih hws).mpr hrest]
      rfl

/-- Words are read as the path whose selectors they spell. -/
theorem ofWords_eq_ok_iff {ws : List (List Char)} {p : Path} (h : Readable ws) :
    Path.ofWords ws = .ok p ↔ SpellsAll true ws p.selectors := by
  cases ws with
  | nil =>
    constructor
    · intro hread
      obtain rfl : {} = p := Except.ok.inj hread
      exact .nil
    · intro hp
      obtain ⟨selectors⟩ := p
      cases hp
      rfl
  | cons w ws =>
    have hws : Readable ws := fun v hv => h v (List.mem_cons_of_mem _ hv)
    obtain ⟨hne, hblank⟩ := h w List.mem_cons_self
    simp only [Path.ofWords, bind, Except.bind]
    constructor
    · intro hread
      split at hread
      · cases hread
      · next s hs =>
        split at hread
        · cases hread
        · next rest hrest =>
          obtain rfl : ⟨s :: rest⟩ = p := by simpa [pure, Except.pure] using hread
          exact .cons ((read_eq_ok_iff hne hblank).mp hs) ((mapM_read_eq_ok_iff hws).mp hrest)
    · intro hp
      obtain ⟨selectors⟩ := p
      rcases hp with _ | ⟨hs, hrest⟩
      rw [(read_eq_ok_iff hne hblank).mpr hs, (mapM_read_eq_ok_iff hws).mpr hrest]
      rfl

/-- Spelling one by one, said of each place. -/
theorem spellsAll_iff {first : Bool} {ws : List (List Char)} {selectors : List Selector} :
    SpellsAll first ws selectors ↔ selectors.length = ws.length ∧
      ∀ (i : Nat) (w : List Char) (s : Selector), ws[i]? = some w → selectors[i]? = some s →
        Spells (first && i == 0) w s := by
  induction ws generalizing first selectors with
  | nil =>
    constructor
    · rintro ⟨⟩
      simp
    · rintro ⟨hlen, -⟩
      obtain rfl := List.length_eq_zero_iff.mp hlen
      exact .nil
  | cons w ws ih =>
    constructor
    · rintro (_ | ⟨hs, hrest⟩)
      obtain ⟨hlen, hall⟩ := ih.mp hrest
      refine ⟨by simp [hlen], fun i v s hv hsel => ?_⟩
      cases i with
      | zero =>
        obtain ⟨rfl, rfl⟩ : w = v ∧ _ = s := by simpa using And.intro hv hsel
        simpa using hs
      | succ i => simpa using hall i v s (by simpa using hv) (by simpa using hsel)
    · rintro ⟨hlen, hall⟩
      cases selectors with
      | nil => simp at hlen
      | cons s selectors =>
        refine .cons (by simpa using hall 0 w s rfl rfl) (ih.mpr ⟨by simpa using hlen, ?_⟩)
        intro i v s' hv hsel
        simpa using hall (i + 1) v s' (by simpa using hv) (by simpa using hsel)

/-- Words spell some selectors as soon as each word spells one. -/
theorem exists_spellsAll_iff {first : Bool} {ws : List (List Char)} :
    (∃ selectors, SpellsAll first ws selectors) ↔
      ∀ (i : Nat) (w : List Char), ws[i]? = some w → ∃ s, Spells (first && i == 0) w s := by
  constructor
  · rintro ⟨selectors, h⟩ i w hw
    obtain ⟨hlen, hall⟩ := spellsAll_iff.mp h
    have hi : i < selectors.length := hlen ▸ (List.getElem?_eq_some_iff.mp hw).1
    exact ⟨selectors[i], hall i w _ hw (List.getElem?_eq_getElem hi)⟩
  · intro h
    induction ws generalizing first with
    | nil => exact ⟨[], .nil⟩
    | cons w ws ih =>
      obtain ⟨s, hs⟩ := h 0 w rfl
      obtain ⟨rest, hrest⟩ := @ih false fun i v hv => by
        simpa using h (i + 1) v (by simpa using hv)
      exact ⟨s :: rest, .cons (by simpa using hs) hrest⟩

/-! ## Texts -/

theorem parse_eq_ok_iff {text : String} {p : Path} :
    Path.parse text = .ok p ↔ SpellsAll true (Spacing.tokens text.toList) p.selectors :=
  ofWords_eq_ok_iff (readable_words _)

/-- The words of a text, as strings and as lists of characters. -/
theorem getElem?_tokens {text : String} {i : Nat} {w : List Char} :
    (Spacing.tokens text.toList)[i]? = some w ↔
      (Path.tokens text)[i]? = some (String.ofList w) := by
  rw [Path.tokens, List.getElem?_map, Option.map_eq_some_iff]
  constructor
  · exact fun h => ⟨w, h, rfl⟩
  · rintro ⟨v, hv, heq⟩
    rw [hv, String.ofList_injective heq]

/-- A text is a path exactly when each of its words spells a selector; then the path has one
selector for each word, and the word at its place spells it. Any other text is a fault. -/
theorem parse_accepts_exactly_spelled (text : String) :
    ((∃ p, Path.parse text = .ok p) ↔
      ∀ (i : Nat) (word : String), (Path.tokens text)[i]? = some word →
        ∃ s, Spells (i == 0) word.toList s) ∧
    (∀ p : Path, Path.parse text = .ok p ↔ p.length = (Path.tokens text).length ∧
      ∀ (i : Nat) (word : String) (s : Selector), (Path.tokens text)[i]? = some word →
        p.selectors[i]? = some s → Spells (i == 0) word.toList s) ∧
    ((∃ fault, Path.parse text = .error fault) ↔
      ∃ (i : Nat) (word : String), (Path.tokens text)[i]? = some word ∧
        ∀ s, ¬Spells (i == 0) word.toList s) := by
  have accepted : (∃ p, Path.parse text = .ok p) ↔
      ∀ (i : Nat) (word : String), (Path.tokens text)[i]? = some word →
        ∃ s, Spells (i == 0) word.toList s := by
    have hspelled : (∃ p, Path.parse text = .ok p) ↔
        ∃ selectors, SpellsAll true (Spacing.tokens text.toList) selectors :=
      ⟨fun ⟨p, hp⟩ => ⟨p.selectors, parse_eq_ok_iff.mp hp⟩,
        fun ⟨selectors, h⟩ => ⟨⟨selectors⟩, parse_eq_ok_iff.mpr h⟩⟩
    rw [hspelled, exists_spellsAll_iff]
    constructor
    · intro h i word hword
      exact h i word.toList (getElem?_tokens.mpr (by rwa [String.ofList_toList]))
    · intro h i w hw
      simpa using h i (String.ofList w) (getElem?_tokens.mp hw)
  refine ⟨accepted, fun p => ?_, ?_⟩
  · rw [parse_eq_ok_iff, spellsAll_iff]
    refine and_congr (by simp [Path.length, Path.tokens]) ?_
    constructor
    · intro h i word s hword
      exact h i word.toList s (getElem?_tokens.mpr (by rwa [String.ofList_toList]))
    · intro h i w s hw
      simpa using h i (String.ofList w) s (getElem?_tokens.mp hw)
  · have hfault : (∃ fault, Path.parse text = .error fault) ↔ ¬∃ p, Path.parse text = .ok p := by
      cases Path.parse text <;> simp
    rw [hfault, accepted]
    simp only [Classical.not_forall, not_exists, exists_prop]

end TreeSelect
