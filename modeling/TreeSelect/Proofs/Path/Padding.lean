/-
# TreeSelect.Proofs.Path.Padding — path text with blanks

A path is written with blanks where people write them: behind a leading mark, around bars and
equality signs, inside the brackets and in front of an index; also with zeros in front of the index,
and with any blanks between two selectors, or none where the second one has the mark of a child.
`Path.Padded` says so of a text. Such a text loosens the words of the path, so it is read as the
path.
-/
import TreeSelect.Proofs.Path.RoundTrip
import TreeSelect.Proofs.Path.Spacing.Loose

namespace TreeSelect

open TreeSelect.Text TreeSelect.Spacing

/-! ## Texts with blanks -/

/-- Names with bars between them, and blanks around the bars. -/
inductive PaddedBars : List String → List Char → Prop
  | last {name : String} : PaddedBars [name] name.toList
  | bar {name : String} {names : List String} {before behind t : List Char} : Blanks before →
      Blanks behind → PaddedBars names t →
      PaddedBars (name :: names) (name.toList ++ (before ++ '|' :: (behind ++ t)))

/-- The names of a selector, with blanks around bars. -/
inductive NameTest.Padded : NameTest → List Char → Prop
  | any : Padded .any []
  | single {name : String} : Padded (.single name) name.toList
  | oneOf {names : List String} {t : List Char} : PaddedBars names t → Padded (.oneOf names) t

/-- An attribute in square brackets, with blanks inside of them and around the equality sign. -/
inductive AttributeTest.Padded : AttributeTest → List Char → Prop
  | present {name : String} {opening closing : List Char} : Blanks opening → Blanks closing →
      Padded { name } ('[' :: (opening ++ (name.toList ++ (closing ++ [']']))))
  | valued {name value : String} {opening before behind closing : List Char} : Blanks opening →
      Blanks before → Blanks behind → Blanks closing →
      Padded { name, value := some value } ('[' :: (opening ++ (name.toList ++
        (before ++ '=' :: (behind ++ '"' :: (value.toList ++ '"' :: (closing ++ [']'])))))))

/-- An index with blanks in front of its brackets and inside of them, and with zeros in front of its
digits. -/
inductive PaddedIndex (zeros index : Nat) : List Char → Prop
  | mk {before opening closing : List Char} : Blanks before → Blanks opening → Blanks closing →
      PaddedIndex zeros index
        (before ++ '(' :: (opening ++ (Selector.zeroed zeros index ++ (closing ++ [')']))))

/-- The parts of a selector in the order of its written form, with blanks behind the mark. -/
inductive Selector.Padded (s : Selector) : List Char → Prop
  | mk {behind names attr index : List Char} (zeros : Nat) : Blanks behind →
      (s.mark = [] → behind = []) → s.names.Padded names →
      s.attr.elim (attr = []) (·.Padded attr) →
      s.index.elim (index = []) (PaddedIndex zeros · index) →
      Padded s (s.mark ++ (behind ++ (names ++ (attr ++ index))))

/-- Selectors with blanks between them and at both ends. There may be none in front of the first
selector and of a step to children. -/
inductive PaddedAll : Bool → List Selector → List Char → Prop
  | nil {first : Bool} {trail : List Char} : Blanks trail → PaddedAll first [] trail
  | cons {first : Bool} {s : Selector} {selectors : List Selector} {lead word t : List Char} :
      Blanks lead → (lead = [] → first = true ∨ s.direct = true) → s.Padded word →
      PaddedAll false selectors t → PaddedAll first (s :: selectors) (lead ++ (word ++ t))

/-- The text is a spelling of the path with blanks. -/
def Path.Padded (p : Path) (text : List Char) : Prop := PaddedAll true p.selectors text

/-! ## Looser pieces -/

theorem IsName.not_blank {name : List Char} (h : IsName name) : ∀ c ∈ name, isBlank c = false :=
  fun c hc => (h.2 c hc).1

theorem PaddedBars.ne_nil {names : List String} {t : List Char} (h : PaddedBars names t) :
    names ≠ [] := by
  cases h with
  | last => exact List.cons_ne_nil _ _
  | bar _ _ _ => exact List.cons_ne_nil _ _

section Loosens

variable {x w : List Char}

theorem PaddedBars.loosens {names : List String} {t : List Char} (h : PaddedBars names t)
    (hnames : ∀ name ∈ names, IsName name.toList) (hx : Loosens x w) :
    Loosens (t ++ x) (['|'].intercalate (names.map String.toList) ++ w) := by
  induction h with
  | @last name =>
    have hname := hnames name List.mem_cons_self
    simpa using hx.append hname.not_blank
  | @bar name names before behind t hbefore hbehind hrest ih =>
    have hname := hnames name List.mem_cons_self
    have hne : names.map String.toList ≠ [] := by simpa using hrest.ne_nil
    have hbar := (ih fun n hn => hnames n (List.mem_cons_of_mem _ hn)).around
      (by decide : '|' ∈ sealedBefore) (by decide) hbefore hbehind
    rw [List.map_cons, List.intercalate_cons_of_ne_nil hne]
    simpa using hbar.append hname.not_blank

theorem NameTest.Padded.loosens {names : NameTest} {t : List Char} (h : names.Padded t)
    (hnames : ∀ name ∈ names.members, IsName name.toList) (hx : Loosens x w) :
    Loosens (t ++ x) (names.toChars ++ w) := by
  cases h with
  | any => exact hx
  | @single name => exact hx.append (hnames name (by simp [members])).not_blank
  | oneOf hbars => exact hbars.loosens hnames hx

theorem AttributeTest.Padded.loosens {test : AttributeTest} {t : List Char} (h : test.Padded t)
    (hname : IsName test.name.toList)
    (hvalue : ∀ value, test.value = some value → IsName value.toList) (hx : Loosens x w) :
    Loosens (t ++ x) (test.toChars ++ w) := by
  have hquote : ∀ c ∈ ['"'], isBlank c = false := List.forall_mem_singleton.mpr (by decide)
  cases h with
  | present hopening hclosing =>
    have hclose := hx.before (by decide : ']' ∈ sealedBefore) hclosing
    have hopen := (hclose.append hname.not_blank).behind (by decide : '[' ∈ sealedBehind) hopening
    simpa [toChars] using hopen
  | @valued name value _ _ _ _ hopening hbefore hbehind hclosing =>
    have hclose := hx.before (by decide : ']' ∈ sealedBefore) hclosing
    have hquoted := ((hclose.append hquote).append (hvalue value rfl).not_blank).append hquote
    have heq := hquoted.around (by decide : '=' ∈ sealedBefore) (by decide) hbefore hbehind
    have hopen := (heq.append hname.not_blank).behind (by decide : '[' ∈ sealedBehind) hopening
    simpa [toChars] using hopen

theorem PaddedIndex.loosens {zeros index : Nat} {t : List Char} (h : PaddedIndex zeros index t)
    (hx : Loosens x w) :
    Loosens (t ++ x) (Selector.indexCharsZeroed zeros index ++ w) := by
  obtain ⟨hbefore, hopening, hclosing⟩ := h
  have hdigits : ∀ c ∈ Selector.zeroed zeros index, isBlank c = false :=
    fun c hc => not_blank_of_isDigit (Selector.isDigit_of_mem_zeroed hc)
  have hclose := hx.before (by decide : ')' ∈ sealedBefore) hclosing
  have hopen := (hclose.append hdigits).around (by decide : '(' ∈ sealedBefore) (by decide)
    hbefore hopening
  simpa [Selector.indexCharsZeroed] using hopen

/-- What is written of a selector with blanks loosens what is written without. -/
theorem Selector.Padded.loosens {first : Bool} {s : Selector} {t : List Char} (h : s.Padded t)
    (hs : s.Expressible first) :
    ∃ zeros, ∀ x w, Loosens x w → Loosens (t ++ x) (s.toCharsZeroed zeros ++ w) := by
  obtain @⟨behind, names, attr, index, zeros, hbehind, hmark, hnames, hattr, hindex⟩ := h
  refine ⟨zeros, fun x w hx => ?_⟩
  -- The parts are put in front of the text one by one, the last one first.
  have hwithIndex : Loosens (index ++ x) (s.index.elim [] (indexCharsZeroed zeros) ++ w) := by
    cases hi : s.index with
    | none =>
      obtain rfl : index = [] := by simpa [hi] using hindex
      exact hx
    | some i =>
      rw [hi] at hindex
      exact hindex.loosens hx
  have hwithAttr : Loosens (attr ++ (index ++ x)) (s.attr.elim [] AttributeTest.toChars ++
      (s.index.elim [] (indexCharsZeroed zeros) ++ w)) := by
    cases ha : s.attr with
    | none =>
      obtain rfl : attr = [] := by simpa [ha] using hattr
      exact hwithIndex
    | some test =>
      rw [ha] at hattr
      obtain ⟨hname, hvalue⟩ := hs.isName_attr test ha
      exact hattr.loosens hname hvalue hwithIndex
  have hunmarked := hnames.loosens hs.isName hwithAttr
  have hmarked : Loosens (s.mark ++ (behind ++ (names ++ (attr ++ (index ++ x)))))
      (s.mark ++ (s.names.toChars ++ (s.attr.elim [] AttributeTest.toChars ++
        (s.index.elim [] (indexCharsZeroed zeros) ++ w)))) := by
    rcases s.mark_cases with hm | hm | hm
    · rw [hm, hmark hm]
      exact hunmarked
    · have hbehindMark := hunmarked.behind (by decide : '#' ∈ sealedBehind) hbehind
      rw [hm]
      exact hbehindMark
    · have hbehindMark := hunmarked.behind (by decide : '>' ∈ sealedBehind) hbehind
      rw [hm]
      exact hbehindMark
  simpa only [toCharsZeroed, List.append_assoc] using hmarked

end Loosens

/-! ## Words of expressible selectors -/

/-- The round brackets of a written form come in pairs. -/
theorem Selector.Expressible.rounds {first : Bool} {s : Selector} (h : s.Expressible first)
    (zeros : Nat) : Rounds (s.toCharsZeroed zeros) := by
  have hfront : Rounds s.frontChars := .of_not_mem fun c => h.not_round
  rw [toCharsZeroed_eq]
  refine hfront.append ?_
  cases s.index with
  | none => exact .nil
  | some index =>
    refine .pair (zeroed_ne_nil zeros index) (fun c hc => ?_) .nil
    have hname := nameChar_of_isDigit (isDigit_of_mem_zeroed hc)
    exact ⟨hname.1, hname.not_mem (by decide)⟩

/-! ## Paths -/

theorem intercalate_space_cons (w : List Char) (ws : List (List Char)) :
    [' '].intercalate (w :: ws) = w ++ ws.flatMap (' ' :: ·) := by
  induction ws generalizing w with
  | nil => simp
  | cons v ws ih => rw [List.intercalate_cons_cons, ih v]; simp

theorem Spacing.Rounds.flatMap {ws : List (List Char)} (h : ∀ w ∈ ws, Rounds w) :
    Rounds (ws.flatMap (' ' :: ·)) := by
  induction ws with
  | nil => exact .nil
  | cons w ws ih =>
    rw [List.flatMap_cons]
    exact .append (.cons (by decide) (h w List.mem_cons_self))
      (ih fun v hv => h v (List.mem_cons_of_mem _ hv))

/-- Behind the first selector a text with blanks loosens some words, each with a space before it,
that spell the selectors. -/
theorem PaddedAll.exists_words {selectors : List Selector} {t : List Char}
    (h : PaddedAll false selectors t) (hs : ∀ s ∈ selectors, s.Expressible false) :
    ∃ ws, SpellsAll false ws selectors ∧ (∀ w ∈ ws, Standalone w ∧ Rounds w) ∧
      Loosens t (ws.flatMap (' ' :: ·)) := by
  generalize hfirst : false = first at h
  induction h with
  | nil htrail => exact ⟨[], .nil, by simp, .blank htrail⟩
  | @cons first s selectors lead word t hlead hchild hword hrest ih =>
    subst hfirst
    have hexp := hs s List.mem_cons_self
    obtain ⟨ws, hspells, hws, hloose⟩ := ih (fun v hv => hs v (List.mem_cons_of_mem _ hv)) rfl
    obtain ⟨zeros, hzeros⟩ := hword.loosens hexp
    refine ⟨s.toCharsZeroed zeros :: ws, .cons (hexp.spells zeros) hspells, ?_, ?_⟩
    · rw [List.forall_mem_cons]
      exact ⟨⟨hexp.standalone zeros, hexp.rounds zeros⟩, hws⟩
    · rw [List.flatMap_cons, List.cons_append]
      refine .space hlead (fun hnil => ?_) (hzeros _ _ hloose)
      rw [Selector.toCharsZeroed, hexp.mark_of_direct ((hchild hnil).resolve_left (by simp))]
      rfl

/-- Every text that pads an expressible path is read as the path. -/
theorem Path.Expressible.parse_of_padded {p : Path} {text : String} (h : p.Expressible)
    (hpad : p.Padded text.toList) : Path.parse text = .ok p := by
  obtain ⟨selectors⟩ := p
  rw [parse_eq_ok_iff, Spacing.tokens]
  generalize text.toList = t at hpad
  obtain htrail | @⟨_, s, selectors, lead, word, t, hlead, -, hword, hrest⟩ := hpad
  · have hwords := words_normalize_of_loosens (.blank blanks_nil) htrail .nil .nil
    rw [List.append_nil, words_nil] at hwords
    rw [hwords]
    exact .nil
  · have hexp : s.Expressible true := h 0 s rfl
    obtain ⟨zeros, hzeros⟩ := hword.loosens hexp
    obtain ⟨ws, hspells, hws, hloose⟩ := hrest.exists_words fun v hv => by
      obtain ⟨i, hi⟩ := List.mem_iff_getElem?.mp hv
      exact h (i + 1) v hi
    have hall : ∀ w ∈ s.toCharsZeroed zeros :: ws, Standalone w ∧ Rounds w := by
      rw [List.forall_mem_cons]
      exact ⟨⟨hexp.standalone zeros, hexp.rounds zeros⟩, hws⟩
    have hspelled : SpellsAll true (s.toCharsZeroed zeros :: ws) (s :: selectors) :=
      .cons (hexp.spells zeros) hspells
    have hrounds := (hexp.rounds zeros).append (Rounds.flatMap fun w hw => (hws w hw).2)
    have hrest := (atRest_intercalate fun w hw => (hall w hw).1).1
    rw [intercalate_space_cons] at hrest
    rw [words_normalize_of_loosens (hzeros _ _ hloose) hlead hrest hrounds,
      ← intercalate_space_cons,
      words_intercalate hspelled.ne_nil fun w hw => (hall w hw).1.not_blank]
    exact hspelled

/-- A path that was read from some text is read from every text that spells it with blanks. -/
theorem parse_padded_of_parse (source text : String) (p : Path)
    (hsource : Path.parse source = .ok p) (hpad : p.Padded text.toList) :
    Path.parse text = .ok p :=
  (Path.expressible_of_parse hsource).parse_of_padded hpad

/-- A path with every kind of mark, spelled without blanks and with blanks wherever they may
stand. -/
theorem parse_padded_of_parse_everywhere :
    let p : Path := ⟨[
      { names := .single "a", byId := true },
      { names := .single "b", direct := true, attr := some { name := "x", value := some "1" },
        index := some 2 },
      { names := .oneOf ["c", "d"] }]⟩
    let text := "\t#\u2003a> b[ x = \"1\" ] ( 002\n)  c |d "
    Path.parse "#a>b[x=\"1\"](2) c|d" = .ok p ∧ p.Padded text.toList ∧
      Path.parse text = .ok p := by
  intro p text
  have hread : Path.parse "#a>b[x=\"1\"](2) c|d" = .ok p := by cbv
  have hid : Selector.Padded p.selectors[0] "#\u2003a".toList :=
    @Selector.Padded.mk p.selectors[0] ['\u2003'] ['a'] [] [] 0 (by decide) (by decide) .single rfl
      rfl
  have hattr : AttributeTest.Padded { name := "x", value := some "1" } "[ x = \"1\" ]".toList :=
    @AttributeTest.Padded.valued "x" "1" [' '] [' '] [' '] [' '] (by decide) (by decide) (by decide)
      (by decide)
  have hindex : PaddedIndex 2 2 " ( 002\n)".toList :=
    @PaddedIndex.mk 2 2 [' '] [' '] ['\n'] (by decide) (by decide) (by decide)
  have hchild : Selector.Padded p.selectors[1] "> b[ x = \"1\" ] ( 002\n)".toList :=
    @Selector.Padded.mk p.selectors[1] [' '] ['b'] _ _ 2 (by decide) (by decide) .single hattr
      hindex
  have hbars : Selector.Padded p.selectors[2] "c |d".toList :=
    @Selector.Padded.mk p.selectors[2] [] _ [] [] 0 (by decide) (by decide)
      (.oneOf (@PaddedBars.bar "c" ["d"] [' '] [] ['d'] (by decide) (by decide) .last)) rfl rfl
  have hpad : p.Padded text.toList := by
    have htext : text.toList = ['\t'] ++ ("#\u2003a".toList ++ ([] ++
        ("> b[ x = \"1\" ] ( 002\n)".toList ++ ([' ', ' '] ++ ("c |d".toList ++ [' ']))))) := by cbv
    rw [htext]
    exact .cons (by decide) (by decide) hid (.cons (by decide) (by decide) hchild
      (.cons (by decide) (by decide) hbars (.nil (by decide))))
  exact ⟨hread, hpad, parse_padded_of_parse _ text p hread hpad⟩

end TreeSelect
