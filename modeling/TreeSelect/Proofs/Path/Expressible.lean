/-
# TreeSelect.Proofs.Path.Expressible — the paths that some text means

A selector made by hand may hold what no word says: a name with a blank in it, bars around a single
name, an index beside bars. `Selector.Expressible` lists what is needed of its fields, and it is
exact: every spelled selector has it (`Spells.expressible`), and every selector that has it is
spelled by its written form, whatever zeros are put in front of the index
(`Selector.Expressible.spells`).
-/
import TreeSelect.Path.Printer
import TreeSelect.Proofs.Path.Shape

namespace TreeSelect

open TreeSelect.Text

/-! ## Expressible selectors -/

/-- The names that a test asks for. -/
def NameTest.members : NameTest → List String
  | any => []
  | single name => [name]
  | oneOf names => names

/-- Some word of a path says what the selector says; the flag tells whether the word may be the
first one. -/
structure Selector.Expressible (first : Bool) (s : Selector) : Prop where
  /-- An identifier is a single name and stands at the head of the path. -/
  byId : s.byId = true → first = true ∧ s.direct = false ∧ ∃ id, s.names = .single id
  /-- Bars stand between two names or more, and nothing stands beside them. -/
  oneOf : ∀ names, s.names = .oneOf names →
    2 ≤ names.length ∧ s.attr = none ∧ s.index = none ∧ s.byId = false
  /-- Without a name there is an attribute, and no index. -/
  any : s.names = .any → s.attr ≠ none ∧ s.index = none ∧ s.byId = false
  isName : ∀ name ∈ s.names.members, IsName name.toList
  isName_attr : ∀ test, s.attr = some test →
    IsName test.name.toList ∧ ∀ value, test.value = some value → IsName value.toList
  index_lt : ∀ index, s.index = some index → index < 2 ^ 64

/-- Each selector of the path is expressible at its place. -/
def Path.Expressible (p : Path) : Prop :=
  ∀ (i : Nat) (s : Selector), p.selectors[i]? = some s → s.Expressible (i == 0)

/-! ## Spelled selectors -/

namespace Core

variable {s : List Char} {names : NameTest} {index : Option Nat}

theorem isName (h : Core s names index) : ∀ name ∈ names.members, IsName name.toList := by
  rcases h with _ | hname | ⟨hname, -, -, -⟩
  · simp [NameTest.members]
  · simpa [NameTest.members] using hname
  · simpa [NameTest.members] using hname

theorem index_lt (h : Core s names index) : ∀ i, index = some i → i < 2 ^ 64 := by
  rcases h with _ | _ | ⟨-, -, -, hlt⟩
  · simp
  · simp
  · rintro i ⟨⟩
    exact hlt

/-- A core says nothing or asks for one name. -/
theorem names_eq (h : Core s names index) :
    s = [] ∧ names = .any ∧ index = none ∨ ∃ name, names = .single name := by
  rcases h with _ | _ | _
  · exact .inl ⟨rfl, rfl, rfl⟩
  · exact .inr ⟨_, rfl⟩
  · exact .inr ⟨_, rfl⟩

end Core

theorem Bracket.isName {bracket : List Char} {attr : Option AttributeTest}
    (h : Bracket bracket attr) : ∀ test, attr = some test →
      IsName test.name.toList ∧ ∀ value, test.value = some value → IsName value.toList := by
  rcases h with _ | ⟨hname | ⟨hname, hvalue⟩⟩
  · simp
  · rintro test ⟨⟩
    simpa using hname
  · rintro test ⟨⟩
    simpa using And.intro hname hvalue

theorem Bracket.attr_ne_none {bracket : List Char} {attr : Option AttributeTest}
    (h : Bracket bracket attr) (hne : bracket ≠ []) : attr ≠ none := by
  rcases h with _ | _
  · exact absurd rfl hne
  · exact Option.some_ne_none _

/-- What a word spells is expressible. -/
theorem Spells.expressible {first : Bool} {word : List Char} {s : Selector}
    (h : Spells first word s) : s.Expressible first := by
  rcases h with @⟨anchor, ws, hnid, hlen, hws⟩ |
    @⟨anchor, before, bracket, after, names, attr, index, hid, hbracket, hcore, hempty⟩
  · refine ⟨by simp, ?_, by simp, ?_, by simp, by simp⟩
    · rintro names ⟨⟩
      simpa using hlen
    · simpa [NameTest.members] using hws
  · refine ⟨?_, ?_, ?_, hcore.isName, hbracket.isName, hcore.index_lt⟩
    · intro hbyId
      obtain rfl : anchor = .id := by simpa using hbyId
      refine ⟨hid rfl, rfl, ?_⟩
      rcases hcore.names_eq with ⟨hnil, -, -⟩ | hsingle
      · exact absurd rfl (hempty hnil).2
      · exact hsingle
    · rintro ws rfl
      rcases hcore.names_eq with ⟨-, hany, -⟩ | ⟨name, hsingle⟩
      · cases hany
      · cases hsingle
    · rintro rfl
      rcases hcore.names_eq with ⟨hnil, -, hindex⟩ | ⟨name, hsingle⟩
      · obtain ⟨hne, hnid⟩ := hempty hnil
        exact ⟨hbracket.attr_ne_none hne, hindex, by simpa using hnid⟩
      · cases hsingle

/-! ## The written form of an expressible selector -/

theorem NameTest.nameChar_of_mem_toChars {names : NameTest}
    (hnames : ∀ name ∈ names.members, IsName name.toList) {c : Char} (hc : c ∈ names.toChars) :
    c = '|' ∨ NameChar c := by
  cases names with
  | any => cases hc
  | single name => exact .inr ((hnames name (by simp [members])).2 c hc)
  | oneOf names =>
    refine nameChar_of_mem_intercalate (fun w hw => ?_) hc
    obtain ⟨name, hname, rfl⟩ := List.mem_map.mp hw
    exact hnames name hname

namespace Selector

/-- The digits of an index, with zeros in front. -/
def zeroed (zeros index : Nat) : List Char := List.replicate zeros '0' ++ Nat.toDigits 10 index

/-- The index in round brackets, with zeros in front of it. -/
def indexCharsZeroed (zeros index : Nat) : List Char := '(' :: (zeroed zeros index ++ [')'])

/-- The written form of a selector, with zeros in front of its index. -/
def toCharsZeroed (zeros : Nat) (s : Selector) : List Char :=
  s.mark ++ (s.names.toChars ++ (s.attr.elim [] AttributeTest.toChars ++
    s.index.elim [] (indexCharsZeroed zeros)))

theorem toCharsZeroed_zero (s : Selector) : s.toCharsZeroed 0 = s.toChars := by
  have hindex : indexCharsZeroed 0 = indexChars := by
    funext index
    simp [indexCharsZeroed, zeroed, indexChars]
  simp [toCharsZeroed, toChars, hindex]

/-- What is written of a selector in front of its index. -/
def frontChars (s : Selector) : List Char :=
  s.mark ++ (s.names.toChars ++ s.attr.elim [] AttributeTest.toChars)

theorem toCharsZeroed_eq (zeros : Nat) (s : Selector) :
    s.toCharsZeroed zeros = s.frontChars ++ s.index.elim [] (indexCharsZeroed zeros) := by
  simp [toCharsZeroed, frontChars]

theorem mark_cases (s : Selector) : s.mark = [] ∨ s.mark = ['#'] ∨ s.mark = ['>'] := by
  unfold mark
  split
  · exact .inr (.inl rfl)
  · split
    · exact .inr (.inr rfl)
    · exact .inl rfl

theorem isDigit_of_mem_zeroed {zeros index : Nat} {d : Char} (h : d ∈ zeroed zeros index) :
    d.isDigit = true := by
  rcases List.mem_append.mp h with h | h
  · rw [List.eq_of_mem_replicate h]
    decide
  · exact Nat.isDigit_of_mem_toDigits (by decide) (by decide) h

theorem zeroed_ne_nil (zeros index : Nat) : zeroed zeros index ≠ [] := fun h =>
  Nat.toDigits_ne_nil (List.append_eq_nil_iff.mp h).2

/-- Zeros in front do not change the value. -/
theorem ofDigitChars_zeroed (zeros index : Nat) :
    Nat.ofDigitChars 10 (zeroed zeros index) 0 = index := by
  induction zeros with
  | zero => exact Nat.ofDigitChars_ten_toDigits
  | succ zeros ih =>
    rw [zeroed, List.replicate_succ, List.cons_append, Nat.ofDigitChars_cons]
    exact ih

/-- The anchor of a selector. -/
def anchor (s : Selector) : Anchor := if s.byId then .id else if s.direct then .child else .unmarked

theorem mark_eq (s : Selector) : s.mark = s.anchor.mark := by
  unfold mark anchor
  split
  · rfl
  · split
    · rfl
    · rfl

namespace Expressible

variable {first : Bool} {s : Selector}

/-- A selector made of the parts of an expressible one is that selector. -/
theorem eq_of_anchor (h : s.Expressible first) :
    { names := s.names, byId := s.anchor = .id, direct := s.anchor = .child, attr := s.attr,
      index := s.index : Selector } = s := by
  obtain ⟨names, byId, direct, attr, index⟩ := s
  have hdirect := h.byId
  cases byId with
  | false => cases direct <;> simp [anchor]
  | true =>
    obtain rfl : direct = false := (hdirect rfl).2.1
    simp [anchor]

theorem first_of_anchor (h : s.Expressible first) (hid : s.anchor = .id) : first = true := by
  rw [← h.eq_of_anchor] at h
  exact (h.byId (by simpa using hid)).1

theorem anchor_ne_id (h : s.byId = false) : s.anchor ≠ .id := by
  unfold anchor
  rw [h, if_neg Bool.false_ne_true]
  split
  · decide
  · decide

/-- The attribute of an expressible selector is written as a square bracket. -/
theorem bracket (h : s.Expressible first) :
    Bracket (s.attr.elim [] AttributeTest.toChars) s.attr := by
  cases hattr : s.attr with
  | none => exact .absent
  | some test =>
    obtain ⟨name, value⟩ := test
    obtain ⟨hname, hvalue⟩ := h.isName_attr _ hattr
    cases value with
    | none =>
      have := Bracket.enclosed (Attribute.present hname)
      simpa [AttributeTest.toChars] using this
    | some value =>
      have := Bracket.enclosed (Attribute.valued hname (hvalue value rfl))
      simpa [AttributeTest.toChars] using this

/-- A single name and the index after it are written as a core. -/
theorem core (h : s.Expressible first) {name : String} (hnames : s.names = .single name)
    (zeros : Nat) :
    Core (name.toList ++ s.index.elim [] (indexCharsZeroed zeros)) (.single name) s.index := by
  have hname : IsName name.toList := h.isName name (by simp [hnames, NameTest.members])
  cases hindex : s.index with
  | none =>
    have := Core.name hname
    simpa using this
  | some index =>
    have hvalue := ofDigitChars_zeroed zeros index
    have := Core.indexed hname (zeroed_ne_nil zeros index) (fun d => isDigit_of_mem_zeroed)
      (hvalue.symm ▸ h.index_lt index hindex)
    simpa [hvalue, indexCharsZeroed] using this

/-- What is written of an expressible selector spells it. -/
theorem spells (h : s.Expressible first) (zeros : Nat) :
    Spells first (s.toCharsZeroed zeros) s := by
  have hspelled : Spells first (s.toCharsZeroed zeros)
      { names := s.names, byId := s.anchor = .id, direct := s.anchor = .child, attr := s.attr,
        index := s.index } := by
    rw [toCharsZeroed, mark_eq]
    cases hnames : s.names with
    | any =>
      obtain ⟨hattr, hindex, hbyId⟩ := h.any hnames
      obtain ⟨test, hattr⟩ := Option.ne_none_iff_exists'.mp hattr
      rw [hindex]
      refine @Spells.plain first s.anchor [] _ [] _ _ _ h.first_of_anchor h.bracket .empty ?_
      intro _
      rw [hattr]
      exact ⟨List.cons_ne_nil _ _, anchor_ne_id hbyId⟩
    | single name =>
      have hname := h.isName name (by simp [hnames, NameTest.members])
      refine .plain h.first_of_anchor h.bracket (h.core hnames zeros) ?_
      intro hnil
      exact absurd (List.append_eq_nil_iff.mp hnil).1 hname.1
    | oneOf names =>
      obtain ⟨hlen, hattr, hindex, hbyId⟩ := h.oneOf names hnames
      have hnid := anchor_ne_id hbyId
      have hbars : Spells first (s.anchor.mark ++ ['|'].intercalate (names.map String.toList)) _ :=
        .bars hnid (by rwa [List.length_map]) fun w hw => by
          obtain ⟨name, hname, rfl⟩ := List.mem_map.mp hw
          exact h.isName name (by rwa [hnames])
      simpa [hattr, hindex, hnid, NameTest.toChars] using hbars
  rwa [h.eq_of_anchor] at hspelled

/-- The round brackets of a selector are those of its index. -/
theorem not_round (h : s.Expressible first) {c : Char} (hc : c ∈ s.frontChars) :
    c ∉ ['(', ')'] := by
  rw [frontChars, List.mem_append, List.mem_append] at hc
  rcases hc with hc | hc | hc
  · rcases s.mark_cases with hm | hm | hm
    · rw [hm] at hc
      cases hc
    · rw [hm, List.mem_singleton] at hc
      rw [hc]
      decide
    · rw [hm, List.mem_singleton] at hc
      rw [hc]
      decide
  · rcases NameTest.nameChar_of_mem_toChars h.isName hc with rfl | hc
    · decide
    · exact hc.not_mem (by decide)
  · rcases h.bracket.nameChar_of_mem hc with hc | hc
    · simp only [List.mem_cons, List.not_mem_nil, or_false] at hc
      rcases hc with rfl | rfl | rfl | rfl <;> decide
    · exact hc.not_mem (by decide)

/-- In a written form a closing round bracket stands at most at the end. -/
theorem not_mem_dropLast (h : s.Expressible first) (zeros : Nat) :
    ')' ∉ (s.toCharsZeroed zeros).dropLast := by
  have hfront : ')' ∉ s.frontChars := fun hm => h.not_round hm (by decide)
  rw [toCharsZeroed_eq]
  cases s.index with
  | none =>
    rw [Option.elim_none, List.append_nil]
    exact fun hm => hfront ((List.dropLast_sublist _).subset hm)
  | some index =>
    have hlast : s.frontChars ++ indexCharsZeroed zeros index =
        (s.frontChars ++ '(' :: zeroed zeros index) ++ [')'] := by simp [indexCharsZeroed]
    rw [Option.elim_some, hlast, List.dropLast_concat, List.mem_append, List.mem_cons]
    rintro (hm | hm | hm)
    · exact hfront hm
    · cases hm
    · exact absurd (isDigit_of_mem_zeroed hm) (by decide)

/-- A step to children shows its mark. -/
theorem mark_of_direct (h : s.Expressible first) (hdirect : s.direct = true) : s.mark = ['>'] := by
  have hid : s.byId ≠ true := fun hid => Bool.false_ne_true ((h.byId hid).2.1.symm.trans hdirect)
  rw [mark, if_neg hid, if_pos hdirect]

end Expressible

end Selector

end TreeSelect
