/-
# TreeSelect.Proofs.Path.Shape — the characters of a spelled word

Behind its mark a spelled word begins with a square bracket or with a character of a name, it ends
with a closing bracket or with a character of a name, and it holds neither blanks nor further marks.
This is what decides how the word behaves beside its neighbours in a text.
-/
import TreeSelect.Proofs.Path.Grammar
import Mathlib.Data.List.Basic

namespace TreeSelect

open TreeSelect.Text

/-! ## Names and digits -/

theorem not_blank_of_isDigit {c : Char} (h : c.isDigit = true) : isBlank c = false := by
  simp only [Char.isDigit, Bool.and_eq_true, decide_eq_true_eq, UInt32.le_iff_toNat_le] at h
  have hcode : c.val.toNat = c.toNat := rfl
  have hlow : '0'.val.toNat = 48 := rfl
  have hhigh : '9'.val.toNat = 57 := rfl
  simp only [isBlank, inRanges, blankRanges, List.any_cons, List.any_nil, Bool.or_eq_false_iff,
    Bool.and_eq_false_iff, decide_eq_false_iff_not, and_true]
  omega

/-- A digit may stand in a name. -/
theorem nameChar_of_isDigit {c : Char} (h : c.isDigit = true) : NameChar c := by
  have hno : ∀ d ∈ '|' :: reserved, d.isDigit = false := by
    simp only [reserved, List.forall_mem_cons, List.not_mem_nil, false_implies, implies_true]
    decide
  refine ⟨not_blank_of_isDigit h, fun hc => ?_, fun hc => ?_⟩
  · exact Bool.false_ne_true ((hno c (by simp [hc])).symm.trans h)
  · exact Bool.false_ne_true ((hno c (List.mem_cons_of_mem _ hc)).symm.trans h)

/-- No mark may stand in a name. -/
theorem NameChar.not_mem {c : Char} {marks : List Char} (h : NameChar c)
    (hmarks : marks ⊆ '|' :: reserved) : c ∉ marks := fun hc => by
  rcases List.mem_cons.mp (hmarks hc) with hc | hc
  · exact h.2.1 hc
  · exact h.2.2 hc

theorem IsName.nameChar_of_head {name t : List Char} {c : Char} (h : IsName name)
    (hc : (name ++ t).head? = some c) : NameChar c := by
  obtain ⟨d, name, rfl⟩ := List.exists_cons_of_ne_nil h.1
  obtain rfl : d = c := by simpa using hc
  exact h.2 d List.mem_cons_self

/-! ## Cores -/

namespace Core

variable {s : List Char} {names : NameTest} {index : Option Nat} {c : Char}

/-- A core that is not empty begins with a character of a name. -/
theorem nameChar_of_head (h : Core s names index) (hc : s.head? = some c) : NameChar c := by
  rcases h with _ | hname | ⟨hname, -, -, -⟩
  · cases hc
  · exact @IsName.nameChar_of_head s [] c hname (by simpa using hc)
  · exact hname.nameChar_of_head hc

/-- A core that is not empty ends with a character of a name or with the bracket of its index. -/
theorem nameChar_of_last (h : Core s names index) (hc : s.getLast? = some c) :
    c = ')' ∨ NameChar c := by
  rcases h with _ | hname | ⟨-, -, -, -⟩
  · cases hc
  · exact .inr (hname.2 c (List.mem_of_getLast? hc))
  · rw [List.getLast?_append, ← List.cons_append, List.getLast?_concat, Option.some_or] at hc
    exact .inl (Option.some.inj hc).symm

/-- The only marks of a core are the round brackets of its index. -/
theorem nameChar_of_mem (h : Core s names index) (hc : c ∈ s) :
    c = '(' ∨ c = ')' ∨ NameChar c := by
  rcases h with _ | hname | ⟨hname, -, hdigits, -⟩
  · cases hc
  · exact .inr (.inr (hname.2 c hc))
  · simp only [List.mem_append, List.mem_cons, List.not_mem_nil, or_false] at hc
    rcases hc with hc | hc | hc | hc
    · exact .inr (.inr (hname.2 c hc))
    · exact .inl hc
    · exact .inr (.inr (nameChar_of_isDigit (hdigits c hc)))
    · exact .inr (.inl hc)

end Core

/-! ## Plain words -/

namespace Bracket

variable {before bracket after : List Char} {names : NameTest} {attr : Option AttributeTest}
  {index : Option Nat} {c : Char}

theorem nameChar_of_mem (h : Bracket bracket attr) (hc : c ∈ bracket) :
    c ∈ ['[', ']', '=', '"'] ∨ NameChar c := by
  rcases h with _ | ⟨hname | ⟨hname, hvalue⟩⟩
  · cases hc
  · simp only [List.mem_cons, List.mem_append, List.not_mem_nil, or_false] at hc ⊢
    rcases hc with hc | hc | hc
    · exact .inl (.inl hc)
    · exact .inr (hname.2 c hc)
    · exact .inl (.inr (.inl hc))
  · simp only [List.mem_cons, List.mem_append, List.not_mem_nil, or_false] at hc ⊢
    rcases hc with hc | (hc | hc | hc | hc | hc) | hc
    · exact .inl (.inl hc)
    · exact .inr (hname.2 c hc)
    · exact .inl (.inr (.inr (.inl hc)))
    · exact .inl (.inr (.inr (.inr hc)))
    · exact .inr (hvalue.2 c hc)
    · exact .inl (.inr (.inr (.inr hc)))
    · exact .inl (.inr (.inl hc))

/-- No bar stands in a square bracket. -/
theorem not_mem_bar (h : Bracket bracket attr) : '|' ∉ bracket := fun hc => by
  rcases h.nameChar_of_mem hc with hc | hc
  · exact absurd hc (by decide)
  · exact hc.2.1 rfl

/-- A plain word begins, behind its mark, with its bracket or with a character of its name. -/
theorem head (hbracket : Bracket bracket attr) (hcore : Core (before ++ after) names index)
    (hc : (before ++ (bracket ++ after)).head? = some c) : c = '[' ∨ NameChar c := by
  cases before with
  | cons d before =>
    obtain rfl : d = c := by simpa using hc
    exact .inr (hcore.nameChar_of_head rfl)
  | nil =>
    rcases hbracket with _ | _
    · exact .inr (hcore.nameChar_of_head hc)
    · left
      simpa using hc.symm

/-- A plain word ends with a bracket or with a character of its name. -/
theorem last (hbracket : Bracket bracket attr) (hcore : Core (before ++ after) names index)
    (hc : (before ++ (bracket ++ after)).getLast? = some c) :
    c = ']' ∨ c = ')' ∨ NameChar c := by
  rcases List.eq_nil_or_concat after with rfl | ⟨front, d, rfl⟩
  · rcases hbracket with _ | ⟨_⟩
    · exact .inr (hcore.nameChar_of_last (by simpa using hc))
    · rw [List.append_nil, List.getLast?_append, ← List.cons_append, List.getLast?_concat,
        Option.some_or] at hc
      exact .inl (Option.some.inj hc).symm
  · obtain rfl : d = c := by simpa [List.getLast?_append] using hc
    exact .inr (hcore.nameChar_of_last (by simp [List.getLast?_append]))

end Bracket

/-! ## Names with bars between them -/

theorem subset_intercalate {ws : List (List Char)} {w : List Char} (h : w ∈ ws) (c : Char) :
    w ⊆ [c].intercalate ws := by
  induction ws with
  | nil => cases h
  | cons v ws ih =>
    cases ws with
    | nil => simp_all
    | cons u ws =>
      rw [List.intercalate_cons_cons]
      rcases List.mem_cons.mp h with rfl | h
      · exact fun d hd => by simp [hd]
      · exact fun d hd => List.mem_append_right _ (ih h hd)

/-- With two names or more there is a bar between them. -/
theorem mem_intercalate {ws : List (List Char)} (h : 2 ≤ ws.length) (c : Char) :
    c ∈ [c].intercalate ws := by
  match ws, h with
  | v :: w :: ws, _ => simp [List.intercalate_cons_cons]

/-- A character of such a text is a bar or stands in one of the names. -/
theorem nameChar_of_mem_intercalate {ws : List (List Char)} (hws : ∀ w ∈ ws, IsName w) {c : Char}
    (hc : c ∈ ['|'].intercalate ws) : c = '|' ∨ NameChar c := by
  induction ws with
  | nil => cases hc
  | cons w ws ih =>
    have hrest := ih fun v hv => hws v (List.mem_cons_of_mem _ hv)
    cases ws with
    | nil =>
      rw [List.intercalate_singleton] at hc
      exact .inr ((hws w List.mem_cons_self).2 c hc)
    | cons v ws =>
      rw [List.intercalate_cons_cons, List.append_assoc, List.mem_append] at hc
      rcases hc with hc | hc
      · exact .inr ((hws w List.mem_cons_self).2 c hc)
      · rcases List.mem_cons.mp hc with hc | hc
        · exact .inl hc
        · exact hrest hc

/-- Names with bars between them begin with a character of the first name. -/
theorem intercalate_head {ws : List (List Char)} (hws : ∀ w ∈ ws, IsName w) {c : Char}
    (hc : (['|'].intercalate ws).head? = some c) : NameChar c := by
  cases ws with
  | nil => simp at hc
  | cons w ws =>
    obtain ⟨d, w, rfl⟩ := List.exists_cons_of_ne_nil (hws w (by simp)).1
    rw [List.intercalate_cons_cons_left, List.head?_cons, Option.some.injEq] at hc
    subst hc
    exact (hws _ List.mem_cons_self).2 d (by simp)

/-- Names with bars between them end with a character of the last name. -/
theorem intercalate_last {ws : List (List Char)} (hws : ∀ w ∈ ws, IsName w) {c : Char}
    (hc : (['|'].intercalate ws).getLast? = some c) : NameChar c := by
  induction ws with
  | nil => simp at hc
  | cons w ws ih =>
    cases ws with
    | nil =>
      rw [List.intercalate_singleton] at hc
      exact (hws w List.mem_cons_self).2 c (List.mem_of_getLast? hc)
    | cons v ws =>
      have hne : ['|'].intercalate (v :: ws) ≠ [] := fun hnil =>
        (hws v (by simp)).1 (List.subset_nil.mp (hnil ▸ subset_intercalate List.mem_cons_self '|'))
      refine ih (fun u hu => hws u (List.mem_cons_of_mem _ hu)) ?_
      rwa [List.intercalate_cons_cons, List.getLast?_append_of_ne_nil _ hne] at hc

/-! ## Words -/

/-- The shape of a spelled word. -/
theorem Spells.shape {first : Bool} {word : List Char} {s : Selector} (h : Spells first word s) :
    ∃ (anchor : Anchor) (body : List Char), word = anchor.mark ++ body ∧ body ≠ [] ∧
      (∀ c ∈ body, isBlank c = false ∧ c ∉ ['#', '>']) ∧
      (∀ c, body.head? = some c → c = '[' ∨ NameChar c) ∧
      (∀ c, body.getLast? = some c → c = ']' ∨ c = ')' ∨ NameChar c) := by
  rcases h with @⟨anchor, ws, -, hlen, hws⟩ |
    @⟨anchor, before, bracket, after, names, attr, index, -, hbracket, hcore, hempty⟩
  · refine ⟨anchor, _, rfl, List.ne_nil_of_mem (mem_intercalate hlen '|'), fun c hc => ?_,
      fun c hc => .inr (intercalate_head hws hc),
      fun c hc => .inr (.inr (intercalate_last hws hc))⟩
    rcases nameChar_of_mem_intercalate hws hc with rfl | hc
    · decide
    · exact ⟨hc.1, hc.not_mem (by decide)⟩
  · refine ⟨anchor, _, rfl, fun hnil => ?_, fun c hc => ?_, fun c => hbracket.head hcore,
      fun c => hbracket.last hcore⟩
    · simp only [List.append_eq_nil_iff] at hnil
      exact (hempty (by simp [hnil])).1 hnil.2.1
    · have hparts : c ∈ bracket ∨ c ∈ before ++ after := by
        simp only [List.mem_append] at hc ⊢
        rcases hc with hc | hc | hc
        · exact .inr (.inl hc)
        · exact .inl hc
        · exact .inr (.inr hc)
      rcases hparts with hc | hc
      · rcases hbracket.nameChar_of_mem hc with hc | hc
        · simp only [List.mem_cons, List.not_mem_nil, or_false] at hc
          rcases hc with rfl | rfl | rfl | rfl <;> decide
        · exact ⟨hc.1, hc.not_mem (by decide)⟩
      · rcases hcore.nameChar_of_mem hc with rfl | rfl | hc
        · decide
        · decide
        · exact ⟨hc.1, hc.not_mem (by decide)⟩

/-- A spelled word begins with no character that closes the gap before it. -/
theorem Spells.head {first : Bool} {word : List Char} {s : Selector} (h : Spells first word s) :
    ∀ c ∈ word.head?, c ∉ [']', '=', '(', ')', '|'] := by
  obtain ⟨anchor, body, rfl, -, -, hhead, -⟩ := h.shape
  intro c hc
  have hc : c = '#' ∨ c = '>' ∨ c = '[' ∨ NameChar c := by
    cases anchor with
    | unmarked => exact .inr (.inr (hhead c hc))
    | id => exact .inl (by simpa [Anchor.mark] using hc.symm)
    | child => exact .inr (.inl (by simpa [Anchor.mark] using hc.symm))
  rcases hc with rfl | rfl | rfl | hc
  · decide
  · decide
  · decide
  · exact hc.not_mem (by decide)

/-- A spelled word ends with no character that closes the gap behind it. -/
theorem Spells.last {first : Bool} {word : List Char} {s : Selector} (h : Spells first word s) :
    ∀ c ∈ word.getLast?, c ∉ ['#', '>', '[', '=', '(', '|'] := by
  obtain ⟨anchor, body, rfl, hne, -, -, hlast⟩ := h.shape
  intro c hc
  rw [List.getLast?_append_of_ne_nil _ hne] at hc
  rcases hlast c hc with rfl | rfl | hc
  · decide
  · decide
  · exact hc.not_mem (by decide)

theorem Spells.ne_nil {first : Bool} {word : List Char} {s : Selector} (h : Spells first word s) :
    word ≠ [] := by
  obtain ⟨anchor, body, rfl, hne, -⟩ := h.shape
  exact fun hnil => hne (List.append_eq_nil_iff.mp hnil).2

theorem SpellsAll.ne_nil {first : Bool} {ws : List (List Char)} {selectors : List Selector}
    (h : SpellsAll first ws selectors) : ∀ w ∈ ws, w ≠ [] := by
  induction h with
  | nil => simp
  | cons hs _ ih => exact List.forall_mem_cons.mpr ⟨hs.ne_nil, ih⟩

/-! ## Round brackets -/

/-- Whether a character is a round bracket. -/
def isRound (c : Char) : Bool := c == '(' || c == ')'

theorem NameChar.isRound_eq_false {c : Char} (h : NameChar c) : isRound c = false := by
  cases hc : isRound c with
  | false => rfl
  | true =>
    have hmem : c ∈ ['(', ')'] := by simpa [isRound] using hc
    exact absurd hmem (h.not_mem (by decide))

theorem filter_isRound_of_nameChar {s : List Char} (h : ∀ c ∈ s, NameChar c) :
    s.filter isRound = [] :=
  List.filter_eq_nil_iff.mpr fun c hc => Bool.eq_false_iff.mp (h c hc).isRound_eq_false

theorem Core.filter_isRound {s : List Char} {names : NameTest} {index : Option Nat}
    (h : Core s names index) : s.filter isRound = [] ∨ s.filter isRound = ['(', ')'] := by
  rcases h with _ | hname | ⟨hname, -, hdigits, -⟩
  · exact .inl rfl
  · exact .inl (filter_isRound_of_nameChar hname.2)
  · right
    have hinner := filter_isRound_of_nameChar fun d hd => nameChar_of_isDigit (hdigits d hd)
    rw [List.filter_append, filter_isRound_of_nameChar hname.2, List.filter_cons_of_pos (by decide),
      List.filter_append, hinner]
    rfl

/-- The round brackets of a spelled word are those of its index, if it has one. Then it holds no
bar. -/
theorem Spells.filter_isRound {first : Bool} {word : List Char} {s : Selector}
    (h : Spells first word s) :
    word.filter isRound = [] ∨ word.filter isRound = ['(', ')'] ∧ '|' ∉ word := by
  have hmark (anchor : Anchor) : anchor.mark.filter isRound = [] := by cases anchor <;> rfl
  rcases h with @⟨anchor, ws, -, -, hws⟩ |
    @⟨anchor, before, bracket, after, _, _, _, -, hb, hc, -⟩
  · left
    rw [List.filter_append, hmark, List.nil_append, List.filter_eq_nil_iff]
    intro c hc
    rcases nameChar_of_mem_intercalate hws hc with rfl | hc
    · decide
    · exact Bool.eq_false_iff.mp hc.isRound_eq_false
  · have hbracket : bracket.filter isRound = [] := by
      rw [List.filter_eq_nil_iff]
      intro c hc
      rcases hb.nameChar_of_mem hc with hc | hc
      · simp only [List.mem_cons, List.not_mem_nil, or_false] at hc
        rcases hc with rfl | rfl | rfl | rfl <;> decide
      · exact Bool.eq_false_iff.mp hc.isRound_eq_false
    have hcore := hc.filter_isRound
    simp only [List.filter_append, hmark, hbracket, List.nil_append] at hcore ⊢
    rcases hcore with hcore | hcore
    · exact .inl hcore
    · refine .inr ⟨hcore, fun hbar => ?_⟩
      have hmarkBar : '|' ∉ anchor.mark := by cases anchor <;> decide
      have hcoreBar : '|' ∉ before ++ after := fun hmem => by
        rcases hc.nameChar_of_mem hmem with h | h | h
        · cases h
        · cases h
        · exact h.2.1 rfl
      have hbracketBar := hb.not_mem_bar
      simp only [List.mem_append, not_or] at hbar hcoreBar
      rcases hbar with hbar | hbar | hbar | hbar
      · exact hmarkBar hbar
      · exact hcoreBar.1 hbar
      · exact hbracketBar hbar
      · exact hcoreBar.2 hbar

/-- In front of a closing round bracket of a spelled word there is an opening one, and behind it no
other. -/
theorem Spells.round_of_append {first : Bool} {x y : List Char} {s : Selector}
    (h : Spells first (x ++ ')' :: y) s) : '(' ∈ x ∧ ')' ∉ y ∧ '|' ∉ x ++ ')' :: y := by
  have hrounds := h.filter_isRound
  rw [List.filter_append, List.filter_cons_of_pos (by decide)] at hrounds
  rcases hrounds with hnil | ⟨hpair, hbar⟩
  · simp at hnil
  · have hparts : x.filter isRound = ['('] ∧ y.filter isRound = [] := by
      cases hx : x.filter isRound with
      | nil => simp [hx] at hpair
      | cons c front =>
        rw [hx, List.cons_append, List.cons.injEq, List.append_eq_singleton_iff] at hpair
        rcases hpair with ⟨rfl, ⟨rfl, hy⟩ | ⟨-, hy⟩⟩
        · exact ⟨rfl, (List.cons.inj hy).2⟩
        · cases hy
    refine ⟨?_, fun hmem => ?_, hbar⟩
    · have hopen : '(' ∈ x.filter isRound := by simp [hparts.1]
      exact (List.mem_filter.mp hopen).1
    · exact List.filter_eq_nil_iff.mp hparts.2 _ hmem rfl

end TreeSelect
