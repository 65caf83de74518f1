/-
# TreeSelect.Proofs.Path.Reading — reading a word is inverting its spelling

Each function that reads a part of a word is matched with the relation that says how the part is
spelled: what stands in square brackets, what is left without the bracket, the mark in front and the
names between bars. Words come from respaced text and hold no blank; a part behind no bar holds no
bar either. On such texts a reader accepts exactly what the relation relates.
-/
import TreeSelect.Proofs.Path.Shape

namespace TreeSelect

open TreeSelect.Text

/-- A text that holds neither a blank nor a bar. -/
def Unbroken (s : List Char) : Prop := ∀ c ∈ s, isBlank c = false ∧ c ≠ '|'

theorem Unbroken.of_subset {s t : List Char} (ht : Unbroken t) (h : s ⊆ t) : Unbroken s :=
  fun c hc => ht c (h hc)

/-! ## Names -/

theorem isName_iff {s : List Char} (h : Unbroken s) :
    IsName s ↔ s.isEmpty = false ∧ hasReserved s = false := by
  rw [hasReserved_eq_false_iff, List.isEmpty_eq_false_iff]
  constructor
  · rintro ⟨hne, hs⟩
    exact ⟨hne, fun c hc => (hs c hc).2.2⟩
  · rintro ⟨hne, hs⟩
    exact ⟨hne, fun c hc => ⟨(h c hc).1, (h c hc).2, hs c hc⟩⟩

namespace IsName

variable {s : List Char}

theorem unbroken (h : IsName s) : Unbroken s := fun c hc => ⟨(h.2 c hc).1, (h.2 c hc).2.1⟩

theorem isEmpty (h : IsName s) : s.isEmpty = false := ((isName_iff h.unbroken).mp h).1

theorem hasReserved (h : IsName s) : hasReserved s = false := ((isName_iff h.unbroken).mp h).2

theorem not_mem (h : IsName s) {c : Char} (hc : c ∈ reserved) : c ∉ s :=
  fun hs => (h.2 c hs).2.2 hc

theorem not_bar (h : IsName s) : '|' ∉ s := fun hs => (h.2 _ hs).2.1 rfl

end IsName

/-! ## Square brackets -/

theorem cutPair_eq_none {m n : Char} {s : List Char} (h : m ∉ s) : cutPair m n s = none := by
  cases hcut : cutPair m n s with
  | none => rfl
  | some cut =>
    rw [eq_of_cutPair (a := cut.1) (b := cut.2) hcut] at h
    simp at h

theorem cutPair_append {m n : Char} {a : List Char} (b : List Char) (h : m ∉ a) :
    cutPair m n (a ++ m :: n :: b) = some (a, b) := by
  induction a with
  | nil => simp [cutPair]
  | cons c a ih =>
    rw [List.mem_cons, not_or] at h
    cases a with
    | nil => simp [cutPair, Ne.symm h.1]
    | cons d a =>
      have := ih h.2
      simp only [List.cons_append] at this ⊢
      rw [cutPair, if_neg fun hc => h.1 hc.1.symm, this, Option.map_some]

theorem readQuoted_eq_ok_iff {s value : List Char} :
    readQuoted s = .ok value ↔ s = value ++ ['"'] ∧ value ≠ [] := by
  constructor
  · intro h
    unfold readQuoted at h
    split at h
    · next v hcut =>
      split at h
      · cases h
      · next hv =>
        obtain rfl : v = value := by simpa using h
        exact ⟨(cutLast_eq_some_iff.mp hcut).1, by simpa using hv⟩
    · cases h
  · rintro ⟨rfl, hv⟩
    rw [readQuoted, cutLast_append (by simp)]
    simp [hv]

theorem readAttribute_eq_ok_iff {content : List Char} {test : AttributeTest}
    (h : Unbroken content) : readAttribute content = .ok test ↔ Attribute content test := by
  constructor
  · intro hread
    simp only [readAttribute, bind, Except.bind] at hread
    split at hread
    · next name quoted hcut =>
      -- Name and value are what stands before and behind the first equality sign with a quote.
      have hcontent := eq_of_cutPair hcut
      cases hquoted : readQuoted quoted with
      | error e => simp [hquoted, Except.map] at hread
      | ok value =>
        obtain ⟨rfl, hvalue⟩ := readQuoted_eq_ok_iff.mp hquoted
        simp only [hquoted, Except.map] at hread
        split at hread
        · cases hread
        · next hc =>
          simp only [Option.any_some, Bool.or_eq_true, not_or, Bool.not_eq_true] at hc
          obtain rfl := Except.ok.inj hread
          subst hcontent
          refine .valued ((isName_iff ?_).mpr hc.1) ((isName_iff ?_).mpr ⟨?_, hc.2⟩)
          · exact h.of_subset (by simp)
          · exact h.of_subset fun c hc => by simp [hc]
          · simpa using hvalue
    · split at hread
      · cases hread
      · next hc =>
        simp only [Option.any_none, Bool.or_false, Bool.or_eq_true, not_or,
          Bool.not_eq_true] at hc
        obtain rfl := Except.ok.inj hread
        exact .present ((isName_iff h).mpr hc)
  · rintro (hname | ⟨hname, hvalue⟩)
    · have hcut : cutPair '=' '"' content = none := cutPair_eq_none (hname.not_mem (by decide))
      simp [readAttribute, hcut, hname.isEmpty, hname.hasReserved, bind, Except.bind]
    · next name value =>
      have hcut : cutPair '=' '"' (name ++ '=' :: '"' :: (value ++ ['"']))
          = some (name, value ++ ['"']) := cutPair_append _ (hname.not_mem (by decide))
      have hquoted : readQuoted (value ++ ['"']) = .ok value :=
        readQuoted_eq_ok_iff.mpr ⟨rfl, hvalue.1⟩
      simp [readAttribute, hcut, hquoted, hname.isEmpty, hname.hasReserved, hvalue.hasReserved,
        bind, Except.bind, Except.map]

theorem cutBracket_eq_some_iff {s content rest : List Char} :
    cutBracket s = some (content, rest) ↔ ∃ before after, rest = before ++ after ∧
      s = before ++ '[' :: (content ++ ']' :: after) ∧ '[' ∉ before ∧ ']' ∉ after := by
  constructor
  · intro h
    obtain ⟨⟨before, inner⟩, hopen, h⟩ := Option.bind_eq_some_iff.mp h
    obtain ⟨⟨c, after⟩, hclose, h⟩ := Option.map_eq_some_iff.mp h
    obtain ⟨rfl, rfl⟩ : c = content ∧ before ++ after = rest := by simpa using h
    obtain ⟨rfl, hbefore⟩ := cutFirst_eq_some_iff.mp hopen
    obtain ⟨rfl, hafter⟩ := cutLast_eq_some_iff.mp hclose
    exact ⟨before, after, rfl, rfl, hbefore, hafter⟩
  · rintro ⟨before, after, rfl, rfl, hbefore, hafter⟩
    simp [cutBracket, cutFirst_append hbefore, cutLast_append hafter]

theorem cutBracket_eq_none {s : List Char} (h : '[' ∉ s) : cutBracket s = none := by
  simp [cutBracket, cutFirst_eq_none_iff.mpr h]

/-! ## Names with an index -/

/-- The name test of a name that may be missing. -/
def NameTest.ofName (name : List Char) : NameTest :=
  if name.isEmpty then .any else .single (String.ofList name)

/-- The parts that an index is read from. -/
theorem roundCut_eq_some_iff {s name digits after : List Char} :
    ((cutFirst '(' s).bind fun opened =>
      (cutLast ')' opened.2).map fun closed => (opened.1, closed.1, closed.2))
        = some (name, digits, after) ↔
      s = name ++ '(' :: (digits ++ ')' :: after) ∧ '(' ∉ name ∧ ')' ∉ after := by
  constructor
  · intro h
    obtain ⟨⟨n, inner⟩, hopen, h⟩ := Option.bind_eq_some_iff.mp h
    obtain ⟨⟨d, a⟩, hclose, h⟩ := Option.map_eq_some_iff.mp h
    obtain ⟨rfl, rfl, rfl⟩ : n = name ∧ d = digits ∧ a = after := by simpa using h
    obtain ⟨rfl, hname⟩ := cutFirst_eq_some_iff.mp hopen
    obtain ⟨rfl, hafter⟩ := cutLast_eq_some_iff.mp hclose
    exact ⟨rfl, hname, hafter⟩
  · rintro ⟨rfl, hname, hafter⟩
    simp [cutFirst_append hname, cutLast_append hafter]

theorem core_of_readIndex {s name : List Char} {index : Option Nat} (h : Unbroken s)
    (hread : readIndex s = .ok (name, index)) (hname : hasReserved name = false) :
    Core s (.ofName name) index := by
  have whole (hs : hasReserved s = false) : Core s (.ofName s) none := by
    cases hempty : s.isEmpty with
    | true =>
      obtain rfl := List.isEmpty_iff.mp hempty
      exact .empty
    | false =>
      rw [NameTest.ofName, hempty]
      exact .name ((isName_iff h).mpr ⟨hempty, hs⟩)
  unfold readIndex at hread
  split at hread
  · obtain ⟨rfl, rfl⟩ : s = name ∧ none = index := by simpa using hread
    exact whole hname
  · next n digits after hcut =>
    obtain ⟨hs, -, -⟩ := roundCut_eq_some_iff.mp hcut
    split at hread
    · -- Empty brackets stay in the name, which is refused for them.
      obtain ⟨rfl, rfl⟩ : s = name ∧ none = index := by simpa using hread
      exact whole hname
    · next hdigits =>
      split at hread
      · cases hread
      · next hc =>
        simp only [Bool.or_eq_true, Bool.not_eq_true', not_or, Bool.not_eq_false,
          List.isEmpty_iff, List.all_eq_true] at hc
        obtain ⟨⟨hn, rfl⟩, hall⟩ := hc
        dsimp only at hread
        split at hread
        · next hlt =>
          obtain ⟨rfl, rfl⟩ : n = name ∧ some (Nat.ofDigitChars 10 digits 0) = index := by
            simpa using hread
          have hsub : n ⊆ s := hs ▸ List.subset_append_left ..
          have hisName : IsName n :=
            (isName_iff (h.of_subset hsub)).mpr ⟨List.isEmpty_eq_false_iff.mpr hn, hname⟩
          rw [NameTest.ofName, hisName.isEmpty, hs]
          exact .indexed hisName (by simpa using hdigits) hall hlt
        · cases hread

theorem readIndex_of_core {s : List Char} {names : NameTest} {index : Option Nat}
    (h : Core s names index) :
    ∃ name, readIndex s = .ok (name, index) ∧ hasReserved name = false ∧
      names = .ofName name := by
  rcases h with _ | hname | @⟨name, digits, hname, hne, hdigits, hlt⟩
  · exact ⟨[], rfl, rfl, rfl⟩
  · refine ⟨s, ?_, hname.hasReserved, by simp [NameTest.ofName, hname.isEmpty]⟩
    have hopen : '(' ∉ s := hname.not_mem (by decide)
    simp [readIndex, cutFirst_eq_none_iff.mpr hopen]
  · -- A name holds no bracket, so the cuts fall where the index begins and where it ends.
    refine ⟨name, ?_, hname.hasReserved, by simp [NameTest.ofName, hname.isEmpty]⟩
    have hopen : '(' ∉ name := hname.not_mem (by decide)
    have hall : digits.all Char.isDigit = true := List.all_eq_true.mpr hdigits
    rw [readIndex, roundCut_eq_some_iff.mpr ⟨rfl, hopen, List.not_mem_nil⟩]
    simp only [List.isEmpty_eq_false_iff.mpr hne, hname.isEmpty, hall]
    exact if_pos hlt

namespace Core

variable {s : List Char} {names : NameTest} {index : Option Nat}

/-- The marks that an index does not need stand nowhere in a core. -/
theorem not_mem {c : Char} (h : Core s names index) (hc : c ∈ '|' :: reserved)
    (hopen : c ≠ '(') (hclose : c ≠ ')') : c ∉ s := fun hs => by
  rcases h.nameChar_of_mem hs with hs | hs | hs
  · exact hopen hs
  · exact hclose hs
  · rcases List.mem_cons.mp hc with hc | hc
    · exact hs.2.1 hc
    · exact hs.2.2 hc

end Core

/-! ## Plain words -/

namespace Selector

/-- Reads what is left of a plain word without its mark and bracket. -/
def readCore (anchor : Anchor) (rest : List Char) (attr : Option AttributeTest) :
    Except GrammarError Selector := do
  if anchor = .id && (rest.isEmpty || rest.head? = some '(') then .error .idMissingName
  let (name, index) ← readIndex rest
  if hasReserved name then .error .reservedCharacterInName
  return { names := .ofName name, byId := anchor = .id, direct := anchor = .child, attr, index }

theorem readPlain_eq_readCore (anchor : Anchor) (word : List Char) :
    readPlain anchor word =
      match cutBracket word with
      | some (content, rest) => (readAttribute content).bind fun test =>
          readCore anchor rest (some test)
      | none => readCore anchor word none := by
  simp only [readPlain, readCore, bind, Except.bind, NameTest.ofName]
  cases cutBracket word with
  | none => rfl
  | some cut =>
    dsimp only
    cases readAttribute cut.1 <;> rfl

theorem readCore_eq_ok_iff {anchor : Anchor} {rest : List Char} {attr : Option AttributeTest}
    {s : Selector} (h : Unbroken rest) :
    readCore anchor rest attr = .ok s ↔ ∃ names index, Core rest names index ∧
      (rest = [] → anchor ≠ .id) ∧
      s = { names, byId := anchor = .id, direct := anchor = .child, attr, index } := by
  constructor
  · intro hread
    simp only [readCore, bind, Except.bind] at hread
    split at hread
    · cases hread
    · next hid =>
      cases hindex : readIndex rest with
      | error e => simp [hindex] at hread
      | ok found =>
        obtain ⟨name, index⟩ := found
        rw [hindex] at hread
        dsimp only at hread
        split at hread
        · cases hread
        · next hname =>
          refine ⟨.ofName name, index,
            core_of_readIndex h hindex (Bool.eq_false_iff.mpr hname), ?_, ?_⟩
          · rintro rfl rfl
            exact hid (by simp)
          · exact (Except.ok.inj hread).symm
  · rintro ⟨names, index, hcore, hid, rfl⟩
    obtain ⟨name, hindex, hname, rfl⟩ := readIndex_of_core hcore
    have hcheck : ¬((decide (anchor = .id) && (rest.isEmpty || rest.head? = some '(')) = true) := by
      simp only [Bool.and_eq_true, decide_eq_true_eq, Bool.or_eq_true, List.isEmpty_iff]
      rintro ⟨rfl, hrest | hrest⟩
      · exact hid hrest rfl
      · exact (hcore.nameChar_of_head hrest).2.2 (by decide)
    simp [readCore, hcheck, hindex, hname, bind, Except.bind, pure, Except.pure]

/-- A plain word that is not empty is read exactly as it is spelled. -/
theorem readPlain_eq_ok_iff {anchor : Anchor} {word : List Char} {s : Selector}
    (h : Unbroken word) (hne : word ≠ []) :
    readPlain anchor word = .ok s ↔ ∃ before bracket after names attr index,
      word = before ++ (bracket ++ after) ∧ Bracket bracket attr ∧
      Core (before ++ after) names index ∧
      (before ++ after = [] → bracket ≠ [] ∧ anchor ≠ .id) ∧
      s = { names, byId := anchor = .id, direct := anchor = .child, attr, index } := by
  rw [readPlain_eq_readCore]
  constructor
  · intro hread
    split at hread
    · next content rest hcut =>
      obtain ⟨before, after, rfl, hword, -, -⟩ := cutBracket_eq_some_iff.mp hcut
      have hcontent : Unbroken content := h.of_subset fun c hc => by simp [hword, hc]
      have hrest : Unbroken (before ++ after) := h.of_subset fun c hc => by
        rcases List.mem_append.mp hc with hc | hc <;> simp [hword, hc]
      cases hattr : readAttribute content with
      | error e => simp [hattr, Except.bind] at hread
      | ok test =>
        rw [hattr] at hread
        obtain ⟨names, index, hcore, hid, hs⟩ := (readCore_eq_ok_iff hrest).mp hread
        refine ⟨before, '[' :: (content ++ [']']), after, names, some test, index, ?_, ?_, hcore,
          fun hempty => ⟨by simp, hid hempty⟩, hs⟩
        · simp [hword]
        · exact .enclosed ((readAttribute_eq_ok_iff hcontent).mp hattr)
    · obtain ⟨names, index, hcore, hid, hs⟩ := (readCore_eq_ok_iff h).mp hread
      exact ⟨word, [], [], names, none, index, by simp, .absent, by simpa using hcore,
        fun hempty => absurd (by simpa using hempty) hne, hs⟩
  · rintro ⟨before, bracket, after, names, attr, index, rfl, hbracket, hcore, hid, rfl⟩
    -- A core holds no square bracket, so the cut finds the one that stands in it.
    have hopen : '[' ∉ before ++ after := hcore.not_mem (by decide) (by decide) (by decide)
    have hclose : ']' ∉ before ++ after := hcore.not_mem (by decide) (by decide) (by decide)
    have hrest : Unbroken (before ++ after) := h.of_subset fun c hc => by
      rcases List.mem_append.mp hc with hc | hc <;> simp [hc]
    have hread : readCore anchor (before ++ after) attr = .ok _ :=
      (readCore_eq_ok_iff hrest).mpr ⟨names, index, hcore, fun hempty => (hid hempty).2, rfl⟩
    rcases hbracket with _ | @⟨content, test, hattr⟩
    · have hnone : cutBracket (before ++ ([] ++ after)) = none :=
        cutBracket_eq_none hopen
      rw [hnone]
      exact hread
    · have hsome : cutBracket (before ++ ('[' :: (content ++ [']']) ++ after))
          = some (content, before ++ after) :=
        cutBracket_eq_some_iff.mpr ⟨before, after, rfl, by simp,
          fun hm => hopen (List.mem_append_left _ hm),
          fun hm => hclose (List.mem_append_right _ hm)⟩
      have hcontent : Unbroken content := h.of_subset fun c hc => by simp [hc]
      rw [hsome]
      dsimp only
      rw [(readAttribute_eq_ok_iff hcontent).mpr hattr]
      exact hread

end Selector

/-! ## Marks and bars -/

theorem readAnchor_eq_ok_iff {first : Bool} {anchor : Anchor} {word rest : List Char} :
    readAnchor first word = .ok (anchor, rest) ↔ word = anchor.mark ++ rest ∧
      (anchor = .id → first = true) ∧ (anchor ≠ .unmarked → rest ≠ []) ∧
      (anchor = .unmarked → rest.head? ≠ some '#' ∧ rest.head? ≠ some '>') := by
  constructor
  · intro h
    unfold readAnchor at h
    split at h
    · split at h
      · cases h
      · split at h
        · cases h
        · next hfirst hrest =>
          obtain ⟨rfl, rfl⟩ : Anchor.id = anchor ∧ _ = rest := by simpa using h
          exact ⟨rfl, fun _ => by simpa using hfirst, fun _ => by simpa using hrest, nofun⟩
    · split at h
      · cases h
      · next hrest =>
        obtain ⟨rfl, rfl⟩ : Anchor.child = anchor ∧ _ = rest := by simpa using h
        exact ⟨rfl, nofun, fun _ => by simpa using hrest, nofun⟩
    · next hid hchild =>
      obtain ⟨rfl, rfl⟩ : Anchor.unmarked = anchor ∧ _ = rest := by simpa using h
      refine ⟨rfl, nofun, fun h => absurd rfl h, fun _ => ⟨fun hc => ?_, fun hc => ?_⟩⟩
      · obtain ⟨t, rfl⟩ := List.head?_eq_some_iff.mp hc
        exact hid t rfl
      · obtain ⟨t, rfl⟩ := List.head?_eq_some_iff.mp hc
        exact hchild t rfl
  · rintro ⟨rfl, hfirst, hrest, hhead⟩
    cases anchor with
    | id => simp [Anchor.mark, readAnchor, hfirst rfl, hrest]
    | child => simp [Anchor.mark, readAnchor, hrest]
    | unmarked =>
      obtain ⟨hid, hchild⟩ := hhead rfl
      simp only [Anchor.mark, List.nil_append]
      unfold readAnchor
      split
      · exact absurd rfl hid
      · exact absurd rfl hchild
      · rfl

/-- A mark is read off any text that begins neither with another mark nor with a character that no
name may hold. -/
theorem readAnchor_mark {first : Bool} {anchor : Anchor} {rest : List Char}
    (hid : anchor = .id → first = true) (hne : rest ≠ [])
    (hhead : ∀ c, rest.head? = some c → c = '[' ∨ NameChar c) :
    readAnchor first (anchor.mark ++ rest) = .ok (anchor, rest) := by
  refine readAnchor_eq_ok_iff.mpr ⟨rfl, hid, fun _ => hne, fun _ => ⟨fun hc => ?_, fun hc => ?_⟩⟩
  · rcases hhead _ hc with h | h
    · exact absurd h (by decide)
    · exact h.2.2 (by decide)
  · rcases hhead _ hc with h | h
    · exact absurd h (by decide)
    · exact h.2.2 (by decide)

theorem readBars_eq_ok_iff {s : List Char} {names : NameTest}
    (h : ∀ c ∈ s, isBlank c = false) (hbar : '|' ∈ s) :
    readBars s = .ok names ↔ ∃ ws, s = ['|'].intercalate ws ∧ 2 ≤ ws.length ∧
      (∀ w ∈ ws, IsName w) ∧ names = .oneOf (ws.map String.ofList) := by
  constructor
  · intro hread
    simp only [readBars] at hread
    split at hread
    · cases hread
    · split at hread
      · cases hread
      · next hempty hreserved =>
        simp only [Bool.not_eq_true, List.any_eq_false] at hempty hreserved
        refine ⟨s.splitOn '|', (List.intercalate_splitOn '|').symm, ?_, ?_,
          (Except.ok.inj hread).symm⟩
        · obtain ⟨a, b, rfl⟩ := List.append_of_mem hbar
          rw [List.splitOn_append_cons_self, List.length_append]
          have ha := List.length_pos_iff.mpr (List.splitOn_ne_nil '|' a)
          have hb := List.length_pos_iff.mpr (List.splitOn_ne_nil '|' b)
          omega
        · intro w hw
          have hsub : w ⊆ s := by
            simpa using subset_intercalate hw '|'
          have hunbroken : Unbroken w := fun c hc => by
            refine ⟨h c (hsub hc), ?_⟩
            rw [List.splitOn_eq_splitOnP] at hw
            simpa using not_mem_of_mem_splitOnP hw c hc
          refine (isName_iff hunbroken).mpr ⟨?_, ?_⟩
          · simpa using hempty w hw
          · simpa using hreserved w hw
  · rintro ⟨ws, rfl, hlen, hws, rfl⟩
    -- No name holds a bar, so cutting at the bars gives the names back.
    have hsplit : (['|'].intercalate ws).splitOn '|' = ws :=
      List.splitOn_intercalate '|' (fun w hw => (hws w hw).not_bar) (by rintro rfl; simp at hlen)
    have hempty : ws.any List.isEmpty = false :=
      List.any_eq_false.mpr fun w hw => by simp [(hws w hw).isEmpty]
    have hreserved : ws.any hasReserved = false :=
      List.any_eq_false.mpr fun w hw => by simp [(hws w hw).hasReserved]
    simp [readBars, hsplit, hempty, hreserved]

end TreeSelect
