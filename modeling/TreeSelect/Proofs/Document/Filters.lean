/-
# TreeSelect.Proofs.Document.Filters — the attribute test and the index of a selector

A step to children or descendants gathers nodes by their names, keeps those that pass the attribute
test and of these only the one at the index: it sifts what the bare selector finds. A lookup by
identifier does not sift, although the text of a path may well put an attribute test or an index
behind an identifier. It comes to the same only if the element that is found passes the test, and
the index, if there is one, is zero (`step_eq_sift_iff`).
-/
import TreeSelect.Proofs.Document.Faults
import TreeSelect.Proofs.Document.Selected

namespace TreeSelect

/-- The selector without its attribute test and its index. -/
def Selector.bare (s : Selector) : Selector := { s with attr := none, index := none }

namespace Document

variable (d : Document)

/-! ## Sifting -/

/-- What the attribute test and the index of a selector leave of some nodes. -/
def sift (s : Selector) (nodes : List Node) : List Node :=
  let kept := nodes.filter (d.passesAttribute s)
  s.index.elim kept fun index => kept[index]?.toList

variable {d}

theorem sift_subset_filter (s : Selector) (nodes : List Node) :
    d.sift s nodes ⊆ nodes.filter (d.passesAttribute s) := by
  unfold sift
  cases s.index with
  | none => exact List.Subset.refl _
  | some index => exact (toList_getElem?_sublist _ index).subset

/-- What is left passes the attribute test. -/
theorem passesAttribute_of_mem_sift {s : Selector} {nodes : List Node} {m : Node}
    (hm : m ∈ d.sift s nodes) : d.passesAttribute s m = true :=
  (List.mem_filter.mp (sift_subset_filter s nodes hm)).2

/-- One node at most stays as it is exactly if it passes the attribute test and the index, if there
is one, is that of the first node. -/
theorem toList_eq_sift_iff (s : Selector) (m : Option Node) :
    m.toList = d.sift s m.toList ↔
      ∀ n ∈ m.toList, d.passesAttribute s n = true ∧ (s.index = none ∨ s.index = some 0) := by
  unfold sift
  cases m with
  | none => cases s.index <;> simp
  | some n =>
    cases hpass : d.passesAttribute s n with
    | false => cases s.index <;> simp [hpass]
    | true =>
      cases s.index with
      | none => simp [hpass]
      | some index => cases index <;> simp [hpass]

/-! ## Steps -/

/-- The bare selector finds what the selector reaches by its names. -/
theorem descend_bare (s : Selector) (current : List Node) :
    d.descend s.bare current = current.flatMap (d.reach s) := by
  have hpass : d.passesAttribute s.bare = fun _ => true := rfl
  have hreach : d.reach s.bare = d.reach s := rfl
  simp [descend, hpass, hreach, show s.bare.index = none from rfl]

/-- A step to children or descendants sifts what the bare selector finds. -/
theorem descend_eq_sift (s : Selector) (current : List Node) :
    d.descend s current = d.sift s (d.descend s.bare current) := by
  rw [descend_bare, descend, sift]
  cases s.index <;> rfl

/-- A lookup goes by the bare selector. -/
theorem step_bare_of_byId {s : Selector} (current : List Node) (hid : s.byId = true) :
    d.step s.bare current = d.step s current := by
  have hbare : s.bare.byId = true := hid
  rw [step, step, if_pos hid, if_pos hbare]
  rfl

/-- A lookup finds one element or none. -/
theorem eq_toList_of_step {s : Selector} {current found : List Node} (hid : s.byId = true)
    (hfound : d.step s current = .ok found) : ∃ m : Option Node, found = m.toList := by
  rw [step, if_pos hid] at hfound
  split at hfound
  · exact eq_toList_of_lookup hfound
  · obtain rfl := Except.ok.inj hfound
    exact ⟨none, rfl⟩

/-! ## Paths of one selector -/

/-- A text with one selector selects what the step of the selector finds from the root. -/
theorem step_of_selectAll {text : String} {s : Selector} {root : Node} {found : List Node}
    (hparse : Path.parse text = .ok ⟨[s]⟩) (hfound : d.selectAll root text = .ok found) :
    d.step s [root] = .ok found := by
  obtain ⟨path, hpath, hresolve⟩ := selectAll_eq_ok_iff.mp hfound
  obtain rfl : ⟨[s]⟩ = path := Except.ok.inj (hparse.symm.trans hpath)
  exact hresolve

/-- A step that does not fail sifts what the bare selector finds, unless it looks an identifier up.
A lookup finds the same as its bare selector, so that this is sifted exactly if the element found,
if any, passes the attribute test and the index, if any, is zero. So what a text with one selector
selects passes the attribute test of the selector, unless that is a lookup; then it is whatever
element the root has for the identifier. -/
theorem step_eq_sift_iff (s : Selector) {current found : List Node}
    (hfound : d.step s current = .ok found) :
    (∃ all, d.step s.bare current = .ok all ∧
        (s.byId = false → found = d.sift s all) ∧
        (s.byId = true → found = all ∧
          (found = d.sift s all ↔ ∀ m ∈ all,
            d.passesAttribute s m = true ∧ (s.index = none ∨ s.index = some 0)))) ∧
      ∀ root text selected, Path.parse text = .ok ⟨[s]⟩ → d.selectAll root text = .ok selected →
        (s.byId = false → ∀ m ∈ selected, d.passesAttribute s m = true) ∧
        (s.byId = true → ∃ id, s.names = .single id ∧
          selected = (d.elementById root id).toList) := by
  refine ⟨?_, fun root text selected hparse hselected => ⟨fun hid m hm => ?_, fun hid => ?_⟩⟩
  · cases hid : s.byId with
    | false =>
      have hbare : d.step s.bare current = .ok (d.descend s.bare current) :=
        d.step_eq_ok current hid
      refine ⟨_, hbare, fun _ => ?_, by simp⟩
      rw [d.step_eq_ok current hid] at hfound
      rw [← descend_eq_sift, Except.ok.inj hfound]
    | true =>
      obtain ⟨m, rfl⟩ := eq_toList_of_step hid hfound
      refine ⟨m.toList, ?_, by simp, fun _ => ⟨rfl, toList_eq_sift_iff s m⟩⟩
      rw [step_bare_of_byId current hid, hfound]
  · have hstep := step_of_selectAll hparse hselected
    rw [d.step_eq_ok [root] hid, descend_eq_sift] at hstep
    rw [← Except.ok.inj hstep] at hm
    exact passesAttribute_of_mem_sift hm
  · have hstep := step_of_selectAll hparse hselected
    obtain ⟨id, hname⟩ := (Path.expressible_of_parse hparse).exists_names_eq_single hid
    refine ⟨id, hname, ?_⟩
    rw [step, if_pos hid, hname] at hstep
    simp only [NameTest.single?, lookup_singleton] at hstep
    split at hstep
    · exact (Except.ok.inj hstep).symm
    · cases hstep

/-- The element `x` is found by `#x[lang](1)` too, which has no attribute `lang` and is the only one
found; and by `#x[id="y"]`, which asks for another value than it has. -/
theorem nestedLetters_lookup_not_sifted :
    let s : Selector :=
      { names := .single "x", byId := true, attr := some { name := "lang" }, index := some 1 }
    let t : Selector :=
      { names := .single "x", byId := true, attr := some { name := "id", value := some "y" } }
    nestedLetters.step s [5] = .ok [3] ∧ nestedLetters.step s.bare [5] = .ok [3] ∧
      Path.parse "#x[lang](1)" = .ok ⟨[s]⟩ ∧ nestedLetters.selectAll 5 "#x[lang](1)" = .ok [3] ∧
      nestedLetters.elementById 5 "x" = some 3 ∧ [3] ≠ nestedLetters.sift s [3] ∧
      nestedLetters.step t [5] = .ok [3] ∧ nestedLetters.step t.bare [5] = .ok [3] ∧
      nestedLetters.attrValue 3 "id" = some "x" ∧ [3] ≠ nestedLetters.sift t [3] := by
  intro s t
  have hrun : nestedLetters.step s [5] = .ok [3] := by cbv
  have hbare : nestedLetters.step s.bare [5] = .ok [3] := by cbv
  have hparse : Path.parse "#x[lang](1)" = .ok ⟨[s]⟩ := by cbv
  have hselected : nestedLetters.selectAll 5 "#x[lang](1)" = .ok [3] := by cbv
  have hfound : nestedLetters.elementById 5 "x" = some 3 := by cbv
  have hrunValue : nestedLetters.step t [5] = .ok [3] := by cbv
  have hbareValue : nestedLetters.step t.bare [5] = .ok [3] := by cbv
  have hvalue : nestedLetters.attrValue 3 "id" = some "x" := by cbv
  obtain ⟨⟨all, hall, -, hlookup⟩, -⟩ := step_eq_sift_iff s hrun
  obtain rfl : [3] = all := Except.ok.inj (hbare.symm.trans hall)
  obtain ⟨⟨all, hall, -, hlookupValue⟩, -⟩ := step_eq_sift_iff t hrunValue
  obtain rfl : [3] = all := Except.ok.inj (hbareValue.symm.trans hall)
  refine ⟨hrun, hbare, hparse, hselected, hfound, fun hsift => ?_, hrunValue, hbareValue, hvalue,
    fun hsift => ?_⟩
  · have hindex := (((hlookup rfl).2.mp hsift) 3 (by simp)).2
    simp [s] at hindex
  · have hpass := (((hlookupValue rfl).2.mp hsift) 3 (by simp)).1
    obtain ⟨value, hfoundValue, hwanted⟩ := (passesAttribute_iff _).mp hpass _ rfl
    obtain rfl : "x" = value := Option.some.inj (hvalue.symm.trans hfoundValue)
    exact absurd (hwanted "y" rfl) (by decide)

/-- Not every selector that a text can mean sifts what its bare selector finds: a lookup finds its
element whatever attribute test and index stand beside the identifier. -/
theorem exists_step_ne_sift :
    (¬∀ (d : Document) (text : String) (s : Selector), Path.parse text = .ok ⟨[s]⟩ →
      ∀ current found, d.step s current = .ok found →
        ∃ all, d.step s.bare current = .ok all ∧ found = d.sift s all) ∧
    nestedLetters.selectAll 5 "#x[lang]" = .ok [3] ∧
    nestedLetters.attrValue 3 "lang" = none ∧
    nestedLetters.selectAll 5 "#x(1)" = .ok [3] := by
  refine ⟨fun hall => ?_, by cbv, by cbv, by cbv⟩
  let s : Selector := { names := .single "x", byId := true, attr := some { name := "lang" } }
  have hrun : nestedLetters.step s [5] = .ok [3] := by cbv
  have hbare : nestedLetters.step s.bare [5] = .ok [3] := by cbv
  obtain ⟨all, hfound, hsift⟩ := hall nestedLetters "#x[lang]" s (by cbv) [5] [3] hrun
  obtain rfl : [3] = all := Except.ok.inj (hbare.symm.trans hfound)
  exact absurd hsift (by decide)

end Document

end TreeSelect
