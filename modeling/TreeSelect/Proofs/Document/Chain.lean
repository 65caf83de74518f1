/-
# TreeSelect.Proofs.Document.Chain — what a path of several selectors selects

Resolving a path runs over lists that may hold a node many times and in any order. What comes out
can be said without any list but the descendants of the root: a node is selected when it qualifies
for the last selector and when a chain of steps, one for each selector, leads to it from the root.
`StepsTo` and `Reaches` are those steps and chains.
-/
import TreeSelect.Arena
import TreeSelect.Document.Resolve
import Mathlib

namespace TreeSelect

/-- Whether a name test asks for alternatives. -/
def NameTest.isAlternation : NameTest → Bool
  | oneOf _ => true
  | any | single _ => false

namespace Document

variable (d : Document)

/-! ## Steps and chains -/

/-- The node passes the name test and the attribute test of the selector. -/
def Passes (s : Selector) (n : Node) : Prop :=
  s.names.accepts (d.name n) = true ∧ d.passesAttribute s n = true

/-- The node passes the tests of the selector, and it is an element unless the selector asks for
alternatives. -/
def Qualifies (s : Selector) (n : Node) : Prop :=
  d.Passes s n ∧ (d.kind n = .element ∨ s.names.isAlternation = true)

/-- One step from a node to a node: to the element of the identifier, to a child of whatever kind
that passes the tests, or to a qualifying node anywhere below. -/
inductive StepsTo (s : Selector) (n m : Node) : Prop
  | id {id : String} : s.byId = true → s.names = .single id → d.elementById n id = some m →
      StepsTo s n m
  | child : s.byId = false → s.direct = true → m ∈ d.children n → d.Passes s m → StepsTo s n m
  | below : s.byId = false → s.direct = false → m ∈ d.descendants n → d.Qualifies s m →
      StepsTo s n m

/-- A chain of steps from a node to a node, one for each selector. -/
inductive Reaches : List Selector → Node → Node → Prop
  | nil {n : Node} : Reaches [] n n
  | cons {s : Selector} {rest : List Selector} {n k m : Node} : d.StepsTo s n k →
      Reaches rest k m → Reaches (s :: rest) n m

/-- A step without lookup leads to a child or to what is below, as the selector says. -/
theorem stepsTo_iff {s : Selector} {n m : Node} (hid : s.byId = false) :
    d.StepsTo s n m ↔ s.direct = true ∧ m ∈ d.children n ∧ d.Passes s m ∨
      s.direct = false ∧ m ∈ d.descendants n ∧ d.Qualifies s m := by
  constructor
  · rintro (⟨hid', -, -⟩ | ⟨-, hs, hm, hpass⟩ | ⟨-, hs, hm, hq⟩)
    · rw [hid] at hid'
      cases hid'
    · exact .inl ⟨hs, hm, hpass⟩
    · exact .inr ⟨hs, hm, hq⟩
  · rintro (⟨hs, hm, hpass⟩ | ⟨hs, hm, hq⟩)
    · exact .child hid hs hm hpass
    · exact .below hid hs hm hq

/-! ## What one selector finds -/

theorem isElement_eq_true_iff {h : Hierarchy} {n : Node} :
    h.isElement n = true ↔ h.kind n = .element := by
  simp [Hierarchy.isElement]

theorem mem_reach_direct {s : Selector} {n m : Node} (hs : s.direct = true) :
    m ∈ d.reach s n ↔ m ∈ d.children n ∧ s.names.accepts (d.name m) = true := by
  simp [reach, hs]

/-- Below a node a selector finds the descendants that its name test accepts, elements only unless
it asks for alternatives. -/
theorem reach_below {s : Selector} (n : Node) (hs : s.direct = false) :
    d.reach s n = (d.descendants n).filter fun m =>
      s.names.accepts (d.name m) && (d.isElement m || s.names.isAlternation) := by
  obtain ⟨names, byId, direct, attr, index⟩ := s
  obtain rfl : direct = false := hs
  simp only [reach, Bool.false_eq_true, if_false]
  cases names with
  | any =>
    refine List.filter_congr fun m _ => ?_
    simp [NameTest.single?, NameTest.isAlternation]
  | single name =>
    refine List.filter_congr fun m _ => ?_
    rw [Bool.eq_iff_iff]
    simp [NameTest.single?, NameTest.isAlternation, Hierarchy.hasName, and_comm]
  | oneOf names =>
    refine List.filter_congr fun m _ => ?_
    cases hm : d.name m <;> simp [NameTest.accepts, NameTest.isAlternation]

theorem mem_reach_below {s : Selector} {n m : Node} (hs : s.direct = false) :
    m ∈ d.reach s n ∧ d.passesAttribute s m = true ↔ m ∈ d.descendants n ∧ d.Qualifies s m := by
  rw [d.reach_below n hs, List.mem_filter, Qualifies, Passes, ← isElement_eq_true_iff]
  simp only [Bool.and_eq_true, Bool.or_eq_true]
  constructor
  · rintro ⟨⟨hm, hname, hkind⟩, hattr⟩
    exact ⟨hm, ⟨hname, hattr⟩, hkind⟩
  · rintro ⟨hm, ⟨hname, hattr⟩, hkind⟩
    exact ⟨⟨hm, hname, hkind⟩, hattr⟩

/-- Without an index a selector that looks up no identifier finds all its steps lead to. -/
theorem mem_descend {s : Selector} {current : List Node} {m : Node} (hid : s.byId = false)
    (hindex : s.index = none) :
    m ∈ d.descend s current ↔ ∃ n ∈ current, d.StepsTo s n m := by
  -- From one node: the two flags say which of the three kinds of step it is.
  have key (n : Node) : m ∈ d.reach s n ∧ d.passesAttribute s m = true ↔ d.StepsTo s n m := by
    rw [d.stepsTo_iff hid]
    cases hs : s.direct with
    | true =>
      rw [d.mem_reach_direct hs, and_assoc]
      simp [Passes]
    | false =>
      rw [d.mem_reach_below hs]
      simp
  simp only [descend, hindex, List.mem_filter, List.mem_flatMap]
  constructor
  · rintro ⟨⟨n, hn, hm⟩, hattr⟩
    exact ⟨n, hn, (key n).mp ⟨hm, hattr⟩⟩
  · rintro ⟨n, hn, hstep⟩
    exact ⟨⟨n, hn, ((key n).mpr hstep).1⟩, ((key n).mpr hstep).2⟩

/-- Applied to all descendants of one node, a selector keeps those that qualify, in their order. -/
theorem descend_unanchored {s : Selector} (root : Node) (hindex : s.index = none)
    (p : Node → Bool) (hp : ∀ n, p n = true ↔ d.Qualifies s n) :
    d.descend s.unanchored [root] = (d.descendants root).filter p := by
  have hreach : d.reach s.unanchored root = _ := d.reach_below root rfl
  simp only [descend, List.flatMap_cons, List.flatMap_nil, List.append_nil, hreach,
    List.filter_filter]
  rw [show s.unanchored.index = none from hindex]
  refine List.filter_congr fun m _ => ?_
  rw [Bool.eq_iff_iff, hp, Qualifies, Passes, ← isElement_eq_true_iff]
  simp only [Bool.and_eq_true, Bool.or_eq_true]
  constructor
  · rintro ⟨hattr, hname, hkind⟩
    exact ⟨⟨hname, hattr⟩, hkind⟩
  · rintro ⟨⟨hname, hattr⟩, hkind⟩
    exact ⟨hattr, hname, hkind⟩

/-! ## What a chain finds -/

/-- A selector that looks up no identifier never fails. -/
theorem step_eq_ok {s : Selector} (current : List Node) (hid : s.byId = false) :
    d.step s current = .ok (d.descend s current) := by
  simp [step, hid]

/-- Where a step succeeds, the chain goes on from what it finds. -/
theorem chain_cons_of_step {s : Selector} {rest : List Selector} {current next : List Node}
    (hstep : d.step s current = .ok next) : d.chain (s :: rest) current = d.chain rest next := by
  rw [chain, List.foldlM_cons, hstep]
  rfl

/-- Selectors without lookup and index find, from some nodes, all that their chains lead to. -/
theorem exists_chain_eq_ok {selectors : List Selector} (current : List Node)
    (hid : ∀ s ∈ selectors, s.byId = false) (hindex : ∀ s ∈ selectors, s.index = none) :
    ∃ found, d.chain selectors current = .ok found ∧
      ∀ m, m ∈ found ↔ ∃ n ∈ current, d.Reaches selectors n m := by
  induction selectors generalizing current with
  | nil =>
    refine ⟨current, rfl, fun m => ⟨fun hm => ⟨m, hm, .nil⟩, ?_⟩⟩
    rintro ⟨n, hn, ⟨⟩⟩
    exact hn
  | cons s rest ih =>
    -- Where the steps of the first selector lead, the chains of the others begin.
    obtain ⟨found, hfound, hmem⟩ := ih (d.descend s current)
      (fun t ht => hid t (List.mem_cons_of_mem _ ht))
      fun t ht => hindex t (List.mem_cons_of_mem _ ht)
    have hs := d.step_eq_ok current (hid s List.mem_cons_self)
    refine ⟨found, (d.chain_cons_of_step hs).trans hfound, fun m => ?_⟩
    rw [hmem m]
    constructor
    · rintro ⟨k, hk, hrest⟩
      obtain ⟨n, hn, hstep⟩ := (d.mem_descend (hid s List.mem_cons_self)
        (hindex s List.mem_cons_self)).mp hk
      exact ⟨n, hn, .cons hstep hrest⟩
    · rintro ⟨n, hn, _ | ⟨hstep, hrest⟩⟩
      exact ⟨_, (d.mem_descend (hid s List.mem_cons_self) (hindex s List.mem_cons_self)).mpr
        ⟨n, hn, hstep⟩, hrest⟩

/-- The first selector of a path may look an identifier up, if the root allows it. -/
theorem exists_first_step_eq_ok {s : Selector} (root : Node) (hindex : s.index = none)
    (hid : s.byId = true → (∃ id, s.names = .single id) ∧ d.supportsIdLookup root = true) :
    ∃ found, d.step s [root] = .ok found ∧ ∀ m, m ∈ found ↔ d.StepsTo s root m := by
  cases hs : s.byId with
  | false =>
    refine ⟨_, d.step_eq_ok [root] hs, fun m => ?_⟩
    rw [d.mem_descend hs hindex]
    simp
  | true =>
    obtain ⟨⟨id, hname⟩, hroot⟩ := hid hs
    refine ⟨(d.elementById root id).toList, ?_, fun m => ?_⟩
    · simp only [step, hs, hname, NameTest.single?, lookup, hroot, if_true]
      cases d.elementById root id <;> rfl
    · rw [Option.mem_toList]
      constructor
      · exact fun hm => .id hs hname hm
      · rintro (⟨-, hname', hm⟩ | ⟨hs', -, -, -⟩ | ⟨hs', -, -, -⟩)
        · obtain rfl : id = _ := by simpa [hname] using hname'
          exact hm
        · simp [hs] at hs'
        · simp [hs] at hs'

/-! ## What a path selects -/

open Classical in
/-- A path of two selectors or more, without an index and with no lookup but in its first selector,
selects from the descendants of the root, in document order, those that qualify for the last
selector and to which a chain of steps leads from the root, one step for each selector. -/
theorem resolveAll_eq_filter_reaches {root : Node} {first : Selector} {rest : List Selector}
    (hrest : rest ≠ []) (hindex : ∀ s ∈ first :: rest, s.index = none)
    (hid : ∀ s ∈ rest, s.byId = false)
    (hfirst : first.byId = true →
      (∃ id, first.names = .single id) ∧ d.supportsIdLookup root = true) :
    d.resolveAll root ⟨first :: rest⟩ = .ok ((d.descendants root).filter fun n =>
      d.Qualifies (rest.getLast hrest) n ∧ d.Reaches (first :: rest) root n) := by
  obtain ⟨start, hstart, hstartMem⟩ := d.exists_first_step_eq_ok root
    (hindex first List.mem_cons_self) hfirst
  obtain ⟨found, hfound, hfoundMem⟩ := d.exists_chain_eq_ok start hid
    fun s hs => hindex s (List.mem_cons_of_mem _ hs)
  have hlast : (rest.getLast hrest).index = none :=
    hindex _ (List.mem_cons_of_mem _ (List.getLast_mem hrest))
  have hchain : d.chain (first :: rest) [root] = .ok found := by
    rw [chain, List.foldlM_cons, hstart]
    exact hfound
  have hmem (n : Node) : n ∈ found ↔ d.Reaches (first :: rest) root n := by
    rw [hfoundMem]
    constructor
    · rintro ⟨k, hk, hreach⟩
      exact .cons ((hstartMem k).mp hk) hreach
    · rintro (_ | ⟨hstep, hreach⟩)
      exact ⟨_, (hstartMem _).mpr hstep, hreach⟩
  -- The last selector, applied to all that lies below the root, is intersected with the chains.
  obtain ⟨second, others, rfl⟩ := List.exists_cons_of_ne_nil hrest
  have hanywhere := d.descend_unanchored root hlast
    (fun n => decide (d.Qualifies ((second :: others).getLast hrest) n)) (fun n => by simp)
  simp only [resolveAll, hchain, hanywhere, bind, Except.bind, pure, Except.pure,
    List.filter_filter]
  congr 1
  refine List.filter_congr fun n _ => ?_
  rw [Bool.eq_iff_iff]
  simp [hmem, and_comm]

/-- A document with an element `x` that holds a comment named `b` and an element `c`; another `b`
stands inside of `c`, and a third beside `x`. -/
def nestedLetters : Document :=
  Arena.toDocument
    { nodes := #[{ kind := .element, name := some "b" },
        { kind := .comment, name := some "b" },
        { kind := .element, name := some "c", children := [0] },
        { kind := .element, name := some "a", attributes := ⟨[("id", "x")]⟩, children := [1, 2] },
        { kind := .element, name := some "b" },
        { kind := .document, children := [3, 4] }]
      childrenFirst := by decide }

open Classical in
/-- The path `#x >b|c` selects the children of `x`, also the one that is no element. The path
`a[id="x"] b` selects the element `b` below `x` only, and with another value for the attribute it
selects nothing. -/
theorem nestedLetters_children_of_x :
    let x : Selector := { names := .single "x", byId := true }
    let letters : Selector := { names := .oneOf ["b", "c"], direct := true }
    let withId (value : String) : Selector :=
      { names := .single "a", attr := some { name := "id", value := some value } }
    let b : Selector := .named "b"
    ((∀ s ∈ [x, letters], s.index = none) ∧ letters.byId = false ∧
      nestedLetters.supportsIdLookup 5 = true ∧
      nestedLetters.resolveAll 5 ⟨[x, letters]⟩ = .ok [1, 2] ∧
      ∀ n, n ∈ [1, 2] ↔ n ∈ nestedLetters.descendants 5 ∧
        nestedLetters.Qualifies letters n ∧ nestedLetters.Reaches [x, letters] 5 n) ∧
    (∀ value, (∀ s ∈ [withId value, b], s.index = none) ∧ b.byId = false) ∧
    (nestedLetters.resolveAll 5 ⟨[withId "x", b]⟩ = .ok [0] ∧
      ∀ n, n ∈ [0] ↔ n ∈ nestedLetters.descendants 5 ∧
        nestedLetters.Qualifies b n ∧ nestedLetters.Reaches [withId "x", b] 5 n) ∧
    nestedLetters.resolveAll 5 ⟨[withId "y", b]⟩ = .ok [] ∧
      ∀ n ∈ nestedLetters.descendants 5, nestedLetters.Qualifies b n →
        ¬nestedLetters.Reaches [withId "y", b] 5 n := by
  intro x letters withId b
  have hindex : ∀ s ∈ [x, letters], s.index = none := by simp [x, letters]
  have hroot : nestedLetters.supportsIdLookup 5 = true := rfl
  have hrun : nestedLetters.resolveAll 5 ⟨[x, letters]⟩ = .ok [1, 2] := by cbv
  have hspec : nestedLetters.resolveAll 5 ⟨[x, letters]⟩ = .ok _ :=
    nestedLetters.resolveAll_eq_filter_reaches (List.cons_ne_nil letters []) hindex
      (by simp [letters]) fun _ => ⟨⟨"x", rfl⟩, hroot⟩
  have hfound := Except.ok.inj (hrun.symm.trans hspec)
  have hindexValue (value : String) : ∀ s ∈ [withId value, b], s.index = none := by
    simp [withId, b, Selector.named]
  have hrunX : nestedLetters.resolveAll 5 ⟨[withId "x", b]⟩ = .ok [0] := by cbv
  have hrunY : nestedLetters.resolveAll 5 ⟨[withId "y", b]⟩ = .ok [] := by cbv
  have hmem {value : String} {found : List Node}
      (hfound : nestedLetters.resolveAll 5 ⟨[withId value, b]⟩ = .ok found) (n : Node) :
      n ∈ found ↔ n ∈ nestedLetters.descendants 5 ∧
        nestedLetters.Qualifies b n ∧ nestedLetters.Reaches [withId value, b] 5 n := by
    have hspec : nestedLetters.resolveAll 5 ⟨[withId value, b]⟩ = .ok _ :=
      nestedLetters.resolveAll_eq_filter_reaches (List.cons_ne_nil b []) (hindexValue value)
        (by simp [b, Selector.named]) (by simp [withId])
    rw [Except.ok.inj (hfound.symm.trans hspec), List.mem_filter]
    exact and_congr_right fun _ => decide_eq_true_iff
  refine ⟨⟨hindex, rfl, hroot, hrun, fun n => ?_⟩, fun value => ⟨hindexValue value, rfl⟩,
    ⟨hrunX, hmem hrunX⟩, hrunY, fun n hn hq hreach => ?_⟩
  · rw [hfound, List.mem_filter]
    exact and_congr_right fun _ => decide_eq_true_iff
  · exact List.not_mem_nil ((hmem hrunY n).mpr ⟨hn, hq, hreach⟩)

end Document

end TreeSelect
