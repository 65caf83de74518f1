/-
# TreeSelect.Proofs.Document.Alternation — an alternation is the union of its members

A selector with alternatives gathers its nodes in another way than a selector with one name: it
takes nodes of any kind, while below a node one name finds elements only. So a path may select more
with the alternatives than with each of them in turn, if that selector is its last one; and it may
pass through nodes that no single name leads to. Where only elements have children, nothing comes of
those. Then the path fails as it does with each name, and otherwise selects what it selects with one
of the names, each node once and in document order, where elements alone count if the alternatives
stand last (`resolveAll_oneOf`).
-/
import TreeSelect.Proofs.Document.Reached

namespace TreeSelect

/-- The selector with one name in the place of its names. -/
def Selector.withName (s : Selector) (name : String) : Selector := { s with names := .single name }

namespace Document

variable {d : Document}

variable (d) in
/-- The nodes of some lists in one, each once and in document order. -/
structure IsUnion (parts : List (List Node)) (all : List Node) : Prop where
  nodup : all.Nodup
  inOrder : d.InOrder all
  mem_iff : ∀ n, n ∈ all ↔ ∃ part ∈ parts, n ∈ part

variable (d) in
/-- What counts of the nodes that a path selects, which goes on with `rest` behind its alternatives:
all of them, or only the elements if it goes on with nothing. -/
def counted (rest : List Selector) (nodes : List Node) : List Node :=
  if rest.isEmpty then nodes.filter d.isElement else nodes

theorem counted_sublist (rest : List Selector) (nodes : List Node) :
    (d.counted rest nodes).Sublist nodes := by
  unfold counted
  split
  · exact List.filter_sublist
  · exact List.Sublist.refl nodes

/-! ## One selector -/

section Names

variable {s : Selector} {names : List String} (hnames : s.names = .oneOf names)

include hnames

/-- A node passes the tests of alternatives if it passes them with one of the names. -/
theorem passes_oneOf_iff {m : Node} :
    d.Passes s m ↔ ∃ name ∈ names, d.Passes (s.withName name) m := by
  unfold Passes
  rw [hnames, NameTest.accepts_oneOf_iff]
  constructor
  · rintro ⟨⟨name, hname, hm⟩, hattr⟩
    exact ⟨name, hname, NameTest.accepts_single_iff.mpr hm, hattr⟩
  · rintro ⟨name, hname, hm, hattr⟩
    exact ⟨⟨name, hname, NameTest.accepts_single_iff.mp hm⟩, hattr⟩

/-- To an element alternatives step if one of the names does. -/
theorem stepsTo_oneOf_iff (hid : s.byId = false) {n m : Node} (helement : d.kind m = .element) :
    d.StepsTo s n m ↔ ∃ name ∈ names, d.StepsTo (s.withName name) n m := by
  have hidName (name : String) : (s.withName name).byId = false := hid
  constructor
  · intro hstep
    obtain ⟨name, hname, hpass⟩ := (passes_oneOf_iff hnames).mp (hstep.passes hid)
    refine ⟨name, hname, (d.stepsTo_iff (hidName name)).mpr ?_⟩
    rcases (d.stepsTo_iff hid).mp hstep with ⟨hdirect, hm, -⟩ | ⟨hdirect, hm, -⟩
    · exact .inl ⟨hdirect, hm, hpass⟩
    · exact .inr ⟨hdirect, hm, hpass, .inl helement⟩
  · rintro ⟨name, hname, hstep⟩
    have hpass := (passes_oneOf_iff hnames).mpr ⟨name, hname, hstep.passes (hidName name)⟩
    apply (d.stepsTo_iff hid).mpr
    rcases (d.stepsTo_iff (hidName name)).mp hstep with ⟨hdirect, hm, -⟩ | ⟨hdirect, hm, -⟩
    · exact .inl ⟨hdirect, hm, hpass⟩
    · exact .inr ⟨hdirect, hm, hpass, .inl helement⟩

end Names

/-! ## From the alternatives on -/

variable (d) in
/-- A node counts at the end of a path that goes on with `rest`: if `rest` is empty, an element, and
otherwise a node that the last selector finds anywhere below the root. -/
def Eligible (root : Node) (rest : List Selector) (n : Node) : Prop :=
  match rest.getLast? with
  | none => d.kind n = .element
  | some last => n ∈ d.descend last.unanchored [root]

/-- From a node in the subtree of the root, alternatives and the selectors behind them lead to an
eligible node if they do so with one of the names in the place of the alternatives. -/
theorem reaches_oneOf_iff {s : Selector} {names : List String} (hnames : s.names = .oneOf names)
    (hid : s.byId = false) {root : Node} (hbranch : d.OnlyElementsBranch root)
    {rest : List Selector} (hidRest : ∀ t ∈ rest, t.byId = false) {k n : Node}
    (hk : k ∈ d.subtree root) (heligible : d.Eligible root rest n) :
    d.Reaches (s :: rest) k n ↔ ∃ name ∈ names, d.Reaches (s.withName name :: rest) k n := by
  -- Where the step leads there is an element: the chain ends there, or goes on below.
  have helement {j : Node} (hj : j ∈ d.descendants k) (hreach : d.Reaches rest j n) :
      d.kind j = .element := by
    rcases eq_or_ne rest [] with rfl | hrest
    · cases hreach
      exact heligible
    · have hbelow : j ∈ d.descendants root := Hierarchy.descendants_subset_of_mem_subtree hk hj
      exact hbranch.kind_eq hbelow ((hreach.mem_subtree hidRest).2 hrest)
  constructor
  · rintro (_ | ⟨hstep, hreach⟩)
    have hkind := helement (hstep.mem_descendants hid) hreach
    obtain ⟨name, hname, hstep⟩ := (stepsTo_oneOf_iff hnames hid hkind).mp hstep
    exact ⟨name, hname, .cons hstep hreach⟩
  · rintro ⟨name, hname, _ | ⟨hstep, hreach⟩⟩
    have hidName : (s.withName name).byId = false := hid
    have hkind := helement (hstep.mem_descendants hidName) hreach
    exact .cons ((stepsTo_oneOf_iff hnames hid hkind).mpr ⟨name, hname, hstep⟩) hreach

/-! ## Whole paths -/

/-- A path fails if the chain of its first part does. -/
theorem resolveAll_append_of_error {init rest : List Selector} {s : Selector} {root : Node}
    {fault : ResolveError} (hinit : d.chain init [root] = .error fault) :
    d.resolveAll root ⟨init ++ s :: rest⟩ = .error fault := by
  have hne : init ≠ [] := by
    rintro rfl
    cases hinit
  rw [← List.dropLast_concat_getLast (List.cons_ne_nil s rest), ← List.append_assoc,
    resolveAll_concat (List.append_ne_nil_of_left_ne_nil hne _), List.append_assoc, chain_append,
    hinit]
  rfl

/-- Let the chain of the first part of a path come to an end, and let neither lookup nor index stand
in the selector and the rest that the path goes on with. Then it selects nodes below the root in
document order, and what counts of them are the eligible nodes that the chain leads to. -/
theorem exists_resolveAll_append (hlookup : d.LooksBelow) {init rest : List Selector} {s : Selector}
    {root : Node} {nodes : List Node} (hnodes : d.chain init [root] = .ok nodes)
    (hid : ∀ t ∈ s :: rest, t.byId = false) (hindex : ∀ t ∈ s :: rest, t.index = none) :
    ∃ found, d.resolveAll root ⟨init ++ s :: rest⟩ = .ok found ∧ d.Selected root found ∧
      ∀ n, n ∈ d.counted rest found ↔
        d.Eligible root rest n ∧ ∃ k ∈ nodes, d.Reaches (s :: rest) k n := by
  rcases List.eq_nil_or_concat rest with rfl | ⟨mid, last, rfl⟩
  · have hidHead := hid s List.mem_cons_self
    have hindexHead := hindex s List.mem_cons_self
    obtain ⟨found, hfound, hselected, hsubset, hall⟩ :=
      exists_resolveAll_concat hlookup hnodes hidHead hindexHead
    refine ⟨found, hfound, hselected, fun n => ?_⟩
    have hreach : n ∈ d.descend s nodes ↔ ∃ k ∈ nodes, d.Reaches [s] k n := by
      rw [d.mem_descend hidHead hindexHead]
      simp only [reaches_singleton_iff]
    rw [← hreach]
    show n ∈ found.filter d.isElement ↔ d.kind n = .element ∧ n ∈ d.descend s nodes
    rw [List.mem_filter, isElement_eq_true_iff]
    constructor
    · rintro ⟨hn, helement⟩
      exact ⟨helement, hsubset hn⟩
    · rintro ⟨helement, hn⟩
      exact ⟨hall n hn helement, helement⟩
  · rw [List.concat_eq_append] at hid hindex ⊢
    obtain ⟨reached, hreached, hmem⟩ := d.exists_chain_eq_ok nodes hid hindex
    have hchain : d.chain (init ++ s :: (mid ++ [last])) [root] = .ok reached := by
      rw [chain_append, hnodes]
      exact hreached
    refine ⟨(d.descend last.unanchored [root]).filter reached.contains, ?_, ?_, fun n => ?_⟩
    · rw [← List.cons_append, ← List.append_assoc] at hchain ⊢
      rw [resolveAll_concat (by simp), hchain]
      rfl
    · exact (selected_descend last.unanchored root).filter _
    · have hcounted (found : List Node) : d.counted (mid ++ [last]) found = found := by
        unfold counted
        rw [if_neg (by simp)]
      have heligible : d.Eligible root (mid ++ [last]) n ↔
          n ∈ d.descend last.unanchored [root] := by
        unfold Eligible
        rw [List.getLast?_concat]
      rw [hcounted, heligible, ← hmem, List.mem_filter, List.contains_iff_mem]

/-- Let only elements have children below the root of a tree, let a selector of a path have
alternatives and neither lookup nor index, and let no selector behind it have either. Then the path
fails exactly if it fails in the same way with each of the names in the place of the alternatives,
and otherwise what counts of the nodes that it selects is the union of what counts with each of the
names: all nodes, or only the elements if the alternatives stand last. -/
theorem resolveAll_oneOf (ht : d.IsTree) (hlookup : d.LooksBelow) {root : Node}
    (hbranch : d.OnlyElementsBranch root) {init rest : List Selector} {s : Selector}
    {names : List String} (hnames : s.names = .oneOf names) (hne : names ≠ [])
    (hid : ∀ t ∈ s :: rest, t.byId = false) (hindex : ∀ t ∈ s :: rest, t.index = none) :
    (∀ fault, d.resolveAll root ⟨init ++ s :: rest⟩ = .error fault ↔
      ∀ name ∈ names, d.resolveAll root ⟨init ++ s.withName name :: rest⟩ = .error fault) ∧
    ∀ all, d.resolveAll root ⟨init ++ s :: rest⟩ = .ok all →
      ∃ part : String → List Node,
        (∀ name ∈ names, d.resolveAll root ⟨init ++ s.withName name :: rest⟩ = .ok (part name)) ∧
        d.IsUnion (names.map fun name => d.counted rest (part name)) (d.counted rest all) := by
  cases hinit : d.chain init [root] with
  | error cause =>
    have hfails (t : Selector) : d.resolveAll root ⟨init ++ t :: rest⟩ = .error cause :=
      resolveAll_append_of_error hinit
    refine ⟨fun fault => ?_, fun all hall => ?_⟩
    · obtain ⟨name, hname⟩ := List.exists_mem_of_ne_nil names hne
      simp only [hfails]
      exact ⟨fun h _ _ => h, fun h => h name hname⟩
    · rw [hfails] at hall
      cases hall
  | ok nodes =>
    obtain ⟨hidHead, hidRest⟩ := List.forall_mem_cons.mp hid
    obtain ⟨hindexHead, hindexRest⟩ := List.forall_mem_cons.mp hindex
    obtain ⟨all, hall, ⟨horder, -⟩, hmem⟩ := exists_resolveAll_append hlookup hinit hid hindex
    have hparts (name : String) :=
      exists_resolveAll_append hlookup hinit (s := s.withName name)
        (List.forall_mem_cons.mpr ⟨hidHead, hidRest⟩)
        (List.forall_mem_cons.mpr ⟨hindexHead, hindexRest⟩)
    choose part hpart _ hmemPart using hparts
    refine ⟨fun fault => ?_, fun found hfound => ⟨part, fun name _ => hpart name, ?_⟩⟩
    · obtain ⟨name, hname⟩ := List.exists_mem_of_ne_nil names hne
      simp only [hall, hpart, reduceCtorEq, false_iff]
      exact fun h => h name hname
    · obtain rfl : all = found := Except.ok.inj (hall.symm.trans hfound)
      have hinOrder : d.InOrder (d.counted rest all) := horder.sublist (counted_sublist rest all)
      refine ⟨hinOrder.nodup ht, hinOrder, fun n => ?_⟩
      have hbelow {k : Node} (hk : k ∈ nodes) : k ∈ d.subtree root :=
        mem_subtree_of_chain_root hlookup hinit hk
      rw [hmem]
      constructor
      · rintro ⟨heligible, k, hk, hreach⟩
        obtain ⟨name, hname, hreach⟩ :=
          (reaches_oneOf_iff hnames hidHead hbranch hidRest (hbelow hk) heligible).mp hreach
        refine ⟨_, List.mem_map_of_mem hname, ?_⟩
        exact (hmemPart name n).mpr ⟨heligible, k, hk, hreach⟩
      · rintro ⟨_, hpartMem, hn⟩
        obtain ⟨name, hname, rfl⟩ := List.mem_map.mp hpartMem
        obtain ⟨heligible, k, hk, hreach⟩ := (hmemPart name n).mp hn
        refine ⟨heligible, k, hk, ?_⟩
        exact (reaches_oneOf_iff hnames hidHead hbranch hidRest (hbelow hk) heligible).mpr
          ⟨name, hname, hreach⟩

theorem isTree_nestedLetters : nestedLetters.IsTree :=
  Arena.isTree (by decide) (by decide) (by decide)

/-- The path `#x >b|c` selects the comment `b` too, which `#x >b` does not. Of the elements it
selects those that it selects with one of the names. -/
theorem nestedLetters_oneOf_children :
    let x : Selector := { names := .single "x", byId := true }
    let letters : Selector := { names := .oneOf ["b", "c"], direct := true }
    nestedLetters.IsTree ∧ nestedLetters.LooksBelow ∧ nestedLetters.OnlyElementsBranch 5 ∧
      letters.byId = false ∧ letters.index = none ∧
      nestedLetters.resolveAll 5 ⟨[x, letters]⟩ = .ok [1, 2] ∧
      nestedLetters.resolveAll 5 ⟨[x, letters.withName "b"]⟩ = .ok [] ∧
      nestedLetters.resolveAll 5 ⟨[x, letters.withName "c"]⟩ = .ok [2] ∧
      nestedLetters.IsUnion [[], [2]] [2] := by
  intro x letters
  have hlookup : nestedLetters.LooksBelow := looksBelow_of_search fun _ _ => rfl
  have hrun : nestedLetters.resolveAll 5 ⟨[x] ++ letters :: []⟩ = .ok [1, 2] := by cbv
  have hb : nestedLetters.resolveAll 5 ⟨[x, letters.withName "b"]⟩ = .ok [] := by cbv
  have hc : nestedLetters.resolveAll 5 ⟨[x, letters.withName "c"]⟩ = .ok [2] := by cbv
  obtain ⟨part, hpart, hunion⟩ :=
    (resolveAll_oneOf isTree_nestedLetters hlookup onlyElementsBranch_nestedLetters (s := letters)
      rfl (by decide) (by simp [letters]) (by simp [letters])).2 _ hrun
  have hpartB : [] = part "b" := Except.ok.inj (hb.symm.trans (hpart "b" (by decide)))
  have hpartC : [2] = part "c" := Except.ok.inj (hc.symm.trans (hpart "c" (by decide)))
  simp only [List.map_cons, List.map_nil, ← hpartB, ← hpartC] at hunion
  exact ⟨isTree_nestedLetters, hlookup, onlyElementsBranch_nestedLetters, rfl, rfl, hrun, hb, hc,
    hunion⟩

end Document

end TreeSelect
