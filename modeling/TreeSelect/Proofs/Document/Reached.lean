/-
# TreeSelect.Proofs.Document.Reached — what the chain of a path reaches

The chain of a path can be cut anywhere: its first part leads from the root to some nodes, and its
second part goes on from these. All of them lie below the node that they are reached from. What the
path selects is on its chain; and if its last selector is neither a lookup nor has an index, then
each element that the chain ends at is selected too (`exists_resolveAll_concat`). Only what is no
element may be reached without being selected.
-/
import TreeSelect.Proofs.Document.Faults
import TreeSelect.Proofs.Document.Selected

namespace TreeSelect

namespace Document

variable {d : Document}

/-! ## Chains in sequence -/

theorem chain_append (init rest : List Selector) (current : List Node) :
    d.chain (init ++ rest) current = d.chain init current >>= d.chain rest := by
  rw [chain, List.foldlM_append]
  rfl

theorem chain_append_singleton (init : List Selector) (last : Selector) (current : List Node) :
    d.chain (init ++ [last]) current = d.chain init current >>= d.step last := by
  rw [chain_append]
  congr 1
  funext nodes
  rw [chain, List.foldlM_cons]
  simp only [List.foldlM_nil, bind_pure]

/-- A chain that comes to an end goes on from where its first step leads. -/
theorem exists_step_of_chain {first : Selector} {rest : List Selector} {current found : List Node}
    (hfound : d.chain (first :: rest) current = .ok found) :
    ∃ next, d.step first current = .ok next ∧ d.chain rest next = .ok found := by
  cases hstep : d.step first current with
  | error fault =>
    rw [chain, List.foldlM_cons, hstep] at hfound
    cases hfound
  | ok next => exact ⟨next, rfl, (d.chain_cons_of_step hstep).symm.trans hfound⟩

/-- A chain leads somewhere if its first part leads to a node that its second part leads on from. -/
theorem reaches_append_iff {init rest : List Selector} {n m : Node} :
    d.Reaches (init ++ rest) n m ↔ ∃ k, d.Reaches init n k ∧ d.Reaches rest k m := by
  induction init generalizing n with
  | nil =>
    constructor
    · intro h
      exact ⟨n, .nil, h⟩
    · rintro ⟨k, ⟨⟩, hrest⟩
      exact hrest
  | cons s init ih =>
    constructor
    · rintro (_ | ⟨hstep, htail⟩)
      obtain ⟨k, hinit, hrest⟩ := ih.mp htail
      exact ⟨k, .cons hstep hinit, hrest⟩
    · rintro ⟨k, _ | ⟨hstep, hinit⟩, hrest⟩
      exact .cons hstep (ih.mpr ⟨k, hinit, hrest⟩)

theorem reaches_singleton_iff {s : Selector} {n m : Node} :
    d.Reaches [s] n m ↔ d.StepsTo s n m := by
  constructor
  · rintro (_ | ⟨hstep, ⟨⟩⟩)
    exact hstep
  · intro hstep
    exact .cons hstep .nil

/-- A chain of selectors without index, of which only the first may be a lookup, finds from the root
all that it leads to. -/
theorem exists_chain_root_eq_ok {root : Node} {first : Selector} {rest : List Selector}
    (hindex : ∀ s ∈ first :: rest, s.index = none) (hid : ∀ s ∈ rest, s.byId = false)
    (hfirst : first.byId = true →
      (∃ id, first.names = .single id) ∧ d.supportsIdLookup root = true) :
    ∃ found, d.chain (first :: rest) [root] = .ok found ∧
      ∀ m, m ∈ found ↔ d.Reaches (first :: rest) root m := by
  obtain ⟨hindexFirst, hindexRest⟩ := List.forall_mem_cons.mp hindex
  obtain ⟨start, hstart, hmemStart⟩ := d.exists_first_step_eq_ok root hindexFirst hfirst
  obtain ⟨found, hfound, hmem⟩ := d.exists_chain_eq_ok start hid hindexRest
  refine ⟨found, (d.chain_cons_of_step hstart).trans hfound, fun m => ?_⟩
  rw [hmem]
  constructor
  · rintro ⟨k, hk, hrest⟩
    exact .cons ((hmemStart k).mp hk) hrest
  · rintro (_ | ⟨hstep, hrest⟩)
    exact ⟨_, (hmemStart _).mpr hstep, hrest⟩

/-! ## Below the start -/

/-- A step without lookup leads below the node that it starts from. -/
theorem StepsTo.mem_descendants {s : Selector} {n m : Node} (hid : s.byId = false)
    (h : d.StepsTo s n m) : m ∈ d.descendants n := by
  rcases (d.stepsTo_iff hid).mp h with ⟨-, hm, -⟩ | ⟨-, hm, -⟩
  · exact Hierarchy.subtree_subset_descendants hm (Hierarchy.mem_subtree_self m)
  · exact hm

/-- A chain of selectors without lookup leads into the subtree of its start, and below the start
unless it has no selector. -/
theorem Reaches.mem_subtree {rest : List Selector} {n m : Node} (hid : ∀ t ∈ rest, t.byId = false)
    (h : d.Reaches rest n m) : m ∈ d.subtree n ∧ (rest ≠ [] → m ∈ d.descendants n) := by
  induction h with
  | nil => exact ⟨Hierarchy.mem_subtree_self _, fun h => absurd rfl h⟩
  | @cons s rest n k m hstep _ ih =>
    obtain ⟨hidHead, hidTail⟩ := List.forall_mem_cons.mp hid
    have hk : k ∈ d.descendants n := hstep.mem_descendants hidHead
    have hm : m ∈ d.descendants n := Hierarchy.subtree_subset_of_mem_descendants hk (ih hidTail).1
    exact ⟨List.mem_cons_of_mem n hm, fun _ => hm⟩

section Below

variable (hlookup : d.LooksBelow)

include hlookup

theorem mem_descendants_of_lookup {id : String} {current found : List Node}
    (hfound : d.lookup id current = .ok found) {m : Node} (hm : m ∈ found) :
    ∃ n ∈ current, m ∈ d.descendants n := by
  induction current with
  | nil =>
    obtain rfl := Except.ok.inj hfound
    cases hm
  | cons n rest ih =>
    unfold lookup at hfound
    split at hfound
    · next hn =>
      split at hfound
      · next k hk =>
        obtain rfl := Except.ok.inj hfound
        obtain rfl : m = k := List.mem_singleton.mp hm
        exact ⟨n, List.mem_cons_self, hlookup hn hk⟩
      · obtain ⟨k, hk, hmk⟩ := ih hfound
        exact ⟨k, List.mem_cons_of_mem n hk, hmk⟩
    · cases hfound

/-- A step leads below the nodes that it starts from. -/
theorem mem_descendants_of_step {s : Selector} {current found : List Node}
    (hfound : d.step s current = .ok found) {m : Node} (hm : m ∈ found) :
    ∃ n ∈ current, m ∈ d.descendants n := by
  unfold step at hfound
  split at hfound
  · split at hfound
    · exact mem_descendants_of_lookup hlookup hfound hm
    · obtain rfl := Except.ok.inj hfound
      cases hm
  · obtain rfl := Except.ok.inj hfound
    have hall : m ∈ current.flatMap (d.finds s) := by
      rw [descend_eq] at hm
      split at hm
      · exact hm
      · exact (toList_getElem?_sublist _ _).subset hm
    obtain ⟨n, hn, hmn⟩ := List.mem_flatMap.mp hall
    exact ⟨n, hn, finds_subset_descendants s n hmn⟩

/-- A chain stays in the subtrees of the nodes that it starts from. -/
theorem mem_subtree_of_chain {selectors : List Selector} {current found : List Node}
    (hfound : d.chain selectors current = .ok found) {m : Node} (hm : m ∈ found) :
    ∃ n ∈ current, m ∈ d.subtree n := by
  induction selectors generalizing current with
  | nil =>
    obtain rfl : current = found := Except.ok.inj hfound
    exact ⟨m, hm, Hierarchy.mem_subtree_self m⟩
  | cons s rest ih =>
    obtain ⟨next, hstep, hrest⟩ := exists_step_of_chain hfound
    obtain ⟨k, hk, hmk⟩ := ih hrest
    obtain ⟨n, hn, hkn⟩ := mem_descendants_of_step hlookup hstep hk
    exact ⟨n, hn, Hierarchy.subtree_subset (List.mem_cons_of_mem n hkn) hmk⟩

theorem mem_subtree_of_chain_root {selectors : List Selector} {root : Node} {found : List Node}
    (hfound : d.chain selectors [root] = .ok found) {m : Node} (hm : m ∈ found) :
    m ∈ d.subtree root := by
  obtain ⟨n, hn, hmn⟩ := mem_subtree_of_chain hlookup hfound hm
  obtain rfl : n = root := List.mem_singleton.mp hn
  exact hmn

/-- What a path's chain leads to is below the root, if only its first selector may be a lookup. -/
theorem mem_descendants_of_reaches {root m : Node} {first : Selector} {rest : List Selector}
    (hid : ∀ s ∈ rest, s.byId = false)
    (hfirst : first.byId = true → d.supportsIdLookup root = true)
    (hreach : d.Reaches (first :: rest) root m) : m ∈ d.descendants root := by
  obtain _ | @⟨_, _, _, k, _, hstep, hrest⟩ := hreach
  have hk : k ∈ d.descendants root := by
    cases hs : first.byId with
    | false => exact hstep.mem_descendants hs
    | true =>
      rcases hstep with ⟨-, -, hfound⟩ | ⟨hs', -, -, -⟩ | ⟨hs', -, -, -⟩
      · exact hlookup (hfirst hs) hfound
      · rw [hs] at hs'
        cases hs'
      · rw [hs] at hs'
        cases hs'
  exact Hierarchy.subtree_subset_of_mem_descendants hk (hrest.mem_subtree hid).1

end Below

/-! ## Nodes that have something below them -/

variable (d) in
/-- Below the root only elements have children. -/
def OnlyElementsBranch (root : Node) : Prop :=
  ∀ n ∈ d.descendants root, d.kind n ≠ .element → d.children n = []

/-- Then a node below the root that has something below it is an element. -/
theorem OnlyElementsBranch.kind_eq {root n m : Node} (h : d.OnlyElementsBranch root)
    (hn : n ∈ d.descendants root) (hm : m ∈ d.descendants n) : d.kind n = .element := by
  by_contra hkind
  rw [Hierarchy.descendants_eq_flatMap, h n hn hkind] at hm
  cases hm

theorem onlyElementsBranch_nestedLetters : nestedLetters.OnlyElementsBranch 5 := by
  have hbelow : nestedLetters.descendants 5 = [3, 1, 2, 0, 4] := by cbv
  unfold OnlyElementsBranch
  rw [hbelow]
  decide

/-! ## The last selector -/

/-- A path of several selectors selects, of what the last one finds anywhere below the root, the
nodes that its chain ends at. -/
theorem resolveAll_concat {init : List Selector} {last : Selector} {root : Node}
    (hinit : init ≠ []) :
    d.resolveAll root ⟨init ++ [last]⟩ = (d.chain (init ++ [last]) [root]).map fun reached =>
      (d.descend last.unanchored [root]).filter reached.contains := by
  obtain ⟨first, rest, rfl⟩ := List.exists_cons_of_ne_nil hinit
  cases rest with
  | nil => rfl
  | cons second others =>
    have hend : ((second :: others) ++ [last]).getLast (by simp) = last := by simp
    show (do
      let anywhere := d.descend (((second :: others) ++ [last]).getLast (by simp)).unanchored [root]
      let chained ← d.chain (first :: ((second :: others) ++ [last])) [root]
      return anywhere.filter chained.contains) = _
    rw [hend]
    rfl

/-- Of what the last selector finds anywhere below the root, a path selects what the last selector
finds at the end of the chain. -/
theorem resolveAll_append_singleton {init : List Selector} {last : Selector} {root : Node}
    (hinit : init ≠ []) (hlast : last.byId = false) :
    d.resolveAll root ⟨init ++ [last]⟩ = (d.chain init [root]).map fun nodes =>
      (d.descend last.unanchored [root]).filter (d.descend last nodes).contains := by
  rw [resolveAll_concat hinit, chain_append_singleton]
  cases d.chain init [root] with
  | error fault => rfl
  | ok nodes =>
    show Except.map _ (d.step last nodes) = _
    rw [d.step_eq_ok nodes hlast]
    rfl

/-- A step without lookup leads to nodes that pass the tests of its selector. -/
theorem StepsTo.passes {s : Selector} {n m : Node} (hid : s.byId = false) (h : d.StepsTo s n m) :
    d.Passes s m := by
  rcases (d.stepsTo_iff hid).mp h with ⟨-, -, hpass⟩ | ⟨-, -, hq⟩
  · exact hpass
  · exact hq.1

/-- Where the chain of the selectors before the last one comes to an end, the path selects nodes
that the last selector finds there, and all elements among them. -/
theorem exists_resolveAll_concat (hlookup : d.LooksBelow) {init : List Selector} {last : Selector}
    {root : Node} {nodes : List Node} (hnodes : d.chain init [root] = .ok nodes)
    (hid : last.byId = false) (hindex : last.index = none) :
    ∃ found, d.resolveAll root ⟨init ++ [last]⟩ = .ok found ∧ d.Selected root found ∧
      found ⊆ d.descend last nodes ∧
      ∀ m ∈ d.descend last nodes, d.kind m = .element → m ∈ found := by
  by_cases hinit : init = []
  · subst hinit
    obtain rfl : [root] = nodes := Except.ok.inj hnodes
    exact ⟨_, d.step_eq_ok [root] hid, selected_descend last root, List.Subset.refl _,
      fun m hm _ => hm⟩
  · refine ⟨(d.descend last.unanchored [root]).filter (d.descend last nodes).contains,
      ?_, ?_, ?_, ?_⟩
    · rw [resolveAll_append_singleton hinit hid, hnodes]
      rfl
    · exact (selected_descend last.unanchored root).filter _
    · intro m hm
      exact List.contains_iff_mem.mp (List.mem_filter.mp hm).2
    · intro m hm helement
      -- An element that the chain ends at is below the root and qualifies for the last selector.
      obtain ⟨k, hk, hstep⟩ := (d.mem_descend hid hindex).mp hm
      have hkroot : k ∈ d.subtree root := mem_subtree_of_chain_root hlookup hnodes hk
      have hbelow : m ∈ d.descendants root :=
        Hierarchy.descendants_subset_of_mem_subtree hkroot (hstep.mem_descendants hid)
      have hpass : d.Passes last m := hstep.passes hid
      apply List.mem_filter.mpr
      refine ⟨?_, List.contains_iff_mem.mpr hm⟩
      apply (d.mem_descend (s := last.unanchored) rfl hindex).mpr
      exact ⟨root, List.mem_singleton_self root, .below rfl rfl hbelow ⟨hpass, .inl helement⟩⟩

end Document

end TreeSelect
