/-
# TreeSelect.Proofs.Document.Stages — selecting in stages

A path can be resolved in two stages: its first part from the root, and its second part from each
node that the first one selects. Each stage cuts what its chain reaches down to what its own last
selector finds anywhere, so the stages do not compose as their chains do. But what is cut away is no
element, and where only elements have children nothing can be selected from it. So as far as
elements go, both stages together select what the whole path selects (`resolveAll_append_mem_iff`).
-/
import TreeSelect.Proofs.Document.Reached

namespace TreeSelect

namespace Document

variable {d : Document}

/-- A path of selectors without index, of which only the first may be a lookup, selects nodes that
its chain reaches from the root, and all elements among them. -/
theorem exists_resolveAll_root_eq_ok (hlookup : d.LooksBelow) {root : Node} {first : Selector}
    {rest : List Selector} (hindex : ∀ s ∈ first :: rest, s.index = none)
    (hid : ∀ s ∈ rest, s.byId = false)
    (hfirst : first.byId = true →
      (∃ id, first.names = .single id) ∧ d.supportsIdLookup root = true) :
    ∃ found, d.resolveAll root ⟨first :: rest⟩ = .ok found ∧
      (∀ n ∈ found, d.Reaches (first :: rest) root n) ∧
      ∀ n, d.Reaches (first :: rest) root n → d.kind n = .element → n ∈ found := by
  rcases List.eq_nil_or_concat rest with rfl | ⟨init, last, rfl⟩
  · have hindexFirst := hindex first List.mem_cons_self
    obtain ⟨found, hfound, hmem⟩ := d.exists_first_step_eq_ok root hindexFirst hfirst
    refine ⟨found, hfound, fun n hn => ?_, fun n hn _ => ?_⟩
    · exact reaches_singleton_iff.mpr ((hmem n).mp hn)
    · exact (hmem n).mpr (reaches_singleton_iff.mp hn)
  · rw [List.concat_eq_append] at hindex hid ⊢
    rw [← List.cons_append] at hindex ⊢
    obtain ⟨hindexInit, hindexLast⟩ := List.forall_mem_append.mp hindex
    obtain ⟨hidInit, hidLast⟩ := List.forall_mem_append.mp hid
    have hindexLast := hindexLast last (List.mem_singleton_self last)
    have hidLast := hidLast last (List.mem_singleton_self last)
    obtain ⟨nodes, hnodes, hmem⟩ := exists_chain_root_eq_ok hindexInit hidInit hfirst
    obtain ⟨found, hfound, -, hsubset, hall⟩ :=
      exists_resolveAll_concat hlookup hnodes hidLast hindexLast
    have hreach (n : Node) :
        n ∈ d.descend last nodes ↔ d.Reaches (first :: init ++ [last]) root n := by
      rw [d.mem_descend hidLast hindexLast, reaches_append_iff]
      simp only [hmem, reaches_singleton_iff]
    refine ⟨found, hfound, fun n hn => ?_, fun n hn helement => ?_⟩
    · exact (hreach n).mp (hsubset hn)
    · exact hall n ((hreach n).mpr hn) helement

/-- Let only elements have children below the root, and let a path be parted into two, without index
and with no lookup but at its head, where the root supports it. Then the path, its first part, and
its second part from any node can be resolved, and the path selects just those elements that the
second part selects from some node that the first part selects. -/
theorem resolveAll_append_mem_iff (hlookup : d.LooksBelow) {root : Node}
    (hbranch : d.OnlyElementsBranch root) {first : Selector} {rest second : List Selector}
    (hsecond : second ≠ []) (hindex : ∀ s ∈ first :: rest ++ second, s.index = none)
    (hid : ∀ s ∈ rest ++ second, s.byId = false)
    (hfirst : first.byId = true →
      (∃ id, first.names = .single id) ∧ d.supportsIdLookup root = true) :
    ∃ (whole heads : List Node) (tails : Node → List Node),
      d.resolveAll root ⟨first :: rest ++ second⟩ = .ok whole ∧
      d.resolveAll root ⟨first :: rest⟩ = .ok heads ∧
      (∀ r, d.resolveAll r ⟨second⟩ = .ok (tails r)) ∧
      ∀ n, d.kind n = .element → (n ∈ whole ↔ ∃ r ∈ heads, n ∈ tails r) := by
  obtain ⟨hindexFirst, hindexSecond⟩ := List.forall_mem_append.mp hindex
  obtain ⟨hidRest, hidSecond⟩ := List.forall_mem_append.mp hid
  obtain ⟨whole, hwhole, hwholeReaches, hwholeAll⟩ :=
    exists_resolveAll_root_eq_ok hlookup hindex hid hfirst
  obtain ⟨heads, hheads, hheadsReaches, hheadsAll⟩ :=
    exists_resolveAll_root_eq_ok hlookup hindexFirst hidRest hfirst
  obtain ⟨s, tail, rfl⟩ := List.exists_cons_of_ne_nil hsecond
  obtain ⟨hidHead, hidTail⟩ := List.forall_mem_cons.mp hidSecond
  have hnolookup (r : Node) : s.byId = true →
      (∃ id, s.names = .single id) ∧ d.supportsIdLookup r = true := by
    intro h
    rw [hidHead] at h
    cases h
  have htails (r : Node) := exists_resolveAll_root_eq_ok hlookup hindexSecond hidTail (hnolookup r)
  choose tails htails htailsReaches htailsAll using htails
  refine ⟨whole, heads, tails, hwhole, hheads, htails, fun n helement => ?_⟩
  constructor
  · intro hn
    have hreach : d.Reaches (first :: rest ++ s :: tail) root n := hwholeReaches n hn
    obtain ⟨r, hr, hrn⟩ := reaches_append_iff.mp hreach
    -- Something is below the node where the parts meet, so it is an element and not cut away.
    have hbelow := mem_descendants_of_reaches hlookup hidRest (fun h => (hfirst h).2) hr
    have hunder := (hrn.mem_subtree hidSecond).2 hsecond
    have hkind : d.kind r = .element := hbranch.kind_eq hbelow hunder
    exact ⟨r, hheadsAll r hr hkind, htailsAll r n hrn helement⟩
  · rintro ⟨r, hr, hn⟩
    have hreach := reaches_append_iff.mpr ⟨r, hheadsReaches r hr, htailsReaches r n hn⟩
    exact hwholeAll n hreach helement

/-- The children of `x` named `b` or `c` are selected first, one of which is a comment, and then the
elements `b` below them. -/
theorem nestedLetters_below_letters :
    let x : Selector := { names := .single "x", byId := true }
    let letters : Selector := { names := .oneOf ["b", "c"], direct := true }
    let b : Selector := .named "b"
    nestedLetters.LooksBelow ∧ nestedLetters.OnlyElementsBranch 5 ∧
      (∀ s ∈ [x, letters, b], s.index = none) ∧ (∀ s ∈ [letters, b], s.byId = false) ∧
      nestedLetters.supportsIdLookup 5 = true ∧
      nestedLetters.resolveAll 5 ⟨[x, letters, b]⟩ = .ok [0] ∧
      nestedLetters.resolveAll 5 ⟨[x, letters]⟩ = .ok [1, 2] ∧
      ∃ tails : Node → List Node, (∀ r, nestedLetters.resolveAll r ⟨[b]⟩ = .ok (tails r)) ∧
        ∀ n, nestedLetters.kind n = .element → (n ∈ [0] ↔ ∃ r ∈ [1, 2], n ∈ tails r) := by
  intro x letters b
  have hlookup : nestedLetters.LooksBelow := looksBelow_of_search fun _ _ => rfl
  have hindex : ∀ s ∈ [x, letters] ++ [b], s.index = none := by simp [x, letters, b, Selector.named]
  have hid : ∀ s ∈ [letters] ++ [b], s.byId = false := by simp [letters, b, Selector.named]
  have hroot : nestedLetters.supportsIdLookup 5 = true := rfl
  have hrun : nestedLetters.resolveAll 5 ⟨[x, letters, b]⟩ = .ok [0] := by cbv
  have hfirst : nestedLetters.resolveAll 5 ⟨[x, letters]⟩ = .ok [1, 2] := by cbv
  obtain ⟨whole, heads, tails, hwhole, hheads, htails, hiff⟩ :=
    resolveAll_append_mem_iff hlookup onlyElementsBranch_nestedLetters (List.cons_ne_nil b [])
      hindex hid fun _ => ⟨⟨"x", rfl⟩, hroot⟩
  obtain rfl : [0] = whole := Except.ok.inj (hrun.symm.trans hwhole)
  obtain rfl : [1, 2] = heads := Except.ok.inj (hfirst.symm.trans hheads)
  exact ⟨hlookup, onlyElementsBranch_nestedLetters, hindex, hid, hroot, hrun, hfirst, tails,
    htails, hiff⟩

end Document

end TreeSelect
