/-
# TreeSelect.Proofs.Document.Faults — when selecting fails

A text that is a path looks identifiers up at its head only, and one each time. The steps behind the
head never fail, whatever nodes they start from. So apart from a fault in the text there is one way
to fail: the path begins with a lookup, and the root supports none (`selectAll_eq_error_iff`).
-/
import TreeSelect.Document.Select
import TreeSelect.Proofs.Document.Chain
import TreeSelect.Proofs.Document.Lookup
import TreeSelect.Proofs.Path.RoundTrip

namespace TreeSelect

/-! ## Lookups in an expressible path -/

namespace Path.Expressible

variable {first : Selector} {rest : List Selector} (h : Path.Expressible ⟨first :: rest⟩)

include h

/-- A lookup at the head of the path has one identifier. -/
theorem exists_names_eq_single (hid : first.byId = true) : ∃ id, first.names = .single id :=
  ((h 0 first rfl).byId hid).2.2

/-- Behind the head of the path nothing is looked up. -/
theorem byId_eq_false {s : Selector} (hs : s ∈ rest) : s.byId = false := by
  obtain ⟨i, hi⟩ := List.mem_iff_getElem?.mp hs
  have hplace : s.Expressible (i + 1 == 0) := h (i + 1) s (by simpa using hi)
  cases hid : s.byId with
  | false => rfl
  | true => exact absurd (hplace.byId hid).1 (by simp)

end Path.Expressible

namespace Document

variable {d : Document}

/-! ## Faults of steps -/

/-- A step from the root fails exactly if it looks an identifier up where that is not supported. -/
theorem step_singleton_eq_error_iff {s : Selector} {root : Node} {fault : ResolveError}
    (hname : s.byId = true → ∃ id, s.names = .single id) :
    d.step s [root] = .error fault ↔ s.byId = true ∧ d.supportsIdLookup root = false := by
  cases hid : s.byId with
  | false => simp [d.step_eq_ok [root] hid]
  | true =>
    obtain ⟨id, hid'⟩ := hname hid
    have hstep : d.step s [root] = d.lookup id [root] := by
      simp [step, hid, hid', NameTest.single?]
    rw [hstep, lookup_singleton]
    cases fault
    cases d.supportsIdLookup root <;> simp

/-- Steps that look no identifier up do not fail, one after the other. -/
theorem exists_chain_eq_ok_of_byId_eq_false {selectors : List Selector} (current : List Node)
    (hid : ∀ s ∈ selectors, s.byId = false) :
    ∃ found, d.chain selectors current = .ok found := by
  induction selectors generalizing current with
  | nil => exact ⟨current, rfl⟩
  | cons s rest ih =>
    have hs : d.step s current = .ok (d.descend s current) := d.step_eq_ok current (hid s (by simp))
    obtain ⟨found, hfound⟩ := ih (d.descend s current) fun t ht => hid t (by simp [ht])
    exact ⟨found, (d.chain_cons_of_step hs).trans hfound⟩

/-- The chain of a path fails as its first step does, if only that looks an identifier up. -/
theorem chain_cons_eq_error_iff {first : Selector} {rest : List Selector} {current : List Node}
    {fault : ResolveError} (hid : ∀ s ∈ rest, s.byId = false) :
    d.chain (first :: rest) current = .error fault ↔ d.step first current = .error fault := by
  cases hstep : d.step first current with
  | error cause =>
    rw [chain, List.foldlM_cons, hstep]
    rfl
  | ok start =>
    obtain ⟨found, hfound⟩ := exists_chain_eq_ok_of_byId_eq_false (d := d) start hid
    simp [d.chain_cons_of_step hstep, hfound]

/-! ## Faults of paths -/

/-- A path with selectors fails as its first step does, if only that looks an identifier up. -/
theorem resolveAll_cons_eq_error_iff {first : Selector} {rest : List Selector} {root : Node}
    {fault : ResolveError} (hid : ∀ s ∈ rest, s.byId = false) :
    d.resolveAll root ⟨first :: rest⟩ = .error fault ↔ d.step first [root] = .error fault := by
  cases rest with
  | nil => rfl
  | cons second others =>
    rw [← chain_cons_eq_error_iff hid]
    simp only [resolveAll]
    cases d.chain (first :: second :: others) [root] <;> simp [bind, Except.bind, pure, Except.pure]

/-- An expressible path fails exactly if it begins with a lookup that the root does not support. -/
theorem resolveAll_eq_error_iff {path : Path} (h : path.Expressible) {root : Node}
    {fault : ResolveError} :
    d.resolveAll root path = .error fault ↔
      ∃ first rest, path = ⟨first :: rest⟩ ∧ first.byId = true ∧
        d.supportsIdLookup root = false := by
  obtain ⟨selectors⟩ := path
  cases selectors with
  | nil => simp [resolveAll]
  | cons first rest =>
    rw [resolveAll_cons_eq_error_iff fun s hs => h.byId_eq_false hs,
      step_singleton_eq_error_iff h.exists_names_eq_single]
    simp

/-- An expressible path is resolved exactly if it does not begin with a lookup that the root does
not support. -/
theorem exists_resolveAll_eq_ok_iff {path : Path} (h : path.Expressible) {root : Node} :
    (∃ found, d.resolveAll root path = .ok found) ↔
      ¬∃ first rest, path = ⟨first :: rest⟩ ∧ first.byId = true ∧
        d.supportsIdLookup root = false := by
  have hfault : d.resolveAll root path = .error .notADocumentRoot ↔ _ := resolveAll_eq_error_iff h
  rw [← hfault]
  cases d.resolveAll root path with
  | error fault => cases fault; simp
  | ok found => simp

/-! ## Faults of path text -/

theorem selectAll_of_error {text : String} {cause : GrammarError} (root : Node)
    (h : Path.parse text = .error cause) :
    d.selectAll root text = .error (.grammar cause) := by
  rw [selectAll, h]
  rfl

theorem selectAll_of_ok {text : String} {path : Path} (root : Node)
    (h : Path.parse text = .ok path) :
    d.selectAll root text = (d.resolveAll root path).mapError .resolve := by
  rw [selectAll, h]
  rfl

theorem selectAll_eq_ok_iff {root : Node} {text : String} {found : List Node} :
    d.selectAll root text = .ok found ↔
      ∃ path, Path.parse text = .ok path ∧ d.resolveAll root path = .ok found := by
  cases h : Path.parse text with
  | error cause => simp [selectAll_of_error root h]
  | ok path =>
    simp only [selectAll_of_ok root h, Except.ok.injEq, exists_eq_left']
    cases d.resolveAll root path <;> simp [Except.mapError]

theorem selectAll_eq_grammar_iff {root : Node} {text : String} {cause : GrammarError} :
    d.selectAll root text = .error (.grammar cause) ↔ Path.parse text = .error cause := by
  cases h : Path.parse text with
  | error found => simp [selectAll_of_error root h]
  | ok path =>
    rw [selectAll_of_ok root h]
    cases d.resolveAll root path <;> simp [Except.mapError]

theorem selectAll_eq_resolve_iff {root : Node} {text : String} {fault : ResolveError} :
    d.selectAll root text = .error (.resolve fault) ↔
      ∃ path, Path.parse text = .ok path ∧ d.resolveAll root path = .error fault := by
  cases h : Path.parse text with
  | error cause => simp [selectAll_of_error root h]
  | ok path =>
    simp only [selectAll_of_ok root h, Except.ok.injEq, exists_eq_left']
    cases d.resolveAll root path <;> simp [Except.mapError]

/-- The first node selected is the first of all. -/
theorem selectFirst_eq_map_head? (root : Node) (text : String) :
    d.selectFirst root text = (d.selectAll root text).map List.head? := by
  cases h : Path.parse text with
  | error cause =>
    rw [selectAll_of_error root h, selectFirst, h]
    rfl
  | ok path =>
    rw [selectAll_of_ok root h, selectFirst, h]
    show (d.resolveFirst root path).mapError SelectError.resolve = _
    rw [resolveFirst]
    cases d.resolveAll root path <;> rfl

variable (d)

/-- Selecting fails for a fault in the text exactly if the text has that fault, and for the root
exactly if the text is a path that begins with a lookup which the root does not support; otherwise
it succeeds. Selecting the first node fails in the same cases in the same way, and otherwise gives
the first of the nodes selected, if there is one. -/
theorem selectAll_eq_error_iff (root : Node) (text : String) :
    (∀ cause, d.selectAll root text = .error (.grammar cause) ↔ Path.parse text = .error cause) ∧
      (d.selectAll root text = .error (.resolve .notADocumentRoot) ↔
        ∃ path, Path.parse text = .ok path ∧ ∃ first rest, path = ⟨first :: rest⟩ ∧
          first.byId = true ∧ d.supportsIdLookup root = false) ∧
      ((∃ found, d.selectAll root text = .ok found) ↔
        ∃ path, Path.parse text = .ok path ∧ ¬∃ first rest, path = ⟨first :: rest⟩ ∧
          first.byId = true ∧ d.supportsIdLookup root = false) ∧
      d.selectFirst root text = (d.selectAll root text).map List.head? := by
  refine ⟨fun cause => selectAll_eq_grammar_iff, ?_, ?_, selectFirst_eq_map_head? root text⟩
  · rw [selectAll_eq_resolve_iff]
    refine exists_congr fun path => and_congr_right fun hparse => ?_
    exact resolveAll_eq_error_iff (Path.expressible_of_parse hparse)
  · simp only [selectAll_eq_ok_iff]
    rw [exists_comm]
    refine exists_congr fun path => ?_
    rw [exists_and_left]
    exact and_congr_right fun hparse =>
      exists_resolveAll_eq_ok_iff (Path.expressible_of_parse hparse)

end Document

end TreeSelect
