/-
# TreeSelect.Proofs.Document.Lookup — lookups by identifier

A lookup asks one node after the other and finds one element at most. It fails where it comes to a
node that supports no lookup, before that node is asked anything. So how such nodes would answer
never shows: a document in which lookups go another way, with the same answers wherever they are
supported, resolves every path alike (`resolveAll_withLookup`).
-/
import TreeSelect.Document.Resolve

namespace TreeSelect

namespace Document

variable {d : Document}

/-! ## One lookup -/

theorem lookup_singleton (id : String) (n : Node) :
    d.lookup id [n] =
      if d.supportsIdLookup n then .ok (d.elementById n id).toList
      else .error .notADocumentRoot := by
  cases hn : d.supportsIdLookup n with
  | false => simp [lookup, hn]
  | true => cases hfound : d.elementById n id <;> simp [lookup, hn, hfound]

/-- A lookup finds one element or none. -/
theorem eq_toList_of_lookup {id : String} {nodes found : List Node}
    (hfound : d.lookup id nodes = .ok found) : ∃ m : Option Node, found = m.toList := by
  induction nodes with
  | nil =>
    obtain rfl := Except.ok.inj hfound
    exact ⟨none, rfl⟩
  | cons n rest ih =>
    unfold lookup at hfound
    split at hfound
    · split at hfound
      · next m _ =>
        obtain rfl := Except.ok.inj hfound
        exact ⟨some m, rfl⟩
      · exact ih hfound
    · cases hfound

/-! ## Other ways to look up -/

/-- The same document, with lookups that go another way. -/
def withLookup (d : Document) (look : Node → String → Option Node) : Document :=
  { d with elementById := look }

section Agreement

variable {look : Node → String → Option Node}
  (hlook : ∀ n id, d.supportsIdLookup n = true → look n id = d.elementById n id)

include hlook

theorem lookup_withLookup (id : String) (nodes : List Node) :
    (d.withLookup look).lookup id nodes = d.lookup id nodes := by
  induction nodes with
  | nil => rfl
  | cons n rest ih =>
    have hsupports : (d.withLookup look).supportsIdLookup n = d.supportsIdLookup n := rfl
    rw [lookup, lookup, hsupports]
    cases hn : d.supportsIdLookup n with
    | false => rfl
    | true =>
      have hanswer : (d.withLookup look).elementById n id = d.elementById n id := hlook n id hn
      rw [hanswer, ih]

theorem step_withLookup (s : Selector) (current : List Node) :
    (d.withLookup look).step s current = d.step s current := by
  have hdescend : (d.withLookup look).descend s current = d.descend s current := rfl
  rw [step, step, hdescend]
  cases s.names.single? with
  | none => rfl
  | some id => simp only [lookup_withLookup hlook]

theorem chain_withLookup (selectors : List Selector) (current : List Node) :
    (d.withLookup look).chain selectors current = d.chain selectors current := by
  have hstep : (fun nodes s => (d.withLookup look).step s nodes) = fun nodes s => d.step s nodes :=
    funext fun nodes => funext fun s => step_withLookup hlook s nodes
  rw [chain, chain, hstep]

/-- Paths are resolved alike whichever way lookups go, if the answers agree on the nodes that
support lookups. -/
theorem resolveAll_withLookup (root : Node) (path : Path) :
    (d.withLookup look).resolveAll root path = d.resolveAll root path := by
  obtain ⟨selectors⟩ := path
  match selectors with
  | [] => rfl
  | [s] => exact step_withLookup hlook s [root]
  | s :: t :: rest =>
    have hdescend (u : Selector) : (d.withLookup look).descend u [root] = d.descend u [root] := rfl
    simp only [resolveAll, chain_withLookup hlook, hdescend]

end Agreement

end Document

end TreeSelect
