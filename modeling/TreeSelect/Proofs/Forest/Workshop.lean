/-
# TreeSelect.Proofs.Forest.Workshop — forests that come out of a workshop

Whatever is done in a workshop changes its forest by building nodes only, one after the other
(`Workshop.grown_of_perform`). So a forest that was put together from nothing, by actions in any
order, is a built forest (`Workshop.built_of_run`), and each of its documents has the index of what
is below it. Asking the index is asking for the first element below that has the identifier, and no
path can tell which of the two ways is gone (`Workshop.lookup_eq_search_of_run`).
-/
import TreeSelect.Forest.Workshop
import TreeSelect.Proofs.Document.Lookup
import TreeSelect.Proofs.Forest.Index

namespace TreeSelect

/-! ## Growing forests -/

namespace Forest

/-- The second forest comes from the first one by building nodes. -/
inductive Grown (f : Forest) : Forest → Prop
  | refl : Grown f f
  | build {g : Forest} (c : Content (Fin g.size)) : Grown f g → Grown f (g.build c)

theorem Grown.trans {f g h : Forest} (hfg : Grown f g) (hgh : Grown g h) : Grown f h := by
  induction hgh with
  | refl => exact hfg
  | build c _ ih => exact .build c ih

/-- What grows out of a built forest is built. -/
theorem Grown.built {f g : Forest} (h : Grown f g) (hf : Built f) : Built g := by
  induction h with
  | refl => exact hf
  | build c _ ih => exact .build c ih

end Forest

/-! ## Actions -/

namespace Workshop

open Forest

variable {w w' : Workshop}

theorem grown_of_finish {k : Nat} (h : w.finish k = some w') : Grown w.forest w'.forest := by
  obtain ⟨d, -, rfl⟩ := Option.map_eq_some_iff.mp h
  exact .build d.content .refl

theorem grown_of_take {part : Part} {n : Node} (h : w.take part = some (w', n)) :
    Grown w.forest w'.forest := by
  cases part with
  | node m =>
    obtain ⟨rfl, -⟩ := Prod.mk.inj (Option.some.inj h)
    exact .refl
  | draft k =>
    obtain ⟨built, hfinish, heq⟩ := Option.map_eq_some_iff.mp h
    obtain ⟨rfl, -⟩ := Prod.mk.inj heq
    exact grown_of_finish hfinish

/-- Adding a node to a draft leaves the forest as it is. -/
theorem forest_of_addChild {k : Nat} {n : Node} (h : w.addChild k n = some w') :
    w'.forest = w.forest := by
  obtain ⟨d, -, hput⟩ := Option.bind_eq_some_iff.mp h
  split at hput
  · obtain rfl := Option.some.inj hput
    rfl
  · cases hput

theorem grown_of_give {k : Nat} {part : Part} (h : w.give k part = some w') :
    Grown w.forest w'.forest := by
  obtain ⟨⟨taken, n⟩, htake, hadd⟩ := Option.bind_eq_some_iff.mp h
  rw [forest_of_addChild hadd]
  exact grown_of_take htake

/-- Where each step only builds nodes, so do all of them together. -/
theorem grown_of_foldlM {α : Type} {step : Workshop → α → Option Workshop}
    (hstep : ∀ {w w' : Workshop} {a : α}, step w a = some w' → Grown w.forest w'.forest)
    {as : List α} (h : as.foldlM step w = some w') : Grown w.forest w'.forest := by
  induction as generalizing w with
  | nil =>
    obtain rfl := Option.some.inj h
    exact .refl
  | cons a rest ih =>
    obtain ⟨next, ha, hrest⟩ := Option.bind_eq_some_iff.mp h
    exact (hstep ha).trans (ih hrest)

/-- An action changes the forest by building nodes only. -/
theorem grown_of_perform {a : Action} (h : w.perform a = some w') :
    Grown w.forest w'.forest := by
  cases a with
  | document | element =>
    obtain rfl := Option.some.inj h
    exact .refl
  | text | comment | instruction =>
    obtain rfl := Option.some.inj h
    exact .build _ .refl
  | attr k name value =>
    obtain ⟨d, -, rfl⟩ := Option.map_eq_some_iff.mp h
    exact .refl
  | children k parts => exact grown_of_foldlM grown_of_give h
  | build k => exact grown_of_finish h

/-! ## Whole runs -/

/-- What is put together from nothing is a built forest. -/
theorem built_of_run {actions : List Action} (h : run actions = some w) : Built w.forest :=
  (grown_of_foldlM grown_of_perform h).built .empty

/-- In a forest that was put together from nothing, by any actions, a lookup from a document finds
the first element below it that has the identifier, as a search does; from any other node it finds
nothing. So every path is resolved as if lookups went by search, from whatever root. -/
theorem lookup_eq_search_of_run {actions : List Action} (h : run actions = some w) :
    (∀ n id, (w.forest.content n).kind = .document →
        w.forest.toDocument.elementById n id = w.forest.toHierarchy.searchById n id) ∧
      (∀ n id, (w.forest.content n).kind ≠ .document →
        w.forest.toDocument.elementById n id = none) ∧
      ∀ root path, w.forest.toDocument.resolveAll root path =
        (w.forest.toDocument.withLookup w.forest.toHierarchy.searchById).resolveAll root path := by
  have hbuilt := built_of_run h
  have hsearch (n : Node) (id : String) (hn : w.forest.toDocument.supportsIdLookup n = true) :
      w.forest.toHierarchy.searchById n id = w.forest.toDocument.elementById n id :=
    (hbuilt.elementById_eq_searchById hn id).symm
  refine ⟨fun n id hn => ?_, fun n id hn => ?_, fun root path => ?_⟩
  · exact (hsearch n id (beq_iff_eq.mpr hn)).symm
  · show (w.forest.ids n).bind _ = none
    rw [hbuilt.ids_eq, if_neg hn]
    rfl
  · exact (Document.resolveAll_withLookup hsearch root path).symm

/-- An element `a`, whose identifier is set a second time, is put into an element `b` of the same
identifier. A document gets `a`, a document that holds `b` twice, and `b` once more. -/
def sharing : List Action :=
  [.element "a", .attr 0 "id" "y", .attr 0 "id" "x", .build 0,
    .element "b", .attr 1 "id" "x", .children 1 [.node 0], .build 1,
    .document, .children 2 [.node 1, .node 1],
    .document, .children 3 [.node 0, .draft 2, .node 1], .build 3]

/-- The outer document finds `a`, the inner one finds `b`, and `b` finds nothing although a search
from it would find `a`. -/
theorem sharing_lookups :
    ∃ w, run sharing = some w ∧
      ((w.forest.content 3).kind = .document ∧ w.forest.toDocument.elementById 3 "x" = some 0) ∧
      ((w.forest.content 2).kind = .document ∧ w.forest.toDocument.elementById 2 "x" = some 1) ∧
      ((w.forest.content 1).kind ≠ .document ∧ w.forest.toDocument.elementById 1 "x" = none ∧
        w.forest.toHierarchy.searchById 1 "x" = some 0) ∧
      ∀ root path, w.forest.toDocument.resolveAll root path =
        (w.forest.toDocument.withLookup w.forest.toHierarchy.searchById).resolveAll root path := by
  have hkinds : (run sharing).map (fun w => [3, 2, 1].map fun n => (w.forest.content n).kind) =
      some [.document, .document, .element] := by decide +kernel
  have hsearch : (run sharing).map
      (fun w => [3, 2, 1].map fun n => w.forest.toHierarchy.searchById n "x") =
        some [some 0, some 1, some 0] := by decide +kernel
  obtain ⟨w, hw⟩ : ∃ w, run sharing = some w :=
    Option.isSome_iff_exists.mp (by decide +kernel)
  simp only [hw, Option.map_some, Option.some.injEq, List.map_cons, List.map_nil,
    List.cons.injEq, and_true] at hkinds hsearch
  obtain ⟨houter, hinner, helement⟩ := hkinds
  obtain ⟨hfound, hfound', hbelow⟩ := hsearch
  obtain ⟨hdocument, hother, hresolve⟩ := lookup_eq_search_of_run hw
  have hne : (w.forest.content 1).kind ≠ .document := by simp [helement]
  exact ⟨w, hw, ⟨houter, (hdocument 3 "x" houter).trans hfound⟩,
    ⟨hinner, (hdocument 2 "x" hinner).trans hfound'⟩, ⟨hne, hother 1 "x" hne, hbelow⟩, hresolve⟩

end Workshop

end TreeSelect
