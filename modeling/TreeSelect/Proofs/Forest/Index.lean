/-
# TreeSelect.Proofs.Forest.Index — the indexes of a built forest

A forest that was built from nothing, node by node, has an index for each of its documents and for
no other node, and the index is that of the nodes below the document (`Built.ids_eq`). A lookup in
it finds what a search would find (`Built.elementById_eq_searchById`), and so nothing but what is
below.
-/
import TreeSelect.Forest.Blueprint
import TreeSelect.Proofs.Document.Selected

namespace TreeSelect

/-! ## The index of identifiers -/

namespace Hierarchy

variable {h : Hierarchy}

/-- Adding nodes to an index only gives values to identifiers that have none yet. -/
theorem getElem?_foldl_insertIfNew (nodes : List Node) (ids : Std.HashMap String Node)
    (id : String) :
    (nodes.foldl (fun ids n => (h.identifier n).elim ids fun id => ids.insertIfNew id n) ids)[id]?
      = ids[id]?.or (nodes.find? fun n => h.identifier n == some id) := by
  induction nodes generalizing ids with
  | nil => simp
  | cons n nodes ih =>
    rw [List.foldl_cons, ih]
    cases hn : h.identifier n with
    | none => simp [hn]
    | some found =>
      rw [Option.elim_some, Std.HashMap.getElem?_insertIfNew]
      by_cases hid : found = id
      · subst hid
        cases hold : ids[found]? with
        | none =>
          have hnew : found ∉ ids := by simp [Std.HashMap.mem_iff_isSome_getElem?, hold]
          simp [hn, hnew]
        | some old =>
          have hmem : found ∈ ids := by simp [Std.HashMap.mem_iff_isSome_getElem?, hold]
          simp [hmem]
      · simp [hn, hid]

/-- An index gives the first of its nodes that has the identifier. -/
theorem getElem?_indexIds (nodes : List Node) (id : String) :
    (h.indexIds nodes)[id]? = nodes.find? fun n => h.identifier n == some id := by
  rw [indexIds, getElem?_foldl_insertIfNew]
  simp

/-- An index depends on the identifiers of its nodes only. -/
theorem indexIds_congr {h' : Hierarchy} {nodes : List Node}
    (hids : ∀ n ∈ nodes, h.identifier n = h'.identifier n) :
    h.indexIds nodes = h'.indexIds nodes := by
  unfold indexIds
  refine List.foldl_ext _ _ _ fun ids n hn => ?_
  rw [hids n hn]

end Hierarchy

/-! ## Built forests -/

namespace Forest

/-- A forest that was built from nothing, one node after the other. -/
inductive Built : Forest → Prop
  | empty : Built {}
  | build {f : Forest} (c : Content (Fin f.size)) : Built f → Built (f.build c)

variable {f : Forest}

mutual

/-- Planting a blueprint in a built forest builds one node after the other. -/
theorem Built.plant {n : Nat} {f : Forest} (h : Built f) (hn : n ≤ f.size) :
    ∀ b : Blueprint (Fin n), Built (f.plant hn b).forest
  | .ready _ => by
    rw [Forest.plant]
    exact h
  | .fresh (.document _ children) => by
    rw [Forest.plant]
    exact .build _ (h.plantAll hn children)
  | .fresh (.element _ _ children) => by
    rw [Forest.plant]
    exact .build _ (h.plantAll hn children)
  | .fresh (.text _) => by
    rw [Forest.plant]
    exact .build _ h
  | .fresh (.comment _) => by
    rw [Forest.plant]
    exact .build _ h
  | .fresh (.instruction _ _) => by
    rw [Forest.plant]
    exact .build _ h

theorem Built.plantAll {n : Nat} {f : Forest} (h : Built f) (hn : n ≤ f.size) :
    ∀ bs : List (Blueprint (Fin n)), Built (f.plantAll hn bs).forest
  | [] => by
    rw [Forest.plantAll]
    exact h
  | b :: rest => by
    rw [Forest.plantAll]
    exact (h.plant hn b).plantAll _ rest

end

/-! ## Lookups in a built forest -/

/-- Building a node leaves the identifiers of the others as they are. -/
theorem identifier_build (c : Content (Fin f.size)) {n : Nat} (hn : n ≠ f.size) :
    (f.build c).toHierarchy.identifier n = f.toHierarchy.identifier n := by
  simp [Hierarchy.identifier, Hierarchy.isElement, toHierarchy, content_build, hn]

/-- What is below a new node. -/
theorem descendants_build_size (c : Content (Fin f.size)) :
    (f.build c).toHierarchy.descendants f.size =
      (c.map Fin.val).children.flatMap fun n => n :: f.toHierarchy.descendants n := by
  rw [Hierarchy.descendants, children_build, if_pos rfl]
  refine List.flatMap_congr fun n hn => ?_
  obtain ⟨i, -, rfl⟩ := List.mem_map.mp (by simpa using hn)
  rw [f.descendants_build c (Nat.ne_of_lt i.isLt)]

/-- What is below a node was built before it. -/
theorem lt_size_of_mem_descendants {n m : Nat} (hm : m ∈ f.toHierarchy.descendants n) :
    m < f.size := by
  obtain ⟨k, hk, -⟩ := f.toHierarchy.mem_descendants_iff.mp hm
  exact Nat.lt_trans (f.toHierarchy.lt_of_mem_descendants hm) (f.toHierarchy.lt_size hk)

/-- Building a node leaves the index of what is below another node as it is. -/
theorem indexIds_build (c : Content (Fin f.size)) {n : Nat} (hn : n ≠ f.size) :
    (f.build c).toHierarchy.indexIds ((f.build c).toHierarchy.descendants n) =
      f.toHierarchy.indexIds (f.toHierarchy.descendants n) := by
  rw [f.descendants_build c hn]
  refine Hierarchy.indexIds_congr fun m hm => ?_
  exact identifier_build c (Nat.ne_of_lt (lt_size_of_mem_descendants hm))

/-- A new document gets the index of what is below it, and no other node gets one. -/
theorem newIds_eq (c : Content (Fin f.size)) :
    f.newIds (c.map Fin.val) =
      if c.kind = .document then
        some ((f.build c).toHierarchy.indexIds ((f.build c).toHierarchy.descendants f.size))
      else none := by
  have hindex : f.toHierarchy.indexIds
        ((c.map Fin.val).children.flatMap fun n => n :: f.toHierarchy.descendants n) =
      (f.build c).toHierarchy.indexIds ((f.build c).toHierarchy.descendants f.size) := by
    rw [descendants_build_size]
    refine Hierarchy.indexIds_congr fun m hm => (identifier_build c (Nat.ne_of_lt ?_)).symm
    obtain ⟨n, hn, hm⟩ := List.mem_flatMap.mp hm
    rcases List.mem_cons.mp hm with rfl | hm
    · obtain ⟨i, -, rfl⟩ := List.mem_map.mp (by simpa using hn)
      exact i.isLt
    · exact lt_size_of_mem_descendants hm
  rw [← hindex]
  cases c <;> rfl

/-- The documents of a built forest have the index of what is below them, and no other node has
one. -/
theorem Built.ids_eq (h : Built f) (n : Node) :
    f.ids n =
      if (f.content n).kind = .document then
        some (f.toHierarchy.indexIds (f.toHierarchy.descendants n))
      else none := by
  induction h with
  | empty => rfl
  | @build f c _ ih =>
    rw [ids_build, content_build]
    by_cases hn : n = f.size
    · subst hn
      rw [if_pos rfl, if_pos rfl, Content.kind_map, newIds_eq]
    · rw [if_neg hn, if_neg hn, indexIds_build c hn, ih]

/-- A lookup in a document of a built forest finds what a search would find. -/
theorem Built.elementById_eq_searchById (h : Built f) {n : Node}
    (hn : f.toDocument.supportsIdLookup n = true) (id : String) :
    f.toDocument.elementById n id = f.toDocument.searchById n id := by
  have hkind : (f.content n).kind = .document := beq_iff_eq.mp hn
  show (f.ids n).bind (fun ids => ids[id]?) = f.toHierarchy.searchById n id
  rw [h.ids_eq, if_pos hkind, Option.bind_some, Hierarchy.getElem?_indexIds]
  rfl

/-- Lookups in a built forest find nothing but what is below the document. -/
theorem Built.looksBelow (h : Built f) : f.toDocument.LooksBelow := by
  intro n m id hn hfound
  rw [h.elementById_eq_searchById hn] at hfound
  exact List.mem_of_find?_eq_some hfound

end Forest

end TreeSelect
