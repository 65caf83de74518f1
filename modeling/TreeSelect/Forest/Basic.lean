/-
# TreeSelect.Forest.Basic — forests built from the leaves up

A forest grows by one node at a time. A new node takes nodes that are there already as its children,
and nothing that is there changes except that a child without a parent gets the new node as its
parent; a child that has a parent keeps it. When a document node is built, an index of the
identifiers below it is made, so that a later lookup needs no search.

Nodes are numbered in the order in which they are built.
-/
import Std.Data.HashMap
import TreeSelect.Document.Basic
import TreeSelect.Forest.Content

namespace TreeSelect

/-! ## The index of identifiers -/

/-- The first node of each identifier among some nodes. -/
def Hierarchy.indexIds (h : Hierarchy) (nodes : List Node) : Std.HashMap String Node :=
  nodes.foldl (fun ids n => (h.identifier n).elim ids fun id => ids.insertIfNew id n) ∅

/-! ## Forests -/

/-- A node of a forest. -/
structure BuiltNode where
  content : Content Node
  /-- The first node built that has this one among its children. -/
  parent : Option Node := none
  /-- For a document, the elements below it by identifier. -/
  ids : Option (Std.HashMap String Node) := none

/-- A node with the given parent, if it had none. -/
def BuiltNode.adoptedBy (b : BuiltNode) (parent : Node) : BuiltNode :=
  { b with parent := b.parent.or (some parent) }

/-- Nodes in the order in which they were built. -/
structure Forest where
  nodes : Array BuiltNode := #[]
  child_lt : ∀ {n : Nat} {b : BuiltNode}, nodes[n]? = some b →
      ∀ c : Nat, c ∈ b.content.children → c < n := by
    simp

namespace Forest

variable (f : Forest)

instance : Inhabited Forest := ⟨{}⟩

/-- The number of nodes. -/
def size : Nat := f.nodes.size

/-- What a node holds. -/
def content (n : Node) : Content Node := f.nodes[n]?.elim (.text "") BuiltNode.content

/-- The parent of a node, once it has one. -/
def parent (n : Node) : Option Node := f.nodes[n]?.bind BuiltNode.parent

/-- The index of a document node. -/
def ids (n : Node) : Option (Std.HashMap String Node) := f.nodes[n]?.bind BuiltNode.ids

/-- A forest as a hierarchy. -/
def toHierarchy : Hierarchy where
  size := f.size
  kind n := (f.content n).kind
  name n := (f.content n).name?
  parent := f.parent
  children n := (f.content n).children
  attrValue n name := (f.content n).attributes.get? name
  child_lt {n c} hc := by
    unfold content at hc
    cases hn : f.nodes[n]? with
    | none => simp [hn, Content.children] at hc
    | some b => exact f.child_lt hn c (by simpa [hn] using hc)
  lt_size {n c} hc := by
    unfold content at hc
    cases hn : f.nodes[n]? with
    | none => simp [hn, Content.children] at hc
    | some b => exact (Array.getElem?_eq_some_iff.1 hn).1

/-- A forest whose documents are asked for identifiers through their indexes. -/
def toDocument : Document where
  toHierarchy := f.toHierarchy
  elementById n id := (f.ids n).bind fun ids => ids[id]?

/-! ## Building a node -/

/-- The nodes of a forest after some of them have become the children of a new node. -/
def adopt (children : List Node) : Array BuiltNode :=
  f.nodes.mapIdx fun n b => if n ∈ children then b.adoptedBy f.size else b

/-- The index that a new node gets. -/
def newIds (c : Content Node) : Option (Std.HashMap String Node) :=
  match c with
  | .document _ children =>
    some (f.toHierarchy.indexIds (children.flatMap fun n => n :: f.toHierarchy.descendants n))
  | _ => none

/-- Builds one more node, which gets the number `f.size`. -/
def build (c : Content (Fin f.size)) : Forest where
  nodes :=
    let content := c.map Fin.val
    (f.adopt content.children).push { content, ids := f.newIds content }
  child_lt {n b} hb := by
    have hsize : (f.adopt (c.map Fin.val).children).size = f.size := by simp [adopt, size]
    rw [Array.getElem?_push, hsize] at hb
    split at hb
    · next hn =>
      subst hn
      obtain rfl := Option.some.inj hb
      intro k hk
      obtain ⟨i, -, rfl⟩ := List.mem_map.1 (by simpa using hk)
      exact i.isLt
    · simp only [adopt, Array.getElem?_mapIdx, Option.map_eq_some_iff] at hb
      obtain ⟨old, hold, rfl⟩ := hb
      have := f.child_lt hold
      split <;> exact this

@[simp] theorem size_build (c : Content (Fin f.size)) : (f.build c).size = f.size + 1 := by
  simp [build, adopt, size]

/-- The new node comes last, and the others are adopted where it lists them. -/
theorem nodes_build (c : Content (Fin f.size)) (n : Nat) :
    (f.build c).nodes[n]? =
      if n = f.size then some { content := c.map Fin.val, ids := f.newIds (c.map Fin.val) }
      else f.nodes[n]?.map fun b =>
        if n ∈ (c.map Fin.val).children then b.adoptedBy f.size else b := by
  have hsize : (f.adopt (c.map Fin.val).children).size = f.size := by simp [adopt, size]
  simp only [build, Array.getElem?_push, hsize]
  split
  · rfl
  · simp [adopt, size]

/-- Building a node leaves what the others hold as it is. -/
theorem content_build (c : Content (Fin f.size)) (n : Nat) :
    (f.build c).content n = if n = f.size then c.map Fin.val else f.content n := by
  rw [content, nodes_build]
  split
  · rfl
  · rw [content]
    cases f.nodes[n]? with
    | none => rfl
    | some b => simp only [Option.map_some, Option.elim_some]; split <;> rfl

/-- Building a node leaves the children of the others as they are. -/
theorem children_build (c : Content (Fin f.size)) (n : Nat) :
    (f.build c).toHierarchy.children n =
      if n = f.size then (c.map Fin.val).children else f.toHierarchy.children n := by
  show ((f.build c).content n).children = _
  rw [content_build]
  split
  · rfl
  · rfl

/-- A new node becomes the parent of those of its children that have none, and nothing else about
parents changes. -/
theorem parent_build (c : Content (Fin f.size)) (n : Nat) :
    (f.build c).parent n =
      if n ∈ (c.map Fin.val).children then (f.parent n).or (some f.size) else f.parent n := by
  have hlt (hc : n ∈ (c.map Fin.val).children) : n < f.nodes.size := by
    obtain ⟨i, -, rfl⟩ := List.mem_map.1 (by simpa using hc)
    exact i.isLt
  rw [parent, nodes_build, parent]
  by_cases hn : n = f.size
  · have hc : ¬ n ∈ (c.map Fin.val).children := fun hc => Nat.lt_irrefl _ (hn ▸ hlt hc)
    simp only [hn, if_true, hn ▸ hc, if_false]
    simp [size]
  · by_cases hc : n ∈ (c.map Fin.val).children
    · simp only [hn, hc, if_true, if_false, Array.getElem?_eq_getElem (hlt hc), Option.map_some,
        Option.bind_some, BuiltNode.adoptedBy]
    · simp only [hn, hc, if_false, Option.map_id']

/-- The index of a document is made when it is built, and never changed. -/
theorem ids_build (c : Content (Fin f.size)) (n : Nat) :
    (f.build c).ids n = if n = f.size then f.newIds (c.map Fin.val) else f.ids n := by
  rw [ids, nodes_build]
  split
  · rfl
  · rw [ids]
    cases f.nodes[n]? with
    | none => rfl
    | some b => simp only [Option.map_some, Option.bind_some]; split <;> rfl

/-- What is below a node stays as it is when another node is built. -/
theorem descendants_build (c : Content (Fin f.size)) {n : Nat} (hn : n ≠ f.size) :
    (f.build c).toHierarchy.descendants n = f.toHierarchy.descendants n := by
  induction n using Nat.strongRecOn with
  | ind n ih =>
    rw [Hierarchy.descendants, Hierarchy.descendants, children_build, if_neg hn, List.flatMap_def,
      List.flatMap_def]
    congr 1
    refine List.map_congr_left fun k hk => ?_
    have hsize : n < f.size := f.toHierarchy.lt_size hk
    have hlt := f.toHierarchy.child_lt hk
    rw [ih k hlt (by omega)]

end Forest

end TreeSelect
