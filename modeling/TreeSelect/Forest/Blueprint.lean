/-
# TreeSelect.Forest.Blueprint — blueprints

A blueprint describes a whole subtree before any of it is built: what each new node holds, nested
as in the document, with nodes of a forest among them where they are to be used again. Planting it
builds the new nodes from the leaves up, the children of a node from left to right and then the node
itself.
-/
import TreeSelect.Forest.Basic

namespace TreeSelect

/-- A subtree still to be built. Nodes that are there already are named by `ν`. -/
inductive Blueprint (ν : Type) where
  /-- A node that is there already. -/
  | ready (node : ν)
  /-- A new node. -/
  | fresh (content : Content (Blueprint ν))

namespace Forest

/-- A forest that has grown out of `f`, with something said about its nodes. -/
structure Growth (f : Forest) (α : Nat → Type) where
  forest : Forest
  size_le : f.size ≤ forest.size
  value : α forest.size

/-- No growth yet, and no nodes to speak of. -/
def Growth.start (f : Forest) : Growth f fun size => List (Fin size) := ⟨f, Nat.le_refl _, []⟩

/-- Builds one node on top of some that were built for it. -/
def Growth.build {f : Forest} {α : Nat → Type} (g : Growth f α)
    (content : Content (Fin g.forest.size)) : Growth f Fin where
  forest := g.forest.build content
  size_le := Nat.le_trans g.size_le (by simp)
  value := ⟨g.forest.size, by simp⟩

variable {n : Nat}

mutual

/-- Builds the new nodes of a blueprint and gives its topmost node. -/
def plant (f : Forest) (hn : n ≤ f.size) : Blueprint (Fin n) → Growth f Fin
  | .ready node => ⟨f, Nat.le_refl _, node.castLE hn⟩
  | .fresh (.document attributes children) =>
    let g := f.plantAll hn children
    g.build (.document attributes g.value)
  | .fresh (.element name attributes children) =>
    let g := f.plantAll hn children
    g.build (.element name attributes g.value)
  | .fresh (.text value) => (Growth.start f).build (.text value)
  | .fresh (.comment value) => (Growth.start f).build (.comment value)
  | .fresh (.instruction target data) => (Growth.start f).build (.instruction target data)

/-- Builds the new nodes of several blueprints, one after the other, and gives their topmost
nodes. -/
def plantAll (f : Forest) (hn : n ≤ f.size) :
    List (Blueprint (Fin n)) → Growth f fun size => List (Fin size)
  | [] => Growth.start f
  | b :: rest =>
    let first := f.plant hn b
    let others := first.forest.plantAll (Nat.le_trans hn first.size_le) rest
    ⟨others.forest, Nat.le_trans first.size_le others.size_le,
      first.value.castLE others.size_le :: others.value⟩

end

end Forest

end TreeSelect
