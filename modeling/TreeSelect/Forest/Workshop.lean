/-
# TreeSelect.Forest.Workshop — putting nodes together step by step

A document or an element is put together as a draft, which gets its attributes and its children one
after the other and is built when it is finished. Several drafts may be open side by side. A draft
given to another one as a child is built at that moment. A draft that was built is used up, while a
node may be given as a child as often as wished. Texts, comments and instructions are built at once.

An action that names a draft or a node that is not there cannot be performed.
-/
import TreeSelect.Forest.Basic

namespace TreeSelect

/-! ## Drafts -/

/-- A document or an element that is still being put together, its children named by `ν`. -/
structure Draft (ν : Type) where
  /-- The name of an element. A document has none. -/
  name : Option String := none
  attributes : Attributes := {}
  children : List ν := []
deriving Repr

namespace Draft

variable {ν μ : Type}

/-- What the finished node holds. -/
def content (d : Draft ν) : Content ν :=
  match d.name with
  | none => .document d.attributes d.children
  | some name => .element name d.attributes d.children

/-- The same draft with its children named in another way. -/
def map (f : ν → μ) (d : Draft ν) : Draft μ := { d with children := d.children.map f }

/-- Gives an attribute a value. -/
def setAttr (d : Draft ν) (name value : String) : Draft ν :=
  { d with attributes := d.attributes.set name value }

/-- Adds a child behind the others. -/
def addChild (d : Draft ν) (c : ν) : Draft ν := { d with children := d.children ++ [c] }

/-- Documents and elements have attributes alike. -/
@[simp] theorem attributes_content (d : Draft ν) : d.content.attributes = d.attributes := by
  unfold content
  cases d.name with
  | none => rfl
  | some name => rfl

end Draft

/-! ## Workshops -/

/-- A forest and the drafts of its next nodes. -/
structure Workshop where
  forest : Forest := default
  /-- The drafts in the order in which they were begun, with gaps where one is used up. -/
  drafts : List (Option (Draft (Fin forest.size))) := []

namespace Workshop

/-- What is given to a draft as a child. -/
inductive Part where
  /-- A node that is there already. -/
  | node (n : Nat)
  /-- A draft, to be built now. -/
  | draft (k : Nat)
deriving DecidableEq, Repr

/-- What can be done in a workshop. -/
inductive Action where
  /-- Begins a document. -/
  | document
  /-- Begins an element. -/
  | element (name : String)
  /-- Builds a text. -/
  | text (value : String)
  /-- Builds a comment. -/
  | comment (value : String)
  /-- Builds a processing instruction. -/
  | instruction (target data : String)
  /-- Sets an attribute of a draft. -/
  | attr (draft : Nat) (name value : String)
  /-- Gives children to a draft, from left to right. -/
  | children (draft : Nat) (parts : List Part)
  /-- Builds a draft. -/
  | build (draft : Nat)
deriving DecidableEq, Repr

variable (w : Workshop)

/-- Builds one more node beside the drafts. -/
def build (c : Content (Fin w.forest.size)) : Workshop where
  forest := w.forest.build c
  drafts := w.drafts.map (Option.map (Draft.map (Fin.castLE (by simp))))

/-- Begins a draft. -/
def start (d : Draft (Fin w.forest.size)) : Workshop := { w with drafts := w.drafts ++ [some d] }

/-- The draft of the given number, unless it is used up. -/
def draft? (k : Nat) : Option (Draft (Fin w.forest.size)) := w.drafts[k]?.join

/-- Leaves a draft in a new state, or uses it up. -/
def put (k : Nat) (d : Option (Draft (Fin w.forest.size))) : Workshop :=
  { w with drafts := w.drafts.set k d }

/-- Builds a draft and uses it up. The new node is the last one. -/
def finish (k : Nat) : Option Workshop :=
  (w.draft? k).map fun d => (w.put k none).build d.content

/-- The node that a part stands for, after it is built if need be. -/
def take : Part → Option (Workshop × Node)
  | .node n => some (w, n)
  | .draft k => (w.finish k).map fun w' => (w', w.forest.size)

/-- Adds a node to the children of a draft. -/
def addChild (k : Nat) (n : Node) : Option Workshop :=
  (w.draft? k).bind fun d =>
    if h : n < w.forest.size then some (w.put k (d.addChild ⟨n, h⟩)) else none

/-- Gives a part to a draft as its next child. -/
def give (k : Nat) (part : Part) : Option Workshop :=
  (w.take part).bind fun (w', n) => w'.addChild k n

/-- Performs an action. -/
def perform : Action → Option Workshop
  | .document => some (w.start {})
  | .element name => some (w.start { name := some name })
  | .text value => some (w.build (.text value))
  | .comment value => some (w.build (.comment value))
  | .instruction target data => some (w.build (.instruction target data))
  | .attr k name value => (w.draft? k).map fun d => w.put k (d.setAttr name value)
  | .children k parts => parts.foldlM (fun w part => w.give k part) w
  | .build k => w.finish k

/-- Performs one action after the other, beginning with nothing. -/
def run (actions : List Action) : Option Workshop := actions.foldlM perform {}

/-- A longer run goes on where the shorter one ended. -/
theorem run_append (before after : List Action) :
    run (before ++ after) = (run before).bind fun w => after.foldlM perform w :=
  List.foldlM_append

@[simp] theorem length_drafts_start (d : Draft (Fin w.forest.size)) :
    (w.start d).drafts.length = w.drafts.length + 1 :=
  List.length_append

@[simp] theorem length_drafts_put (k : Nat) (d : Option (Draft (Fin w.forest.size))) :
    (w.put k d).drafts.length = w.drafts.length :=
  List.length_set

@[simp] theorem length_drafts_build (c : Content (Fin w.forest.size)) :
    (w.build c).drafts.length = w.drafts.length :=
  List.length_map _

/-- A draft that is begun gets the next number. -/
theorem draft?_start (d : Draft (Fin w.forest.size)) (k : Nat) :
    (w.start d).draft? k = if k = w.drafts.length then some d else w.draft? k := by
  show (w.drafts ++ [some d])[k]?.join = if k = w.drafts.length then some d else w.drafts[k]?.join
  rcases Nat.lt_trichotomy k w.drafts.length with hk | rfl | hk
  · rw [List.getElem?_append_left hk, if_neg (Nat.ne_of_lt hk)]
  · rw [List.getElem?_concat_length, if_pos rfl, Option.join_some]
  · rw [List.getElem?_eq_none (by simpa using Nat.succ_le_of_lt hk), if_neg (Nat.ne_of_gt hk),
      List.getElem?_eq_none (Nat.le_of_lt hk)]

/-- Leaving a draft in a new state leaves the others as they are. -/
theorem draft?_put (k : Nat) (d : Option (Draft (Fin w.forest.size))) (j : Nat) :
    (w.put k d).draft? j = if j = k ∧ k < w.drafts.length then d else w.draft? j := by
  show (w.drafts.set k d)[j]?.join = if j = k ∧ k < w.drafts.length then d else w.drafts[j]?.join
  rw [List.getElem?_set]
  by_cases hj : k = j
  · subst hj
    by_cases hk : k < w.drafts.length
    · simp [hk]
    · simp [hk]
  · have hne : ¬ j = k := fun e => hj e.symm
    simp [hj, hne]

theorem size_le_build (c : Content (Fin w.forest.size)) :
    w.forest.size ≤ (w.build c).forest.size := by
  simp [build]

/-- Building a node leaves the drafts as they are. -/
theorem draft?_build (c : Content (Fin w.forest.size)) (k : Nat) :
    (w.build c).draft? k = (w.draft? k).map (Draft.map (Fin.castLE (w.size_le_build c))) := by
  show (w.drafts.map (Option.map (Draft.map _)))[k]?.join = _
  rw [List.getElem?_map, draft?]
  cases w.drafts[k]? with
  | none => rfl
  | some d => rfl

/-- An open draft has one of the numbers that were given. -/
theorem lt_of_draft?_eq_some {k : Nat} {d : Draft (Fin w.forest.size)} (h : w.draft? k = some d) :
    k < w.drafts.length :=
  (List.getElem?_eq_some_iff.1 (Option.join_eq_some_iff.1 h)).1

end Workshop

end TreeSelect
