/-
# TreeSelect.Attributes — attributes of a node

The attributes of a node are a list of names with values. A name counts where it stands first.
Setting a name that is there already replaces its value in place, so a list made by setting names
one after the other has each name once, in the order in which the names first came up.
-/

namespace TreeSelect

/-- Names with values, in order. -/
structure Attributes where
  entries : List (String × String) := []
deriving DecidableEq, Repr, Inhabited

namespace Attributes

/-- The value at the first entry of the name. -/
def get? (a : Attributes) (name : String) : Option String := a.entries.lookup name

/-- The entries with the value of the first entry of the name replaced, or with a new entry at the
end. -/
def setEntry (name value : String) : List (String × String) → List (String × String)
  | [] => [(name, value)]
  | (other, old) :: rest =>
    if other = name then (other, value) :: rest else (other, old) :: setEntry name value rest

/-- Gives an attribute a value. -/
def set (a : Attributes) (name value : String) : Attributes := ⟨setEntry name value a.entries⟩

/-- The attributes after setting names one after the other. -/
def ofList (settings : List (String × String)) : Attributes :=
  settings.foldl (fun a setting => a.set setting.1 setting.2) {}

/-- The names of the entries, in order. -/
def names (a : Attributes) : List String := a.entries.map Prod.fst

@[simp] theorem get?_empty (name : String) : get? {} name = none := rfl

/-- A look-up goes by the first entry, and on to the rest if that has another name. -/
theorem get?_cons (name value other : String) (rest : List (String × String)) :
    get? ⟨(name, value) :: rest⟩ other =
      if other = name then some value else get? ⟨rest⟩ other := by
  by_cases h : other = name
  · simp [get?, h]
  · simp [get?, List.lookup_cons, h, beq_eq_false_iff_ne.2 h]

/-- Setting a name changes what that name gives, and nothing else. -/
theorem get?_set (a : Attributes) (name value other : String) :
    (a.set name value).get? other = if other = name then some value else a.get? other := by
  obtain ⟨entries⟩ := a
  simp only [set]
  induction entries with
  | nil => simp only [setEntry, get?_cons]
  | cons entry rest ih =>
    obtain ⟨key, old⟩ := entry
    by_cases hk : key = name
    · simp only [setEntry, hk, if_true, get?_cons]
      split <;> rfl
    · simp only [setEntry, hk, if_false, get?_cons, ih]
      by_cases h : other = key
      · have hn : ¬ other = name := fun e => hk (h.symm.trans e)
        simp only [h, hk, if_true, if_false]
      · simp only [h, if_false]

/-- Setting a name that is there leaves the names as they are, and a new name comes last. -/
theorem names_set (a : Attributes) (name value : String) :
    (a.set name value).names = if name ∈ a.names then a.names else a.names ++ [name] := by
  obtain ⟨entries⟩ := a
  simp only [set, names]
  induction entries with
  | nil => rfl
  | cons entry rest ih =>
    obtain ⟨key, old⟩ := entry
    by_cases hk : key = name
    · simp only [setEntry, hk, if_true, List.map_cons, List.mem_cons, true_or]
    · have hname : ¬ name = key := fun e => hk e.symm
      simp only [setEntry, hk, hname, if_false, List.map_cons, List.mem_cons, false_or, ih,
        List.cons_append]
      exact apply_ite (key :: ·) _ _ _

end Attributes

end TreeSelect
