/-
# TreeSelect.Proofs.Forest.Settings — attributes that were set on drafts

Attributes are set on a draft one after the other, with other work between the settings. What counts
in the end is the list of the settings of this one draft, and of each name the last of them
(`Attributes.get?_ofList`). The entries have each name once, in the order in which the names first
came up (`Attributes.names_ofList`).

A run is accounted for by its actions alone: they tell which draft each node was built from and what
was set on it. An action keeps the account (`Accounted.perform`), so it holds after a whole run. A
draft that is built is used up, and no action names it again; this is why the node keeps what was
set before, and why all settings of the run count for it (`Workshop.attributes_of_run`).
-/
import Mathlib.Data.List.Induction
import TreeSelect.Proofs.Forest.Workshop

namespace TreeSelect

/-! ## Names set one after the other -/

namespace Attributes

theorem ofList_append_singleton (settings : List (String × String)) (setting : String × String) :
    ofList (settings ++ [setting]) = (ofList settings).set setting.1 setting.2 := by
  simp only [ofList, List.foldl_append, List.foldl_cons, List.foldl_nil]

/-- Setting a name keeps the names apart. -/
theorem nodup_names_set {a : Attributes} (h : a.names.Nodup) (name value : String) :
    (a.set name value).names.Nodup := by
  rw [names_set]
  split
  · exact h
  · next hname =>
    rw [List.nodup_append]
    refine ⟨h, List.nodup_singleton name, ?_⟩
    intro other hother new hnew heq
    obtain rfl := List.mem_singleton.mp hnew
    exact hname (heq ▸ hother)

theorem nodup_names_ofList (settings : List (String × String)) :
    (ofList settings).names.Nodup := by
  induction settings using List.reverseRecOn with
  | nil => exact List.nodup_nil
  | append_singleton settings setting ih =>
    rw [ofList_append_singleton]
    exact nodup_names_set ih _ _

/-- The names of the entries are those that were set, in the order in which they first came up. -/
theorem names_ofList (settings : List (String × String)) :
    (ofList settings).names = (settings.map Prod.fst).eraseDups := by
  induction settings using List.reverseRecOn with
  | nil => rfl
  | append_singleton settings setting ih =>
    rw [ofList_append_singleton, names_set, ih, List.map_append, List.eraseDups_append]
    by_cases hname : setting.1 ∈ settings.map Prod.fst
    · simp [hname, List.removeAll]
    · simp [hname, List.removeAll, List.eraseDups_cons]

/-- A name has the value of its last setting. -/
theorem get?_ofList (settings : List (String × String)) (name : String) :
    (ofList settings).get? name =
      ((settings.filter fun setting => setting.1 = name).getLast?).map Prod.snd := by
  induction settings using List.reverseRecOn with
  | nil => rfl
  | append_singleton settings setting ih =>
    rw [ofList_append_singleton, get?_set, ih, List.filter_append]
    by_cases hname : setting.1 = name
    · simp [hname]
    · have hne : ¬ name = setting.1 := fun e => hname e.symm
      simp [hname, hne]

end Attributes

/-! ## What the actions of a run tell -/

namespace Workshop

/-- What an action sets on the draft of the given number. -/
def Action.settings (k : Nat) : Action → List (String × String)
  | .attr draft name value => if draft = k then [(name, value)] else []
  | _ => []

/-- What is set on the draft of the given number, from the first setting to the last. -/
def settings (k : Nat) (actions : List Action) : List (String × String) :=
  actions.flatMap (Action.settings k)

/-- The draft that is built when the part is given away. -/
def Part.origins : Part → List (Option Nat)
  | .node _ => []
  | .draft k => [some k]

/-- For each node that an action builds, in order, the draft it is built from, if any. -/
def Action.origins : Action → List (Option Nat)
  | .document | .element _ | .attr .. => []
  | .text _ | .comment _ | .instruction .. => [none]
  | .children _ parts => parts.flatMap Part.origins
  | .build k => [some k]

/-- For each node that is built, in order, the draft it is built from, if any. -/
def origins (actions : List Action) : List (Option Nat) := actions.flatMap Action.origins

/-- The attributes of a node of the given origin. -/
def attributesFrom (settings : Nat → List (String × String)) (origin : Option Nat) : Attributes :=
  origin.elim {} fun k => .ofList (settings k)

/-- Each draft and each node has the attributes that were set on it, when drafts got the given
settings and nodes are of the given origins. -/
structure Accounted (settings : Nat → List (String × String)) (origins : List (Option Nat))
    (w : Workshop) : Prop where
  length_eq : origins.length = w.forest.size
  node_eq : ∀ {n : Nat} {origin : Option Nat}, origins[n]? = some origin →
    (w.forest.content n).attributes = attributesFrom settings origin
  draft_eq : ∀ {k : Nat} {d : Draft (Fin w.forest.size)}, w.draft? k = some d →
    d.attributes = .ofList (settings k)
  /-- A draft that a node was built from is used up. -/
  used : ∀ {k : Nat}, some k ∈ origins → k < w.drafts.length ∧ w.draft? k = none
  /-- Nothing is set before the draft is begun. -/
  fresh : ∀ {k : Nat}, w.drafts.length ≤ k → settings k = []

namespace Accounted

variable {w w' : Workshop} {settings settings' : Nat → List (String × String)}
  {origins : List (Option Nat)}

/-- No node was built from a draft that is open. -/
theorem ne_of_open (h : Accounted settings origins w) {j k : Nat} {d : Draft (Fin w.forest.size)}
    (hj : some j ∈ origins) (hopen : w.draft? k = some d) : j ≠ k := by
  rintro rfl
  have hused := (h.used hj).2
  rw [hopen] at hused
  cases hused

/-- A draft that is begun has no attributes yet. -/
theorem start (h : Accounted settings origins w) {d : Draft (Fin w.forest.size)}
    (hd : d.attributes = {}) : Accounted settings origins (w.start d) where
  length_eq := h.length_eq
  node_eq := h.node_eq
  draft_eq {k e} he := by
    rw [draft?_start] at he
    split at he
    · next hk =>
      obtain rfl := Option.some.inj he
      rw [hd, h.fresh (Nat.le_of_eq hk.symm)]
      rfl
    · exact h.draft_eq he
  used {k} hk := by
    obtain ⟨hlt, hnone⟩ := h.used hk
    refine ⟨?_, ?_⟩
    · rw [length_drafts_start]
      exact Nat.lt_succ_of_lt hlt
    · rw [draft?_start, if_neg (Nat.ne_of_lt hlt)]
      exact hnone
  fresh {k} hk := by
    rw [length_drafts_start] at hk
    exact h.fresh (Nat.le_of_succ_le hk)

/-- An open draft may be left in another state, if what was set on it is what it then has, or used
up. -/
theorem put (h : Accounted settings origins w) {k : Nat} {d : Draft (Fin w.forest.size)}
    (hopen : w.draft? k = some d) {next : Option (Draft (Fin w.forest.size))}
    (hnext : ∀ e, next = some e → e.attributes = .ofList (settings' k))
    (hothers : ∀ j, j ≠ k → settings' j = settings j) :
    Accounted settings' origins (w.put k next) where
  length_eq := h.length_eq
  node_eq {n origin} hn := by
    -- No node was built from the draft yet, so none of them has anything of what is set now.
    have hkeep : attributesFrom settings' origin = attributesFrom settings origin := by
      cases origin with
      | none => rfl
      | some j =>
        show Attributes.ofList (settings' j) = .ofList (settings j)
        rw [hothers j (h.ne_of_open (List.mem_of_getElem? hn) hopen)]
    rw [hkeep]
    exact h.node_eq hn
  draft_eq {j e} he := by
    rw [draft?_put] at he
    split at he
    · next hj =>
      obtain ⟨rfl, -⟩ := hj
      exact hnext e he
    · next hj =>
      have hne : j ≠ k := fun hjk => hj ⟨hjk, lt_of_draft?_eq_some w hopen⟩
      rw [hothers j hne]
      exact h.draft_eq he
  used {j} hj := by
    obtain ⟨hlt, hnone⟩ := h.used hj
    refine ⟨?_, ?_⟩
    · rw [length_drafts_put]
      exact hlt
    · rw [draft?_put, if_neg fun hjk => h.ne_of_open hj hopen hjk.1]
      exact hnone
  fresh {j} hj := by
    rw [length_drafts_put] at hj
    have hne : j ≠ k := fun hjk => Nat.not_le_of_lt (lt_of_draft?_eq_some w hopen) (hjk ▸ hj)
    rw [hothers j hne]
    exact h.fresh hj

/-- A node that is built has what was set on the draft it is built from. -/
theorem build (h : Accounted settings origins w) {c : Content (Fin w.forest.size)}
    {origin : Option Nat} (hc : c.attributes = attributesFrom settings origin)
    (hused : ∀ k, origin = some k → k < w.drafts.length ∧ w.draft? k = none) :
    Accounted settings (origins ++ [origin]) (w.build c) where
  length_eq := by
    have hsize : (w.build c).forest.size = w.forest.size + 1 := Forest.size_build _ c
    rw [List.length_append, List.length_singleton, hsize, h.length_eq]
  node_eq {n next} hn := by
    show ((w.forest.build c).content n).attributes = _
    rw [Forest.content_build]
    split
    · next hsize =>
      rw [hsize, ← h.length_eq, List.getElem?_concat_length] at hn
      obtain rfl := Option.some.inj hn
      rw [Content.attributes_map, hc]
    · next hsize =>
      have hlt : n < origins.length := by
        have hle := (List.getElem?_eq_some_iff.mp hn).1
        rw [List.length_append, List.length_singleton] at hle
        rw [← h.length_eq] at hsize
        omega
      rw [List.getElem?_append_left hlt] at hn
      exact h.node_eq hn
  draft_eq {k d} hd := by
    rw [draft?_build] at hd
    obtain ⟨e, he, rfl⟩ := Option.map_eq_some_iff.mp hd
    exact h.draft_eq he
  used {k} hk := by
    have hbefore : k < w.drafts.length ∧ w.draft? k = none := by
      rcases List.mem_append.mp hk with hk | hk
      · exact h.used hk
      · exact hused k (List.mem_singleton.mp hk).symm
    refine ⟨?_, ?_⟩
    · rw [length_drafts_build]
      exact hbefore.1
    · rw [draft?_build, hbefore.2, Option.map_none]
  fresh {k} hk := by
    rw [length_drafts_build] at hk
    exact h.fresh hk

/-- A node is built from a draft, which is used up. -/
theorem finish (h : Accounted settings origins w) {k : Nat} (hfinish : w.finish k = some w') :
    Accounted settings (origins ++ [some k]) w' := by
  obtain ⟨d, hd, rfl⟩ := Option.map_eq_some_iff.mp hfinish
  have hput : Accounted settings origins (w.put k none) := h.put hd (by simp) fun _ _ => rfl
  refine hput.build (d.attributes_content.trans (h.draft_eq hd)) ?_
  intro j hj
  obtain rfl := Option.some.inj hj
  have hlt := lt_of_draft?_eq_some w hd
  refine ⟨?_, ?_⟩
  · rw [length_drafts_put]
    exact hlt
  · rw [draft?_put, if_pos ⟨rfl, hlt⟩]
    rfl

/-- Giving a part away builds its draft, and sets nothing. -/
theorem give (h : Accounted settings origins w) {k : Nat} {part : Part}
    (hgive : w.give k part = some w') : Accounted settings (origins ++ part.origins) w' := by
  obtain ⟨⟨taken, n⟩, htake, hadd⟩ := Option.bind_eq_some_iff.mp hgive
  have htaken : Accounted settings (origins ++ part.origins) taken := by
    cases part with
    | node m =>
      obtain ⟨rfl, -⟩ := Prod.mk.inj (Option.some.inj htake)
      rw [Part.origins, List.append_nil]
      exact h
    | draft j =>
      obtain ⟨built, hfinish, heq⟩ := Option.map_eq_some_iff.mp htake
      obtain ⟨rfl, -⟩ := Prod.mk.inj heq
      exact h.finish hfinish
  obtain ⟨d, hd, hput⟩ := Option.bind_eq_some_iff.mp hadd
  split at hput
  · obtain rfl := Option.some.inj hput
    refine htaken.put hd ?_ fun _ _ => rfl
    intro e he
    obtain rfl := Option.some.inj he
    show d.attributes = .ofList (settings k)
    exact htaken.draft_eq hd
  · cases hput

/-- Setting an attribute of an open draft adds to its settings. -/
theorem setAttr (h : Accounted settings origins w) {k : Nat} {d : Draft (Fin w.forest.size)}
    (hd : w.draft? k = some d) (name value : String) :
    Accounted (fun j => settings j ++ (Action.attr k name value).settings j) origins
      (w.put k (d.setAttr name value)) := by
  refine h.put hd ?_ ?_
  · intro e he
    obtain rfl := Option.some.inj he
    simp only [Action.settings, if_true, Attributes.ofList_append_singleton, Draft.setAttr,
      h.draft_eq hd]
  · intro j hj
    rw [Action.settings, if_neg hj.symm, List.append_nil]

/-- Giving several parts away builds their drafts from left to right. -/
theorem giveAll (h : Accounted settings origins w) {k : Nat} {parts : List Part}
    (hgive : parts.foldlM (fun w part => w.give k part) w = some w') :
    Accounted settings (origins ++ parts.flatMap Part.origins) w' := by
  induction parts generalizing w origins with
  | nil =>
    obtain rfl := Option.some.inj hgive
    rw [List.flatMap_nil, List.append_nil]
    exact h
  | cons part rest ih =>
    obtain ⟨next, hpart, hrest⟩ := Option.bind_eq_some_iff.mp hgive
    rw [List.flatMap_cons, ← List.append_assoc]
    exact ih (h.give hpart) hrest

/-- An action keeps the account, with what it sets and what it builds added. -/
theorem perform (h : Accounted settings origins w) {a : Action} (ha : w.perform a = some w') :
    Accounted (fun k => settings k ++ a.settings k) (origins ++ a.origins) w' := by
  cases a with
  | document | element =>
    obtain rfl := Option.some.inj ha
    simp only [Action.settings, Action.origins, List.append_nil]
    exact h.start rfl
  | text | comment | instruction =>
    obtain rfl := Option.some.inj ha
    simp only [Action.settings, Action.origins, List.append_nil]
    exact h.build rfl (by simp)
  | attr k name value =>
    obtain ⟨d, hd, rfl⟩ := Option.map_eq_some_iff.mp ha
    rw [Action.origins, List.append_nil]
    exact h.setAttr hd name value
  | children k parts =>
    simp only [Action.settings, Action.origins, List.append_nil]
    exact h.giveAll ha
  | build k =>
    simp only [Action.settings, Action.origins, List.append_nil]
    exact h.finish ha

/-- One action after the other keeps the account. -/
theorem performAll (h : Accounted settings origins w) {actions : List Action}
    (hrun : actions.foldlM Workshop.perform w = some w') :
    Accounted (fun k => settings k ++ Workshop.settings k actions)
      (origins ++ Workshop.origins actions) w' := by
  induction actions generalizing w settings origins with
  | nil =>
    obtain rfl := Option.some.inj hrun
    simp only [Workshop.settings, Workshop.origins, List.flatMap_nil, List.append_nil]
    exact h
  | cons a rest ih =>
    obtain ⟨next, ha, hrest⟩ := Option.bind_eq_some_iff.mp hrun
    simp only [Workshop.settings, Workshop.origins, List.flatMap_cons, ← List.append_assoc]
    exact ih (h.perform ha) hrest

theorem empty : Accounted (fun _ => []) [] {} where
  length_eq := rfl
  node_eq hn := by cases hn
  draft_eq hd := by cases hd
  used hk := by cases hk
  fresh _ := rfl

end Accounted

/-! ## Whole runs -/

variable {w w' : Workshop}

/-- A run is accounted for by its actions. -/
theorem accounted_of_run {actions : List Action} (h : run actions = some w) :
    Accounted (fun k => settings k actions) (origins actions) w := by
  simpa using Accounted.empty.performAll h

/-- On an open draft attributes can be set as often as wished, and it stays open. -/
theorem exists_performAll_attr {k : Nat} (hopen : (w.draft? k).isSome)
    (pairs : List (String × String)) :
    ∃ w', (pairs.map fun pair => Action.attr k pair.1 pair.2).foldlM perform w = some w' ∧
      (w'.draft? k).isSome := by
  induction pairs generalizing w with
  | nil => exact ⟨w, rfl, hopen⟩
  | cons pair rest ih =>
    obtain ⟨d, hd⟩ := Option.isSome_iff_exists.mp hopen
    have hset : w.perform (.attr k pair.1 pair.2) = some (w.put k (d.setAttr pair.1 pair.2)) := by
      rw [perform, hd, Option.map_some]
    have hstill : ((w.put k (d.setAttr pair.1 pair.2)).draft? k).isSome := by
      rw [draft?_put, if_pos ⟨rfl, lt_of_draft?_eq_some w hd⟩]
      rfl
    obtain ⟨w', hrest, hw'⟩ := ih hstill
    refine ⟨w', ?_, hw'⟩
    rw [List.map_cons, List.foldlM_cons, hset]
    exact hrest

/-- In a run of actions, with any work between the settings of a draft, the node built from the
draft has an entry for each name that was set on it and for no other. The names of the entries are
pairwise different and stand in the order in which they first came up, and an attribute of the node
is what the name was last set to, or absent if it never was. The actions tell which nodes are built
from which drafts; whatever is to be set on an open draft can be set, and the node built then. -/
theorem attributes_of_run {actions : List Action} (h : run actions = some w) :
    (origins actions).length = w.forest.size ∧
      (∀ n k, (origins actions)[n]? = some (some k) →
        (w.forest.content n).attributes.names = ((settings k actions).map Prod.fst).eraseDups ∧
        (w.forest.content n).attributes.names.Nodup ∧
        ∀ name, w.forest.toHierarchy.attrValue n name =
          (((settings k actions).filter fun setting => setting.1 = name).getLast?).map Prod.snd) ∧
      ∀ k, (w.draft? k).isSome → ∀ pairs : List (String × String), ∃ w',
        run (actions ++ pairs.map (fun pair => .attr k pair.1 pair.2) ++ [.build k]) = some w' := by
  have haccount := accounted_of_run h
  refine ⟨haccount.length_eq, ?_, ?_⟩
  · intro n k hn
    have hattributes : (w.forest.content n).attributes = .ofList (settings k actions) :=
      haccount.node_eq hn
    refine ⟨?_, ?_, ?_⟩
    · rw [hattributes, Attributes.names_ofList]
    · rw [hattributes]
      exact Attributes.nodup_names_ofList _
    · intro name
      show (w.forest.content n).attributes.get? name = _
      rw [hattributes, Attributes.get?_ofList]
  · intro k hopen pairs
    obtain ⟨set, hset, hstill⟩ := exists_performAll_attr hopen pairs
    obtain ⟨d, hd⟩ := Option.isSome_iff_exists.mp hstill
    refine ⟨(set.put k none).build d.content, ?_⟩
    rw [run_append, run_append, h, Option.bind_some, hset, Option.bind_some]
    show (set.finish k).bind some = _
    rw [finish, hd, Option.map_some, Option.bind_some]

/-- Two drafts are worked on side by side, and on each the name `id` is set twice. The first one is
built where it is given to the second one, after a text; a third draft stays open. -/
def relabelling : List Action :=
  [.element "a", .attr 0 "id" "y", .document, .attr 1 "id" "d", .attr 0 "lang" "en",
    .attr 0 "id" "x", .text "t", .children 1 [.node 0, .draft 0], .attr 1 "id" "e", .build 1,
    .element "b"]

/-- The element has the later identifier, in the place of the earlier one, and nothing of what was
set on the document. -/
theorem relabelling_attributes :
    ∃ w, run relabelling = some w ∧ w.forest.size = 3 ∧
      (origins relabelling)[1]? = some (some 0) ∧ (origins relabelling)[2]? = some (some 1) ∧
      (w.forest.content 1).attributes.names = ["id", "lang"] ∧
      (w.forest.content 1).attributes.names.Nodup ∧
      w.forest.toHierarchy.attrValue 1 "id" = some "x" ∧
      w.forest.toHierarchy.attrValue 1 "lang" = some "en" ∧
      w.forest.toHierarchy.attrValue 1 "title" = none ∧
      w.forest.toHierarchy.attrValue 2 "id" = some "e" ∧
      (w.draft? 2).isSome ∧
      ∃ w', run (relabelling ++ [.attr 2 "id" "f", .attr 2 "id" "g"] ++ [.build 2]) = some w' := by
  have hdraft : (run relabelling).map (fun w => (w.draft? 2).isSome) = some true := by
    decide +kernel
  obtain ⟨w, hw⟩ : ∃ w, run relabelling = some w :=
    Option.isSome_iff_exists.mp (by decide +kernel)
  simp only [hw, Option.map_some, Option.some.injEq] at hdraft
  obtain ⟨hsize, hnodes, hopen⟩ := attributes_of_run hw
  obtain ⟨hnames, hnodup, helement⟩ := hnodes 1 0 rfl
  obtain ⟨-, -, hdocument⟩ := hnodes 2 1 rfl
  exact ⟨w, hw, hsize.symm, rfl, rfl, hnames, hnodup, helement "id", helement "lang",
    helement "title", hdocument "id", hdraft, hopen 2 hdraft [("id", "f"), ("id", "g")]⟩

end Workshop

end TreeSelect
