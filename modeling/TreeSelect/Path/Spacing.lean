/-
# TreeSelect.Path.Spacing — spacing of path text

People write blanks around the marks of a path where they like: `# id`, `a >b`, `p [ x = "1" ]`,
`w:t ( 0 )`, `a | b`. Before a path is read its text is respaced, so that each selector is one
unbroken word:

* `#` and `>` are glued to what follows and parted from what stands before;
* square brackets, `=` and `|` lose the blanks that would break the word;
* an index in round brackets is glued to its name and parted from what follows.

The respacing is a fixed sequence of passes over the text. Each pass goes from left to right once,
and what it has written is not looked at again in the same pass. A character that is not blank is
never removed, added or moved.
-/
import TreeSelect.Text.Blank
import TreeSelect.Text.Cut

namespace TreeSelect.Spacing

open TreeSelect.Text

/-! ## Blanks beside a mark -/

/-- Removes the blanks that follow an `m`. -/
def closeAfter (m : Char) (s : List Char) : List Char := go false s
where
  /-- The flag says whether an `m` has just been written. -/
  go : Bool → List Char → List Char
    | _, [] => []
    | after, c :: rest => if after && isBlank c then go true rest else c :: go (c == m) rest

/-- Removes the blanks that an `m` follows. -/
def closeBefore (m : Char) : List Char → List Char
  | [] => []
  | c :: rest =>
    let tail := closeBefore m rest
    if isBlank c && tail.head? == some m then tail else c :: tail

/-- Removes the blanks on both sides of each `m`. -/
def closeAround (m : Char) (s : List Char) : List Char := closeAfter m (closeBefore m s)

/-- Writes a space between an `m` and the inked character right before it. One step takes the two
characters together, so that in a row of marks only every second one is parted. -/
def openBefore (m : Char) : List Char → List Char
  | c :: d :: rest =>
    if isInk c && d == m then c :: ' ' :: d :: openBefore m rest else c :: openBefore m (d :: rest)
  | s => s

/-! ## Round brackets -/

/-- The group that a round bracket at the start of the text opens: what it encloses, and the text
after its closing bracket. The inner blanks are skipped; then the unbroken run that follows is
enclosed if, after blanks, a closing bracket follows it, and otherwise the part of the run before
the last closing bracket in it. -/
def group? : List Char → Option (List Char × List Char)
  | '(' :: s =>
    let body := s.dropWhile isBlank
    let run := body.takeWhile isInk
    let rest := body.dropWhile isInk
    -- Behind the run stands a blank or nothing, so a bracket found there is parted from it.
    match rest.dropWhile isBlank with
    | ')' :: after => some (run, after)
    | _ => (cutLast ')' run).map fun cut => (cut.1, cut.2 ++ rest)
  | _ => none

theorem length_lt_of_group? {s inner after : List Char} (h : group? s = some (inner, after)) :
    after.length < s.length := by
  unfold group? at h
  split at h
  · next s =>
    have hbody := (List.dropWhile_suffix isBlank (l := s)).length_le
    have hsplit := congrArg List.length
      (List.takeWhile_append_dropWhile (p := isInk) (l := s.dropWhile isBlank))
    simp only [List.length_append, List.length_cons] at hsplit ⊢
    dsimp only at h
    split at h
    · next heq =>
      obtain ⟨-, rfl⟩ : _ ∧ _ = after := by simpa using h
      have hrest := (List.dropWhile_suffix isBlank
        (l := (s.dropWhile isBlank).dropWhile isInk)).length_le
      simp only [heq, List.length_cons] at hrest
      omega
    · obtain ⟨⟨a, b⟩, hcut, ⟨⟩⟩ := Option.map_eq_some_iff.1 h
      have hrun := congrArg List.length (cutLast_eq_some_iff.1 hcut).1
      simp only [List.length_append, List.length_cons] at hrun ⊢
      omega
  · cases h

/-- Glues each round group to what stands before it, and removes the blanks just inside both of its
brackets. A bracket that opens no group stays as it is. -/
def closeRound (s : List Char) : List Char :=
  let blanks := s.takeWhile isBlank
  match _ : group? (s.dropWhile isBlank) with
  | some (inner, after) => '(' :: inner ++ ')' :: closeRound after
  | none =>
    match _ : s.dropWhile isBlank with
    | [] => blanks
    | c :: rest => blanks ++ c :: closeRound rest
termination_by s.length
decreasing_by
  · exact Nat.lt_of_lt_of_le (length_lt_of_group? ‹_›) (List.dropWhile_suffix _).length_le
  · have hs := (List.dropWhile_suffix isBlank (l := s)).length_le
    rw [‹s.dropWhile isBlank = _›] at hs
    exact hs

/-- The last closing round bracket of the unbroken run at the start of the text that still has a
character of the run after it: the text before it, that character, and the text after that. -/
def glued? : List Char → Option (List Char × Char × List Char)
  | [] => none
  | c :: rest =>
    if isBlank c then none
    else
      match glued? rest with
      | some (before, next, after) => some (c :: before, next, after)
      | none =>
        match rest with
        | next :: after => if c == ')' && isInk next then some ([], next, after) else none
        | [] => none

theorem eq_of_glued? {s before after : List Char} {next : Char}
    (h : glued? s = some (before, next, after)) : s = before ++ ')' :: next :: after := by
  induction s generalizing before with
  | nil => cases h
  | cons c rest ih =>
    unfold glued? at h
    split at h
    · cases h
    · split at h
      · next before' next' after' hrest =>
        obtain ⟨rfl, rfl, rfl⟩ : c :: before' = before ∧ next' = next ∧ after' = after := by
          simpa using h
        simp [ih hrest]
      · split at h
        · split at h
          · next hc =>
            obtain ⟨rfl, rfl, rfl⟩ : [] = before ∧ _ = next ∧ _ = after := by simpa using h
            simp only [Bool.and_eq_true, beq_iff_eq] at hc
            simp [hc.1]
          · cases h
        · cases h

/-- Writes a space between a closed round bracket and the inked character glued to it. Of the run
that follows an opening bracket only the last such place counts, and the search goes on after the
character parted from it. -/
def openAfterRound : List Char → List Char
  | [] => []
  | c :: rest =>
    match _ : if c = '(' then glued? rest else none with
    | some (before, next, after) => c :: before ++ ')' :: ' ' :: next :: openAfterRound after
    | none => c :: openAfterRound rest
termination_by s => s.length
decreasing_by
  · next h =>
    split at h
    · have := congrArg List.length (eq_of_glued? h)
      simp only [List.length_append, List.length_cons] at this ⊢
      omega
    · cases h
  · exact Nat.lt_succ_self _

/-! ## All passes -/

/-- Path text respaced so that each selector is one unbroken word. Blanks beside the leading marks
go first, and only then is a leading mark parted from what stands before it. -/
def normalize (s : List Char) : List Char :=
  s |> closeAfter '#' |> closeAfter '>'
    |> openBefore '#' |> openBefore '>'
    |> closeBefore ']' |> closeAfter '['
    |> closeAround '='
    |> closeRound |> openAfterRound
    |> closeAround '|'

/-- The words of respaced path text, one for each selector. -/
def tokens (s : List Char) : List (List Char) := words (normalize s)

end TreeSelect.Spacing
