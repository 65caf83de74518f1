/-
# TreeSelect.Path.Spacing.Ink — respacing keeps the ink

The ink of a text is what is left of it without its blanks. Each pass keeps the ink of its text, and
so does their sequence: `ink_normalize`. What respacing changes is only where blanks stand.
-/
import TreeSelect.Path.Spacing

namespace TreeSelect.Spacing

open TreeSelect.Text

/-! ## The ink of a text -/

/-- A text without its blanks. -/
def ink (s : List Char) : List Char := s.filter isInk

@[simp] theorem ink_nil : ink [] = [] := rfl
@[simp] theorem ink_append (s t : List Char) : ink (s ++ t) = ink s ++ ink t :=
  List.filter_append ..
theorem ink_cons (c : Char) (s : List Char) :
    ink (c :: s) = if isBlank c then ink s else c :: ink s := by
  cases h : isBlank c <;> simp [ink, h]

theorem ink_cons_of_ink {c : Char} (h : isBlank c = false) (s : List Char) :
    ink (c :: s) = c :: ink s := by
  simp [ink_cons, h]

@[simp] theorem ink_takeWhile (s : List Char) : ink (s.takeWhile isBlank) = [] := by
  have h := List.all_eq_true.1 (List.all_takeWhile (p := isBlank) (l := s))
  simpa [ink] using h

@[simp] theorem ink_dropWhile (s : List Char) : ink (s.dropWhile isBlank) = ink s := by
  induction s with
  | nil => rfl
  | cons c rest ih => cases h : isBlank c <;> simp [ink_cons, h, ih]

/-! ## The passes -/

theorem ink_closeAfter (m : Char) (s : List Char) : ink (closeAfter m s) = ink s := by
  suffices h : ∀ b, ink (closeAfter.go m b s) = ink s from h false
  induction s with
  | nil => intro b; rfl
  | cons c rest ih =>
    intro b
    rw [closeAfter.go]
    split
    · next h => simp_all [ink_cons]
    · simp [ink_cons, ih]

theorem ink_closeBefore (m : Char) (s : List Char) : ink (closeBefore m s) = ink s := by
  induction s with
  | nil => rfl
  | cons c rest ih =>
    simp only [closeBefore]
    split
    · next h => simp_all [ink_cons]
    · simp [ink_cons, ih]

theorem ink_openBefore (m : Char) (s : List Char) : ink (openBefore m s) = ink s := by
  fun_induction openBefore m s with
  | case1 c d rest h ih => simp [ink_cons, ih]
  | case2 c d rest h ih => simp only [ink_cons, ih]
  | case3 => rfl

theorem ink_group? {s inner after : List Char} (h : group? s = some (inner, after)) :
    ink s = '(' :: ink inner ++ ')' :: ink after := by
  unfold group? at h
  split at h
  · next s =>
    dsimp only at h
    have hs : ink s = ink ((s.dropWhile isBlank).takeWhile isInk)
        ++ ink ((s.dropWhile isBlank).dropWhile isInk) := by
      rw [← ink_append, List.takeWhile_append_dropWhile, ink_dropWhile]
    rw [ink_cons_of_ink (by decide), hs]
    split at h
    · next heq =>
      obtain ⟨rfl, rfl⟩ : _ = inner ∧ _ = after := by simpa using h
      rw [← ink_dropWhile ((s.dropWhile isBlank).dropWhile isInk), heq,
        ink_cons_of_ink (by decide), List.cons_append]
    · obtain ⟨⟨a, b⟩, hcut, ⟨⟩⟩ := Option.map_eq_some_iff.1 h
      rw [(cutLast_eq_some_iff.1 hcut).1]
      simp [ink_cons_of_ink (c := ')') (by decide)]
  · cases h

theorem ink_closeRound (s : List Char) : ink (closeRound s) = ink s := by
  fun_induction closeRound s with
  | case1 s inner after h ih =>
    rw [← ink_dropWhile s, ink_group? h]
    simp [ink_cons_of_ink (c := '(') (by decide), ink_cons_of_ink (c := ')') (by decide), ih]
  | case2 s blanks h hs => rw [← ink_dropWhile s, hs]; simp [blanks]
  | case3 s blanks h c rest hs ih =>
    rw [← ink_dropWhile s, hs, ink_append, ink_takeWhile, ink_cons, ink_cons, ih, List.nil_append]

theorem ink_openAfterRound (s : List Char) : ink (openAfterRound s) = ink s := by
  fun_induction openAfterRound s with
  | case1 => rfl
  | case2 c rest before next after h ih =>
    split at h
    · rw [eq_of_glued? h]
      simp [ink_cons, ih]
    · cases h
  | case3 c rest h ih => simp [ink_cons, ih]

/-- Respacing neither adds nor removes nor moves a character that is not blank. -/
theorem ink_normalize (s : List Char) : ink (normalize s) = ink s := by
  simp only [normalize, closeAround, ink_closeAfter, ink_closeBefore, ink_openBefore,
    ink_closeRound, ink_openAfterRound]

end TreeSelect.Spacing
