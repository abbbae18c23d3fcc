import Mathlib.Data.List.TakeWhile

namespace Sloader.Data

/-! Texts of words with gaps between them, over any alphabet some letters of
which are spaces. -/

variable {α : Type} {space : α → Bool} {text gap word rest : List α}

def IsGap (space : α → Bool) (gap : List α) : Prop :=
  ∀ letter ∈ gap, space letter = true

def IsWord (space : α → Bool) (word : List α) : Prop :=
  word ≠ [] ∧ ∀ letter ∈ word, space letter = false

/-- What a word can be followed by. -/
def Bounds (space : α → Bool) (rest : List α) : Prop :=
  ∀ letter ∈ rest.head?, space letter = true

theorem IsGap.bounds (isGap : IsGap space gap) : Bounds space gap :=
  fun letter first => isGap letter (List.mem_of_head? first)

theorem IsGap.bounds_append (isGap : IsGap space gap) (nonempty : gap ≠ []) : Bounds space (gap ++ rest) := by
  cases gap with
  | nil => contradiction
  | cons letter others =>
      intro first isFirst
      exact isGap.bounds first isFirst

theorem dropWhile_gap (isGap : IsGap space gap) : (gap ++ rest).dropWhile space = rest.dropWhile space :=
  List.dropWhile_append_of_pos isGap

theorem dropWhile_eq_nil : text.dropWhile space = [] ↔ IsGap space text :=
  List.dropWhile_eq_nil_iff

theorem IsWord.dropWhile (isWord : IsWord space word) : (word ++ rest).dropWhile space = word ++ rest := by
  obtain ⟨nonempty, letters⟩ := isWord
  cases word with
  | nil => contradiction
  | cons letter others =>
      rw [List.cons_append, List.dropWhile_cons_of_neg]
      simp [letters letter List.mem_cons_self]

theorem Bounds.dropWhile (bounds : Bounds space rest) : rest.dropWhile (! space ·) = rest := by
  cases rest with
  | nil => rfl
  | cons letter others =>
      rw [List.dropWhile_cons_of_neg]
      simp [bounds letter rfl]

theorem Bounds.takeWhile (bounds : Bounds space rest) : rest.takeWhile (! space ·) = [] := by
  cases rest with
  | nil => rfl
  | cons letter others =>
      rw [List.takeWhile_cons_of_neg]
      simp [bounds letter rfl]

theorem IsWord.takeWhile_append (isWord : IsWord space word) (bounds : Bounds space rest) :
    (word ++ rest).takeWhile (! space ·) = word := by
  rw [List.takeWhile_append_of_pos (by simpa using isWord.2), bounds.takeWhile, List.append_nil]

theorem IsWord.dropWhile_append (isWord : IsWord space word) (bounds : Bounds space rest) :
    (word ++ rest).dropWhile (! space ·) = rest := by
  rw [List.dropWhile_append_of_pos (by simpa using isWord.2), bounds.dropWhile]

/-- A text that is not a gap has a first word. -/
theorem exists_word (text : List α) (more : text.dropWhile space ≠ []) :
    ∃ gap, IsGap space gap ∧ IsWord space ((text.dropWhile space).takeWhile (! space ·)) ∧
      Bounds space ((text.dropWhile space).dropWhile (! space ·)) ∧
      text = gap ++ ((text.dropWhile space).takeWhile (! space ·) ++ (text.dropWhile space).dropWhile (! space ·)) := by
  refine ⟨text.takeWhile space, fun letter => List.mem_takeWhile_imp, ⟨?_, ?_⟩, ?_, ?_⟩
  · cases tail : text.dropWhile space with
    | nil => contradiction
    | cons letter others =>
        have starts : space letter = false := by
          have stopped := List.head_dropWhile_not space more
          simpa [tail] using stopped
        rw [List.takeWhile_cons_of_pos (by simp [starts])]
        exact List.cons_ne_nil _ _
  · intro letter member
    simpa using List.mem_takeWhile_imp member
  · intro letter first
    have stopped := List.head?_dropWhile_not (! space ·) (text.dropWhile space)
    rw [Option.mem_def.mp first] at stopped
    simpa using stopped
  · rw [List.takeWhile_append_dropWhile, List.takeWhile_append_dropWhile]

end Sloader.Data
