import Mathlib.Data.List.Infix

namespace Sloader.Data

/-! Texts that are cut at a delimiter.

The delimiter may be any non-empty list, also one that overlaps itself.  It is
looked for from the left, and the search goes on behind the occurrence that was
found, so that a text is made of the pieces that a delimiter follows and of a
last one. -/

variable {α : Type} {delimiter text piece last : List α} {pieces : List (List α)}

section Find

variable [DecidableEq α] {position : Nat}

/-- Where the delimiter occurs first. -/
def find (delimiter : List α) : List α → Option Nat
  | [] => if delimiter = [] then some 0 else none
  | letter :: rest =>
      if delimiter.isPrefixOf (letter :: rest) then some 0 else (find delimiter rest).map (· + 1)

theorem find_eq_none : find delimiter text = none ↔ ¬ delimiter <:+: text := by
  induction text with
  | nil => simp [find]
  | cons letter rest ih =>
      rw [find, List.infix_cons_iff, ← List.isPrefixOf_iff_prefix]
      cases starts : delimiter.isPrefixOf (letter :: rest) with
      | true => simp
      | false => simpa using ih

theorem find_eq_some (nonempty : delimiter ≠ []) (found : find delimiter text = some position) :
    ∃ piece rest, text = piece ++ delimiter ++ rest ∧ piece.length = position ∧ ¬ delimiter <:+: piece := by
  induction text generalizing position with
  | nil => simp [find, nonempty] at found
  | cons letter rest ih =>
      rw [find] at found
      split at found
      · rename_i starts
        cases found
        obtain ⟨behind, whole⟩ := List.isPrefixOf_iff_prefix.mp starts
        exact ⟨[], behind, by rw [List.nil_append, whole], rfl, by simpa using nonempty⟩
      · rename_i startsNot
        obtain ⟨later, inRest, rfl⟩ := Option.map_eq_some_iff.mp found
        obtain ⟨piece, behind, rfl, length, absent⟩ := ih inRest
        refine ⟨letter :: piece, behind, rfl, by rw [List.length_cons, length], ?_⟩
        intro occurs
        cases List.infix_cons_iff.mp occurs with
        | inl starts =>
            apply startsNot
            rw [List.isPrefixOf_iff_prefix, List.append_assoc]
            exact starts.trans (List.prefix_append (letter :: piece) _)
        | inr inPiece => exact absent inPiece

end Find

/-- A text cut at the delimiter: the pieces that a delimiter follows, and the last. -/
structure Cut (delimiter text : List α) (pieces : List (List α)) (last : List α) : Prop where
  whole : text = (pieces.map (· ++ delimiter)).flatten ++ last
  pieces : ∀ piece ∈ pieces, ¬ delimiter <:+: piece
  last : ¬ delimiter <:+: last

theorem Cut.none (absent : ¬ delimiter <:+: text) : Cut delimiter text [] text :=
  ⟨rfl, fun _ member => absurd member List.not_mem_nil, absent⟩

theorem Cut.cons (absent : ¬ delimiter <:+: piece) (rest : Cut delimiter text pieces last) :
    Cut delimiter (piece ++ delimiter ++ text) (piece :: pieces) last where
  whole := by rw [List.map_cons, List.flatten_cons, List.append_assoc _ _ last, ← rest.whole]
  pieces := List.forall_mem_cons.mpr ⟨absent, rest.pieces⟩
  last := rest.last

theorem intercalate_concat (delimiter last : List α) (pieces : List (List α)) :
    delimiter.intercalate (pieces ++ [last]) = (pieces.map (· ++ delimiter)).flatten ++ last := by
  induction pieces with
  | nil => exact List.intercalate_singleton
  | cons piece rest ih =>
      have more : rest ++ [last] ≠ [] := by simp
      rw [List.cons_append, List.intercalate_cons_of_ne_nil more, ih]
      simp only [List.map_cons, List.flatten_cons, List.append_assoc]

/-- All the pieces together give back the text. -/
theorem Cut.join (cut : Cut delimiter text pieces last) : delimiter.intercalate (pieces ++ [last]) = text := by
  rw [intercalate_concat, ← cut.whole]

/-- Without the last piece they do so for the empty text only. -/
theorem Cut.join_pieces_iff (cut : Cut delimiter text pieces last) (nonempty : delimiter ≠ []) :
    delimiter.intercalate pieces = text ↔ text = [] := by
  have whole := cut.whole
  rcases List.eq_nil_or_concat pieces with rfl | ⟨earlier, piece, rfl⟩
  · rw [List.intercalate_nil]
    exact eq_comm
  · rw [List.concat_eq_append] at whole ⊢
    rw [List.map_append, List.flatten_append] at whole
    constructor
    · intro joined
      rw [intercalate_concat, whole] at joined
      simp [nonempty] at joined
    · intro empty
      rw [empty] at whole
      simp [nonempty] at whole

theorem Cut.splitOn [DecidableEq α] {separator : α} (cut : Cut [separator] text pieces last) :
    text.splitOn separator = pieces ++ [last] := by
  have plain : ∀ piece ∈ pieces ++ [last], separator ∉ piece := by
    intro piece member
    rw [← List.singleton_infix_iff]
    cases List.mem_append.mp member with
    | inl earlier => exact cut.pieces piece earlier
    | inr final =>
        rw [List.mem_singleton.mp final]
        exact cut.last
  rw [← cut.join]
  exact List.splitOn_intercalate separator plain (by simp)

end Sloader.Data
