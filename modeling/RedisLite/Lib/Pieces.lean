import Mathlib.Tactic.Common

/-!
# Streams in pieces

A stream arrives in pieces: a reader that asks for letters finds the first of those that
have arrived, and nothing only at the end.  What a reader does with a stream should not
depend on how it was cut.
-/

namespace Lib

universe u

/-- The pieces in which a stream arrives, up to its end. -/
structure Pieces (α : Type u) where
  pieces : List (List α)
  nonempty : ∀ piece ∈ pieces, piece ≠ []

namespace Pieces

variable {α : Type u}

/-- The stream, however it is cut. -/
def whole (stream : Pieces α) : List α := stream.pieces.flatten

/-- One read of at most `n` letters, and what is still to arrive. -/
def read (n : Nat) : Pieces α → List α × Pieces α
  | ⟨[], nonempty⟩ => ([], ⟨[], nonempty⟩)
  | ⟨piece :: pieces, nonempty⟩ =>
      if cut : n < piece.length then
        (piece.take n, {
          pieces := piece.drop n :: pieces
          nonempty := by
            rw [List.forall_mem_cons] at nonempty ⊢
            exact ⟨fun empty => absurd (List.drop_eq_nil_iff.mp empty) (Nat.not_le.mpr cut),
              nonempty.2⟩ })
      else (piece, ⟨pieces, (List.forall_mem_cons.mp nonempty).2⟩)

theorem read_append (n : Nat) (stream : Pieces α) :
    (stream.read n).1 ++ (stream.read n).2.whole = stream.whole := by
  obtain ⟨_ | ⟨piece, pieces⟩, nonempty⟩ := stream
  · rfl
  · rw [read]
    split
    · simp only [whole, List.flatten_cons]
      rw [← List.append_assoc, List.take_append_drop]
    · simp only [whole, List.flatten_cons]

theorem length_read_le (n : Nat) (stream : Pieces α) : (stream.read n).1.length ≤ n := by
  obtain ⟨_ | ⟨piece, pieces⟩, nonempty⟩ := stream
  · exact Nat.zero_le _
  · rw [read]
    split
    · exact List.length_take_le _ _
    · rename_i whole
      exact Nat.not_lt.mp whole

/-- A read finds nothing only at the end of the stream. -/
theorem read_ne_nil {n : Nat} (positive : 0 < n) {stream : Pieces α}
    (more : stream.whole ≠ []) : (stream.read n).1 ≠ [] := by
  obtain ⟨_ | ⟨piece, pieces⟩, nonempty⟩ := stream
  · exact absurd rfl more
  · have first : piece ≠ [] := nonempty piece List.mem_cons_self
    rw [read]
    split
    · intro nothing
      rcases List.take_eq_nil_iff.mp nothing with zero | empty
      · omega
      · exact first empty
    · exact first

end Pieces

end Lib
