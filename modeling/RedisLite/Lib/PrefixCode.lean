import Mathlib.Tactic.Common

/-!
# Prefix codes

A stream is a sequence of words behind one another.  When a word is determined by what
begins with it, the letters of a stream are determined by the stream, however it was cut
into pieces.
-/

namespace Lib

universe u v

/-- Words for the valid letters, none of which begins with the word of another letter. -/
structure PrefixCode (γ : Type u) (α : Type v) where
  word : γ → List α
  Valid : γ → Prop
  unique : ∀ {left right : γ} {leftRest rightRest : List α}, Valid left → Valid right →
    word left ++ leftRest = word right ++ rightRest → left = right

namespace PrefixCode

variable {γ : Type u} {α : Type v} (code : PrefixCode γ α)

/-- The words of letters, one behind the other. -/
def encode (letters : List γ) : List α := letters.flatMap code.word

@[simp] theorem encode_nil : code.encode [] = [] := rfl

@[simp] theorem encode_cons (letter : γ) (letters : List γ) :
    code.encode (letter :: letters) = code.word letter ++ code.encode letters :=
  List.flatMap_cons

@[simp] theorem encode_append (front back : List γ) :
    code.encode (front ++ back) = code.encode front ++ code.encode back := List.flatMap_append

/-- The stream does not begin with a word. -/
def Stuck (stream : List α) : Prop :=
  ∀ letter rest, code.Valid letter → stream ≠ code.word letter ++ rest

/-- The stream is words for the letters and a rest that does not begin with a word. -/
structure Decodes (stream : List α) (letters : List γ) (rest : List α) : Prop where
  stream_eq : stream = code.encode letters ++ rest
  valid : ∀ letter ∈ letters, code.Valid letter
  stuck : code.Stuck rest

namespace Decodes

variable {code} {stream more rest otherRest : List α} {letters others : List γ}

/-- A stream determines its letters and its rest. -/
theorem unique (decodes : code.Decodes stream letters rest)
    (other : code.Decodes stream others otherRest) : letters = others ∧ rest = otherRest := by
  obtain ⟨streamEq, valid, stuck⟩ := decodes
  obtain ⟨otherEq, otherValid, otherStuck⟩ := other
  induction letters generalizing stream others with
  | nil =>
      cases others with
      | nil => exact ⟨rfl, streamEq.symm.trans otherEq⟩
      | cons letter others =>
          rw [streamEq, encode_nil, List.nil_append, encode_cons, List.append_assoc] at otherEq
          exact absurd otherEq (stuck letter _ (otherValid letter List.mem_cons_self))
  | cons letter letters ih =>
      cases others with
      | nil =>
          rw [otherEq, encode_nil, List.nil_append, encode_cons, List.append_assoc] at streamEq
          exact absurd streamEq (otherStuck letter _ (valid letter List.mem_cons_self))
      | cons otherLetter others =>
          rw [List.forall_mem_cons] at valid otherValid
          rw [streamEq, encode_cons, encode_cons, List.append_assoc, List.append_assoc] at otherEq
          obtain rfl := code.unique valid.1 otherValid.1 otherEq
          have restEq := List.append_cancel_left otherEq
          obtain ⟨rfl, same⟩ := ih rfl valid.2 restEq otherValid.2
          exact ⟨rfl, same⟩

end Decodes

end PrefixCode

end Lib
