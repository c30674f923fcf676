import Mathlib.Data.List.Basic

/-!
# Hashing a stream block by block

An iterated hash function reads a message in blocks of a fixed size and changes
a chaining value with each of them.  What does not fill a block is kept until
more data arrives.  `absorb` is that as a function on the whole message; the
lemmas say how it goes on behind a message that was absorbed before, which is
what an implementation with a buffer has to do.
-/

namespace Torrentkino

/-- A compression function for blocks of a fixed size. -/
structure BlockHash (α σ : Type) where
  blockSize : Nat
  blockSize_pos : 0 < blockSize
  compress : σ → List α → σ

namespace BlockHash

variable {α σ : Type} (H : BlockHash α σ)

/-- The chaining value behind all whole blocks, and the rest of the message. -/
def absorb (s : σ) (m : List α) : σ × List α :=
  if m.length < H.blockSize then (s, m)
  else absorb (H.compress s (m.take H.blockSize)) (m.drop H.blockSize)
termination_by m.length
decreasing_by
  have := H.blockSize_pos
  rw [List.length_drop]
  omega

variable {H}

theorem absorb_of_lt {s : σ} {m : List α} (h : m.length < H.blockSize) :
    H.absorb s m = (s, m) := by
  rw [absorb, if_pos h]

@[simp] theorem absorb_nil (s : σ) : H.absorb s [] = (s, []) :=
  absorb_of_lt H.blockSize_pos

/-- A whole block at the front. -/
theorem absorb_block {s : σ} {block : List α} (m : List α) (h : block.length = H.blockSize) :
    H.absorb s (block ++ m) = H.absorb (H.compress s block) m := by
  have hlong : ¬ (block ++ m).length < H.blockSize := by
    rw [List.length_append]
    omega
  rw [absorb, if_neg hlong, List.take_left' h, List.drop_left' h]

/-- Induction on the blocks of a message. -/
theorem absorb_induction {P : σ → List α → Prop}
    (short : ∀ s m, m.length < H.blockSize → P s m)
    (block : ∀ s b m, b.length = H.blockSize → P (H.compress s b) m → P s (b ++ m))
    (s : σ) (m : List α) : P s m := by
  induction hn : m.length using Nat.strongRecOn generalizing s m with
  | ind n ih =>
      by_cases h : m.length < H.blockSize
      · exact short s m h
      · have hpos := H.blockSize_pos
        have hblock : (m.take H.blockSize).length = H.blockSize := by
          rw [List.length_take]
          omega
        rw [← List.take_append_drop H.blockSize m]
        refine block s _ _ hblock (ih _ ?_ _ _ rfl)
        rw [List.length_drop]
        omega

theorem length_absorb (s : σ) (m : List α) :
    (H.absorb s m).2.length = m.length % H.blockSize := by
  induction s, m using absorb_induction (H := H) with
  | short s m h =>
      rw [absorb_of_lt h, Nat.mod_eq_of_lt h]
  | block s b m hb ih =>
      rw [absorb_block m hb, ih, List.length_append, hb, Nat.add_mod_left]

/-- More data: the kept rest is in front of it. -/
theorem absorb_append (s : σ) (m more : List α) :
    H.absorb s (m ++ more) = H.absorb (H.absorb s m).1 ((H.absorb s m).2 ++ more) := by
  induction s, m using absorb_induction (H := H) with
  | short s m h =>
      rw [absorb_of_lt h]
  | block s b m hb ih =>
      rw [List.append_assoc, absorb_block _ hb, absorb_block _ hb, ih]

end BlockHash
end Torrentkino
