import Mathlib.Tactic.Ring
import Torrentkino.Lib.Memory

/-!
# Arrays of fixed-size records

A byte string that concatenates records of one size is read back with a loop
that advances by that size.  `strides` is the sequence of offsets of such a
loop.

**Result.** `map_strides_flatMap`: if a record can be read from where it was
written, the loop reads the records in order.
-/

namespace Torrentkino
namespace Memory

/-- The offsets of the loop `for (i = 0; i < size; i += step)`. -/
def strides (size step : Nat) : List Nat :=
  (List.range ((size + step - 1) / step)).map (· * step)

theorem strides_mul
    (n : Nat) {step : Nat} (hstep : 0 < step) :
    strides (n * step) step = (List.range n).map (· * step) := by
  have hdiv : (n * step + step - 1) / step = n := by
    rw [Nat.add_sub_assoc hstep, Nat.mul_comm, Nat.mul_add_div hstep,
      Nat.div_eq_of_lt (Nat.sub_lt hstep Nat.one_pos), Nat.add_zero]
  rw [strides, hdiv]

section Records

variable {α : Type} {enc : α → Bytes} {step : Nat}

theorem length_flatMap_of_length_eq
    (henc : ∀ a, (enc a).length = step) (l : List α) :
    (l.flatMap enc).length = l.length * step := by
  induction l with
  | nil =>
      simp
  | cons a l ih =>
      rw [List.flatMap_cons, List.length_append, ih, henc, List.length_cons]
      ring

/-- Records that lie in memory one behind the other are read in order. -/
theorem map_range_of_holds
    {read : Mem → Nat → α}
    (henc : ∀ a, (enc a).length = step)
    (hread : ∀ mem p a, Holds mem p (enc a) → read mem p = a)
    (mem : Mem) (l : List α) (p : Nat)
    (hmem : Holds mem p (l.flatMap enc)) :
    (List.range l.length).map (fun i => read mem (p + i * step)) = l := by
  induction l generalizing p with
  | nil =>
      rfl
  | cons a l ih =>
      rw [List.flatMap_cons, holds_append, henc] at hmem
      have hrest := ih (p + step) hmem.2
      rw [List.length_cons, List.range_succ_eq_map, List.map_cons, List.map_map]
      refine List.cons_eq_cons.mpr ⟨?_, ?_⟩
      · rw [Nat.zero_mul]
        exact hread mem p a hmem.1
      · refine Eq.trans ?_ hrest
        refine List.map_congr_left fun i _ => ?_
        rw [Function.comp_apply, Nat.succ_mul, Nat.add_assoc, Nat.add_comm step]

/-- The loop over a string of records reads the records in order. -/
theorem map_strides_flatMap
    {read : Mem → Nat → α}
    (hstep : 0 < step)
    (henc : ∀ a, (enc a).length = step)
    (hread : ∀ mem p a, Holds mem p (enc a) → read mem p = a)
    (l : List α) :
    (strides (l.flatMap enc).length step).map (read (buffer (l.flatMap enc) [])) = l := by
  have hlen := length_flatMap_of_length_eq henc l
  rw [hlen, strides_mul l.length hstep, List.map_map]
  refine Eq.trans (List.map_congr_left fun i _ => ?_)
    (map_range_of_holds henc hread (buffer (l.flatMap enc) []) l 0 (holds_buffer_self _ _))
  rw [Function.comp_apply, Nat.zero_add]

end Records

end Memory
end Torrentkino
