import Mathlib.Data.List.Basic
import Mathlib.Order.Lattice

/-!
# Insertion into a sorted list

A list that is sorted by some measure, and a new element that is put in front of
the first one with a greater measure.  The place is found by its index, as an
implementation with a cursor does it.

**Results.**
* `Sorted.insert`: the list stays sorted.
* `Sorted.placeOf_eq_countP`: the index is the number of smaller elements.
* `take_insert`: a list that is cut after the insertion has lost what was behind
  the cut before.
-/

namespace Torrentkino

variable {α δ : Type} [LinearOrder δ]

/-- Strictly increasing in `d`. -/
def Sorted (d : α → δ) (l : List α) : Prop :=
  l.Pairwise fun a b => d a < d b

/-- The index of the first element with a greater measure. -/
def placeOf (d : α → δ) (l : List α) (x : δ) : Nat :=
  l.findIdx fun a => x < d a

section Place

variable {d : α → δ} {l : List α} {x : δ}

theorem placeOf_cons_of_lt {b : α} (h : x < d b) : placeOf d (b :: l) x = 0 := by
  simp [placeOf, List.findIdx_cons, h]

theorem placeOf_cons_of_not_lt {b : α} (h : ¬ x < d b) :
    placeOf d (b :: l) x = placeOf d l x + 1 := by
  simp [placeOf, List.findIdx_cons, h]

theorem placeOf_le (d : α → δ) (l : List α) (x : δ) : placeOf d l x ≤ l.length :=
  List.findIdx_le_length

/-- There is no place inside the list when all elements are smaller. -/
theorem placeOf_eq_length_iff :
    placeOf d l x = l.length ↔ ∀ a ∈ l, d a ≤ x := by
  rw [placeOf, List.findIdx_eq_length]
  simp

end Place

namespace Sorted

variable {d : α → δ} {l : List α}

theorem sublist {m : List α} (hl : Sorted d l) (h : m.Sublist l) : Sorted d m :=
  List.Pairwise.sublist h hl

/-- An element whose measure is not listed yet goes in front of the first
greater one. -/
theorem insert
    (hl : Sorted d l) {a : α} (hnew : ∀ b ∈ l, d b ≠ d a) :
    Sorted d (l.take (placeOf d l (d a)) ++ a :: l.drop (placeOf d l (d a))) := by
  induction l with
  | nil =>
      exact List.pairwise_singleton _ _
  | cons b l ih =>
      obtain ⟨hb, hl⟩ := List.pairwise_cons.mp hl
      by_cases hlt : d a < d b
      · rw [placeOf_cons_of_lt hlt]
        refine List.pairwise_cons.mpr ⟨?_, List.pairwise_cons.mpr ⟨hb, hl⟩⟩
        intro c hc
        rcases List.mem_cons.mp hc with rfl | hc
        · exact hlt
        · exact hlt.trans (hb c hc)
      · rw [placeOf_cons_of_not_lt hlt]
        refine List.pairwise_cons.mpr ⟨?_, ih hl fun c hc => hnew c (List.mem_cons_of_mem _ hc)⟩
        intro c hc
        have hba : d b < d a :=
          lt_of_le_of_ne (not_lt.mp hlt) (hnew b List.mem_cons_self)
        rcases List.mem_append.mp hc with hc | hc
        · exact hb c (List.mem_of_mem_take hc)
        · rcases List.mem_cons.mp hc with rfl | hc
          · exact hba
          · exact hb c (List.mem_of_mem_drop hc)

/-- The place is the number of elements that are smaller. -/
theorem placeOf_eq_countP
    (hl : Sorted d l) {x : δ} (hnew : ∀ b ∈ l, d b ≠ x) :
    placeOf d l x = l.countP fun b => d b < x := by
  induction l with
  | nil =>
      rfl
  | cons b l ih =>
      obtain ⟨hb, hl⟩ := List.pairwise_cons.mp hl
      by_cases hlt : x < d b
      · have hnone : ∀ c ∈ b :: l, ¬ d c < x := by
          intro c hc
          rcases List.mem_cons.mp hc with rfl | hc
          · exact lt_asymm hlt
          · exact lt_asymm (hlt.trans (hb c hc))
        rw [placeOf_cons_of_lt hlt, eq_comm, List.countP_eq_zero]
        intro c hc
        simpa using hnone c hc
      · have hbx : d b < x :=
          lt_of_le_of_ne (not_lt.mp hlt) (hnew b List.mem_cons_self)
        rw [placeOf_cons_of_not_lt hlt, List.countP_cons_of_pos (by simpa using hbx),
          ih hl fun c hc => hnew c (List.mem_cons_of_mem _ hc)]

end Sorted

/-- Cutting after an insertion in front of the cut. -/
theorem take_insert
    {α : Type} (l : List α) (a : α) {i n : Nat} (hi : i ≤ n) (hlen : i ≤ l.length) :
    (l.take i ++ a :: l.drop i).take (n + 1) = (l.take n).take i ++ a :: (l.take n).drop i := by
  rw [List.take_append, List.take_take, List.take_take, List.length_take,
    Nat.min_eq_left hlen, show n + 1 - i = n - i + 1 by omega, List.take_succ_cons,
    List.drop_take, Nat.min_eq_right (by omega), Nat.min_eq_left hi]

end Torrentkino
