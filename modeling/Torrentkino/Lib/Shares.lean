import Mathlib.Data.List.Basic

/-!
# What several parties hold together

Parties that take over things from each other, such as threads that pass objects
on.  `f` says how much of a thing one party holds, `total` how much all of them
hold.  When one party goes on, the total changes by the difference of its shares,
and a total of at most one means that two parties never hold the thing at the
same time.
-/

namespace Torrentkino
namespace Shares

variable {α : Type} {f : α → Nat} {ws : List α} {w w' : α} {i j : Nat}

/-- What all parties hold. -/
def total (f : α → Nat) : List α → Nat
  | [] => 0
  | w :: ws => f w + total f ws

@[simp] theorem total_cons (w : α) (ws : List α) : total f (w :: ws) = f w + total f ws :=
  rfl

/-- One party goes on. -/
theorem total_set (f : α → Nat) (h : ws[i]? = some w) (x : α) :
    total f (ws.set i x) + f w = total f ws + f x := by
  induction ws generalizing i with
  | nil =>
      cases h
  | cons v ws ih =>
      cases i with
      | zero =>
          cases h
          rw [List.set_cons_zero, total_cons, total_cons]
          omega
      | succ i =>
          have hset := ih h
          rw [List.set_cons_succ, total_cons, total_cons]
          omega

theorem le_total (f : α → Nat) (h : ws[i]? = some w) : f w ≤ total f ws := by
  induction ws generalizing i with
  | nil =>
      cases h
  | cons v ws ih =>
      cases i with
      | zero =>
          cases h
          rw [total_cons]
          omega
      | succ i =>
          have hle := ih h
          rw [total_cons]
          omega

/-- Two different parties. -/
theorem add_le_total (f : α → Nat) (hij : i ≠ j) (hi : ws[i]? = some w) (hj : ws[j]? = some w') :
    f w + f w' ≤ total f ws := by
  induction ws generalizing i j with
  | nil =>
      cases hi
  | cons v ws ih =>
      rw [total_cons]
      cases i with
      | zero =>
          cases hi
          obtain ⟨j, rfl⟩ := Nat.exists_eq_succ_of_ne_zero hij.symm
          have hle : f w' ≤ total f ws := le_total f hj
          omega
      | succ i =>
          cases j with
          | zero =>
              cases hj
              have hle : f w ≤ total f ws := le_total f hi
              omega
          | succ j =>
              have := ih (fun h => hij (congrArg Nat.succ h)) hi hj
              omega

/-- What can be held once only is held by one party. -/
theorem index_unique (htotal : total f ws ≤ 1) (hi : ws[i]? = some w) (hj : ws[j]? = some w')
    (hw : 0 < f w) (hw' : 0 < f w') : i = j := by
  by_contra hij
  have := add_le_total f hij hi hj
  omega

/-- What is held is held by somebody. -/
theorem exists_of_total_pos (h : 0 < total f ws) :
    ∃ (i : Nat) (w : α), ws[i]? = some w ∧ 0 < f w := by
  induction ws with
  | nil =>
      exact absurd h (Nat.lt_irrefl 0)
  | cons v ws ih =>
      rw [total_cons] at h
      by_cases hv : 0 < f v
      · exact ⟨0, v, rfl, hv⟩
      · obtain ⟨i, w, hi, hw⟩ := ih (by omega)
        exact ⟨i + 1, w, hi, hw⟩

theorem total_eq_zero (h : ∀ w ∈ ws, f w = 0) : total f ws = 0 := by
  by_contra hpos
  obtain ⟨i, w, hi, hw⟩ := exists_of_total_pos (Nat.pos_of_ne_zero hpos)
  have := h w (List.mem_of_getElem? hi)
  omega

end Shares
end Torrentkino
