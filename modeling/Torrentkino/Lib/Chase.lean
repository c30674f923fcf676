import Mathlib.Data.Fintype.Pigeonhole
import Mathlib.Logic.Function.Iterate

/-!
# Following pointers

A program goes from one place to the next until a place tells it to stop.  When there
are only finitely many places, it comes to each of them at most once, or it never stops.

**Result.** `EndsIn.exists_lt_card`: a chase that ends does so in fewer steps than there
are places.
-/

namespace Torrentkino
namespace Chase

section Chase

variable {α : Type} {next : α → α} {stop : α → Prop} {places : Finset α} {x : α}

/-- The chase comes to an end without leaving the places. -/
inductive EndsIn (next : α → α) (stop : α → Prop) (places : Finset α) : α → Prop
  | stop {x : α} (hx : x ∈ places) (hstop : stop x) : EndsIn next stop places x
  | next {x : α} (hx : x ∈ places) (hnext : EndsIn next stop places (next x)) :
      EndsIn next stop places x

/-- The steps of a chase that ends. -/
theorem EndsIn.exists_iterate (h : EndsIn next stop places x) :
    ∃ n, stop (next^[n] x) ∧ ∀ k ≤ n, next^[k] x ∈ places := by
  induction h with
  | stop hx hstop =>
      refine ⟨0, hstop, ?_⟩
      intro k hk
      rwa [Nat.le_zero.mp hk]
  | next hx _ ih =>
      obtain ⟨n, hstop, hplaces⟩ := ih
      refine ⟨n + 1, hstop, ?_⟩
      intro k hk
      cases k with
      | zero =>
          exact hx
      | succ k =>
          exact hplaces k (Nat.le_of_succ_le_succ hk)

/-- The first place to stop at is reached before any place is visited twice. -/
theorem EndsIn.exists_lt_card (h : EndsIn next stop places x) :
    ∃ n < places.card, stop (next^[n] x) := by
  classical
  obtain ⟨_, hend, hplaces⟩ := h.exists_iterate
  have hexists : ∃ n, stop (next^[n] x) := ⟨_, hend⟩
  refine ⟨Nat.find hexists, ?_, Nat.find_spec hexists⟩
  by_contra hcard
  have hmaps : ∀ k ∈ Finset.range (Nat.find hexists + 1), next^[k] x ∈ places := by
    intro k hk
    have hfind := Nat.find_le (h := hexists) hend
    exact hplaces k (by rw [Finset.mem_range] at hk; omega)
  obtain ⟨i, hi, j, hj, hne, heq⟩ :=
    Finset.exists_ne_map_eq_of_card_lt_of_maps_to (by rw [Finset.card_range]; omega) hmaps
  rw [Finset.mem_range] at hi hj
  -- from the place that is visited twice on, the rest of the way is shorter than the first time
  have hshort : ∀ {i j : Nat}, i < j → j ≤ Nat.find hexists → next^[i] x = next^[j] x → False := by
    intro i j hij hj heq
    refine Nat.find_min hexists (m := i + (Nat.find hexists - j)) (by omega) ?_
    have hrest : next^[i + (Nat.find hexists - j)] x = next^[Nat.find hexists] x := by
      rw [Nat.add_comm, Function.iterate_add_apply, heq, ← Function.iterate_add_apply,
        Nat.sub_add_cancel hj]
    rw [hrest]
    exact Nat.find_spec hexists
  rcases Nat.lt_or_gt_of_ne hne with hij | hij
  · exact hshort hij (by omega) heq
  · exact hshort hij (by omega) heq.symm

end Chase

end Chase
end Torrentkino
