import Mathlib.Data.List.Induction

/-!
# Lists of the latest entries

A list that keeps the latest entry for each key, the most recent one first, up
to a limit, and from which entries past their end of life are dropped now and
then.

There are two descriptions of it.  `step` is what an implementation does: move
the updated key to the front, cut the list at the limit, drop what is too old.
`spec` says what the list is from the history alone: the latest entries of all
updates, without those that were too old at the last expiry, cut at the limit.

**Result.** `foldl_step_eq_spec`: the two agree for every history with a clock
that does not run backwards.
-/

namespace Torrentkino
namespace Recent

variable {α κ : Type} [DecidableEq κ]

/-- What happens to the list. -/
inductive Op (α : Type) where
  | update (a : α)
  | expire (now : Int)

/-- The entry of an update. -/
def Op.entry : Op α → Option α
  | update a => some a
  | expire _ => none

/-- The time of an expiry. -/
def Op.expiry : Op α → Option Int
  | update _ => none
  | expire now => some now

/-- When an operation happens, for entries that live for `life`. -/
def Op.clock (eol : α → Int) (life : Int) : Op α → Int
  | update a => eol a - life
  | expire now => now

/-- One operation on the list. -/
def step (key : α → κ) (eol : α → Int) (limit : Nat) (l : List α) : Op α → List α
  | .update a => (a :: l.filter fun b => key b ≠ key a).take limit
  | .expire now => l.filter fun a => now ≤ eol a

theorem length_step_le
    {key : α → κ} {eol : α → Int} {limit : Nat} {l : List α} (op : Op α)
    (hl : l.length ≤ limit) :
    (step key eol limit l op).length ≤ limit := by
  cases op with
  | update a =>
      exact List.length_take_le _ _
  | expire now =>
      exact Nat.le_trans (List.length_filter_le _ _) hl

/-! ## The specification -/

/-- The first entry for each key. -/
def latest (key : α → κ) : List α → List α
  | [] => []
  | a :: l => a :: (latest key l).filter fun b => key b ≠ key a

/-- All updates, the most recent one first. -/
def updates (ops : List (Op α)) : List α :=
  (ops.filterMap Op.entry).reverse

/-- When entries were dropped for the last time. -/
def lastExpiry (ops : List (Op α)) : Option Int :=
  (ops.filterMap Op.expiry).getLast?

/-- The entry was not too old at the last expiry. -/
def survives (eol : α → Int) (ops : List (Op α)) (a : α) : Bool :=
  (lastExpiry ops).all fun now => now ≤ eol a

/-- The list that a history leads to. -/
def spec (key : α → κ) (eol : α → Int) (limit : Nat) (ops : List (Op α)) : List α :=
  ((latest key (updates ops)).filter (survives eol ops)).take limit

/-! ## The latest entries -/

theorem latest_sublist (key : α → κ) (l : List α) : (latest key l).Sublist l := by
  induction l with
  | nil =>
      exact List.Sublist.refl _
  | cons a l ih =>
      exact (List.filter_sublist.trans ih).cons_cons a

theorem pairwise_latest (key : α → κ) (l : List α) :
    (latest key l).Pairwise fun a b => key a ≠ key b := by
  induction l with
  | nil =>
      exact List.Pairwise.nil
  | cons a l ih =>
      rw [latest, List.pairwise_cons]
      refine ⟨?_, ih.filter _⟩
      intro b hb
      have hne := (List.mem_filter.mp hb).2
      simp only [ne_eq, decide_not, Bool.not_eq_eq_eq_not, Bool.not_true,
        decide_eq_false_iff_not] at hne
      exact fun h => hne h.symm

/-! ## Cutting and filtering -/

/-- Dropping one key and then cutting needs one entry more than is kept. -/
theorem take_filter_take_succ
    (key : α → κ) (k : κ) (n : Nat) {l : List α}
    (hl : l.Pairwise fun a b => key a ≠ key b) :
    ((l.take (n + 1)).filter fun b => key b ≠ k).take n =
      (l.filter fun b => key b ≠ k).take n := by
  induction l generalizing n with
  | nil =>
      simp
  | cons a l ih =>
      rw [List.pairwise_cons] at hl
      rw [List.take_succ_cons]
      by_cases hk : key a = k
      · -- the key is gone, and no other entry has it
        have hall : ∀ b ∈ l, key b ≠ k := fun b hb h => hl.1 b hb (hk.trans h.symm)
        have hself : ∀ m : List α, m.Sublist l → (m.filter fun b => key b ≠ k) = m := by
          intro m hm
          rw [List.filter_eq_self]
          intro b hb
          simpa using hall b (hm.subset hb)
        rw [List.filter_cons_of_neg (by simp [hk]), List.filter_cons_of_neg (by simp [hk]),
          hself _ (List.take_sublist _ _), hself _ (List.Sublist.refl _), List.take_take,
          Nat.min_self]
      · rw [List.filter_cons_of_pos (by simp [hk]), List.filter_cons_of_pos (by simp [hk])]
        cases n with
        | zero =>
            rfl
        | succ n =>
            rw [List.take_succ_cons, List.take_succ_cons, ih n hl.2]

/-- If only the end of the list is dropped, cutting may come first. -/
theorem filter_take
    {p : α → Bool} (n : Nat) {l : List α} (hl : l.Pairwise fun a b => p b → p a) :
    (l.take n).filter p = (l.filter p).take n := by
  induction l generalizing n with
  | nil =>
      simp
  | cons a l ih =>
      rw [List.pairwise_cons] at hl
      cases n with
      | zero =>
          rfl
      | succ n =>
          by_cases ha : p a
          · rw [List.take_succ_cons, List.filter_cons_of_pos ha, List.filter_cons_of_pos ha,
              List.take_succ_cons, ih n hl.2]
          · have hnone : ∀ b ∈ a :: l, ¬ p b := by
              intro b hb
              rcases List.mem_cons.mp hb with rfl | hb
              · exact ha
              · exact fun h => ha (hl.1 b hb h)
            have hnil : (a :: l).filter p = [] := List.filter_eq_nil_iff.mpr hnone
            rw [hnil, List.take_nil, List.filter_eq_nil_iff]
            exact fun b hb => hnone b (List.mem_of_mem_take hb)

/-! ## The two descriptions agree -/

/-- The clock does not run backwards. -/
def Ordered (eol : α → Int) (life : Int) (ops : List (Op α)) : Prop :=
  (ops.map (Op.clock eol life)).Pairwise (· ≤ ·)

/-- The updates are in the order of their ends of life. -/
theorem Ordered.pairwise_updates
    {eol : α → Int} {life : Int} {ops : List (Op α)} (h : Ordered eol life ops) :
    (updates ops).Pairwise fun a b => eol b ≤ eol a := by
  rw [Ordered, List.pairwise_map] at h
  rw [updates, List.pairwise_reverse, List.pairwise_filterMap]
  refine h.imp ?_
  intro x y hxy a ha b hb
  cases x with
  | expire now =>
      cases ha
  | update a' =>
      cases y with
      | expire now =>
          cases hb
      | update b' =>
          cases ha
          cases hb
          simp only [Op.clock] at hxy
          omega

/-- The last expiry was not later than any operation that follows. -/
theorem Ordered.lastExpiry_le
    {eol : α → Int} {life : Int} {ops : List (Op α)} {op : Op α}
    (h : Ordered eol life (ops ++ [op])) {now : Int} (hnow : lastExpiry ops = some now) :
    now ≤ op.clock eol life := by
  rw [Ordered, List.map_append, List.pairwise_append] at h
  have hmem := List.mem_of_getLast? hnow
  obtain ⟨x, hx, hexp⟩ := List.mem_filterMap.mp hmem
  cases x with
  | update a =>
      cases hexp
  | expire t =>
      cases hexp
      exact h.2.2 _ (List.mem_map_of_mem hx) _ (by simp)

theorem spec_update
    (key : α → κ) {eol : α → Int} {life : Int} (limit : Nat) {ops : List (Op α)} {a : α}
    (hlife : 0 ≤ life) (h : Ordered eol life (ops ++ [.update a])) :
    spec key eol limit (ops ++ [.update a]) = step key eol limit (spec key eol limit ops)
      (.update a) := by
  have hupdates : updates (ops ++ [.update a]) = a :: updates ops := by
    simp [updates, Op.entry]
  have hlast : lastExpiry (ops ++ [.update a]) = lastExpiry ops := by
    simp [lastExpiry, Op.expiry]
  have hsurvives : survives eol (ops ++ [.update a]) = survives eol ops := by
    funext b
    rw [survives, hlast, survives]
  have ha : survives eol ops a := by
    rw [survives, Option.all_eq_true]
    intro now hnow
    have hle := h.lastExpiry_le hnow
    simp only [Op.clock] at hle
    simp only [decide_eq_true_eq]
    omega
  cases limit with
  | zero =>
      rfl
  | succ n =>
      rw [spec, hupdates, hsurvives, latest, List.filter_cons_of_pos ha, List.take_succ_cons,
        step, List.take_succ_cons, spec, take_filter_take_succ key (key a) n
          ((pairwise_latest key _).filter _), List.filter_filter, List.filter_filter]
      refine congrArg (fun l => a :: l.take n) (List.filter_congr ?_)
      intro b _
      exact Bool.and_comm _ _

theorem spec_expire
    (key : α → κ) {eol : α → Int} {life : Int} (limit : Nat) {ops : List (Op α)} {now : Int}
    (h : Ordered eol life (ops ++ [.expire now])) :
    spec key eol limit (ops ++ [.expire now]) = step key eol limit (spec key eol limit ops)
      (.expire now) := by
  have hupdates : updates (ops ++ [.expire now]) = updates ops := by
    simp [updates, Op.entry]
  have hlast : lastExpiry (ops ++ [.expire now]) = some now := by
    simp [lastExpiry, Op.expiry]
  have hsurvives : survives eol (ops ++ [.expire now]) = fun a => decide (now ≤ eol a) := by
    funext a
    rw [survives, hlast]
    rfl
  -- who survives now has survived the expiries before
  have hboth : ∀ a, (decide (now ≤ eol a) && survives eol ops a) = decide (now ≤ eol a) := by
    intro a
    rw [Bool.and_eq_left_iff_imp]
    intro hnow
    rw [survives, Option.all_eq_true]
    intro t ht
    have hle := h.lastExpiry_le ht
    simp only [Op.clock, decide_eq_true_eq] at hle hnow ⊢
    omega
  have hsorted : (latest key (updates ops)).Pairwise fun a b => eol b ≤ eol a := by
    have hupd := h.pairwise_updates
    rw [hupdates] at hupd
    exact hupd.sublist (latest_sublist key _)
  rw [spec, hupdates, hsurvives, step, spec, filter_take, List.filter_filter]
  · refine congrArg (List.take limit) (List.filter_congr ?_)
    intro a _
    exact (hboth a).symm
  · refine (hsorted.filter _).imp ?_
    intro a b hab hb
    simp only [decide_eq_true_eq] at hb ⊢
    omega

/-- Step by step the list is what the history says. -/
theorem foldl_step_eq_spec
    (key : α → κ) {eol : α → Int} {life : Int} (limit : Nat) (hlife : 0 ≤ life)
    (ops : List (Op α)) (h : Ordered eol life ops) :
    ops.foldl (step key eol limit) [] = spec key eol limit ops := by
  induction ops using List.reverseRecOn with
  | nil =>
      simp [spec, updates, latest]
  | append_singleton ops op ih =>
      have hops : Ordered eol life ops := by
        rw [Ordered, List.map_append, List.pairwise_append] at h
        exact h.1
      rw [List.foldl_append, ih hops, List.foldl_cons, List.foldl_nil]
      cases op with
      | update a =>
          exact (spec_update key limit hlife h).symm
      | expire now =>
          exact (spec_expire key limit h).symm

end Recent
end Torrentkino
