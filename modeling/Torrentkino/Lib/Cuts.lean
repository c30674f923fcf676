import Mathlib.Data.List.Basic
import Mathlib.Tactic.Ring

/-!
# Sorted lists as partitions into intervals

A list of elements with increasing keys cuts a range of numbers into
half-open intervals: each element owns the numbers from its key up to the key
of its successor, the last one up to the end of the range.  `Intervals` states
a property of every element together with the end of its interval, in a form
that is cut at any point by `intervals_append`.

`Halving` is the history of a range that is only ever refined by cutting one
interval in the middle.  Every interval of such a history is dyadic.
-/

namespace Torrentkino
namespace Cuts

section Intervals

variable {α : Type} (key : α → Nat)

/-- Where the interval in front of a list ends. -/
def upper (top : Nat) : List α → Nat
  | [] => top
  | x :: _ => key x

/-- `P` holds of every element and the end of its interval. -/
def Intervals (P : α → Nat → Prop) (top : Nat) : List α → Prop
  | [] => True
  | x :: xs => P x (upper key top xs) ∧ Intervals P top xs

variable {key}

@[simp] theorem upper_nil (top : Nat) : upper key top ([] : List α) = top := rfl

@[simp] theorem upper_cons (top : Nat) (x : α) (xs : List α) :
    upper key top (x :: xs) = key x := rfl

theorem upper_append (top : Nat) (xs ys : List α) :
    upper key top (xs ++ ys) = upper key (upper key top ys) xs := by
  cases xs <;> rfl

@[simp] theorem intervals_nil (P : α → Nat → Prop) (top : Nat) :
    Intervals key P top ([] : List α) := trivial

@[simp] theorem intervals_cons (P : α → Nat → Prop) (top : Nat) (x : α) (xs : List α) :
    Intervals key P top (x :: xs) ↔
      P x (upper key top xs) ∧ Intervals key P top xs :=
  Iff.rfl

/-- What is in front of a point only depends on the key behind it. -/
theorem intervals_append (P : α → Nat → Prop) (top : Nat) (xs ys : List α) :
    Intervals key P top (xs ++ ys) ↔
      Intervals key P (upper key top ys) xs ∧ Intervals key P top ys := by
  induction xs with
  | nil =>
      simp
  | cons x xs ih =>
      simp only [List.cons_append, intervals_cons, upper_append, ih, and_assoc]

theorem Intervals.imp
    {P Q : α → Nat → Prop} {top : Nat} {xs : List α}
    (h : Intervals key P top xs)
    (himp : ∀ x ∈ xs, ∀ hi, P x hi → Q x hi) :
    Intervals key Q top xs := by
  induction xs with
  | nil =>
      trivial
  | cons x xs ih =>
      exact ⟨himp x (by simp) _ h.1, ih h.2 fun y hy => himp y (by simp [hy])⟩

/-- The property at one element. -/
theorem Intervals.at
    {P : α → Nat → Prop} {top : Nat} {u w : List α} {x : α}
    (h : Intervals key P top (u ++ x :: w)) :
    P x (upper key top w) :=
  ((intervals_append P top u (x :: w)).mp h).2.1

/-- The intervals of a list are nonempty. -/
abbrev Increasing (key : α → Nat) (top : Nat) (xs : List α) : Prop :=
  Intervals key (fun x hi => key x < hi) top xs

/-- Nonempty intervals: the keys increase. -/
theorem Increasing.pairwise
    {top : Nat} {xs : List α} (h : Increasing key top xs) :
    xs.Pairwise (fun x y => key x < key y) := by
  have hlower : ∀ ys : List α, Increasing key top ys → ∀ y ∈ ys,
      upper key top ys ≤ key y := by
    intro ys
    induction ys with
    | nil =>
        simp
    | cons z ys ih =>
        intro hinc y hy
        rcases List.mem_cons.mp hy with rfl | hy
        · exact Nat.le_refl _
        · exact Nat.le_trans (Nat.le_of_lt hinc.1) (ih hinc.2 y hy)
  induction xs with
  | nil =>
      exact List.Pairwise.nil
  | cons x xs ih =>
      refine List.Pairwise.cons ?_ (ih h.2)
      intro y hy
      exact Nat.lt_of_lt_of_le h.1 (hlower xs h.2 y hy)

/-- Every number of the range lies in one of the intervals. -/
theorem exists_interval
    {top : Nat} {xs : List α} {n : Nat}
    (hne : xs ≠ []) (hlow : upper key top xs ≤ n) (hn : n < top) :
    ∃ u x w, xs = u ++ x :: w ∧ key x ≤ n ∧ n < upper key top w := by
  induction xs with
  | nil =>
      exact absurd rfl hne
  | cons x xs ih =>
      rcases Nat.lt_or_ge n (upper key top xs) with hlt | hge
      · exact ⟨[], x, xs, rfl, hlow, hlt⟩
      · cases xs with
        | nil =>
            simp at hge
            omega
        | cons y ys =>
            obtain ⟨u, z, w, hsplit, hz⟩ := ih (by simp) hge
            exact ⟨x :: u, z, w, by simp [hsplit], hz⟩

end Intervals

/-! ## Halving -/

/-- An interval of the form `[m * 2 ^ k, (m + 1) * 2 ^ k)`. -/
def Dyadic (w : Nat) (a b : Nat) : Prop :=
  ∃ m k, k ≤ w ∧ a = m * 2 ^ k ∧ b = (m + 1) * 2 ^ k

/-- The starts of the intervals after some number of halvings of
`[0, 2 ^ w)`. -/
inductive Halving (w : Nat) : List Nat → Prop
  | whole : Halving w [0]
  | halve
      (u r : List Nat) (a : Nat)
      (h : Halving w (u ++ a :: r))
      (hsize : a + 2 ≤ upper id (2 ^ w) r) :
      Halving w (u ++ a :: (a + upper id (2 ^ w) r) / 2 :: r)

/-- A dyadic interval with more than one number has dyadic halves. -/
theorem Dyadic.halves
    {w a b : Nat} (h : Dyadic w a b) (hsize : a + 2 ≤ b) :
    Dyadic w a ((a + b) / 2) ∧ Dyadic w ((a + b) / 2) b := by
  obtain ⟨m, k, hk, rfl, rfl⟩ := h
  obtain ⟨k, rfl⟩ : ∃ k', k = k' + 1 := by
    cases k with
    | zero =>
        simp at hsize
    | succ k =>
        exact ⟨k, rfl⟩
  have hmid : (m * 2 ^ (k + 1) + (m + 1) * 2 ^ (k + 1)) / 2 = (2 * m + 1) * 2 ^ k := by
    have : m * 2 ^ (k + 1) + (m + 1) * 2 ^ (k + 1) = 2 * ((2 * m + 1) * 2 ^ k) := by
      ring
    omega
  rw [hmid]
  exact ⟨⟨2 * m, k, by omega, by ring, rfl⟩, ⟨2 * m + 1, k, by omega, rfl, by ring⟩⟩

/-- All intervals of a halving history are dyadic. -/
theorem Halving.dyadic
    {w : Nat} {xs : List Nat} (h : Halving w xs) :
    Intervals id (Dyadic w) (2 ^ w) xs := by
  induction h with
  | whole =>
      exact ⟨⟨0, w, Nat.le_refl w, by simp, by simp⟩, trivial⟩
  | halve u r a h hsize ih =>
      rw [intervals_append] at ih ⊢
      obtain ⟨hu, ha, hr⟩ := ih
      obtain ⟨hleft, hright⟩ := ha.halves hsize
      exact ⟨hu, hleft, hright, hr⟩

/-- The first interval starts at 0. -/
theorem Halving.head_eq_zero
    {w : Nat} {xs : List Nat} (h : Halving w xs) :
    ∃ ys, xs = 0 :: ys := by
  induction h with
  | whole =>
      exact ⟨[], rfl⟩
  | halve u r a h hsize ih =>
      obtain ⟨ys, hys⟩ := ih
      cases u with
      | nil =>
          cases hys
          exact ⟨_, rfl⟩
      | cons x u =>
          cases hys
          exact ⟨_, rfl⟩

theorem Dyadic.lt {w a b : Nat} (h : Dyadic w a b) : a < b := by
  obtain ⟨m, k, _, rfl, rfl⟩ := h
  have := Nat.two_pow_pos k
  rw [Nat.add_mul]
  omega

/-- The keys of a halving history increase. -/
theorem Halving.increasing
    {w : Nat} {xs : List Nat} (h : Halving w xs) :
    Increasing id (2 ^ w) xs :=
  h.dyadic.imp fun _ _ _ hd => hd.lt

/-- A property of the keys of a list, seen on the list of the keys. -/
theorem intervals_map
    {α : Type} {key : α → Nat} {P : Nat → Nat → Prop} {top : Nat} {xs : List α} :
    Intervals id P top (xs.map key) ↔ Intervals key (fun x hi => P (key x) hi) top xs := by
  have hupper : ∀ ys : List α, upper id top (ys.map key) = upper key top ys := by
    intro ys
    cases ys <;> rfl
  induction xs with
  | nil =>
      simp
  | cons x xs ih =>
      simp [ih, hupper]

/-- A property of the elements that survives a change of them which keeps the
keys. -/
theorem Intervals.map
    {α : Type} {key : α → Nat} {P : α → Nat → Prop} {top : Nat} {xs : List α}
    {f : α → α}
    (h : Intervals key P top xs)
    (hkey : ∀ x, key (f x) = key x)
    (hf : ∀ x hi, P x hi → P (f x) hi) :
    Intervals key P top (xs.map f) := by
  have hupper : ∀ ys : List α, upper key top (ys.map f) = upper key top ys := by
    intro ys
    cases ys <;> simp [hkey]
  induction xs with
  | nil =>
      trivial
  | cons x xs ih =>
      refine ⟨?_, ih h.2⟩
      rw [hupper]
      exact hf x _ h.1

/-- The element behind a prefix, by position. -/
@[simp] theorem modify_at
    {α : Type} (f : α → α) (u w : List α) (x : α) :
    (u ++ x :: w).modify u.length f = u ++ f x :: w := by
  induction u with
  | nil =>
      rfl
  | cons y u ih =>
      simp [ih]

end Cuts
end Torrentkino
