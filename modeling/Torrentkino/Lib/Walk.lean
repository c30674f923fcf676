import Mathlib.Data.List.Nodup

/-!
# Walking over a list that changes

A loop goes over a linked list with a saved successor: it looks the next item up, then deals
with the current one, and goes on at the item that it has saved.  Meanwhile the current item
may be taken out of the list, and new items may be put at its end.

The body of the loop does nothing to the items that it has put there.  A walk may reach them or
not, which depends on whether the last item was already followed by one when it was looked up;
either way it comes to the same as dealing with the items of the first list in order.

**Result.** `SavedWalk.walk_eq_foldl`: this, with the number of rounds that it takes.
-/

namespace Torrentkino
namespace Walk

variable {σ α : Type} [DecidableEq α]

/-- The item behind the given one. -/
def succ (l : List α) (a : α) : Option α :=
  (l.dropWhile (· ≠ a)).tail.head?

/-- The loop, from an item on. -/
def walk (list : σ → List α) (body : σ → α → σ) : Nat → σ → Option α → Option σ
  | _, s, none => some s
  | 0, _, some _ => none
  | rounds + 1, s, some a =>
      let next := succ (list s) a
      walk list body rounds (body s a) next

theorem succ_append_cons
    {l : List α} {a : α} (hl : a ∉ l) (rest : List α) :
    succ (l ++ a :: rest) a = rest.head? := by
  have hdrop : (l ++ a :: rest).dropWhile (· ≠ a) = a :: rest := by
    rw [List.dropWhile_append_of_pos]
    · rw [List.dropWhile_cons_of_neg (by simp)]
    · intro b hb
      simp only [ne_eq, decide_eq_true_eq]
      rintro rfl
      exact hl hb
  rw [succ, hdrop, List.tail_cons]

/-- What the body of the loop may do to the list: take the current item out, and put at most
`k` items behind the others that it does nothing to. -/
structure SavedWalk (list : σ → List α) (body : σ → α → σ) (k : Nat) where
  inv : σ → Prop
  inert : σ → α → Prop
  nodup : ∀ {s}, inv s → (list s).Nodup
  inv_body : ∀ {s a}, inv s → a ∈ list s → inv (body s a)
  list_body : ∀ {s a}, inv s → a ∈ list s → ∃ new, new.length ≤ k ∧
    (∀ b ∈ new, inert (body s a) b) ∧
    (list (body s a) = list s ++ new ∨ list (body s a) = (list s).erase a ++ new)
  body_inert : ∀ {s b}, inert s b → body s b = s
  inert_body : ∀ {s a b}, inv s → a ∈ list s → b ∈ list s → inert s b → inert (body s a) b

namespace SavedWalk

variable {list : σ → List α} {body : σ → α → σ} {k : Nat} (W : SavedWalk list body k)
include W

/-- Items that the body does nothing to. -/
theorem walk_inert
    {s : σ} {front rest : List α} (hlist : list s = front ++ rest) (hinv : W.inv s)
    (hinert : ∀ b ∈ rest, W.inert s b) {rounds : Nat} (hrounds : rest.length ≤ rounds) :
    walk list body rounds s rest.head? = some s := by
  induction rest generalizing front rounds with
  | nil => cases rounds <;> rfl
  | cons b rest ih =>
      cases rounds with
      | zero => cases hrounds
      | succ rounds =>
          have hnodup := W.nodup hinv
          rw [hlist] at hnodup
          have hb : b ∉ front :=
            fun hmem => List.disjoint_of_nodup_append hnodup hmem (.head _)
          have hnext : succ (list s) b = rest.head? := by
            rw [hlist, succ_append_cons hb]
          have hlist' : list s = (front ++ [b]) ++ rest := by
            rw [hlist, List.append_assoc, List.singleton_append]
          rw [List.head?_cons, walk, hnext, W.body_inert (hinert b (.head _))]
          exact ih hlist' (fun c hc => hinert c (.tail _ hc)) (Nat.le_of_succ_le_succ hrounds)

/-- The induction of the result: some items were dealt with, these are to come, and those at
the end are new. -/
theorem walk_eq_foldl_of_append
    {s : σ} {front todo added : List α} (hlist : list s = front ++ (todo ++ added))
    (hinv : W.inv s) (hinert : ∀ b ∈ added, W.inert s b) {rounds : Nat}
    (hrounds : (k + 1) * todo.length + added.length ≤ rounds) :
    walk list body rounds s (todo ++ added).head? = some (todo.foldl body s) := by
  induction todo generalizing s front added rounds with
  | nil =>
      exact W.walk_inert hlist hinv hinert (by simpa using hrounds)
  | cons a todo ih =>
      rw [List.length_cons, Nat.mul_succ] at hrounds
      cases rounds with
      | zero => omega
      | succ rounds =>
          have hnodup := W.nodup hinv
          rw [hlist, List.cons_append] at hnodup
          have ha : a ∉ front :=
            fun hmem => List.disjoint_of_nodup_append hnodup hmem (.head _)
          have hmem : a ∈ list s := by
            rw [hlist]
            simp
          have hnext : succ (list s) a = (todo ++ added).head? := by
            rw [hlist, List.cons_append, succ_append_cons ha]
          obtain ⟨new, hlen, hnew, hbody⟩ := W.list_body hinv hmem
          -- The item stays in front of the others, or it is gone.
          obtain ⟨front', hfront⟩ :
              ∃ front', list (body s a) = front' ++ (todo ++ (added ++ new)) := by
            rcases hbody with hbody | hbody
            · refine ⟨front ++ [a], ?_⟩
              rw [hbody, hlist]
              simp
            · refine ⟨front, ?_⟩
              rw [hbody, hlist, List.erase_append_right _ ha]
              simp
          have hinert' : ∀ b ∈ added ++ new, W.inert (body s a) b := by
            intro b hb
            rcases List.mem_append.mp hb with hb | hb
            · refine W.inert_body hinv hmem ?_ (hinert b hb)
              rw [hlist]
              simp [hb]
            · exact hnew b hb
          rw [List.cons_append, List.head?_cons, walk, List.foldl_cons, hnext]
          rcases hrest : todo ++ added with _ | ⟨b, rest⟩
          · -- The walk ends here, even if new items have been put behind this one.
            obtain ⟨rfl, rfl⟩ := List.append_eq_nil_iff.mp hrest
            cases rounds <;> rfl
          · have hhead : (b :: rest).head? = (todo ++ (added ++ new)).head? := by
              rw [← List.append_assoc, hrest, List.cons_append, List.head?_cons, List.head?_cons]
            rw [hhead]
            refine ih hfront (W.inv_body hinv hmem) hinert' ?_
            rw [List.length_append]
            omega

/-- The walk deals with the items of the first list, in order. -/
theorem walk_eq_foldl
    {s : σ} (hinv : W.inv s) {rounds : Nat} (hrounds : (k + 1) * (list s).length ≤ rounds) :
    walk list body rounds s (list s).head? = some ((list s).foldl body s) := by
  have hlist : list s = [] ++ (list s ++ []) := by rw [List.nil_append, List.append_nil]
  have h := W.walk_eq_foldl_of_append hlist hinv (List.forall_mem_nil _)
    (by simpa using hrounds)
  rwa [List.append_nil] at h

end SavedWalk
end Walk
end Torrentkino
