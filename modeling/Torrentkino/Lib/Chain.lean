import Mathlib.Data.List.Induction
import Torrentkino.Lib.Heap

/-!
# Doubly linked chains on the heap

A cell has a payload and two pointers.  `Segment h p xs n` says that the cells
`xs` lie on the heap one after the other, linked both ways, with `p` as the
back pointer of the first and `n` as the forward pointer of the last of them.
Segments are cut at any point by `segment_append`, so that an update of one
cell only touches the segment that ends or starts there.

The two loops that walk a chain, towards its first and towards its last cell,
are here as well.  A walk over more cells than were ever allocated goes round
in a circle; the fuel makes that a result.
-/

namespace Torrentkino

/-- A cell of a doubly linked chain. -/
structure Link (α : Type) where
  val : α
  next : Option Ref
  prev : Option Ref

namespace Chain

variable {α : Type}

/-- The first reference of a segment, or what follows it. -/
def first (n : Option Ref) : List (Ref × α) → Option Ref
  | [] => n
  | x :: _ => some x.1

/-- The last reference of a segment, or what precedes it. -/
def last (p : Option Ref) : List (Ref × α) → Option Ref
  | [] => p
  | x :: xs => last (some x.1) xs

/-- The references of a segment. -/
def refs (xs : List (Ref × α)) : List Ref :=
  xs.map Prod.fst

/-- The cells `xs` are linked both ways between `p` and `n`. -/
def Segment (h : Heap (Link α)) :
    Option Ref → List (Ref × α) → Option Ref → Prop
  | _, [], _ => True
  | p, x :: xs, n =>
      h.get x.1 = some ⟨x.2, first n xs, p⟩ ∧ Segment h (some x.1) xs n

@[simp] theorem refs_nil : refs ([] : List (Ref × α)) = [] := rfl

@[simp] theorem refs_cons (x : Ref × α) (xs : List (Ref × α)) :
    refs (x :: xs) = x.1 :: refs xs := rfl

@[simp] theorem refs_append (xs ys : List (Ref × α)) :
    refs (xs ++ ys) = refs xs ++ refs ys := by
  simp [refs]

@[simp] theorem first_nil (n : Option Ref) : first n ([] : List (Ref × α)) = n :=
  rfl

@[simp] theorem first_cons (n : Option Ref) (x : Ref × α) (xs : List (Ref × α)) :
    first n (x :: xs) = some x.1 := rfl

theorem first_append (n : Option Ref) (xs ys : List (Ref × α)) :
    first n (xs ++ ys) = first (first n ys) xs := by
  cases xs <;> rfl

@[simp] theorem last_nil (p : Option Ref) : last p ([] : List (Ref × α)) = p :=
  rfl

@[simp] theorem last_append (p : Option Ref) (xs ys : List (Ref × α)) :
    last p (xs ++ ys) = last (last p xs) ys := by
  induction xs generalizing p with
  | nil =>
      rfl
  | cons x xs ih =>
      exact ih (some x.1)

@[simp] theorem last_cons_nil (p : Option Ref) (x : Ref × α) :
    last p [x] = some x.1 := rfl

section Segment

variable {h h' : Heap (Link α)}

@[simp] theorem segment_nil (p n : Option Ref) :
    Segment h p ([] : List (Ref × α)) n := trivial

@[simp] theorem segment_cons
    (p n : Option Ref) (x : Ref × α) (xs : List (Ref × α)) :
    Segment h p (x :: xs) n ↔
      h.get x.1 = some ⟨x.2, first n xs, p⟩ ∧ Segment h (some x.1) xs n :=
  Iff.rfl

/-- Two segments make one when their ends name each other. -/
theorem segment_append
    (p n : Option Ref) (xs ys : List (Ref × α)) :
    Segment h p (xs ++ ys) n ↔
      Segment h p xs (first n ys) ∧ Segment h (last p xs) ys n := by
  induction xs generalizing p with
  | nil =>
      simp
  | cons x xs ih =>
      simp only [List.cons_append, segment_cons, first_append, ih, last, and_assoc]

/-- A segment only depends on its own cells. -/
theorem segment_congr
    {p n : Option Ref} {xs : List (Ref × α)}
    (hseg : Segment h p xs n)
    (hsame : ∀ r ∈ refs xs, h'.get r = h.get r) :
    Segment h' p xs n := by
  induction xs generalizing p with
  | nil =>
      trivial
  | cons x xs ih =>
      obtain ⟨hx, hxs⟩ := hseg
      refine ⟨?_, ih hxs ?_⟩
      · rw [hsame x.1 (by simp), hx]
      · intro r hr
        exact hsame r (by simp [hr])

/-- All cells of a segment are live. -/
theorem lt_fresh_of_segment
    {p n : Option Ref} {xs : List (Ref × α)}
    (hseg : Segment h p xs n) :
    ∀ r ∈ refs xs, r < h.fresh := by
  induction xs generalizing p with
  | nil =>
      simp
  | cons x xs ih =>
      intro r hr
      rcases List.mem_cons.mp hr with rfl | hr
      · exact Heap.lt_fresh hseg.1
      · exact ih hseg.2 r hr

/-- The cell in the middle of a segment. -/
theorem get_of_segment
    {p n : Option Ref} {xs ys : List (Ref × α)} {x : Ref × α}
    (hseg : Segment h p (xs ++ x :: ys) n) :
    h.get x.1 = some ⟨x.2, first n ys, last p xs⟩ :=
  ((segment_append p n xs (x :: ys)).mp hseg).2.1

/-- Allocation keeps a segment. -/
theorem segment_alloc
    {p n : Option Ref} {xs : List (Ref × α)} (a : Link α)
    (hseg : Segment h p xs n) :
    Segment (h.alloc a) p xs n := by
  refine segment_congr hseg ?_
  intro r hr
  exact Heap.get_alloc_of_ne h a (Nat.ne_of_lt (lt_fresh_of_segment hseg r hr))

/-- A store elsewhere keeps a segment. -/
theorem segment_modify
    {p n : Option Ref} {xs : List (Ref × α)} {r : Ref} (f : Link α → Link α)
    (hseg : Segment h p xs n) (hr : r ∉ refs xs) :
    Segment (h.modify r f) p xs n := by
  refine segment_congr hseg ?_
  intro q hq
  exact Heap.get_modify_of_ne h f (by rintro rfl; exact hr hq)

/-- Freeing something else keeps a segment. -/
theorem segment_free
    {p n : Option Ref} {xs : List (Ref × α)} {r : Ref}
    (hseg : Segment h p xs n) (hr : r ∉ refs xs) :
    Segment (h.free r) p xs n := by
  refine segment_congr hseg ?_
  intro q hq
  exact Heap.get_free_of_ne h (by rintro rfl; exact hr hq)

/-- Point the cell behind `p`, if any, forward to `n`. -/
def hookNext (h : Heap (Link α)) (p n : Option Ref) : Heap (Link α) :=
  match p with
  | none => h
  | some r => h.modify r fun c => { c with next := n }

/-- Point the cell behind `n`, if any, back to `p`. -/
def hookPrev (h : Heap (Link α)) (n p : Option Ref) : Heap (Link α) :=
  match n with
  | none => h
  | some r => h.modify r fun c => { c with prev := p }

@[simp] theorem fresh_hookNext (h : Heap (Link α)) (p n : Option Ref) :
    (hookNext h p n).fresh = h.fresh := by
  cases p <;> rfl

@[simp] theorem fresh_hookPrev (h : Heap (Link α)) (n p : Option Ref) :
    (hookPrev h n p).fresh = h.fresh := by
  cases n <;> rfl

theorem get_hookNext_of_ne
    (h : Heap (Link α)) {p : Option Ref} (n : Option Ref) {r : Ref}
    (hr : p ≠ some r) :
    (hookNext h p n).get r = h.get r := by
  cases p with
  | none =>
      rfl
  | some q =>
      exact Heap.get_modify_of_ne h _ (by rintro rfl; exact hr rfl)

theorem get_hookPrev_of_ne
    (h : Heap (Link α)) {n : Option Ref} (p : Option Ref) {r : Ref}
    (hr : n ≠ some r) :
    (hookPrev h n p).get r = h.get r := by
  cases n with
  | none =>
      rfl
  | some q =>
      exact Heap.get_modify_of_ne h _ (by rintro rfl; exact hr rfl)

theorem live_hookNext
    {r : Ref} (hr : h.Live r) (p n : Option Ref) :
    (hookNext h p n).Live r := by
  cases p with
  | none =>
      exact hr
  | some q =>
      exact hr.modify q _

theorem live_hookPrev
    {r : Ref} (hr : h.Live r) (n p : Option Ref) :
    (hookPrev h n p).Live r := by
  cases n with
  | none =>
      exact hr
  | some q =>
      exact hr.modify q _

/-- A hook elsewhere keeps a segment. -/
theorem segment_hookNext_of_notMem
    {p n q m : Option Ref} {xs : List (Ref × α)}
    (hseg : Segment h p xs n) (hq : ∀ r ∈ refs xs, q ≠ some r) :
    Segment (hookNext h q m) p xs n :=
  segment_congr hseg fun r hr => get_hookNext_of_ne h m (hq r hr)

/-- A hook elsewhere keeps a segment. -/
theorem segment_hookPrev_of_notMem
    {p n q m : Option Ref} {xs : List (Ref × α)}
    (hseg : Segment h p xs n) (hq : ∀ r ∈ refs xs, q ≠ some r) :
    Segment (hookPrev h q m) p xs n :=
  segment_congr hseg fun r hr => get_hookPrev_of_ne h m (hq r hr)

/-- Redirect the forward pointer at the end of a segment. -/
theorem segment_hookNext
    {n : Option Ref} {xs : List (Ref × α)} (n' : Option Ref)
    (hseg : Segment h none xs n) (hnodup : (refs xs).Nodup) :
    Segment (hookNext h (last none xs) n') none xs n' := by
  rcases List.eq_nil_or_concat xs with rfl | ⟨ys, z, rfl⟩
  · trivial
  · rw [List.concat_eq_append] at *
    rw [segment_append] at hseg ⊢
    obtain ⟨hys, hcell, _⟩ := hseg
    have hz : z.1 ∉ refs ys := by
      intro hmem
      rw [refs_append] at hnodup
      exact (List.nodup_append.mp hnodup).2.2 z.1 hmem z.1 (by simp) rfl
    rw [last_append, last_cons_nil]
    refine ⟨segment_modify _ hys hz, ?_, trivial⟩
    rw [hookNext, Heap.get_modify_self, hcell]
    rfl

/-- Redirect the back pointer at the start of a segment. -/
theorem segment_hookPrev
    {p : Option Ref} {xs : List (Ref × α)} (p' : Option Ref)
    (hseg : Segment h p xs none) (hnodup : (refs xs).Nodup) :
    Segment (hookPrev h (first none xs) p') p' xs none := by
  cases xs with
  | nil =>
      trivial
  | cons x xs =>
      obtain ⟨hcell, hxs⟩ := hseg
      refine ⟨?_, segment_modify _ hxs (List.nodup_cons.mp hnodup).1⟩
      rw [first_cons, hookPrev, Heap.get_modify_self, hcell]
      rfl

/-- The end of a segment is one of its references or what precedes it. -/
theorem last_mem
    {p : Option Ref} {xs : List (Ref × α)} {r : Ref}
    (h : last p xs = some r) :
    r ∈ refs xs ∨ p = some r := by
  induction xs generalizing p with
  | nil =>
      exact .inr h
  | cons x xs ih =>
      rcases ih h with hmem | heq
      · exact .inl (by simp [hmem])
      · exact .inl (by simp [Option.some.inj heq])

/-- The start of a segment is one of its references or what follows it. -/
theorem first_mem
    {n : Option Ref} {xs : List (Ref × α)} {r : Ref}
    (h : first n xs = some r) :
    r ∈ refs xs ∨ n = some r := by
  cases xs with
  | nil =>
      exact .inr h
  | cons x xs =>
      exact .inl (by simp [Option.some.inj h])

theorem live_of_segment
    {p n : Option Ref} {xs : List (Ref × α)}
    (hseg : Segment h p xs n) :
    ∀ r ∈ refs xs, h.Live r := by
  induction xs generalizing p with
  | nil =>
      simp
  | cons x xs ih =>
      intro r hr
      rcases List.mem_cons.mp hr with rfl | hr
      · exact ⟨_, hseg.1⟩
      · exact ih hseg.2 r hr

end Segment

section Walk

variable {h : Heap (Link α)}

/-- The ways a walk over a chain goes wrong. -/
inductive Fault where
  /-- Access through a null pointer. -/
  | null
  /-- Access to an object that was freed. -/
  | freed (r : Ref)
  /-- The loop does not end. -/
  | circular
deriving DecidableEq, Repr

/-- Access the cell behind a pointer. -/
def deref (h : Heap (Link α)) : Option Ref → Except Fault (Link α)
  | none => .error .null
  | some r =>
      match h.get r with
      | none => .error (.freed r)
      | some c => .ok c

/-- Assign the forward pointer of the cell behind a pointer. -/
def storeNext (h : Heap (Link α)) (p n : Option Ref) :
    Except Fault (Heap (Link α)) :=
  match p with
  | none => .error .null
  | some r =>
      match h.get r with
      | none => .error (.freed r)
      | some _ => .ok (h.modify r fun c => { c with next := n })

/-- Assign the back pointer of the cell behind a pointer. -/
def storePrev (h : Heap (Link α)) (p n : Option Ref) :
    Except Fault (Heap (Link α)) :=
  match p with
  | none => .error .null
  | some r =>
      match h.get r with
      | none => .error (.freed r)
      | some _ => .ok (h.modify r fun c => { c with prev := n })

/-- Follow the back pointers to the first cell. -/
def walkBack (h : Heap (Link α)) : Nat → Ref → Except Fault Ref
  | 0, _ => .error .circular
  | fuel + 1, r => do
      let c ← deref h (some r)
      match c.prev with
      | none => .ok r
      | some p => walkBack h fuel p

/-- Follow the forward pointers to the last cell. -/
def walkForth (h : Heap (Link α)) : Nat → Ref → Except Fault Ref
  | 0, _ => .error .circular
  | fuel + 1, r => do
      let c ← deref h (some r)
      match c.next with
      | none => .ok r
      | some n => walkForth h fuel n

theorem deref_of_get
    {r : Ref} {c : Link α} (hr : h.get r = some c) :
    deref h (some r) = .ok c := by
  simp [deref, hr]

/-- Assignments through live pointers are hooks. -/
theorem storeNext_of_live
    {r : Ref} (n : Option Ref) (hr : h.Live r) :
    storeNext h (some r) n = .ok (hookNext h (some r) n) := by
  obtain ⟨c, hc⟩ := hr
  simp [storeNext, hookNext, hc]

/-- Assignments through live pointers are hooks. -/
theorem storePrev_of_live
    {r : Ref} (p : Option Ref) (hr : h.Live r) :
    storePrev h (some r) p = .ok (hookPrev h (some r) p) := by
  obtain ⟨c, hc⟩ := hr
  simp [storePrev, hookPrev, hc]

theorem walkBack_of_get
    {r : Ref} {c : Link α} (fuel : Nat) (hr : h.get r = some c) :
    walkBack h (fuel + 1) r =
      match c.prev with
      | none => .ok r
      | some p => walkBack h fuel p := by
  rw [walkBack, deref_of_get hr]
  rfl

theorem walkForth_of_get
    {r : Ref} {c : Link α} (fuel : Nat) (hr : h.get r = some c) :
    walkForth h (fuel + 1) r =
      match c.next with
      | none => .ok r
      | some n => walkForth h fuel n := by
  rw [walkForth, deref_of_get hr]
  rfl

/-- From any cell the walk back ends at the first cell of the chain. -/
theorem walkBack_of_segment
    {c : Ref × α} {cs : List (Ref × α)} {n : Option Ref} {r : Ref} {fuel : Nat}
    (hseg : Segment h none (c :: cs) n)
    (hr : r ∈ refs (c :: cs))
    (hfuel : cs.length < fuel) :
    walkBack h fuel r = .ok c.1 := by
  -- induction on the cells before `r`
  have hwalk : ∀ (xs ys : List (Ref × α)) (x : Ref × α) (fuel : Nat),
      c :: cs = xs ++ x :: ys → xs.length < fuel →
      walkBack h fuel x.1 = .ok c.1 := by
    intro xs
    induction xs using List.reverseRecOn with
    | nil =>
        intro ys x fuel hsplit hfuel
        obtain ⟨k, rfl⟩ := Nat.exists_eq_add_of_lt hfuel
        cases hsplit
        rw [walkBack_of_get _ hseg.1]
    | append_singleton xs z ih =>
        intro ys x fuel hsplit hfuel
        obtain ⟨k, rfl⟩ := Nat.exists_eq_add_of_lt hfuel
        rw [hsplit] at hseg
        rw [walkBack_of_get _ (get_of_segment hseg)]
        simpa using ih (x :: ys) z (xs.length + 1 + k) (by simpa using hsplit)
          (by omega)
  obtain ⟨x, hx, rfl⟩ := List.mem_map.mp hr
  obtain ⟨xs, ys, hsplit⟩ := List.append_of_mem hx
  refine hwalk xs ys x fuel hsplit ?_
  have := congrArg List.length hsplit
  simp at this
  omega

/-- From any cell the walk forth ends at the last cell of the chain. -/
theorem walkForth_of_segment
    {c : Ref × α} {cs : List (Ref × α)} {p : Option Ref} {r : Ref} {fuel : Nat}
    (hseg : Segment h p (cs ++ [c]) none)
    (hr : r ∈ refs (cs ++ [c]))
    (hfuel : cs.length < fuel) :
    walkForth h fuel r = .ok c.1 := by
  -- induction on the cells behind `r`
  have hwalk : ∀ (ys xs : List (Ref × α)) (x : Ref × α) (fuel : Nat),
      cs ++ [c] = xs ++ x :: ys → ys.length < fuel →
      walkForth h fuel x.1 = .ok c.1 := by
    intro ys
    induction ys with
    | nil =>
        intro xs x fuel hsplit hfuel
        obtain ⟨k, rfl⟩ := Nat.exists_eq_add_of_lt hfuel
        obtain ⟨rfl, hx⟩ := List.append_inj' hsplit rfl
        cases hx
        rw [walkForth_of_get _ (get_of_segment hseg)]
        rfl
    | cons z ys ih =>
        intro xs x fuel hsplit hfuel
        obtain ⟨k, rfl⟩ := Nat.exists_eq_add_of_lt hfuel
        rw [hsplit] at hseg
        rw [walkForth_of_get _ (get_of_segment hseg)]
        exact ih (xs ++ [x]) z _ (by simpa using hsplit) (by simp; omega)
  obtain ⟨x, hx, rfl⟩ := List.mem_map.mp hr
  obtain ⟨xs, ys, hsplit⟩ := List.append_of_mem hx
  refine hwalk ys xs x fuel hsplit ?_
  have := congrArg List.length hsplit
  simp at this
  omega

end Walk

/-- A chain has no more cells than were ever allocated. -/
theorem length_le_fresh
    {h : Heap (Link α)} {p n : Option Ref} {xs : List (Ref × α)}
    (hseg : Segment h p xs n) (hnodup : (refs xs).Nodup) :
    xs.length ≤ h.fresh := by
  have hsub : refs xs ⊆ List.range h.fresh := by
    intro r hr
    exact List.mem_range.mpr (lt_fresh_of_segment hseg r hr)
  have := hnodup.length_le_of_subset hsub
  simpa [refs] using this

end Chain
end Torrentkino
