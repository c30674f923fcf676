import Mathlib.Data.List.Basic

/-!
# Byte memory behind a pointer

C code that walks a buffer sees memory relative to a base pointer: one byte at
every offset, whether or not the offset still belongs to the buffer.  This
module fixes that view and the one predicate the parser proofs need, namely
that a byte string lies in memory at a given offset.

A buffer of known content is embedded as `buffer b after`: the bytes of `b`,
followed by whatever else is mapped behind it.
-/

namespace Torrentkino
namespace Memory

/-- A byte string. -/
abbrev Bytes := List UInt8

/-- A statement on bytes can be tested on the numbers below 256. -/
theorem forall_byte
    {P : UInt8 → Prop} (h : ∀ b < 256, P (UInt8.ofNat b)) (c : UInt8) :
    P c := by
  have hc := h c.toNat c.toNat_lt
  rwa [UInt8.ofNat_toNat] at hc

/-- Memory seen from a base pointer. -/
abbrev Mem := Nat → UInt8

/-- The byte string `w` lies in memory at offset `p`. -/
def Holds (mem : Mem) : Nat → Bytes → Prop
  | _, [] => True
  | p, c :: w => mem p = c ∧ Holds mem (p + 1) w

/-- `memcpy`: the `l` bytes from offset `p` on. -/
def copy (mem : Mem) (p l : Nat) : Bytes :=
  (List.range' p l).map mem

/-- Memory whose first bytes are `b`, with `after` mapped behind them. -/
def buffer (b after : Bytes) : Mem :=
  fun i => (b ++ after).getD i 0

/-- Memory after a store of `w` at offset `p`. -/
def write (mem : Mem) (p : Nat) (w : Bytes) : Mem :=
  fun i => if p ≤ i ∧ i < p + w.length then w.getD (i - p) 0 else mem i

section Holds

variable {mem : Mem}

@[simp] theorem holds_nil (p : Nat) : Holds mem p [] := trivial

@[simp] theorem holds_cons
    (p : Nat) (c : UInt8) (w : Bytes) :
    Holds mem p (c :: w) ↔ mem p = c ∧ Holds mem (p + 1) w :=
  Iff.rfl

@[simp] theorem holds_append
    (u v : Bytes) (p : Nat) :
    Holds mem p (u ++ v) ↔
      Holds mem p u ∧ Holds mem (p + u.length) v := by
  induction u generalizing p with
  | nil =>
      simp
  | cons c u ih =>
      simp [ih, and_assoc, Nat.add_assoc, Nat.add_comm 1]

@[simp] theorem copy_length (p l : Nat) : (copy mem p l).length = l := by
  simp [copy]

theorem copy_succ (p l : Nat) :
    copy mem p (l + 1) = mem p :: copy mem (p + 1) l := by
  simp [copy, List.range'_succ]

theorem copy_add (p l n : Nat) :
    copy mem p (l + n) = copy mem p l ++ copy mem (p + l) n := by
  rw [copy, ← List.range'_append_1, List.map_append]
  rfl

/-- What is copied out of memory is what memory holds there. -/
theorem holds_copy (p l : Nat) : Holds mem p (copy mem p l) := by
  induction l generalizing p with
  | zero =>
      simp [copy]
  | succ l ih =>
      rw [copy_succ]
      exact ⟨rfl, ih (p + 1)⟩

/-- Memory holds at most one byte string of each length at an offset. -/
theorem copy_of_holds
    {p : Nat} {w : Bytes}
    (h : Holds mem p w) :
    copy mem p w.length = w := by
  induction w generalizing p with
  | nil =>
      simp [copy]
  | cons c w ih =>
      rw [List.length_cons, copy_succ, ih h.2, h.1]

/-- What is stored somewhere else is not changed. -/
theorem holds_write_of_disjoint
    {p q : Nat} {u : Bytes} (w : Bytes) (hpq : q + u.length ≤ p ∨ p + w.length ≤ q)
    (h : Holds mem q u) :
    Holds (write mem p w) q u := by
  induction u generalizing q with
  | nil =>
      trivial
  | cons c u ih =>
      rw [List.length_cons] at hpq
      refine ⟨?_, ih (by omega) h.2⟩
      rw [write, if_neg (by omega)]
      exact h.1

theorem holds_write_self (mem : Mem) (p : Nat) (w : Bytes) : Holds (write mem p w) p w := by
  suffices h : ∀ (front back : Bytes), w = front ++ back →
      Holds (write mem p w) (p + front.length) back from h [] w rfl
  intro front back
  induction back generalizing front with
  | nil =>
      exact fun _ => trivial
  | cons c back ih =>
      intro hw
      refine ⟨?_, ?_⟩
      · rw [write, if_pos (by rw [hw, List.length_append, List.length_cons]; omega), hw]
        simp
      · have hrest := ih (front ++ [c]) (by rw [hw, List.append_assoc]; rfl)
        rwa [List.length_append, ← Nat.add_assoc] at hrest

end Holds

/-- The bytes of `b` lie at the start of `buffer b after`. -/
theorem holds_buffer_self (b after : Bytes) :
    Holds (buffer b after) 0 b := by
  suffices h : ∀ (pre rest : Bytes),
      Holds (buffer (pre ++ rest) after) pre.length rest from h [] b
  intro pre rest
  induction rest generalizing pre with
  | nil =>
      simp
  | cons c rest ih =>
      refine ⟨by simp [buffer, List.getD_eq_getElem?_getD], ?_⟩
      simpa using ih (pre ++ [c])

/-- A string no longer than the buffer lies at its start iff it is a prefix. -/
theorem holds_buffer_iff_isPrefix
    {b w : Bytes} (after : Bytes) (hlen : w.length ≤ b.length) :
    Holds (buffer b after) 0 w ↔ w <+: b := by
  have hself := holds_buffer_self b after
  constructor
  · intro h
    have hsplit : Holds (buffer b after) 0 (b.take w.length) := by
      have := hself
      rw [← List.take_append_drop w.length b, holds_append] at this
      exact (by simpa using this.1)
    have hw := copy_of_holds h
    have ht := copy_of_holds hsplit
    rw [List.length_take, Nat.min_eq_left hlen] at ht
    rw [← hw, ht]
    exact List.take_prefix _ _
  · rintro ⟨rest, rfl⟩
    exact ((holds_append w rest 0).mp hself).1

/-- The first bytes of a copy. -/
theorem take_copy {mem : Mem} (p : Nat) {l n : Nat} (hl : l ≤ n) :
    (copy mem p n).take l = copy mem p l := by
  rw [copy, copy, ← List.map_take, List.take_range'_of_length_ge hl]

/-- Reading over the end of a buffer gives every string that starts with what is
in the buffer, depending on what lies behind it. -/
theorem exists_copy_buffer_iff (b w : Bytes) :
    (∃ after, copy (buffer b after) 0 w.length = w) ↔ b.take w.length <+: w := by
  have htake : ∀ after, (copy (buffer b after) 0 w.length).take (b.take w.length).length =
      b.take w.length := by
    intro after
    rw [take_copy 0 (List.length_take_le _ _)]
    exact copy_of_holds ((holds_buffer_iff_isPrefix after
      (List.length_take_le' _ _)).mpr (List.take_prefix _ _))
  constructor
  · rintro ⟨after, hcopy⟩
    have h := htake after
    rw [hcopy] at h
    rw [← h]
    exact List.take_prefix _ _
  · rintro ⟨rest, hrest⟩
    refine ⟨rest, ?_⟩
    by_cases hlen : w.length ≤ b.length
    · have h := htake rest
      have hfull : (b.take w.length).length = w.length := by
        rw [List.length_take, Nat.min_eq_left hlen]
      rw [hfull, List.take_of_length_le (Nat.le_of_eq (copy_length _ _))] at h
      have hnil : rest = [] := by
        have := congrArg List.length hrest
        rw [List.length_append, hfull] at this
        exact List.length_eq_zero_iff.mp (by omega)
      rw [hnil, List.append_nil] at hrest
      rw [h, hrest]
    · rw [List.take_of_length_le (by omega)] at hrest
      have hbuffer : buffer b rest = buffer w [] := by
        rw [← hrest]
        funext i
        simp [buffer]
      rw [hbuffer]
      exact copy_of_holds (holds_buffer_self w [])

end Memory
end Torrentkino
