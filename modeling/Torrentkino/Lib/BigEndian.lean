import Mathlib.Tactic.Ring
import Torrentkino.Lib.Memory

/-!
# Byte strings as big endian numbers

Identifiers are compared with `memcmp` and changed bit by bit, but what the
comparisons and the bits are about is the number that the bytes spell.  For
strings of equal length `memcmp` is the order of these numbers, a string is
determined by its number, and setting a clear bit adds its weight.
-/

namespace Torrentkino
namespace BigEndian

open Memory

/-- The number a byte string spells, high byte first. -/
def beNat : Bytes → Nat
  | [] => 0
  | c :: b => c.toNat * 256 ^ b.length + beNat b

/-- `memcmp(a, b, n) < 0` for two strings of the same length. -/
def memcmpLt : Bytes → Bytes → Bool
  | c :: a, d :: b =>
      if c < d then true else if d < c then false else memcmpLt a b
  | _, _ => false

theorem beNat_lt (b : Bytes) : beNat b < 256 ^ b.length := by
  induction b with
  | nil =>
      simp [beNat]
  | cons c b ih =>
      have hc := c.toNat_lt
      calc beNat (c :: b)
          < c.toNat * 256 ^ b.length + 256 ^ b.length := by
            rw [beNat]
            omega
        _ = (c.toNat + 1) * 256 ^ b.length := by ring
        _ ≤ 256 * 256 ^ b.length := Nat.mul_le_mul_right _ (by omega)
        _ = 256 ^ (c :: b).length := by
            rw [List.length_cons]
            ring

theorem beNat_append (a b : Bytes) :
    beNat (a ++ b) = beNat a * 256 ^ b.length + beNat b := by
  induction a with
  | nil =>
      simp [beNat]
  | cons c a ih =>
      simp only [List.cons_append, beNat, ih, List.length_append, pow_add]
      ring

@[simp] theorem beNat_replicate_zero (n : Nat) :
    beNat (List.replicate n 0) = 0 := by
  induction n with
  | zero =>
      rfl
  | succ n ih =>
      simp [List.replicate_succ, beNat, ih]

/-- A different leading byte decides the order of the numbers. -/
theorem beNat_cons_lt
    {c d : UInt8} {a b : Bytes} (hlen : a.length = b.length) (hcd : c < d) :
    beNat (c :: a) < beNat (d :: b) := by
  have hlt : c.toNat + 1 ≤ d.toNat := hcd
  have ha := beNat_lt a
  calc beNat (c :: a)
      < (c.toNat + 1) * 256 ^ b.length := by
        rw [beNat, ← hlen, Nat.add_mul]
        omega
    _ ≤ d.toNat * 256 ^ b.length := Nat.mul_le_mul_right _ hlt
    _ ≤ beNat (d :: b) := by
        rw [beNat]
        omega

theorem byte_trichotomy (c d : UInt8) : c < d ∨ c = d ∨ d < c := by
  rcases Nat.lt_trichotomy c.toNat d.toNat with h | h | h
  · exact .inl h
  · exact .inr (.inl (UInt8.toNat_inj.mp h))
  · exact .inr (.inr h)

/-- `memcmp` orders strings of equal length by their numbers. -/
theorem memcmpLt_iff
    {a b : Bytes} (hlen : a.length = b.length) :
    memcmpLt a b = true ↔ beNat a < beNat b := by
  induction a generalizing b with
  | nil =>
      cases b with
      | nil =>
          simp [memcmpLt, beNat]
      | cons d b =>
          simp at hlen
  | cons c a ih =>
      cases b with
      | nil =>
          simp at hlen
      | cons d b =>
          have hlen' : a.length = b.length := by
            simpa using hlen
          rcases byte_trichotomy c d with hlt | rfl | hgt
          · simp [memcmpLt, hlt, beNat_cons_lt hlen' hlt]
          · simp [memcmpLt, beNat, hlen', ih hlen']
          · have hle := beNat_cons_lt hlen'.symm hgt
            have hnlt : ¬ c < d := UInt8.lt_asymm hgt
            simp only [memcmpLt, hgt, hnlt, if_true, if_false]
            simp
            omega

/-- Strings of equal length are equal when their numbers are. -/
theorem beNat_inj
    {a b : Bytes} (hlen : a.length = b.length) (h : beNat a = beNat b) :
    a = b := by
  induction a generalizing b with
  | nil =>
      cases b with
      | nil =>
          rfl
      | cons d b =>
          simp at hlen
  | cons c a ih =>
      cases b with
      | nil =>
          simp at hlen
      | cons d b =>
          have hlen' : a.length = b.length := by
            simpa using hlen
          rcases byte_trichotomy c d with hlt | rfl | hgt
          · have := beNat_cons_lt hlen' hlt
            omega
          · rw [beNat, beNat, hlen'] at h
            rw [ih hlen' (by omega)]
          · have := beNat_cons_lt hlen'.symm hgt
            omega

/-! ## Single bits -/

/-- The weight of bit `j` of a byte, counted from the high end. -/
theorem toNat_shift_of_lt :
    ∀ j < 8, ((0x80 : UInt8) >>> UInt8.ofNat j).toNat = 2 ^ (7 - j) := by
  decide

/-- Setting a bit of a byte that has only higher bits adds its weight. -/
theorem toNat_or_shift
    {c : UInt8} {j : Nat} (hj : j < 8) (hc : c.toNat % 2 ^ (8 - j) = 0) :
    (c ||| (0x80 : UInt8) >>> UInt8.ofNat j).toNat = c.toNat + 2 ^ (7 - j) := by
  obtain ⟨q, hq⟩ := Nat.dvd_of_mod_eq_zero hc
  have hlt : 2 ^ (7 - j) < 2 ^ (8 - j) :=
    Nat.pow_lt_pow_right (by omega) (by omega)
  have hshift : c.toNat = q <<< (8 - j) := by
    rw [hq, Nat.shiftLeft_eq, Nat.mul_comm]
  rw [UInt8.toNat_or, toNat_shift_of_lt j hj, hshift,
    Nat.shiftLeft_add_eq_or_of_lt hlt]

/-- A string that ends in zero bytes behind a byte with lowest bit `j`. -/
theorem beNat_lowestBit
    {u w : Bytes} {c : UInt8} {j q : Nat} (hj : j < 8)
    (hw : beNat w = 0) (hc : c.toNat = (2 * q + 1) * 2 ^ (7 - j)) :
    beNat (u ++ c :: w) =
      (2 * (beNat u * 2 ^ j + q) + 1) * 2 ^ (7 - j + 8 * w.length) := by
  have hbyte : 2 ^ (j + 1) * 2 ^ (7 - j) = 256 := by
    rw [← pow_add, show j + 1 + (7 - j) = 8 by omega]
    rfl
  have hpow : (256 : Nat) ^ w.length = 2 ^ (8 * w.length) := by
    rw [Nat.pow_mul]
  calc beNat (u ++ c :: w)
      = (beNat u * 256 + c.toNat) * 2 ^ (8 * w.length) := by
        rw [beNat_append, beNat, hw, List.length_cons, pow_succ, hpow]
        ring
    _ = (beNat u * (2 ^ (j + 1) * 2 ^ (7 - j)) + (2 * q + 1) * 2 ^ (7 - j)) *
          2 ^ (8 * w.length) := by
        rw [hbyte, hc]
    _ = (2 * (beNat u * 2 ^ j + q) + 1) * 2 ^ (7 - j + 8 * w.length) := by
        rw [pow_add 2 (7 - j)]
        ring

/-- Setting a bit of a string that has only higher bits adds its weight. -/
theorem beNat_setBit
    {u w : Bytes} {c : UInt8} {j : Nat} (hj : j < 8)
    (hdvd : 2 ^ (8 * w.length + (8 - j)) ∣ beNat (u ++ c :: w)) :
    beNat (u ++ (c ||| (0x80 : UInt8) >>> UInt8.ofNat j) :: w) =
      beNat (u ++ c :: w) + 2 ^ (8 * w.length + (7 - j)) := by
  have hpow : (256 : Nat) ^ w.length = 2 ^ (8 * w.length) := by
    rw [Nat.pow_mul]
  -- the bytes behind `c` are zero, and `c` has only bits above bit `j`
  have hw : beNat w = 0 := by
    have hdvd' : 256 ^ w.length ∣ beNat w := by
      have h₁ : 256 ^ w.length ∣ beNat (u ++ c :: w) := by
        rw [hpow]
        exact dvd_trans (Nat.pow_dvd_pow 2 (by omega)) hdvd
      have hsplit : beNat (u ++ c :: w) =
          256 ^ w.length * (beNat u * 256 + c.toNat) + beNat w := by
        rw [beNat_append, beNat, List.length_cons, pow_succ]
        ring
      rw [hsplit] at h₁
      exact (Nat.dvd_add_right (Nat.dvd_mul_right _ _)).mp h₁
    exact Nat.eq_zero_of_dvd_of_lt hdvd' (beNat_lt w)
  have hc : c.toNat % 2 ^ (8 - j) = 0 := by
    have h₂ : 2 ^ (8 - j) ∣ beNat u * 256 + c.toNat := by
      have : beNat (u ++ c :: w) = (beNat u * 256 + c.toNat) * 2 ^ (8 * w.length) := by
        rw [beNat_append, beNat, List.length_cons, hw, pow_succ, hpow]
        ring
      rw [this, Nat.pow_add, Nat.mul_comm (2 ^ (8 * w.length))] at hdvd
      exact Nat.dvd_of_mul_dvd_mul_right (Nat.two_pow_pos _) hdvd
    have h₃ : 2 ^ (8 - j) ∣ beNat u * 256 :=
      Dvd.dvd.mul_left (Nat.pow_dvd_pow 2 (by omega : 8 - j ≤ 8)) _
    exact Nat.mod_eq_zero_of_dvd ((Nat.dvd_add_right h₃).mp h₂)
  rw [beNat_append, beNat_append, beNat, beNat, toNat_or_shift hj hc, hpow,
    Nat.pow_add 2 (8 * w.length)]
  simp only [List.length_cons]
  ring

end BigEndian
end Torrentkino
