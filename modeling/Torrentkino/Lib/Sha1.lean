import Mathlib.Data.BitVec
import Torrentkino.Lib.BigEndian
import Torrentkino.Lib.BlockHash

/-!
# SHA-1

The hash function as it is specified: the message is padded to whole blocks, the
sixteen words of a block are expanded to eighty, and each of them goes through
one step on five working variables.  Nothing here is optimised.
-/

namespace Torrentkino
namespace Sha1

open Memory BigEndian

abbrev Word := BitVec 32

/-- The low `n` bytes of a number, high byte first. -/
def beBytes : Nat → Nat → Bytes
  | 0, _ => []
  | n + 1, x => UInt8.ofNat (x / 256 ^ n) :: beBytes n x

/-- The bytes of a number in two parts. -/
theorem beBytes_add (m n x : Nat) : beBytes (m + n) x = beBytes m (x / 256 ^ n) ++ beBytes n x := by
  induction m with
  | zero =>
      rw [Nat.zero_add]
      rfl
  | succ m ih =>
      rw [Nat.add_right_comm, beBytes, beBytes, ih, List.cons_append, Nat.div_div_eq_div_mul,
        ← pow_add, Nat.add_comm n m]

/-- Higher bytes do not matter. -/
theorem beBytes_mod (n x : Nat) : beBytes n (x % 256 ^ n) = beBytes n x := by
  suffices h : ∀ k ≤ n, beBytes k (x % 256 ^ n) = beBytes k x from h n (Nat.le_refl n)
  intro k
  induction k with
  | zero =>
      exact fun _ => rfl
  | succ k ih =>
      intro hk
      obtain ⟨j, rfl⟩ := Nat.exists_eq_add_of_le hk
      have hdiv : x % 256 ^ (k + 1 + j) / 256 ^ k % 256 = x / 256 ^ k % 256 := by
        rw [Nat.add_assoc k 1 j, pow_add, Nat.mod_mul_right_div_self,
          Nat.mod_mod_of_dvd _ (Dvd.intro_left (256 ^ j) (by rw [← pow_succ, Nat.add_comm 1 j]))]
      have hbyte : UInt8.ofNat (x % 256 ^ (k + 1 + j) / 256 ^ k) = UInt8.ofNat (x / 256 ^ k) := by
        rw [← UInt8.toNat_inj, UInt8.toNat_ofNat', UInt8.toNat_ofNat']
        exact hdiv
      rw [beBytes, beBytes, ih (by omega), hbyte]

/-- The chaining value, and the working variables. -/
structure Vars where
  a : Word
  b : Word
  c : Word
  d : Word
  e : Word
deriving DecidableEq, Repr

def choose (x y z : Word) : Word :=
  (x &&& y) ||| (~~~x &&& z)

def parity (x y z : Word) : Word :=
  x ^^^ y ^^^ z

def majority (x y z : Word) : Word :=
  (x &&& y) ||| (x &&& z) ||| (y &&& z)

/-- The function of step `t`. -/
def mix (t : Nat) : Word → Word → Word → Word :=
  if t < 20 then choose else if t < 40 then parity else if t < 60 then majority else parity

/-- The constant of step `t`. -/
def constant (t : Nat) : Word :=
  if t < 20 then 0x5a827999#32 else if t < 40 then 0x6ed9eba1#32
  else if t < 60 then 0x8f1bbcdc#32 else 0xca62c1d6#32

/-- Word `t` of a block. -/
def blockWord (block : Bytes) (t : Nat) : Word :=
  BitVec.ofNat 32 (beNat ((block.drop (4 * t)).take 4))

/-- The eighty words that a block is expanded to. -/
def schedule (block : Bytes) (t : Nat) : Word :=
  if t < 16 then blockWord block t
  else
    (schedule block (t - 3) ^^^ schedule block (t - 8) ^^^ schedule block (t - 14) ^^^
      schedule block (t - 16)).rotateLeft 1
termination_by t

/-- Step `t` on the working variables. -/
def step (w : Nat → Word) (v : Vars) (t : Nat) : Vars where
  a := v.a.rotateLeft 5 + mix t v.b v.c v.d + v.e + constant t + w t
  b := v.a
  c := v.b.rotateLeft 30
  d := v.c
  e := v.d

/-- The working variables behind the first `n` steps. -/
def steps (w : Nat → Word) (v : Vars) (n : Nat) : Vars :=
  (List.range n).foldl (step w) v

theorem steps_succ (w : Nat → Word) (v : Vars) (n : Nat) :
    steps w v (n + 1) = step w (steps w v n) n := by
  rw [steps, steps, List.range_succ, List.foldl_append]
  rfl

/-- The sum of the chaining value and the working variables. -/
def Vars.add (h v : Vars) : Vars :=
  ⟨h.a + v.a, h.b + v.b, h.c + v.c, h.d + v.d, h.e + v.e⟩

/-- The hash function without its padding. -/
def blocks : BlockHash UInt8 Vars where
  blockSize := 64
  blockSize_pos := Nat.zero_lt_succ 63
  compress h block := h.add (steps (schedule block) h 80)

def initial : Vars :=
  ⟨0x67452301#32, 0xefcdab89#32, 0x98badcfe#32, 0x10325476#32, 0xc3d2e1f0#32⟩

/-- What is put behind a message of `length` bytes: a bit, then as few zeros as
possible, and the number of bits at the end of a block. -/
def padding (length : Nat) : Bytes :=
  0x80 :: (List.replicate ((119 - length % 64) % 64) 0 ++ beBytes 8 (8 * length))

/-- The words of a chaining value. -/
def Vars.bytes (v : Vars) : Bytes :=
  [v.a, v.b, v.c, v.d, v.e].flatMap fun w => beBytes 4 w.toNat

def digest (m : Bytes) : Bytes :=
  (blocks.absorb initial (m ++ padding m.length)).1.bytes

/-! ## The functions of the steps -/

/-- One operation less than in the definition. -/
theorem choose_eq (x y z : Word) : choose x y z = ((y ^^^ z) &&& x) ^^^ z := by
  ext i hi
  simp only [choose, BitVec.getElem_or, BitVec.getElem_and, BitVec.getElem_not, BitVec.getElem_xor]
  cases x[i] <;> cases y[i] <;> cases z[i] <;> rfl

/-- The two summands have no bit in common. -/
theorem majority_eq (x y z : Word) : majority x y z = (x &&& y) + (z &&& (x ^^^ y)) := by
  have hdisjoint : (x &&& y) &&& (z &&& (x ^^^ y)) = 0#32 := by
    ext i hi
    simp only [BitVec.getElem_and, BitVec.getElem_xor, BitVec.getElem_zero]
    cases x[i] <;> cases y[i] <;> cases z[i] <;> rfl
  rw [BitVec.add_eq_or_of_and_eq_zero _ _ hdisjoint]
  ext i hi
  simp only [majority, BitVec.getElem_or, BitVec.getElem_and, BitVec.getElem_xor]
  cases x[i] <;> cases y[i] <;> cases z[i] <;> rfl

end Sha1
end Torrentkino
