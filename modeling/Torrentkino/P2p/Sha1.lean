import Torrentkino.Lib.Sha1
import Torrentkino.P2p.NodeUdp

/-!
# `ext/sha1-linus.c` and `p2p/sha1.c`

The routine keeps sixteen of the eighty words of a block at a time, renames the
registers instead of moving them, compresses blocks where they lie in the data,
and keeps the rest of the data in a buffer.

**Results.**
* `blkSha1Block_eq`: a block is compressed as SHA-1 compresses it.
* `blkSha1Final_updates`: however the data is cut into pieces, the hash is that
  of the whole data, and nothing is written behind the buffer.
* `sha1Hash_eq`: the hash function of the daemon.
-/

namespace Torrentkino

open Memory BigEndian Sha1

/-! ## One block -/

/-- The registers of `blk_SHA1_Block`. -/
inductive Reg where
  | A
  | B
  | C
  | D
  | E
deriving DecidableEq, Repr

/-- The registers, and `array`. -/
structure Rounds where
  regs : Vars
  array : Vector Word 16

namespace Rounds

def get (s : Rounds) : Reg → Word
  | .A => s.regs.a
  | .B => s.regs.b
  | .C => s.regs.c
  | .D => s.regs.d
  | .E => s.regs.e

def set (s : Rounds) (r : Reg) (x : Word) : Rounds :=
  match r with
  | .A => { s with regs := { s.regs with a := x } }
  | .B => { s with regs := { s.regs with b := x } }
  | .C => { s with regs := { s.regs with c := x } }
  | .D => { s with regs := { s.regs with d := x } }
  | .E => { s with regs := { s.regs with e := x } }

/-- `W(x)` -/
def w (s : Rounds) (x : Nat) : Word :=
  s.array.get (Fin.ofNat 16 x)

/-- `setW` -/
def setW (s : Rounds) (x : Nat) (val : Word) : Rounds :=
  { s with array := s.array.set (Fin.ofNat 16 x).val val (Fin.ofNat 16 x).isLt }

end Rounds

/-- `get_be32` -/
def getBe32 (p : Bytes) : Word :=
  BitVec.ofNat 32 (beNat (p.take 4))

/-- `SHA_SRC` -/
def shaSrc (block : Bytes) (_ : Rounds) (t : Nat) : Word :=
  getBe32 (block.drop (t * 4))

/-- `SHA_MIX` -/
def shaMix (s : Rounds) (t : Nat) : Word :=
  (s.w (t + 13) ^^^ s.w (t + 8) ^^^ s.w (t + 2) ^^^ s.w t).rotateLeft 1

/-- `SHA_ROUND` -/
def shaRound (t : Nat) (input : Rounds → Nat → Word) (fn : Word → Word → Word → Word)
    (constant : Word) (a b c d e : Reg) (s : Rounds) : Rounds :=
  let temp := input s t
  let s := s.setW t temp
  let s := s.set e (s.get e +
    (temp + (s.get a).rotateLeft 5 + fn (s.get b) (s.get c) (s.get d) + constant))
  s.set b ((s.get b).rotateRight 2)

/-- `T_0_15` -/
def t0_15 (block : Bytes) (t : Nat) : Reg → Reg → Reg → Reg → Reg → Rounds → Rounds :=
  shaRound t (shaSrc block) (fun b c d => ((c ^^^ d) &&& b) ^^^ d) 0x5a827999#32

/-- `T_16_19` -/
def t16_19 (t : Nat) : Reg → Reg → Reg → Reg → Reg → Rounds → Rounds :=
  shaRound t shaMix (fun b c d => ((c ^^^ d) &&& b) ^^^ d) 0x5a827999#32

/-- `T_20_39` -/
def t20_39 (t : Nat) : Reg → Reg → Reg → Reg → Reg → Rounds → Rounds :=
  shaRound t shaMix (fun b c d => b ^^^ c ^^^ d) 0x6ed9eba1#32

/-- `T_40_59` -/
def t40_59 (t : Nat) : Reg → Reg → Reg → Reg → Reg → Rounds → Rounds :=
  shaRound t shaMix (fun b c d => (b &&& c) + (d &&& (b ^^^ c))) 0x8f1bbcdc#32

/-- `T_60_79` -/
def t60_79 (t : Nat) : Reg → Reg → Reg → Reg → Reg → Rounds → Rounds :=
  shaRound t shaMix (fun b c d => b ^^^ c ^^^ d) 0xca62c1d6#32

/-- The macro of line `t` of `blk_SHA1_Block`. -/
def shaMacro (block : Bytes) (t : Nat) : Reg → Reg → Reg → Reg → Reg → Rounds → Rounds :=
  if t < 16 then t0_15 block t
  else if t < 20 then t16_19 t
  else if t < 40 then t20_39 t
  else if t < 60 then t40_59 t
  else t60_79 t

/-- Line `t`: from one line to the next the arguments move on by one. -/
def shaLine (block : Bytes) (s : Rounds) (t : Nat) : Rounds :=
  match t % 5 with
  | 0 => shaMacro block t .A .B .C .D .E s
  | 1 => shaMacro block t .E .A .B .C .D s
  | 2 => shaMacro block t .D .E .A .B .C s
  | 3 => shaMacro block t .C .D .E .A .B s
  | _ => shaMacro block t .B .C .D .E .A s

/-- `blk_SHA_CTX`.  The memory of `W` is seen as bytes. -/
structure BlkShaCtx where
  size : BitVec 64
  H : Vars
  W : Mem

section Block

variable (array : Vector Word 16)

/-- `blk_SHA1_Block`.  `array` is what lies on the stack. -/
def blkSha1Block (ctx : BlkShaCtx) (block : Bytes) : BlkShaCtx :=
  let s := (List.range 80).foldl (shaLine block) ⟨ctx.H, array⟩
  { ctx with
    H :=
      { a := ctx.H.a + s.get .A
        b := ctx.H.b + s.get .B
        c := ctx.H.c + s.get .C
        d := ctx.H.d + s.get .D
        e := ctx.H.e + s.get .E } }

/-! ## The stream -/

/-- `blk_SHA1_Init` -/
def blkSha1Init (ctx : BlkShaCtx) : BlkShaCtx :=
  { ctx with
    size := 0
    H := ⟨0x67452301#32, 0xefcdab89#32, 0x98badcfe#32, 0x10325476#32, 0xc3d2e1f0#32⟩ }

/-- The loop of `blk_SHA1_Update`, with a bound for its rounds. -/
def blkSha1Loop : Nat → BlkShaCtx → Bytes → BlkShaCtx × Bytes
  | 0, ctx, data => (ctx, data)
  | fuel + 1, ctx, data =>
      if data.length ≥ 64 then
        blkSha1Loop fuel (blkSha1Block array ctx (data.take 64)) (data.drop 64)
      else (ctx, data)

/-- The part of `blk_SHA1_Update` that starts with an empty buffer. -/
def blkSha1Blocks (ctx : BlkShaCtx) (data : Bytes) : BlkShaCtx :=
  let (ctx, data) := blkSha1Loop array data.length ctx data
  if data.length ≠ 0 then { ctx with W := write ctx.W 0 data } else ctx

/-- `blk_SHA1_Update` -/
def blkSha1Update (ctx : BlkShaCtx) (data : Bytes) : BlkShaCtx :=
  let lenW := (ctx.size &&& 63).toNat
  let ctx := { ctx with size := ctx.size + BitVec.ofNat 64 data.length }
  if lenW ≠ 0 then
    let left := if data.length < 64 - lenW then data.length else 64 - lenW
    let ctx := { ctx with W := write ctx.W lenW (data.take left) }
    let lenW := (lenW + left) &&& 63
    if lenW ≠ 0 then ctx
    else blkSha1Blocks array (blkSha1Block array ctx (copy ctx.W 0 64)) (data.drop left)
  else blkSha1Blocks array ctx data

/-- `put_be32`, and the bytes of a word that went through `htonl`. -/
def putBe32 (v : Word) : Bytes :=
  beBytes 4 v.toNat

/-- `pad` of `blk_SHA1_Final` -/
def shaPad : Bytes :=
  0x80 :: List.replicate 63 0

/-- `blk_SHA1_Final`: the hash, and the context that is left. -/
def blkSha1Final (ctx : BlkShaCtx) : Bytes × BlkShaCtx :=
  let padlen := putBe32 ((ctx.size >>> 29).setWidth 32) ++ putBe32 ((ctx.size <<< 3).setWidth 32)
  let i : BitVec 32 := (ctx.size &&& 63).setWidth 32
  let ctx := blkSha1Update array ctx (shaPad.take (1 + (63 &&& (55 - i))).toNat)
  let ctx := blkSha1Update array ctx padlen
  (putBe32 ctx.H.a ++ putBe32 ctx.H.b ++ putBe32 ctx.H.c ++ putBe32 ctx.H.d ++ putBe32 ctx.H.e,
    ctx)

/-- `sha1_hash`.  `c` is what lies on the stack. -/
def sha1Hash (c : BlkShaCtx) (buffer : Bytes) : Bytes :=
  (blkSha1Final array (blkSha1Update array (blkSha1Init c) buffer)).1

end Block

/-! ## The lines of a block -/

/-- The registers in the order in which line `t` names them. -/
def Rounds.view (s : Rounds) (t : Nat) : Vars :=
  match t % 5 with
  | 0 => ⟨s.get .A, s.get .B, s.get .C, s.get .D, s.get .E⟩
  | 1 => ⟨s.get .E, s.get .A, s.get .B, s.get .C, s.get .D⟩
  | 2 => ⟨s.get .D, s.get .E, s.get .A, s.get .B, s.get .C⟩
  | 3 => ⟨s.get .C, s.get .D, s.get .E, s.get .A, s.get .B⟩
  | _ => ⟨s.get .B, s.get .C, s.get .D, s.get .E, s.get .A⟩

theorem Rounds.w_setW (s : Rounds) (x y : Nat) (val : Word) :
    (s.setW x val).w y = if x % 16 = y % 16 then val else s.w y :=
  Vector.getElem_set (Fin.ofNat 16 x).isLt (Fin.ofNat 16 y).isLt

/-- All lines are one macro with the function and the constant of the step. -/
theorem shaMacro_eq (block : Bytes) (t : Nat) :
    shaMacro block t =
      shaRound t (fun s t => if t < 16 then shaSrc block s t else shaMix s t) (mix t)
        (Sha1.constant t) := by
  have hinput : ∀ input : Rounds → Nat → Word, (∀ s, input s t =
      if t < 16 then shaSrc block s t else shaMix s t) → ∀ fn constant,
      shaRound t input fn constant =
        shaRound t (fun s t => if t < 16 then shaSrc block s t else shaMix s t) fn constant := by
    intro input h fn constant
    funext a b c d e s
    simp only [shaRound, h]
  have hchoose : (fun b c d : Word => ((c ^^^ d) &&& b) ^^^ d) = choose := by
    funext b c d
    exact (choose_eq b c d).symm
  have hmajority : (fun b c d : Word => (b &&& c) + (d &&& (b ^^^ c))) = majority := by
    funext b c d
    exact (majority_eq b c d).symm
  by_cases h16 : t < 16
  · have h20 : t < 20 := by omega
    rw [shaMacro, if_pos h16, t0_15, hinput _ (fun s => (if_pos h16).symm), hchoose, mix,
      if_pos h20, Sha1.constant, if_pos h20]
  rw [shaMacro, if_neg h16]
  by_cases h20 : t < 20
  · rw [if_pos h20, t16_19, hinput _ (fun s => (if_neg h16).symm), hchoose, mix, if_pos h20,
      Sha1.constant, if_pos h20]
  rw [if_neg h20, mix, if_neg h20, Sha1.constant, if_neg h20]
  by_cases h40 : t < 40
  · rw [if_pos h40, t20_39, hinput _ (fun s => (if_neg h16).symm), if_pos h40, if_pos h40]
    rfl
  rw [if_neg h40, if_neg h40, if_neg h40]
  by_cases h60 : t < 60
  · rw [if_pos h60, t40_59, hinput _ (fun s => (if_neg h16).symm), hmajority, if_pos h60,
      if_pos h60]
  · rw [if_neg h60, t60_79, hinput _ (fun s => (if_neg h16).symm), if_neg h60, if_neg h60]
    rfl

/-- Turning two bits to the right is turning thirty to the left. -/
theorem rotateRight_two (x : Word) : x.rotateRight 2 = x.rotateLeft 30 := by
  ext i hi
  simp [BitVec.getElem_rotateRight, BitVec.getElem_rotateLeft]

/-- The sum that goes into a register, in the order of the definition. -/
theorem sum_eq (a f e k w : Word) : e + (w + a + f + k) = a + f + e + k + w := by
  ring

/-- A line writes one word, and changes the registers as a step does. -/
theorem shaLine_spec
    (block : Bytes) (s : Rounds) (t : Nat) {x : Word}
    (hx : (if t < 16 then shaSrc block s t else shaMix s t) = x) :
    (shaLine block s t).array = (s.setW t x).array ∧
      (shaLine block s t).view (t + 1) = step (fun _ => x) (s.view t) t := by
  have hmod : t % 5 < 5 := Nat.mod_lt t (by omega)
  rw [shaLine, shaMacro_eq, Rounds.view, Rounds.view]
  obtain ⟨h, h'⟩ | ⟨h, h'⟩ | ⟨h, h'⟩ | ⟨h, h'⟩ | ⟨h, h'⟩ :
      t % 5 = 0 ∧ (t + 1) % 5 = 1 ∨ t % 5 = 1 ∧ (t + 1) % 5 = 2 ∨
        t % 5 = 2 ∧ (t + 1) % 5 = 3 ∨ t % 5 = 3 ∧ (t + 1) % 5 = 4 ∨
        t % 5 = 4 ∧ (t + 1) % 5 = 0 := by
    omega
  all_goals
    simp only [h, h', shaRound, hx, Rounds.get, Rounds.set, Rounds.setW, step, rotateRight_two,
      sum_eq, and_self]

/-- The lines up to `n`: the registers are the working variables, and `array`
holds the last sixteen words. -/
theorem shaLines_spec (block : Bytes) (s : Rounds) (n : Nat) :
    ((List.range n).foldl (shaLine block) s).view n = steps (schedule block) s.regs n ∧
      ∀ t, t < n → n ≤ t + 16 →
        ((List.range n).foldl (shaLine block) s).w t = schedule block t := by
  induction n with
  | zero =>
      exact ⟨rfl, fun t ht => absurd ht (Nat.not_lt_zero t)⟩
  | succ n ih =>
      obtain ⟨hview, hwords⟩ := ih
      rw [List.range_succ, List.foldl_append, List.foldl_cons, List.foldl_nil]
      generalize (List.range n).foldl (shaLine block) s = s₁ at hview hwords ⊢
      have hx : (if n < 16 then shaSrc block s₁ n else shaMix s₁ n) = schedule block n := by
        rw [schedule]
        by_cases hn : n < 16
        · rw [if_pos hn, if_pos hn, shaSrc, getBe32, blockWord, Nat.mul_comm]
        · -- The four words are still there, three, eight, fourteen and sixteen lines ago.
          have hw : ∀ k j, k + j = 16 → 0 < j → s₁.w (n + k) = schedule block (n - j) := by
            intro k j hkj hj
            have hsame : s₁.w (n + k) = s₁.w (n - j) := by
              have hmod : (n + k) % 16 = (n - j) % 16 := by omega
              rw [Rounds.w, Rounds.w]
              exact congrArg s₁.array.get (Fin.ext hmod)
            rw [hsame, hwords _ (by omega) (by omega)]
          have h0 : s₁.w n = schedule block (n - 16) := hw 0 16 rfl (by omega)
          rw [if_neg hn, if_neg hn, shaMix, hw 13 3 rfl (by omega), hw 8 8 rfl (by omega),
            hw 2 14 rfl (by omega), h0]
      obtain ⟨harray, hstep⟩ := shaLine_spec block s₁ n hx
      refine ⟨?_, fun t ht htn => ?_⟩
      · rw [hstep, hview, steps_succ]
        rfl
      · have hw : (shaLine block s₁ n).w t = (s₁.setW n (schedule block n)).w t := by
          rw [Rounds.w, Rounds.w, harray]
        rw [hw, Rounds.w_setW]
        rcases Nat.lt_succ_iff_lt_or_eq.mp ht with hlt | rfl
        · rw [if_neg (by omega), hwords t hlt (by omega)]
        · rw [if_pos rfl]

section Block

variable (array : Vector Word 16)

/-- `blk_SHA1_Block` compresses a block as SHA-1 does, whatever lies in its
`array` before. -/
theorem blkSha1Block_eq (ctx : BlkShaCtx) (block : Bytes) :
    blkSha1Block array ctx block = { ctx with H := Sha1.blocks.compress ctx.H block } := by
  have hview := (shaLines_spec block ⟨ctx.H, array⟩ 80).1
  rw [blkSha1Block, Sha1.blocks]
  simp only [← hview]
  rfl

/-! ## The buffer -/

/-- The context after the message `m`. -/
structure BlkShaCtx.Absorbed (ctx : BlkShaCtx) (m : Bytes) : Prop where
  size : ctx.size = BitVec.ofNat 64 m.length
  H : ctx.H = (Sha1.blocks.absorb initial m).1
  W : copy ctx.W 0 (m.length % 64) = (Sha1.blocks.absorb initial m).2

theorem absorbed_init (c : BlkShaCtx) : (blkSha1Init c).Absorbed [] := by
  refine ⟨rfl, ?_, ?_⟩
  · rw [BlockHash.absorb_nil]
    rfl
  · rw [BlockHash.absorb_nil]
    rfl

theorem copy_write_self (mem : Mem) (p : Nat) (w : Bytes) : copy (write mem p w) p w.length = w :=
  copy_of_holds (holds_write_self mem p w)

/-- What lies in front of a store is not changed. -/
theorem copy_write_before {mem : Mem} {p q l : Nat} (w : Bytes) (h : q + l ≤ p) :
    copy (write mem p w) q l = copy mem q l := by
  have hholds : Holds (write mem p w) q (copy mem q l) :=
    holds_write_of_disjoint w (.inl (by rw [copy_length]; exact h)) (holds_copy q l)
  have hcopy := copy_of_holds hholds
  rwa [copy_length] at hcopy

theorem write_of_le {mem : Mem} {p i : Nat} {w : Bytes} (h : p + w.length ≤ i) :
    write mem p w i = mem i := by
  rw [write, if_neg (by omega)]

theorem blkSha1Loop_eq (fuel : Nat) (ctx : BlkShaCtx) (data : Bytes) (h : data.length ≤ fuel) :
    blkSha1Loop array fuel ctx data =
      ({ ctx with H := (Sha1.blocks.absorb ctx.H data).1 }, (Sha1.blocks.absorb ctx.H data).2) := by
  induction fuel generalizing ctx data with
  | zero =>
      have hnil : data = [] := List.length_eq_zero_iff.mp (Nat.le_zero.mp h)
      rw [hnil, BlockHash.absorb_nil]
      rfl
  | succ fuel ih =>
      rw [blkSha1Loop]
      by_cases hlong : data.length ≥ 64
      · have hblock : (data.take 64).length = Sha1.blocks.blockSize := by
          rw [List.length_take]
          exact Nat.min_eq_left hlong
        have habsorb := BlockHash.absorb_block (s := ctx.H) (data.drop 64) hblock
        rw [List.take_append_drop] at habsorb
        rw [if_pos hlong, ih _ _ (by rw [List.length_drop]; omega), blkSha1Block_eq, habsorb]
      · rw [if_neg hlong, BlockHash.absorb_of_lt (Nat.lt_of_not_le hlong)]

/-- With an empty buffer, the data goes into the chaining value and what is
left of it into the buffer. -/
theorem blkSha1Blocks_spec (ctx : BlkShaCtx) (data : Bytes) :
    (blkSha1Blocks array ctx data).size = ctx.size ∧
      (blkSha1Blocks array ctx data).H = (Sha1.blocks.absorb ctx.H data).1 ∧
      copy (blkSha1Blocks array ctx data).W 0 (data.length % 64) =
        (Sha1.blocks.absorb ctx.H data).2 ∧
      ∀ i, 64 ≤ i → (blkSha1Blocks array ctx data).W i = ctx.W i := by
  have hlen : (Sha1.blocks.absorb ctx.H data).2.length = data.length % 64 :=
    BlockHash.length_absorb ctx.H data
  rw [blkSha1Blocks, blkSha1Loop_eq array _ ctx data (Nat.le_refl _)]
  dsimp only
  split
  · refine ⟨rfl, rfl, ?_, fun i hi => write_of_le (by omega)⟩
    rw [← hlen]
    exact copy_write_self _ _ _
  · rename_i hempty
    have hnil := List.length_eq_zero_iff.mp (Decidable.not_not.mp hempty)
    rw [← hlen, hnil]
    exact ⟨rfl, rfl, rfl, fun _ _ => rfl⟩

theorem toNat_size_and {ctx : BlkShaCtx} {m : Bytes} (h : ctx.Absorbed m) :
    (ctx.size &&& 63).toNat = m.length % 64 := by
  rw [h.size, BitVec.toNat_and, BitVec.toNat_ofNat]
  change m.length % 2 ^ 64 &&& (2 ^ 6 - 1) = _
  rw [Nat.and_two_pow_sub_one_eq_mod]
  omega

theorem ofNat_length_append (m data : Bytes) :
    BitVec.ofNat 64 m.length + BitVec.ofNat 64 data.length =
      BitVec.ofNat 64 (m ++ data).length := by
  rw [List.length_append, BitVec.ofNat_add]

/-- `blk_SHA1_Update` goes on with the message, and stays inside its buffer. -/
theorem absorbed_update {ctx : BlkShaCtx} {m : Bytes} (data : Bytes) (h : ctx.Absorbed m) :
    (blkSha1Update array ctx data).Absorbed (m ++ data) ∧
      ∀ i, 64 ≤ i → (blkSha1Update array ctx data).W i = ctx.W i := by
  have hlenW := toNat_size_and h
  have happend := BlockHash.absorb_append (H := Sha1.blocks) initial m data
  rw [← h.H, ← h.W] at happend
  have hsize : ctx.size + BitVec.ofNat 64 data.length = BitVec.ofNat 64 (m ++ data).length := by
    rw [h.size, ofNat_length_append]
  have hlen : (m ++ data).length = m.length + data.length := List.length_append
  rw [blkSha1Update]
  simp only [hlenW]
  by_cases hempty : m.length % 64 = 0
  · -- The buffer is empty.
    rw [if_neg (not_not_intro hempty)]
    rw [hempty, copy, List.range'_zero, List.map_nil, List.nil_append] at happend
    obtain ⟨hs, hH, hW, hbehind⟩ := blkSha1Blocks_spec array
      { ctx with size := ctx.size + BitVec.ofNat 64 data.length } data
    refine ⟨⟨hs.trans hsize, hH.trans (congrArg Prod.fst happend.symm), ?_⟩, hbehind⟩
    rw [happend, ← hW]
    congr 1
    omega
  rw [if_pos hempty]
  -- The buffer gets as much of the data as it has room for.
  generalize hleft : (if data.length < 64 - m.length % 64 then data.length
    else 64 - m.length % 64) = left
  have hleft_le : left ≤ data.length ∧ m.length % 64 + left ≤ 64 ∧
      (m.length % 64 + left < 64 → left = data.length) := by
    split at hleft <;> omega
  obtain ⟨hle, hfits, hshort⟩ := hleft_le
  have htake : (data.take left).length = left := by
    rw [List.length_take]
    omega
  have hW : copy (write ctx.W (m.length % 64) (data.take left)) 0 (m.length % 64 + left) =
      copy ctx.W 0 (m.length % 64) ++ data.take left := by
    have hself := copy_write_self ctx.W (m.length % 64) (data.take left)
    rw [htake] at hself
    rw [copy_add, copy_write_before _ (by omega), Nat.zero_add, hself]
  have hand : (m.length % 64 + left) &&& 63 = (m.length % 64 + left) % 64 :=
    Nat.and_two_pow_sub_one_eq_mod _ 6
  by_cases hfull : m.length % 64 + left = 64
  · -- The buffer is full, and becomes a block.
    rw [if_neg (by rw [hand, hfull]; omega)]
    have hblock : (copy ctx.W 0 (m.length % 64) ++ data.take left).length =
        Sha1.blocks.blockSize := by
      rw [List.length_append, copy_length, htake]
      exact hfull
    have habsorb := BlockHash.absorb_block (s := ctx.H) (data.drop left) hblock
    rw [List.append_assoc, List.take_append_drop, ← happend, ← hW, hfull] at habsorb
    rw [blkSha1Block_eq]
    obtain ⟨hs, hH, hcopy, hbehind⟩ := blkSha1Blocks_spec array
      { size := ctx.size + BitVec.ofNat 64 data.length
        H := Sha1.blocks.compress ctx.H
          (copy (write ctx.W (m.length % 64) (data.take left)) 0 64)
        W := write ctx.W (m.length % 64) (data.take left) } (data.drop left)
    refine ⟨⟨hs.trans hsize, hH.trans (congrArg Prod.fst habsorb.symm), ?_⟩, fun i hi => ?_⟩
    · rw [habsorb, ← hcopy, List.length_drop]
      congr 1
      omega
    · rw [hbehind i hi]
      exact write_of_le (by omega)
  · -- There is still room in it.
    have hdata : left = data.length := hshort (by omega)
    rw [if_pos (by rw [hand]; omega)]
    have hmod : (m ++ data).length % 64 = m.length % 64 + left := by omega
    have hkept : Sha1.blocks.absorb ctx.H (copy ctx.W 0 (m.length % 64) ++ data) =
        (ctx.H, copy ctx.W 0 (m.length % 64) ++ data) := by
      refine BlockHash.absorb_of_lt ?_
      change _ < 64
      rw [List.length_append, copy_length]
      omega
    rw [hkept] at happend
    refine ⟨⟨hsize, (congrArg Prod.fst happend).symm, ?_⟩, fun i hi => write_of_le (by omega)⟩
    rw [happend, hmod, hW, hdata, List.take_length]

/-- The first byte of the padding and its zeros. -/
theorem toNat_padSize {size : BitVec 64} {l : Nat} (h : size = BitVec.ofNat 64 l) :
    (1 + (63 &&& (55 - (size &&& 63).setWidth 32)) : BitVec 32).toNat =
      1 + (119 - l % 64) % 64 := by
  have hlow : ((size &&& 63).setWidth 32).toNat = l % 64 := by
    rw [BitVec.toNat_setWidth, h, BitVec.toNat_and, BitVec.toNat_ofNat]
    change (l % 2 ^ 64 &&& (2 ^ 6 - 1)) % 2 ^ 32 = _
    rw [Nat.and_two_pow_sub_one_eq_mod]
    omega
  have hand : (63 &&& (55 - (size &&& 63).setWidth 32) : BitVec 32).toNat =
      (119 - l % 64) % 64 := by
    rw [BitVec.and_comm, BitVec.toNat_and, BitVec.toNat_sub, hlow]
    change (2 ^ 32 - l % 64 + 55) % 2 ^ 32 &&& (2 ^ 6 - 1) = _
    rw [Nat.and_two_pow_sub_one_eq_mod]
    omega
  rw [BitVec.toNat_add, hand]
  change (1 + _) % 2 ^ 32 = _
  omega

/-- The two words with the number of bits. -/
theorem padlen_eq {size : BitVec 64} {l : Nat} (h : size = BitVec.ofNat 64 l) :
    putBe32 ((size >>> 29).setWidth 32) ++ putBe32 ((size <<< 3).setWidth 32) =
      beBytes 8 (8 * l) := by
  have hhigh : ((size >>> 29).setWidth 32).toNat = 8 * l / 256 ^ 4 % 256 ^ 4 := by
    rw [BitVec.toNat_setWidth, BitVec.toNat_ushiftRight, h, BitVec.toNat_ofNat,
      Nat.shiftRight_eq_div_pow]
    omega
  have hlow : ((size <<< 3).setWidth 32).toNat = 8 * l % 256 ^ 4 := by
    rw [BitVec.toNat_setWidth, BitVec.toNat_shiftLeft, h, BitVec.toNat_ofNat,
      Nat.shiftLeft_eq]
    omega
  rw [putBe32, putBe32, hhigh, hlow, beBytes_mod, beBytes_mod]
  exact (beBytes_add 4 4 (8 * l)).symm

/-- `blk_SHA1_Final` pads the message and gives its hash.  Its two updates stay inside
the buffer as well. -/
theorem blkSha1Final_of_absorbed {ctx : BlkShaCtx} {m : Bytes} (h : ctx.Absorbed m) :
    (blkSha1Final array ctx).1 = digest m ∧
      ∀ i, 64 ≤ i → (blkSha1Final array ctx).2.W i = ctx.W i := by
  have hpad : shaPad.take (1 + (63 &&& (55 - (ctx.size &&& 63).setWidth 32)) : BitVec 32).toNat ++
      (putBe32 ((ctx.size >>> 29).setWidth 32) ++ putBe32 ((ctx.size <<< 3).setWidth 32)) =
      padding m.length := by
    rw [toNat_padSize h.size, padlen_eq h.size, padding, shaPad, Nat.add_comm, List.take_succ_cons,
      List.take_replicate, Nat.min_eq_left (by omega), List.cons_append]
  obtain ⟨hfirst, hbehind⟩ := absorbed_update array
    (shaPad.take (1 + (63 &&& (55 - (ctx.size &&& 63).setWidth 32)) : BitVec 32).toNat) h
  obtain ⟨hsecond, hbehind'⟩ := absorbed_update array
    (putBe32 ((ctx.size >>> 29).setWidth 32) ++ putBe32 ((ctx.size <<< 3).setWidth 32)) hfirst
  rw [List.append_assoc, hpad] at hsecond
  refine ⟨?_, fun i hi => (hbehind' i hi).trans (hbehind i hi)⟩
  rw [blkSha1Final]
  simp only [hsecond.H]
  simp [digest, Vars.bytes, putBe32]

/-- However a message is cut, the routine computes its SHA-1 hash, whatever lies
in the context and on the stack before, and nothing behind the buffer changes, neither
up to `blk_SHA1_Final` nor in it. -/
theorem blkSha1Final_updates (c : BlkShaCtx) (pieces : List Bytes) :
    (blkSha1Final array (pieces.foldl (blkSha1Update array) (blkSha1Init c))).1 =
        digest pieces.flatten ∧
      ∀ i, 64 ≤ i → (pieces.foldl (blkSha1Update array) (blkSha1Init c)).W i = c.W i ∧
        (blkSha1Final array (pieces.foldl (blkSha1Update array) (blkSha1Init c))).2.W i =
          c.W i := by
  suffices h : ∀ (ctx : BlkShaCtx) (m : Bytes), ctx.Absorbed m →
      (pieces.foldl (blkSha1Update array) ctx).Absorbed (m ++ pieces.flatten) ∧
        ∀ i, 64 ≤ i → (pieces.foldl (blkSha1Update array) ctx).W i = ctx.W i by
    obtain ⟨habsorbed, hbehind⟩ := h (blkSha1Init c) [] (absorbed_init c)
    obtain ⟨hdigest, hfinal⟩ := blkSha1Final_of_absorbed array habsorbed
    exact ⟨hdigest, fun i hi => ⟨hbehind i hi, (hfinal i hi).trans (hbehind i hi)⟩⟩
  induction pieces with
  | nil =>
      intro ctx m h
      rw [List.flatten_nil, List.append_nil]
      exact ⟨h, fun _ _ => rfl⟩
  | cons piece pieces ih =>
      intro ctx m h
      obtain ⟨hone, hbehind⟩ := absorbed_update array piece h
      obtain ⟨hall, hbehind'⟩ := ih _ _ hone
      rw [List.append_assoc] at hall
      exact ⟨hall, fun i hi => (hbehind' i hi).trans (hbehind i hi)⟩

theorem sha1Hash_eq (c : BlkShaCtx) (buffer : Bytes) : sha1Hash array c buffer = digest buffer :=
  (blkSha1Final_of_absorbed array (absorbed_update array buffer (absorbed_init c)).1).1

end Block

example :
    sha1Hash (.replicate 16 7) ⟨5, initial, fun _ => 9⟩ [97, 98, 99] =
      [0xa9, 0x99, 0x3e, 0x36, 0x47, 0x06, 0x81, 0x6a, 0xba, 0x3e,
        0x25, 0x71, 0x78, 0x50, 0xc2, 0x6c, 0x9c, 0xd0, 0xd8, 0x9d] := by
  decide +kernel

end Torrentkino
