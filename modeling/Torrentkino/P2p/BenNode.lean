import Torrentkino.Lib.CString
import Torrentkino.P2p.Ben

/-!
# Bencode nodes in memory

The encoder of `p2p/ben.c` goes over a tree twice: `ben_enc_size` computes how many bytes are
allocated, `ben_enc_rec` writes them.  The two treat a missing member in different ways, and
the number of bytes is compared after they were written.

* `BenNode` is a node with the null pointers that the functions ask for.
* `BenNode.encSize`, `BenNode.encRec` and `BenNode.enc` are the encoder, with a fault for
  every access that C does not define.

**Result.** `BenNode.encodesExactly_of_complete`: on a tree without null pointers the two
passes agree, and the encoder returns the bytes of the tree.
-/

namespace Torrentkino

open Memory Decimal CString

/-- The numbers of a `LONG`. -/
def IsLong (i : Int) : Prop :=
  longMin ≤ i ∧ i ≤ longMax

instance (i : Int) : Decidable (IsLong i) :=
  inferInstanceAs (Decidable (_ ∧ _))

/-- `BEN` with everything that it points to. -/
inductive BenNode where
  | str (s : Option Bytes)
  | int (i : Int)
  | list (l : Option (List (Option BenNode)))
  | dict (d : Option (List (Option BenNode × Option BenNode)))

namespace BenNode

/-! ## The encoder -/

/-- What the encoder must not do. -/
inductive EncFault where
  /-- Read the length of a string node that was not filled. -/
  | null
  /-- Add up more than a `LONG` holds. -/
  | overflow
  /-- Write behind the end of the allocation. -/
  | outside
deriving DecidableEq, Repr

/-- `size += n` -/
def longAdd (size n : Int) : Except EncFault Int :=
  if IsLong (size + n) then .ok (size + n) else .error .overflow

/-- What `snprintf` leaves in a buffer of `BUF_SIZE` bytes. -/
def printed (text : Bytes) : Bytes :=
  cString (text.take bufOff1)

/-- `i%lie` -/
def intText (i : Int) : Bytes :=
  printed ('i'.toUInt8 :: decimalInt i ++ ['e'.toUInt8])

/-- `%li:` -/
def strText (s : Bytes) : Bytes :=
  printed (decimal s.length ++ [':'.toUInt8])

mutual

/-- `ben_enc_size` -/
def encSize : BenNode → Except EncFault Int
  | .dict none => .ok 2
  | .dict (some d) => encSizeDict d 2
  | .list none => .ok 2
  | .list (some l) => encSizeList l 2
  | .int i => .ok (intText i).length
  | .str none => .error .null
  | .str (some s) => longAdd (strText s).length s.length

/-- The loop of `ben_enc_size` over the items of a list, with the size so far. -/
def encSizeList : List (Option BenNode) → Int → Except EncFault Int
  | [], size => .ok size
  | none :: l, size => encSizeList l size
  | some v :: l, size => do
      let size ← longAdd size (← encSize v)
      encSizeList l size

/-- The loop of `ben_enc_size` over the entries of a dictionary. -/
def encSizeDict : List (Option BenNode × Option BenNode) → Int → Except EncFault Int
  | [], size => .ok size
  | (some k, some v) :: d, size => do
      let size ← longAdd size (← encSize k)
      let size ← longAdd size (← encSize v)
      encSizeDict d size
  | (none, _) :: d, size => encSizeDict d size
  | (_, none) :: d, size => encSizeDict d size

end

/-- Write some bytes at the cursor.  It stands behind the bytes that were written. -/
def store (size : Nat) (p w : Bytes) : Except EncFault Bytes :=
  if p.length + w.length ≤ size then .ok (p ++ w) else .error .outside

mutual

/-- `ben_enc_rec` into an allocation of the given size; `none` is the result `NULL`. -/
def encRec (size : Nat) : BenNode → Bytes → Except EncFault (Option Bytes)
  | .dict none, p => do
      let p ← store size p ['d'.toUInt8]
      some <$> store size p ['e'.toUInt8]
  | .dict (some d), p => do
      let p ← store size p ['d'.toUInt8]
      match ← encRecDict size d p with
      | none => return none
      | some p => some <$> store size p ['e'.toUInt8]
  | .list none, p => do
      let p ← store size p ['l'.toUInt8]
      some <$> store size p ['e'.toUInt8]
  | .list (some l), p => do
      let p ← store size p ['l'.toUInt8]
      match ← encRecList size l p with
      | none => return none
      | some p => some <$> store size p ['e'.toUInt8]
  | .int i, p => some <$> store size p (intText i)
  | .str none, _ => .error .null
  | .str (some s), p => do
      let p ← store size p (strText s)
      if s.length > 0 then some <$> store size p s else return some p

/-- The loop of `ben_enc_rec` over the items of a list. -/
def encRecList (size : Nat) : List (Option BenNode) → Bytes → Except EncFault (Option Bytes)
  | [], p => .ok (some p)
  | none :: _, _ => .ok none
  | some v :: l, p => do
      match ← encRec size v p with
      | none => return none
      | some p => encRecList size l p

/-- The loop of `ben_enc_rec` over the entries of a dictionary. -/
def encRecDict (size : Nat) :
    List (Option BenNode × Option BenNode) → Bytes → Except EncFault (Option Bytes)
  | [], p => .ok (some p)
  | (some k, some v) :: d, p => do
      match ← encRec size k p with
      | none => return none
      | some p =>
          match ← encRec size v p with
          | none => return none
          | some p => encRecDict size d p
  | (none, _) :: d, p => encRecDict size d p
  | (_, none) :: d, p => encRecDict size d p

end

/-- `ben_enc` -/
def enc : Option BenNode → Except EncFault (Option Bytes)
  | none => .ok none
  | some node => do
      let size ← encSize node
      if size ≤ 0 then return none
      match ← encRec size.toNat node [] with
      | none => return none
      | some code => if (code.length : Int) ≠ size then return none else return some code

/-! ## Complete nodes -/

mutual

/-- No pointer is null, the keys are strings, and the integers fit a `LONG`. -/
def Complete : BenNode → Prop
  | .dict none => False
  | .dict (some d) => CompleteDict d
  | .list none => False
  | .list (some l) => CompleteList l
  | .int i => IsLong i
  | .str s => s ≠ none

def CompleteList : List (Option BenNode) → Prop
  | [] => True
  | none :: _ => False
  | some v :: l => v.Complete ∧ CompleteList l

def CompleteDict : List (Option BenNode × Option BenNode) → Prop
  | [] => True
  | (some (.str (some _)), some v) :: d => v.Complete ∧ CompleteDict d
  | _ :: _ => False

end

mutual

/-- The tree of a complete node. -/
def toBen : BenNode → Ben
  | .dict none => .dict []
  | .dict (some d) => .dict (toBenDict d)
  | .list none => .list []
  | .list (some l) => .list (toBenList l)
  | .int i => .int i
  | .str s => .str (s.getD [])

def toBenList : List (Option BenNode) → List Ben
  | [] => []
  | none :: l => toBenList l
  | some v :: l => v.toBen :: toBenList l

def toBenDict : List (Option BenNode × Option BenNode) → List (Bytes × Ben)
  | [] => []
  | (some (.str (some s)), some v) :: d => (s, v.toBen) :: toBenDict d
  | _ :: d => toBenDict d

end

mutual

/-- Every string node was filled by `ben_str`. -/
def Filled : BenNode → Prop
  | .str s => s ≠ none
  | .int _ => True
  | .list none => True
  | .list (some l) => FilledList l
  | .dict none => True
  | .dict (some d) => FilledDict d

def FilledMember : Option BenNode → Prop
  | none => True
  | some v => v.Filled

def FilledList : List (Option BenNode) → Prop
  | [] => True
  | v :: l => FilledMember v ∧ FilledList l

def FilledDict : List (Option BenNode × Option BenNode) → Prop
  | [] => True
  | (k, v) :: d => FilledMember k ∧ FilledMember v ∧ FilledDict d

end

/-! ### Numbers -/

theorem printed_eq
    {text : Bytes} (hzero : (0 : UInt8) ∉ text) (hlen : text.length ≤ bufOff1) :
    printed text = text := by
  rw [printed, List.take_of_length_le hlen, cString_eq_self hzero]

/-- The buffer has room for every `LONG`. -/
theorem intText_eq
    {i : Int} (hi : IsLong i) :
    intText i = 'i'.toUInt8 :: decimalInt i ++ ['e'.toUInt8] := by
  have habs : i.natAbs < 10 ^ 19 := by
    obtain ⟨hlo, hhi⟩ := hi
    simp only [longMin, longMax] at hlo hhi
    omega
  have hlen := decimal_length_le (by decide) habs
  have hzero := zero_not_mem_decimal i.natAbs
  have hchars : (0 : UInt8) ≠ 'i'.toUInt8 ∧ (0 : UInt8) ≠ '-'.toUInt8 ∧ (0 : UInt8) ≠ 'e'.toUInt8 := by
    decide
  unfold intText decimalInt
  split
  · refine printed_eq ?_ (by simp [bufOff1]; omega)
    simp [hzero, hchars]
  · refine printed_eq ?_ (by simp [bufOff1]; omega)
    simp [hzero, hchars]

theorem strText_eq
    {s : Bytes} (hs : s.length < 2 ^ 63) :
    strText s = decimal s.length ++ [':'.toUInt8] := by
  have hlen := decimal_length_le (k := 19) (by decide) (show s.length < 10 ^ 19 by omega)
  have hcolon : (0 : UInt8) ≠ ':'.toUInt8 := by decide
  refine printed_eq ?_ (by simp [bufOff1]; omega)
  simp [zero_not_mem_decimal, hcolon]

/-! ### The first pass -/

theorem longAdd_eq
    {a b : Nat} (h : a + b < 2 ^ 63) :
    longAdd a b = .ok ((a + b : Nat) : Int) := by
  have hlong : IsLong ((a : Int) + b) := by
    simp only [IsLong, longMin, longMax]
    omega
  rw [longAdd, if_pos hlong, Int.natCast_add]

mutual

/-- The size is that of the bytes of the tree. -/
theorem encSize_eq :
    ∀ node : BenNode, node.Complete → benEncSize node.toBen < 2 ^ 63 →
      encSize node = .ok (benEncSize node.toBen : Nat)
  | .dict none, h, _ => h.elim
  | .dict (some d), h, hsize => by
      simp only [toBen, benEncSize] at hsize ⊢
      rw [encSize]
      exact encSizeDict_eq d 2 h hsize
  | .list none, h, _ => h.elim
  | .list (some l), h, hsize => by
      simp only [toBen, benEncSize] at hsize ⊢
      rw [encSize]
      exact encSizeList_eq l 2 h hsize
  | .int i, h, _ => by
      rw [encSize, intText_eq h]
      rfl
  | .str none, h, _ => (h rfl).elim
  | .str (some s), _, hsize => by
      simp only [toBen, Option.getD_some, benEncSize] at hsize ⊢
      rw [encSize, strText_eq (by omega)]
      exact longAdd_eq hsize

theorem encSizeList_eq :
    ∀ (l : List (Option BenNode)) (size : Nat), CompleteList l →
      size + benEncSizeList (toBenList l) < 2 ^ 63 →
        encSizeList l size = .ok ((size + benEncSizeList (toBenList l) : Nat) : Int)
  | [], size, _, _ => rfl
  | none :: l, _, h, _ => h.elim
  | some v :: l, size, ⟨hv, hl⟩, hsize => by
      simp only [toBenList, benEncSizeList] at hsize ⊢
      rw [encSizeList, encSize_eq v hv (by omega)]
      dsimp only [bind, Except.bind]
      rw [longAdd_eq (by omega)]
      dsimp only [bind, Except.bind]
      rw [encSizeList_eq l _ hl (by omega), Nat.add_assoc]

theorem encSizeDict_eq :
    ∀ (d : List (Option BenNode × Option BenNode)) (size : Nat), CompleteDict d →
      size + benEncSizeDict (toBenDict d) < 2 ^ 63 →
        encSizeDict d size = .ok ((size + benEncSizeDict (toBenDict d) : Nat) : Int)
  | [], size, _, _ => rfl
  | (some (.str (some s)), some v) :: d, size, ⟨hv, hd⟩, hsize => by
      simp only [toBenDict, benEncSizeDict] at hsize ⊢
      rw [encSizeDict, encSize, strText_eq (by omega), longAdd_eq (by omega)]
      dsimp only [bind, Except.bind]
      rw [longAdd_eq (by omega)]
      dsimp only [bind, Except.bind]
      rw [encSize_eq v hv (by omega)]
      dsimp only [bind, Except.bind]
      rw [longAdd_eq (by omega)]
      dsimp only [bind, Except.bind]
      rw [encSizeDict_eq d _ hd (by omega)]
      congr 2
      omega

end

/-! ### The second pass -/

theorem store_eq
    {size : Nat} {p w : Bytes} (h : p.length + w.length ≤ size) :
    store size p w = .ok (p ++ w) :=
  if_pos h

theorem encRec_str
    {size : Nat} {s p : Bytes} (hsize : (benEncStr s).length < 2 ^ 63)
    (hroom : p.length + (benEncStr s).length ≤ size) :
    encRec size (.str (some s)) p = .ok (some (p ++ benEncStr s)) := by
  simp only [benEncStr, List.length_append, List.length_cons] at hsize hroom
  rw [encRec, strText_eq (by omega), store_eq (by simp; omega)]
  dsimp only [bind, Except.bind]
  split
  · rw [store_eq (by simp; omega)]
    simp [benEncStr, Functor.map, Except.map]
  · rename_i hempty
    obtain rfl := List.eq_nil_of_length_eq_zero (Nat.eq_zero_of_not_pos hempty)
    rfl

mutual

/-- The bytes of the tree are written where there is room for them. -/
theorem encRec_eq {size : Nat} :
    ∀ (node : BenNode) (p : Bytes), node.Complete → (benEncRec node.toBen).length < 2 ^ 63 →
      p.length + (benEncRec node.toBen).length ≤ size →
        encRec size node p = .ok (some (p ++ benEncRec node.toBen))
  | .dict none, _, h, _, _ => h.elim
  | .dict (some d), p, h, hsize, hroom => by
      simp only [toBen, benEncRec, List.length_append, List.length_cons, List.length_nil]
        at hsize hroom
      rw [encRec, store_eq (by simp; omega)]
      dsimp only [bind, Except.bind]
      rw [encRecDict_eq d _ h (by omega) (by simp; omega)]
      dsimp only
      rw [store_eq (by simp; omega)]
      simp [toBen, benEncRec, Functor.map, Except.map]
  | .list none, _, h, _, _ => h.elim
  | .list (some l), p, h, hsize, hroom => by
      simp only [toBen, benEncRec, List.length_append, List.length_cons, List.length_nil]
        at hsize hroom
      rw [encRec, store_eq (by simp; omega)]
      dsimp only [bind, Except.bind]
      rw [encRecList_eq l _ h (by omega) (by simp; omega)]
      dsimp only
      rw [store_eq (by simp; omega)]
      simp [toBen, benEncRec, Functor.map, Except.map]
  | .int i, p, h, _, hroom => by
      simp only [toBen, benEncRec] at hroom ⊢
      rw [encRec, intText_eq h, store_eq hroom]
      rfl
  | .str none, _, h, _, _ => (h rfl).elim
  | .str (some s), p, _, hsize, hroom => encRec_str hsize hroom

theorem encRecList_eq {size : Nat} :
    ∀ (l : List (Option BenNode)) (p : Bytes), CompleteList l →
      (benEncRecList (toBenList l)).length < 2 ^ 63 →
      p.length + (benEncRecList (toBenList l)).length ≤ size →
        encRecList size l p = .ok (some (p ++ benEncRecList (toBenList l)))
  | [], p, _, _, _ => by simp [encRecList, toBenList, benEncRecList]
  | none :: l, _, h, _, _ => h.elim
  | some v :: l, p, ⟨hv, hl⟩, hsize, hroom => by
      simp only [toBenList, benEncRecList, List.length_append] at hsize hroom ⊢
      rw [encRecList, encRec_eq v p hv (by omega) (by omega)]
      dsimp only [bind, Except.bind]
      rw [encRecList_eq l _ hl (by omega) (by simp; omega), List.append_assoc]

theorem encRecDict_eq {size : Nat} :
    ∀ (d : List (Option BenNode × Option BenNode)) (p : Bytes), CompleteDict d →
      (benEncRecDict (toBenDict d)).length < 2 ^ 63 →
      p.length + (benEncRecDict (toBenDict d)).length ≤ size →
        encRecDict size d p = .ok (some (p ++ benEncRecDict (toBenDict d)))
  | [], p, _, _, _ => by simp [encRecDict, toBenDict, benEncRecDict]
  | (some (.str (some s)), some v) :: d, p, ⟨hv, hd⟩, hsize, hroom => by
      simp only [toBenDict, benEncRecDict, List.length_append] at hsize hroom ⊢
      rw [encRecDict, encRec_str (by omega) (by omega)]
      dsimp only [bind, Except.bind]
      rw [encRec_eq v _ hv (by omega) (by simp; omega)]
      dsimp only
      rw [encRecDict_eq d _ hd (by omega) (by simp; omega)]
      simp only [List.append_assoc]

end

/-- What the encoder does with a node whose bytes are these. -/
structure EncodesExactly (node : BenNode) (bytes : Bytes) : Prop where
  encSize : node.encSize = .ok (bytes.length : Nat)
  encRec : ∀ size, bytes.length ≤ size → node.encRec size [] = .ok (some bytes)
  enc : BenNode.enc (some node) = .ok (some bytes)

/-- The two passes agree on a complete node. -/
theorem encodesExactly_of_complete
    {node : BenNode} (h : node.Complete) (hsize : benEncSize node.toBen < 2 ^ 63) :
    EncodesExactly node (benEncRec node.toBen) := by
  have hlen := benEncRec_length node.toBen
  have hfirst : node.encSize = .ok ((benEncRec node.toBen).length : Nat) := by
    rw [hlen]
    exact encSize_eq node h hsize
  have hsecond : ∀ size, (benEncRec node.toBen).length ≤ size →
      node.encRec size [] = .ok (some (benEncRec node.toBen)) := by
    intro size hroom
    exact encRec_eq node [] h (by omega) (by simpa using hroom)
  refine ⟨hfirst, hsecond, ?_⟩
  have hpos := List.length_pos_iff.mpr (benEncRec_ne_nil node.toBen)
  rw [enc, hfirst]
  dsimp only [bind, Except.bind]
  rw [if_neg (by omega), Int.toNat_natCast, hsecond _ (Nat.le_refl _)]
  dsimp only
  rw [if_neg (not_not.mpr rfl)]
  rfl

end BenNode

end Torrentkino
