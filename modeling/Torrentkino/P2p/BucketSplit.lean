import Mathlib.Data.List.Perm.Lattice
import Torrentkino.Lib.Cuts
import Torrentkino.P2p.Bucket

/-!
# Splitting buckets

`bckt_compute_id` derives the boundary of a split from the lowest set bits of
the identifiers of a bucket and of its successor only.  For a dyadic interval
`[m * 2 ^ k, (m + 1) * 2 ^ k)` exactly one of the two bounds has bit `k` as its
lowest bit, and the computed identifier is the middle of the interval; so as
long as buckets only come from splits, all intervals stay dyadic.

**Results.**
* `bcktFindBestMatch_eq`: the search finds the bucket whose interval contains
  the identifier.
* `bcktComputeId_dyadic`: the boundary of a split is the middle.
* `bcktSplit_of_dyadic`: a split halves the interval of its bucket and distributes
  the nodes over the halves.
* `bcktSplitLoop_spec`: the loop ends, and loses or duplicates no node.
-/

namespace Torrentkino

open Memory BigEndian Cuts

/-- The number at which the interval of a bucket starts. -/
def Buck.key (b : Buck) : Nat :=
  b.id.toNat

/-! ## The lowest set bit -/

theorem lastNonzero_eq_none
    {id : Bytes} {n : Nat} (h : lastNonzero id n = none) :
    ∀ i < n, id.getD i 0 = 0 := by
  induction n with
  | zero =>
      simp
  | succ n ih =>
      rw [lastNonzero] at h
      split at h
      · cases h
      · rename_i hzero
        intro i hi
        rcases Nat.lt_succ_iff_lt_or_eq.mp hi with hlt | rfl
        · exact ih h i hlt
        · exact not_not.mp hzero

theorem lastNonzero_eq_some
    {id : Bytes} {n i : Nat} (h : lastNonzero id n = some i) :
    i < n ∧ id.getD i 0 ≠ 0 ∧ ∀ j, i < j → j < n → id.getD j 0 = 0 := by
  induction n with
  | zero =>
      simp [lastNonzero] at h
  | succ n ih =>
      rw [lastNonzero] at h
      split at h
      · rename_i hne
        cases h
        exact ⟨by omega, hne, fun j _ _ => by omega⟩
      · rename_i hzero
        obtain ⟨hlt, hne, hbehind⟩ := ih h
        refine ⟨by omega, hne, ?_⟩
        intro j hij hjn
        rcases Nat.lt_succ_iff_lt_or_eq.mp hjn with hlt | rfl
        · exact hbehind j hij hlt
        · exact not_not.mp hzero

/-- The lowest set bit of a byte. -/
theorem lastSetBit_spec :
    ∀ c : Fin 256, c ≠ 0 → ∃ j : Fin 8,
      lastSetBit (UInt8.ofNat c) 8 = (j : Nat) ∧
        c.val = (2 * (c.val / 2 ^ (8 - j.val)) + 1) * 2 ^ (7 - j.val) := by
  decide +kernel

/-- A string of zero bytes. -/
theorem beNat_eq_zero_of_getD
    {b : Bytes} (h : ∀ i < b.length, b.getD i 0 = 0) :
    beNat b = 0 := by
  have hb : b = List.replicate b.length 0 := by
    refine List.eq_replicate_iff.mpr ⟨rfl, ?_⟩
    intro c hc
    obtain ⟨i, hi, rfl⟩ := List.getElem_of_mem hc
    simpa [List.getD_eq_getElem?_getD, hi] using h i hi
  rw [hb]
  exact beNat_replicate_zero _

/-- `bckt_significant_bit` gives the position, from the high end, of the lowest
set bit. -/
theorem bcktSignificantBit_spec (id : NodeId) :
    id.toNat = 0 ∧ bcktSignificantBit id = -1 ∨
      ∃ q t : Nat, id.toNat = (2 * q + 1) * 2 ^ t ∧
        bcktSignificantBit id = 159 - (t : Int) := by
  have hlen : id.bytes.length = 20 := id.length_eq
  cases hscan : lastNonzero id.bytes 20 with
  | none =>
      left
      refine ⟨beNat_eq_zero_of_getD ?_, by rw [bcktSignificantBit, hscan]⟩
      rw [hlen]
      exact lastNonzero_eq_none hscan
  | some i =>
      right
      obtain ⟨hi, hne, hbehind⟩ := lastNonzero_eq_some hscan
      have hsplit : id.bytes =
          id.bytes.take i ++ id.bytes.getD i 0 :: id.bytes.drop (i + 1) := by
        have hi' : i < id.bytes.length := by omega
        rw [List.getD_eq_getElem?_getD, List.getElem?_eq_getElem hi', Option.getD_some,
          List.getElem_cons_drop, List.take_append_drop]
      have hdrop : (id.bytes.drop (i + 1)).length = 19 - i := by
        simp [hlen]
      have hzero : beNat (id.bytes.drop (i + 1)) = 0 := by
        refine beNat_eq_zero_of_getD ?_
        intro j hj
        have := hbehind (i + 1 + j) (by omega) (by omega)
        simpa [List.getD_eq_getElem?_getD] using this
      obtain ⟨c, hc⟩ : ∃ c, id.bytes.getD i 0 = c := ⟨_, rfl⟩
      have hcfin : (⟨c.toNat, c.toNat_lt⟩ : Fin 256) ≠ 0 := by
        intro h
        exact hne (hc.trans (UInt8.toNat_inj.mp (congrArg Fin.val h)))
      obtain ⟨j, hbit, hval⟩ := lastSetBit_spec ⟨c.toNat, c.toNat_lt⟩ hcfin
      simp only [UInt8.ofNat_toNat] at hbit hval
      have hvalue := beNat_lowestBit (u := id.bytes.take i) j.isLt hzero hval
      rw [hc] at hsplit
      rw [← hsplit, hdrop] at hvalue
      refine ⟨_, _, hvalue, ?_⟩
      rw [bcktSignificantBit, hscan]
      dsimp only
      rw [hc, hbit]
      push_cast
      omega

/-- A multiple of `2 ^ k` that is an odd multiple of `2 ^ t`. -/
theorem le_of_odd_mul_two_pow
    {q t m k : Nat} (h : (2 * q + 1) * 2 ^ t = m * 2 ^ k) :
    k ≤ t := by
  by_contra hlt
  obtain ⟨d, rfl⟩ : ∃ d, k = t + (d + 1) := ⟨k - t - 1, by omega⟩
  have hodd : 2 * q + 1 = 2 * (m * 2 ^ d) := by
    refine Nat.eq_of_mul_eq_mul_right (Nat.two_pow_pos t) ?_
    rw [h, pow_add, pow_succ]
    ring
  omega

/-- The lowest bit of a multiple of `2 ^ k` is not below bit `k`. -/
theorem bcktSignificantBit_le
    {id : NodeId} {m k : Nat} (hk : k ≤ 160) (h : id.toNat = m * 2 ^ k) :
    bcktSignificantBit id ≤ 159 - (k : Int) := by
  rcases bcktSignificantBit_spec id with ⟨_, hbit⟩ | ⟨q, t, hval, hbit⟩
  · omega
  · have := le_of_odd_mul_two_pow (hval.symm.trans h)
    omega

/-- The lowest bit of an odd multiple of `2 ^ k` is bit `k`. -/
theorem bcktSignificantBit_odd
    {id : NodeId} {q k : Nat} (h : id.toNat = (2 * q + 1) * 2 ^ k) :
    bcktSignificantBit id = 159 - (k : Int) := by
  rcases bcktSignificantBit_spec id with ⟨hzero, _⟩ | ⟨q', t, hval, hbit⟩
  · have := Nat.two_pow_pos k
    rw [hzero] at h
    exact absurd h.symm (Nat.mul_ne_zero (by omega) (by omega))
  · have h₁ := le_of_odd_mul_two_pow (hval.symm.trans h)
    have h₂ := le_of_odd_mul_two_pow (h.symm.trans hval)
    rw [hbit, Nat.le_antisymm h₂ h₁]

/-! ## The boundary of a split -/

/-- Setting a bit below the lowest set bit adds its weight. -/
theorem toNat_setBit
    {id : NodeId} {bit : Nat} (hbit : bit < 160) (hdvd : 2 ^ (160 - bit) ∣ id.toNat) :
    (id.setBit bit).toNat = id.toNat + 2 ^ (159 - bit) := by
  have hlen : id.bytes.length = 20 := id.length_eq
  have hi : bit / 8 < id.bytes.length := by omega
  obtain ⟨c, w, hw, hsplit⟩ : ∃ c w, w.length = 19 - bit / 8 ∧
      id.bytes = id.bytes.take (bit / 8) ++ c :: w := by
    refine ⟨id.bytes[bit / 8], id.bytes.drop (bit / 8 + 1), by simp [hlen], ?_⟩
    rw [List.getElem_cons_drop, List.take_append_drop]
  have hu : (id.bytes.take (bit / 8)).length = bit / 8 := by
    simp [hlen]
    omega
  generalize id.bytes.take (bit / 8) = u at hsplit hu
  have hexp₁ : 8 * w.length + (8 - bit % 8) = 160 - bit := by omega
  have hexp₂ : 8 * w.length + (7 - bit % 8) = 159 - bit := by omega
  have hset := beNat_setBit (u := u) (w := w) (c := c) (Nat.mod_lt bit (by omega : 0 < 8))
    (by rw [hexp₁, ← hsplit]; exact hdvd)
  rw [hexp₂, ← hsplit] at hset
  rw [NodeId.toNat, NodeId.toNat, ← hset, NodeId.setBit]
  congr 1
  dsimp only
  rw [hsplit, ← hu, modify_at]

section Boundary

variable {b : Buck} {next : Option Buck} {m k : Nat}

/-- Of two neighbouring multiples of `2 ^ k` one has bit `k` as its lowest. -/
theorem bcktDeepestBit_dyadic
    (hk : k ≤ 160)
    (hb : b.key = m * 2 ^ k)
    (hnext : (next.elim (2 ^ 160) Buck.key) = (m + 1) * 2 ^ k) :
    bcktDeepestBit b next = 159 - (k : Int) := by
  have hb₁ := bcktSignificantBit_le hk hb
  unfold bcktDeepestBit
  rcases Nat.even_or_odd' m with ⟨q, rfl | rfl⟩
  · cases next with
    | none =>
        -- `2 * q + 1` is a power of two, so the interval is the whole range
        have h160 : (2 * q + 1) * 2 ^ k = 1 * 2 ^ 160 := by
          rw [one_mul, ← hnext]
          rfl
        have := le_of_odd_mul_two_pow h160
        dsimp only
        split <;> omega
    | some b' =>
        have := bcktSignificantBit_odd hnext
        dsimp only
        split <;> omega
  · have hodd := bcktSignificantBit_odd hb
    cases next with
    | none =>
        dsimp only
        split <;> omega
    | some b' =>
        have := bcktSignificantBit_le hk hnext
        dsimp only
        split <;> omega

/-- An interval with a single number is not split. -/
theorem bcktComputeId_single
    (hb : b.key = m * 2 ^ 0)
    (hnext : (next.elim (2 ^ 160) Buck.key) = (m + 1) * 2 ^ 0) :
    bcktComputeId b next = none := by
  simp [bcktComputeId, bcktDeepestBit_dyadic (Nat.zero_le 160) hb hnext]

/-- The boundary of a split is the middle of the interval. -/
theorem bcktComputeId_dyadic
    (hk : k + 1 ≤ 160)
    (hb : b.key = m * 2 ^ (k + 1))
    (hnext : (next.elim (2 ^ 160) Buck.key) = (m + 1) * 2 ^ (k + 1)) :
    ∃ id, bcktComputeId b next = some id ∧ id.toNat = b.key + 2 ^ k := by
  have hdeep := bcktDeepestBit_dyadic hk hb hnext
  have hbit : (bcktDeepestBit b next + 1).toNat = 159 - k := by omega
  have hdvd : 2 ^ (160 - (159 - k)) ∣ b.id.toNat := by
    rw [show 160 - (159 - k) = k + 1 by omega]
    exact ⟨m, by rw [Nat.mul_comm]; exact hb⟩
  refine ⟨b.id.setBit (159 - k), ?_, ?_⟩
  · rw [bcktComputeId, hbit]
    exact if_neg (by omega)
  · rw [toNat_setBit (by omega) hdvd, show 159 - (159 - k) = k by omega]
    rfl

end Boundary

/-! ## The search for a bucket -/

/-- The search finds the bucket whose interval contains the identifier. -/
theorem bcktFindBestMatch_eq
    {u w : List Buck} {b : Buck} {id : NodeId} {top : Nat}
    (hinc : Increasing Buck.key top (u ++ b :: w))
    (hlow : b.key ≤ id.toNat)
    (hhigh : id.toNat < upper Buck.key top w) :
    bcktFindBestMatch (u ++ b :: w) id = u.length := by
  induction u with
  | nil =>
      cases w with
      | nil =>
          rfl
      | cons b' w =>
          have hlt : id.lt b'.id = true := (NodeId.lt_iff _ _).mpr hhigh
          simp [bcktFindBestMatch, hlt]
  | cons a u ih =>
      have htail := ih hinc.2
      have hle : ∀ y ∈ u ++ b :: w, y ∈ u ++ [b] → y.key ≤ id.toNat := by
        intro y _ hy
        rcases List.mem_append.mp hy with hy | hy
        · have hpair := Increasing.pairwise hinc.2
          exact Nat.le_of_lt (Nat.lt_of_lt_of_le
            ((List.pairwise_append.mp hpair).2.2 y hy b (by simp)) hlow)
        · rw [List.mem_singleton.mp hy]
          exact hlow
      cases u with
      | nil =>
          have hnlt : id.lt b.id = false := by
            rw [← Bool.not_eq_true, NodeId.lt_iff]
            exact Nat.not_lt.mpr hlow
          simpa [bcktFindBestMatch, hnlt] using htail
      | cons c u =>
          have hnlt : id.lt c.id = false := by
            rw [← Bool.not_eq_true, NodeId.lt_iff]
            exact Nat.not_lt.mpr (hle c (by simp) (by simp))
          simpa [bcktFindBestMatch, hnlt] using htail

/-! ## The invariant of the buckets -/

/-- The references of all buckets. -/
def allNodes (l : List Buck) : List Ref :=
  l.flatMap Buck.nodes

@[simp] theorem allNodes_cons (b : Buck) (l : List Buck) :
    allNodes (b :: l) = b.nodes ++ allNodes l := rfl

@[simp] theorem allNodes_append (l l' : List Buck) :
    allNodes (l ++ l') = allNodes l ++ allNodes l' := by
  simp [allNodes]

variable {v : Build} {heap : Heap (UdpNode v)} {l u w : List Buck} {b : Buck}

/-- A live node with an identifier in the given range. -/
def LiesIn (heap : Heap (UdpNode v)) (lo hi : Nat) (r : Ref) : Prop :=
  ∃ n, heap.get r = some n ∧ lo ≤ n.id.toNat ∧ n.id.toNat < hi

/-- The buckets come from halving the range of all identifiers, every node lies
in the bucket responsible for it, no bucket holds more than `BCKT_SIZE_MAX`
nodes, and no reference and no identifier occurs twice. -/
structure BucketPartition (heap : Heap (UdpNode v)) (l : List Buck) : Prop where
  halving : Halving 160 (l.map Buck.key)
  placed : Intervals Buck.key
    (fun b hi => ∀ r ∈ b.nodes, LiesIn heap b.key hi r) (2 ^ 160) l
  small : ∀ b ∈ l, b.nodes.length ≤ bcktSizeMax
  distinct : (allNodes l).Nodup
  ids_distinct : ∀ r ∈ allNodes l, ∀ r' ∈ allNodes l, ∀ n n',
    heap.get r = some n → heap.get r' = some n' → n.id = n'.id → r = r'

theorem BucketPartition.dyadic (h : BucketPartition heap l) :
    Intervals Buck.key (fun b hi => Dyadic 160 b.key hi) (2 ^ 160) l :=
  intervals_map.mp h.halving.dyadic

theorem BucketPartition.increasing (h : BucketPartition heap l) :
    Increasing Buck.key (2 ^ 160) l :=
  intervals_map.mp h.halving.increasing

/-- Every identifier belongs to a bucket. -/
theorem BucketPartition.locate (h : BucketPartition heap l) (id : NodeId) :
    ∃ u b w, l = u ++ b :: w ∧ b.key ≤ id.toNat ∧
      id.toNat < upper Buck.key (2 ^ 160) w := by
  obtain ⟨ys, hys⟩ := h.halving.head_eq_zero
  cases l with
  | nil =>
      simp at hys
  | cons b w =>
      refine exists_interval (by simp) ?_ id.toNat_lt
      simp only [List.map_cons, List.cons.injEq] at hys
      rw [upper_cons, hys.1]
      exact Nat.zero_le _

/-- The search finds that bucket. -/
theorem BucketPartition.bestMatch
    (h : BucketPartition heap (u ++ b :: w)) {id : NodeId}
    (hlow : b.key ≤ id.toNat) (hhigh : id.toNat < upper Buck.key (2 ^ 160) w) :
    bcktFindBestMatch (u ++ b :: w) id = u.length :=
  bcktFindBestMatch_eq h.increasing hlow hhigh

/-! ## Distributing the nodes of a bucket -/

/-- The nodes in front of a boundary. -/
def nodesBelow (heap : Heap (UdpNode v)) (id : NodeId) (nodes : List Ref) : List Ref :=
  nodes.filter fun r => (heap.get r).any fun n => n.id.lt id

/-- The nodes from a boundary on. -/
def nodesFrom (heap : Heap (UdpNode v)) (id : NodeId) (nodes : List Ref) : List Ref :=
  nodes.filter fun r => !(heap.get r).any fun n => n.id.lt id

theorem nodesBelow_perm (heap : Heap (UdpNode v)) (id : NodeId) (nodes : List Ref) :
    (nodesBelow heap id nodes ++ nodesFrom heap id nodes).Perm nodes :=
  List.filter_append_perm _ nodes

/-- Intervals do not depend on the nodes of the buckets. -/
theorem increasing_congr_nodes
    {top : Nat} {i j : NodeId} (xs ys xs' ys' : List Ref)
    (h : Increasing Buck.key top (u ++ ⟨i, xs⟩ :: ⟨j, ys⟩ :: w)) :
    Increasing Buck.key top (u ++ ⟨i, xs'⟩ :: ⟨j, ys'⟩ :: w) := by
  rw [Increasing, intervals_append] at h ⊢
  exact h

/-- The loop of `bckt_split` sorts the nodes of the old bucket into the two
halves, in their old order. -/
theorem foldl_bcktReput
    {top : Nat} {i j : NodeId} (rs xs ys : List Ref)
    (hinc : Increasing Buck.key top (u ++ ⟨i, xs⟩ :: ⟨j, ys⟩ :: w))
    (hrs : ∀ r ∈ rs, LiesIn heap i.toNat (upper Buck.key top w) r) :
    rs.foldl (bcktReput heap) (u ++ ⟨i, xs⟩ :: ⟨j, ys⟩ :: w) =
      u ++ ⟨i, xs ++ nodesBelow heap j rs⟩ :: ⟨j, ys ++ nodesFrom heap j rs⟩ :: w := by
  induction rs generalizing xs ys with
  | nil =>
      simp [nodesBelow, nodesFrom]
  | cons r rs ih =>
      obtain ⟨n, hget, hlow, hhigh⟩ := hrs r (by simp)
      have htail : ∀ r ∈ rs, LiesIn heap i.toNat (upper Buck.key top w) r :=
        fun r' hr' => hrs r' (by simp [hr'])
      rw [List.foldl_cons, bcktReput, hget]
      dsimp only
      rcases Nat.lt_or_ge n.id.toNat j.toNat with hlt | hge
      · have hbelow : n.id.lt j = true := (NodeId.lt_iff _ _).mpr hlt
        have hfind : bcktFindBestMatch (u ++ ⟨i, xs⟩ :: ⟨j, ys⟩ :: w) n.id = u.length :=
          bcktFindBestMatch_eq hinc hlow hlt
        rw [hfind, setNodes, modify_at]
        dsimp only
        rw [ih _ _ (increasing_congr_nodes _ _ _ _ hinc) htail]
        simp [nodesBelow, nodesFrom, hget, hbelow]
      · have hbelow : n.id.lt j = false := by
          rw [← Bool.not_eq_true, NodeId.lt_iff]
          exact Nat.not_lt.mpr hge
        have hsplit : u ++ ⟨i, xs⟩ :: ⟨j, ys⟩ :: w = (u ++ [⟨i, xs⟩]) ++ ⟨j, ys⟩ :: w := by
          simp
        have hfind : bcktFindBestMatch (u ++ ⟨i, xs⟩ :: ⟨j, ys⟩ :: w) n.id =
            (u ++ [(⟨i, xs⟩ : Buck)]).length := by
          rw [hsplit] at hinc ⊢
          exact bcktFindBestMatch_eq hinc hge hhigh
        rw [hfind, hsplit, setNodes, modify_at]
        rw [List.append_assoc, List.singleton_append]
        rw [ih _ _ (increasing_congr_nodes _ _ _ _ hinc) htail]
        simp [nodesBelow, nodesFrom, hget, hbelow]

/-! ## One split -/

/-- The buckets after the bucket `b` was split at `mid`. -/
def splitBuckets (heap : Heap (UdpNode v)) (u : List Buck) (b : Buck) (mid : NodeId)
    (w : List Buck) : List Buck :=
  u ++ ⟨b.id, nodesBelow heap mid b.nodes⟩ :: ⟨mid, nodesFrom heap mid b.nodes⟩ :: w

theorem allNodes_splitBuckets (heap : Heap (UdpNode v)) (u : List Buck) (b : Buck)
    (mid : NodeId) (w : List Buck) :
    (allNodes (splitBuckets heap u b mid w)).Perm (allNodes (u ++ b :: w)) := by
  simp only [splitBuckets, allNodes_append, allNodes_cons, ← List.append_assoc]
  refine List.Perm.append_right _ ?_
  rw [List.append_assoc]
  exact List.Perm.append_left _ (nodesBelow_perm heap mid b.nodes)

/-- A split in the middle keeps the invariant. -/
theorem BucketPartition.splitBuckets
    (mid : NodeId)
    (h : BucketPartition heap (u ++ b :: w))
    (hsize : b.key + 2 ≤ upper Buck.key (2 ^ 160) w)
    (hmid : mid.toNat = (b.key + upper Buck.key (2 ^ 160) w) / 2) :
    BucketPartition heap (splitBuckets heap u b mid w) where
  halving := by
    have hhalving := h.halving
    have hupper : upper id (2 ^ 160) (w.map Buck.key) =
        upper Buck.key (2 ^ 160) w := by
      cases w <;> rfl
    rw [List.map_append, List.map_cons] at hhalving
    have hnew := Halving.halve _ _ _ hhalving (by rw [hupper]; exact hsize)
    rw [hupper, ← hmid] at hnew
    simpa [Torrentkino.splitBuckets, Buck.key] using hnew
  placed := by
    have hplaced := h.placed
    rw [Torrentkino.splitBuckets, intervals_append] at *
    obtain ⟨hu, hb, hw⟩ := hplaced
    refine ⟨hu, ?_, ?_, hw⟩
    · intro r hr
      obtain ⟨hmem, hbelow⟩ := List.mem_filter.mp hr
      obtain ⟨n, hget, hlow, hhigh⟩ := hb r hmem
      refine ⟨n, hget, hlow, ?_⟩
      rw [hget] at hbelow
      exact (NodeId.lt_iff _ _).mp hbelow
    · intro r hr
      obtain ⟨hmem, hfrom⟩ := List.mem_filter.mp hr
      obtain ⟨n, hget, hlow, hhigh⟩ := hb r hmem
      refine ⟨n, hget, ?_, hhigh⟩
      rw [hget] at hfrom
      have hnlt : ¬ n.id.lt mid = true := by
        simpa using hfrom
      rw [NodeId.lt_iff] at hnlt
      exact Nat.not_lt.mp hnlt
  small := by
    intro b' hb'
    have hsmall := h.small b (by simp)
    simp only [Torrentkino.splitBuckets, List.mem_append, List.mem_cons] at hb'
    rcases hb' with hu | rfl | rfl | hw
    · exact h.small b' (by simp [hu])
    · exact Nat.le_trans (List.length_filter_le _ _) hsmall
    · exact Nat.le_trans (List.length_filter_le _ _) hsmall
    · exact h.small b' (by simp [hw])
  distinct := (allNodes_splitBuckets heap u b mid w).nodup_iff.mpr h.distinct
  ids_distinct := by
    have hperm := allNodes_splitBuckets heap u b mid w
    intro r hr r' hr'
    exact h.ids_distinct r (hperm.mem_iff.mp hr) r' (hperm.mem_iff.mp hr')

/-- The buckets in front of a position, at it and behind it. -/
theorem getElem?_length (u w : List Buck) (b : Buck) :
    (u ++ b :: w)[u.length]? = some b ∧ (u ++ b :: w)[u.length + 1]? = w.head? := by
  constructor
  · simp
  · cases w <;> simp

/-- A bucket with at most eight nodes is not split. -/
theorem bcktSplit_of_le
    {target : NodeId}
    (h : BucketPartition heap (u ++ b :: w))
    (hlow : b.key ≤ target.toNat) (hhigh : target.toNat < upper Buck.key (2 ^ 160) w)
    (hsize : b.nodes.length ≤ 8) :
    bcktSplit heap (u ++ b :: w) target = none := by
  rw [bcktSplit, h.bestMatch hlow hhigh]
  dsimp only
  rw [(getElem?_length u w b).1]
  exact if_pos hsize

/-- A bucket for a single identifier is not split. -/
theorem bcktSplit_of_single
    {target : NodeId} {m : Nat}
    (h : BucketPartition heap (u ++ b :: w))
    (hlow : b.key ≤ target.toNat) (hhigh : target.toNat < upper Buck.key (2 ^ 160) w)
    (hb : b.key = m * 2 ^ 0) (hw : upper Buck.key (2 ^ 160) w = (m + 1) * 2 ^ 0) :
    bcktSplit heap (u ++ b :: w) target = none := by
  have hnext : w.head?.elim (2 ^ 160) Buck.key = (m + 1) * 2 ^ 0 := by
    rw [← hw]
    cases w <;> rfl
  rw [bcktSplit, h.bestMatch hlow hhigh]
  dsimp only
  rw [(getElem?_length u w b).1, (getElem?_length u w b).2]
  dsimp only
  rw [bcktComputeId_single hb hnext]
  exact ite_self none

/-- A larger bucket is split in the middle of its interval. -/
theorem bcktSplit_of_dyadic
    {target : NodeId} {m k : Nat}
    (h : BucketPartition heap (u ++ b :: w))
    (hlow : b.key ≤ target.toNat) (hhigh : target.toNat < upper Buck.key (2 ^ 160) w)
    (hsize : ¬ b.nodes.length ≤ 8)
    (hk : k + 1 ≤ 160) (hb : b.key = m * 2 ^ (k + 1))
    (hw : upper Buck.key (2 ^ 160) w = (m + 1) * 2 ^ (k + 1)) :
    ∃ mid : NodeId, mid.toNat = b.key + 2 ^ k ∧
      bcktSplit heap (u ++ b :: w) target = some (splitBuckets heap u b mid w) ∧
      BucketPartition heap (splitBuckets heap u b mid w) := by
  have hnext : w.head?.elim (2 ^ 160) Buck.key = (m + 1) * 2 ^ (k + 1) := by
    rw [← hw]
    cases w <;> rfl
  obtain ⟨mid, hcompute, hmid⟩ := bcktComputeId_dyadic hk hb hnext
  have hpos := Nat.two_pow_pos k
  have hpow : 2 ^ (k + 1) = 2 * 2 ^ k := by
    rw [pow_succ]
    ring
  have hhalf : upper Buck.key (2 ^ 160) w = b.key + 2 * 2 ^ k := by
    rw [hw, hb, ← hpow]
    ring
  have hpart := h.splitBuckets mid (by omega) (by omega)
  refine ⟨mid, hmid, ?_, hpart⟩
  have hlies := h.placed.at
  have hinc : Increasing Buck.key (2 ^ 160) (u ++ ⟨b.id, []⟩ :: ⟨mid, []⟩ :: w) :=
    increasing_congr_nodes _ _ _ _ hpart.increasing
  rw [bcktSplit, h.bestMatch hlow hhigh]
  dsimp only
  rw [(getElem?_length u w b).1, (getElem?_length u w b).2]
  dsimp only
  rw [if_neg hsize, hcompute]
  dsimp only
  have htake : (u ++ b :: w).take u.length = u := by
    simp
  have hdrop : (u ++ b :: w).drop (u.length + 1) = w := by
    simp
  rw [htake, hdrop, foldl_bcktReput b.nodes [] [] hinc hlies]
  rfl

/-! ## The loop -/

/-- The bucket of an identifier has an interval of the form
`[m * 2 ^ k, (m + 1) * 2 ^ k)`; the loop splits it at most `k` times. -/
theorem bcktSplitLoop_of_dyadic
    {target : NodeId} {m k fuel : Nat}
    (h : BucketPartition heap (u ++ b :: w))
    (hlow : b.key ≤ target.toNat) (hhigh : target.toNat < upper Buck.key (2 ^ 160) w)
    (hk : k ≤ 160) (hb : b.key = m * 2 ^ k)
    (hw : upper Buck.key (2 ^ 160) w = (m + 1) * 2 ^ k)
    (hfuel : k < fuel) :
    ∃ l', bcktSplitLoop heap target fuel (u ++ b :: w) = some l' ∧
      BucketPartition heap l' ∧ (allNodes l').Perm (allNodes (u ++ b :: w)) := by
  obtain ⟨fuel, rfl⟩ : ∃ f, fuel = f + 1 := ⟨fuel - 1, by omega⟩
  induction k generalizing u b w m fuel with
  | zero =>
      refine ⟨_, ?_, h, List.Perm.refl _⟩
      rw [bcktSplitLoop, bcktSplit_of_single h hlow hhigh hb hw]
  | succ k ih =>
      by_cases hsize : b.nodes.length ≤ 8
      · refine ⟨_, ?_, h, List.Perm.refl _⟩
        rw [bcktSplitLoop, bcktSplit_of_le h hlow hhigh hsize]
      · obtain ⟨mid, hmid, hsplit, hpart⟩ :=
          bcktSplit_of_dyadic h hlow hhigh hsize hk hb hw
        obtain ⟨fuel, rfl⟩ : ∃ f, fuel = f + 1 := ⟨fuel - 1, by omega⟩
        have hmid' : mid.toNat = (2 * m + 1) * 2 ^ k := by
          rw [hmid, hb, pow_succ]
          ring
        have hperm := allNodes_splitBuckets heap u b mid w
        rw [bcktSplitLoop, hsplit]
        dsimp only
        rcases Nat.lt_or_ge target.toNat mid.toNat with hlt | hge
        · -- the target is in the lower half
          obtain ⟨l', hloop, hl', hperm'⟩ := ih (m := 2 * m) hpart hlow hlt (by omega)
            (by rw [Buck.key] at hb ⊢; rw [hb, pow_succ]; ring) hmid' fuel (by omega)
          exact ⟨l', hloop, hl', hperm'.trans hperm⟩
        · have hassoc : splitBuckets heap u b mid w =
              (u ++ [⟨b.id, nodesBelow heap mid b.nodes⟩]) ++
                ⟨mid, nodesFrom heap mid b.nodes⟩ :: w := by
            simp [splitBuckets]
          rw [hassoc] at hpart hperm ⊢
          obtain ⟨l', hloop, hl', hperm'⟩ := ih (m := 2 * m + 1) hpart hge hhigh (by omega)
            hmid' (by rw [hw, pow_succ]; ring) fuel (by omega)
          exact ⟨l', hloop, hl', hperm'.trans hperm⟩

/-- `bckt_split_loop` ends after at most 160 splits, keeps the invariant, and
neither loses nor duplicates a node. -/
theorem bcktSplitLoop_spec
    (h : BucketPartition heap l) (target : NodeId) :
    ∃ l', bcktSplitLoop heap target 161 l = some l' ∧
      BucketPartition heap l' ∧ (allNodes l').Perm (allNodes l) := by
  obtain ⟨u, b, w, rfl, hlow, hhigh⟩ := h.locate target
  obtain ⟨m, k, hk, hb, hw⟩ := h.dyadic.at
  exact bcktSplitLoop_of_dyadic h hlow hhigh hk hb hw (by omega)

end Torrentkino
