import Torrentkino.P2p.LookupQueries

/-!
# The end of the splitting

`bckt_split_loop` splits the bucket of its target until that has at most eight nodes.
A bucket that is responsible for a single identifier cannot be split, but there is at
most one node in it.

**Results.**
* `bcktComputeId_isSome`: a bucket with more than eight nodes can be split.
* `split_loop_ends`: the loop on every table that the daemon can have.
-/

namespace Torrentkino

open Memory BigEndian Cuts Simulation

variable {v : Build} {heap : Heap (UdpNode v)} {l l' u w : List Buck} {b : Buck}

/-! ## Small intervals -/

theorem NodeId.toNat_inj {a b : NodeId} (h : a.toNat = b.toNat) : a = b :=
  NodeId.bytes_inj (beNat_inj (a.length_eq.trans b.length_eq.symm) h)

/-- There is room for one node in an interval with a single identifier. -/
theorem BucketPartition.length_le_one
    (h : BucketPartition heap (u ++ b :: w)) (hw : upper Buck.key (2 ^ 160) w ≤ b.key + 1) :
    b.nodes.length ≤ 1 := by
  have hlies := h.placed.at
  have hsame : ∀ r ∈ b.nodes, ∀ r' ∈ b.nodes, r = r' := by
    intro r hr r' hr'
    obtain ⟨n, hget, hlow, hhigh⟩ := hlies r hr
    obtain ⟨n', hget', hlow', hhigh'⟩ := hlies r' hr'
    have hid : n.id = n'.id := NodeId.toNat_inj (by omega)
    exact h.ids_distinct r (by simp [hr]) r' (by simp [hr']) n n' hget hget' hid
  have hnodup : b.nodes.Nodup := by
    have hall := h.distinct
    rw [allNodes_append, allNodes_cons] at hall
    exact (List.nodup_append.mp (List.nodup_append.mp hall).2.1).1
  match hnodes : b.nodes with
  | [] =>
      exact Nat.zero_le 1
  | [r] =>
      exact Nat.le_refl 1
  | r :: r' :: rs =>
      rw [hnodes] at hsame hnodup
      have heq := hsame r (by simp) r' (by simp)
      simp [heq] at hnodup

/-- A bucket with more than eight nodes gets an identifier for its second half. -/
theorem bcktComputeId_isSome
    (h : BucketPartition heap (u ++ b :: w)) (hsize : 8 < b.nodes.length) :
    (bcktComputeId b w.head?).isSome = true := by
  have hnext : w.head?.elim (2 ^ 160) Buck.key = upper Buck.key (2 ^ 160) w := by
    cases w <;> rfl
  obtain ⟨m, k, hk, hb, hw⟩ := h.dyadic.at
  cases k with
  | zero =>
      have hone := h.length_le_one (by omega)
      omega
  | succ k =>
      obtain ⟨id, hid, -⟩ := bcktComputeId_dyadic hk hb (hnext.trans hw)
      rw [hid]
      rfl

/-! ## Splits -/

/-- So many splits lead from one list of buckets to another one. -/
inductive Splits (heap : Heap (UdpNode v)) (target : NodeId) :
    Nat → List Buck → List Buck → Prop
  | none (l : List Buck) : Splits heap target 0 l l
  | split {n : Nat} {l l₁ l' : List Buck} (hsplit : bcktSplit heap l target = some l₁)
      (hrest : Splits heap target n l₁ l') : Splits heap target (n + 1) l l'

variable {target : NodeId}

/-- The loop splits until it cannot split any more. -/
theorem splits_of_loop
    {fuel : Nat} (h : bcktSplitLoop heap target fuel l = some l') :
    ∃ n, n < fuel ∧ Splits heap target n l l' ∧ bcktSplit heap l' target = none := by
  induction fuel generalizing l with
  | zero =>
      cases h
  | succ fuel ih =>
      rw [bcktSplitLoop] at h
      cases hsplit : bcktSplit heap l target with
      | none =>
          rw [hsplit] at h
          cases h
          exact ⟨0, Nat.succ_pos fuel, .none _, hsplit⟩
      | some l₁ =>
          rw [hsplit] at h
          obtain ⟨n, hn, hrest, hend⟩ := ih h
          exact ⟨n + 1, Nat.succ_lt_succ hn, .split hsplit hrest, hend⟩

theorem bcktSplit_inv
    (h : BucketPartition heap l) (hsplit : bcktSplit heap l target = some l') :
    BucketPartition heap l' := by
  obtain ⟨u, b, w, rfl, hlow, hhigh⟩ := h.locate target
  obtain ⟨m, k, hk, hb, hw⟩ := h.dyadic.at
  by_cases hsize : b.nodes.length ≤ 8
  · rw [bcktSplit_of_le h hlow hhigh hsize] at hsplit
    cases hsplit
  · cases k with
    | zero =>
        rw [bcktSplit_of_single h hlow hhigh hb hw] at hsplit
        cases hsplit
    | succ k =>
        obtain ⟨mid, -, hsplit', hpart⟩ := bcktSplit_of_dyadic h hlow hhigh hsize hk hb hw
        cases hsplit'.symm.trans hsplit
        exact hpart

theorem Splits.inv
    {n : Nat} (h : Splits heap target n l l') (hpart : BucketPartition heap l) :
    BucketPartition heap l' := by
  induction h with
  | none =>
      exact hpart
  | split hsplit _ ih =>
      exact ih (bcktSplit_inv hpart hsplit)

/-- No bucket with more than eight nodes is refused an identifier for its second
half. -/
def AllSplittable (l : List Buck) : Prop :=
  ∀ u b w, l = u ++ b :: w → 8 < b.nodes.length → (bcktComputeId b w.head?).isSome = true

/-- The bucket of the target has at most eight nodes. -/
def TargetSmall (target : NodeId) (l : List Buck) : Prop :=
  ∃ b, l[bcktFindBestMatch l target]? = some b ∧ b.nodes.length ≤ 8

/-- When there is no split any more, the bucket of the target is small. -/
theorem targetSmall_of_bcktSplit
    (h : BucketPartition heap l) (hsplit : bcktSplit heap l target = none) :
    TargetSmall target l := by
  obtain ⟨u, b, w, rfl, hlow, hhigh⟩ := h.locate target
  refine ⟨b, ?_, ?_⟩
  · rw [h.bestMatch hlow hhigh, (getElem?_length u w b).1]
  · by_contra hsize
    obtain ⟨id, hid⟩ := Option.isSome_iff_exists.mp
      (bcktComputeId_isSome h (Nat.not_le.mp hsize))
    rw [bcktSplit, h.bestMatch hlow hhigh] at hsplit
    dsimp only at hsplit
    rw [(getElem?_length u w b).1, (getElem?_length u w b).2] at hsplit
    dsimp only at hsplit
    rw [if_neg hsize, hid] at hsplit
    cases hsplit

/-- `bckt_split_loop` on a table, with the number of splits and the new list of
buckets. -/
structure SplitEnds (t : Nbhd v) (target : NodeId) (n : Nat) (l' : List Buck) : Prop where
  le : n ≤ 160
  loop : bcktSplitLoop t.heap target 161 t.bucket = some l'
  splits : Splits t.heap target n t.bucket l'
  nodes : (allNodes l').Perm (allNodes t.bucket)
  small : TargetSmall target l'
  splittable : ∀ k l, Splits t.heap target k t.bucket l → AllSplittable l

/-- On every routing table that the daemon can have, `bckt_split_loop` ends after at
most 160 splits with the same nodes in its buckets, and with at most eight of them in
the bucket of the target; and on the way no bucket with more than eight nodes is
refused. -/
theorem split_loop_ends
    {conf : Conf} {now : Int} {identity : List Identity} {rnd : Random} {names : Bytes}
    {events : List (Event v)} {s : Main v}
    (hrun : run (daemonStep conf) (mainInit now identity rnd names) events = .ok s)
    (target : NodeId) :
    ∃ n l', SplitEnds s.nbhd target n l' := by
  have hpart := (nbhdInv_run hrun).buckets
  obtain ⟨l', hloop, hpart', hperm⟩ := bcktSplitLoop_spec hpart target
  obtain ⟨n, hn, hsplits, hend⟩ := splits_of_loop hloop
  refine ⟨n, l', Nat.le_of_lt_succ hn, hloop, hsplits, hperm,
    targetSmall_of_bcktSplit hpart' hend, ?_⟩
  rintro k l hsplits u b w rfl hsize
  exact bcktComputeId_isSome (hsplits.inv hpart) hsize

/-- A ping of the node with this byte in all places of its identifier. -/
def pingOf (i : UInt8) : Event .ipv4 :=
  .p2p 0 [] (benEncRec (pingDict (.all i) [0, 0, 0, i]))
    (.ofQuad 10 0 0 i (26, 225))

/-- Nine nodes that are all close to each other. -/
def ninePings : List (Event .ipv4) :=
  [2, 3, 4, 5, 6, 7, 8, 9, 10].map pingOf

/-- All nine are in the lower half four times, and the fifth split takes three of
them out of the bucket of the target. -/
theorem split_loop_ends_ninePings :
    ∃ s : Main .ipv4, run (daemonStep onesConf) (mainInit 0 [] ⟨fun _ => 0, UInt8.ofNat⟩ [])
        ninePings = .ok s ∧ s.nbhd.bucket.map (·.nodes.length) = [9] ∧
      ∃ n l', SplitEnds s.nbhd .zero n l' ∧ l'.map (·.nodes.length) = [6, 3, 0, 0, 0, 0] := by
  have hmap : (run (daemonStep onesConf) (mainInit 0 [] ⟨fun _ => 0, UInt8.ofNat⟩ [])
      ninePings).map (fun s => (s.nbhd.bucket.map (·.nodes.length),
        (bcktSplitLoop s.nbhd.heap .zero 161 s.nbhd.bucket).map fun l =>
          l.map (·.nodes.length))) = .ok ([9], some [6, 3, 0, 0, 0, 0]) := by
    decide +kernel
  obtain ⟨s, hrun, heq⟩ := map_eq_ok hmap
  obtain ⟨hfull, hsplit⟩ := Prod.ext_iff.mp heq
  obtain ⟨n, l', hends⟩ := split_loop_ends hrun .zero
  refine ⟨s, hrun, hfull, n, l', hends, ?_⟩
  dsimp only at hsplit
  rw [hends.loop] at hsplit
  exact Option.some.inj hsplit

end Torrentkino
