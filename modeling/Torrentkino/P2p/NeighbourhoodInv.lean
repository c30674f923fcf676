import Torrentkino.Lib.Simulation
import Torrentkino.P2p.BucketSplit
import Torrentkino.P2p.Neighbourhood

/-!
# The invariant of the routing table

The buckets partition the identifiers, and the hash maps exactly the
identifiers of the nodes in the buckets, each to its own node object.  Every
operation keeps this.  The deletions of `nbhd_expire` look the bucket up again
by the identifier of the node; since every node lies in the bucket responsible
for it, this finds the bucket that is being walked.

**Results.**
* `nbhdPut_inv`, `nbhdPinged_inv`, `nbhdPonged_inv`, `nbhdExpire_spec`,
  `nbhdSplit_inv`: the operations.
* `nbhd_run`: every run from `nbhd_init`.
-/

namespace Torrentkino

open Memory Cuts Simulation

variable {v : Build}

/-- The buckets are in order, and the hash is in step with them. -/
structure NbhdInv (s : Nbhd v) : Prop where
  buckets : BucketPartition s.heap s.bucket
  hash_iff : ∀ key r, hashGet s.hash key = some r ↔
    r ∈ allNodes s.bucket ∧ ∃ n, s.heap.get r = some n ∧ n.id.bytes = key

/-- The identifier of a live node. -/
def nodeIdAt (heap : Heap (UdpNode v)) (r : Ref) : Option NodeId :=
  (heap.get r).map UdpNode.id

theorem nodeIdAt_eq_some
    {heap : Heap (UdpNode v)} {r : Ref} {id : NodeId} :
    nodeIdAt heap r = some id ↔ ∃ n, heap.get r = some n ∧ n.id = id := by
  simp [nodeIdAt]

section Congr

variable {heap heap' : Heap (UdpNode v)} {l : List Buck}

/-- The buckets only depend on the identifiers of their nodes. -/
theorem BucketPartition.congr
    (h : BucketPartition heap l)
    (hsame : ∀ r ∈ allNodes l, nodeIdAt heap' r = nodeIdAt heap r) :
    BucketPartition heap' l where
  halving := h.halving
  placed := by
    refine h.placed.imp ?_
    intro b hb hi hlies r hr
    obtain ⟨n, hget, hlow, hhigh⟩ := hlies r hr
    have hmem : r ∈ allNodes l := List.mem_flatMap.mpr ⟨b, hb, hr⟩
    have hid := hsame r hmem
    rw [nodeIdAt_eq_some.mpr ⟨n, hget, rfl⟩, nodeIdAt_eq_some] at hid
    obtain ⟨n', hget', hid'⟩ := hid
    exact ⟨n', hget', by rwa [hid'], by rwa [hid']⟩
  small := h.small
  distinct := h.distinct
  ids_distinct := by
    intro r hr r' hr' n n' hn hn' hid
    have h₁ := hsame r hr
    have h₂ := hsame r' hr'
    rw [nodeIdAt_eq_some.mpr ⟨n, hn, rfl⟩] at h₁
    rw [nodeIdAt_eq_some.mpr ⟨n', hn', rfl⟩] at h₂
    obtain ⟨m, hm, hmid⟩ := nodeIdAt_eq_some.mp h₁.symm
    obtain ⟨m', hm', hmid'⟩ := nodeIdAt_eq_some.mp h₂.symm
    exact h.ids_distinct r hr r' hr' m m' hm hm' (by rw [hmid, hmid', hid])

end Congr

variable {s : Nbhd v}

/-- Every node in a bucket is live. -/
theorem NbhdInv.live
    (h : NbhdInv s) {r : Ref} (hr : r ∈ allNodes s.bucket) :
    ∃ n, s.heap.get r = some n := by
  obtain ⟨b, hb, hrb⟩ := List.mem_flatMap.mp hr
  obtain ⟨u, w, hsplit⟩ := List.append_of_mem hb
  have hplaced := h.buckets.placed
  rw [hsplit] at hplaced
  obtain ⟨n, hget, _⟩ := hplaced.at r hrb
  exact ⟨n, hget⟩

/-- An update of the heap that keeps the identifiers of the nodes in buckets. -/
theorem NbhdInv.congr_heap
    {heap : Heap (UdpNode v)}
    (h : NbhdInv s)
    (hsame : ∀ r ∈ allNodes s.bucket, nodeIdAt heap r = nodeIdAt s.heap r) :
    NbhdInv { s with heap := heap } where
  buckets := h.buckets.congr hsame
  hash_iff := by
    have hiff : ∀ (heap : Heap (UdpNode v)) (r : Ref) (key : Bytes),
        (∃ n, heap.get r = some n ∧ n.id.bytes = key) ↔
          ∃ id, nodeIdAt heap r = some id ∧ id.bytes = key := by
      intro heap r key
      simp [nodeIdAt]
    intro key r
    rw [h.hash_iff key r]
    refine and_congr_right fun hr => ?_
    rw [hiff, hiff, hsame r hr]

/-- The nodes of the table change, their identifiers do not. -/
theorem NbhdInv.modify
    (h : NbhdInv s) (r : Ref) (f : UdpNode v → UdpNode v)
    (hf : ∀ n, (f n).id = n.id) :
    NbhdInv { s with heap := s.heap.modify r f } := by
  refine h.congr_heap ?_
  intro q _
  rw [nodeIdAt, nodeIdAt]
  rcases eq_or_ne q r with rfl | hq
  · rw [Heap.get_modify_self]
    cases s.heap.get q <;> simp [hf]
  · rw [Heap.get_modify_of_ne _ _ hq]

/-- `nbhd_init` -/
theorem nbhdInit_inv : NbhdInv (nbhdInit : Nbhd v) where
  buckets :=
    { halving := by
        have : (bcktInit.map Buck.key) = [0] := by
          simp [bcktInit, Buck.key]
        rw [nbhdInit, this]
        exact Halving.whole
      placed := ⟨by simp, trivial⟩
      small := by simp [nbhdInit, bcktInit]
      distinct := List.nodup_nil
      ids_distinct := by simp [nbhdInit, bcktInit, allNodes] }
  hash_iff := by
    simp [nbhdInit, bcktInit, allNodes]

/-- `nbhd_pinged` -/
theorem nbhdPinged_inv (h : NbhdInv s) (id : NodeId) (time : Int) :
    NbhdInv (nbhdPinged s id time) := by
  rw [nbhdPinged]
  split
  · exact h
  · exact h.modify _ _ fun n => rfl

/-- `nbhd_ponged` -/
theorem nbhdPonged_inv (h : NbhdInv s) (id : NodeId) (sa : Ip v) (time : Int) :
    NbhdInv (nbhdPonged s id sa time) := by
  rw [nbhdPonged]
  split
  · exact h
  · exact h.modify _ _ fun n => rfl

/-- `nbhd_split` -/
theorem nbhdSplit_inv (h : NbhdInv s) (target : NodeId) :
    ∃ s', nbhdSplit s target = some s' ∧ NbhdInv s' := by
  obtain ⟨l', hloop, hl', hperm⟩ := bcktSplitLoop_spec h.buckets target
  refine ⟨{ s with bucket := l' }, by rw [nbhdSplit, hloop]; rfl, hl', ?_⟩
  intro key r
  rw [h.hash_iff key r, hperm.mem_iff]

/-! ## New nodes -/

section Put

variable {heap : Heap (UdpNode v)} {u w : List Buck} {b : Buck}

/-- A new node at the end of the bucket responsible for it. -/
theorem BucketPartition.insert
    {r : Ref} {n : UdpNode v}
    (h : BucketPartition heap (u ++ b :: w))
    (hget : heap.get r = some n)
    (hlow : b.key ≤ n.id.toNat) (hhigh : n.id.toNat < upper Buck.key (2 ^ 160) w)
    (hsmall : b.nodes.length < bcktSizeMax)
    (hnew : r ∉ allNodes (u ++ b :: w))
    (hid : ∀ r' ∈ allNodes (u ++ b :: w), nodeIdAt heap r' ≠ some n.id) :
    BucketPartition heap (u ++ ⟨b.id, b.nodes ++ [r]⟩ :: w) := by
  have hperm : (allNodes (u ++ ⟨b.id, b.nodes ++ [r]⟩ :: w)).Perm
      (r :: allNodes (u ++ b :: w)) := by
    simp only [allNodes_append, allNodes_cons, List.append_assoc, List.singleton_append]
    simp only [← List.append_assoc]
    exact List.perm_middle
  refine ⟨?_, ?_, ?_, ?_, ?_⟩
  · have hhalving := h.halving
    simp only [List.map_append, List.map_cons] at hhalving ⊢
    exact hhalving
  · have hplaced := h.placed
    rw [intervals_append] at hplaced ⊢
    obtain ⟨hu, hb, hw⟩ := hplaced
    refine ⟨hu, ?_, hw⟩
    intro r' hr'
    rcases List.mem_append.mp hr' with hold | hlast
    · exact hb r' hold
    · rw [List.mem_singleton.mp hlast]
      exact ⟨n, hget, hlow, hhigh⟩
  · intro b' hb'
    rcases List.mem_append.mp hb' with hu | hb'
    · exact h.small b' (by simp [hu])
    · rcases List.mem_cons.mp hb' with rfl | hw
      · simpa using hsmall
      · exact h.small b' (by simp [hw])
  · rw [hperm.nodup_iff, List.nodup_cons]
    exact ⟨hnew, h.distinct⟩
  · intro q hq q' hq' m m' hm hm' hmm
    rcases List.mem_cons.mp (hperm.mem_iff.mp hq) with hqr | hold
    · rcases List.mem_cons.mp (hperm.mem_iff.mp hq') with hqr' | hold'
      · rw [hqr, hqr']
      · rw [hqr, hget] at hm
        cases hm
        exact absurd (nodeIdAt_eq_some.mpr ⟨m', hm', hmm.symm⟩) (hid q' hold')
    · rcases List.mem_cons.mp (hperm.mem_iff.mp hq') with hqr' | hold'
      · rw [hqr', hget] at hm'
        cases hm'
        exact absurd (nodeIdAt_eq_some.mpr ⟨m, hm, hmm⟩) (hid q hold)
      · exact h.ids_distinct q hold q' hold' m m' hm hm' hmm

/-- `bckt_put` of a node whose identifier is new. -/
theorem bcktPut_of_new
    {r : Ref} {n : UdpNode v}
    (h : BucketPartition heap (u ++ b :: w))
    (hlow : b.key ≤ n.id.toNat) (hhigh : n.id.toNat < upper Buck.key (2 ^ 160) w)
    (hid : ∀ r' ∈ allNodes (u ++ b :: w), nodeIdAt heap r' ≠ some n.id) :
    bcktPut heap (u ++ b :: w) r n =
      if b.nodes.length ≥ bcktSizeMax then none
      else some (u ++ ⟨b.id, b.nodes ++ [r]⟩ :: w) := by
  have hfind : bcktFindNode heap (u ++ b :: w) n.id = none := by
    rw [bcktFindNode, h.bestMatch hlow hhigh, (getElem?_length u w b).1]
    dsimp only
    rw [List.find?_eq_none]
    intro q hq hnode
    have hmem : q ∈ allNodes (u ++ b :: w) := by
      simp [hq]
    refine hid q hmem ?_
    rw [isNode, Option.any_eq_true] at hnode
    obtain ⟨m, hm, hmid⟩ := hnode
    exact nodeIdAt_eq_some.mpr ⟨m, hm, of_decide_eq_true hmid⟩
  rw [bcktPut, h.bestMatch hlow hhigh, (getElem?_length u w b).1]
  dsimp only
  rw [hfind, setNodes, modify_at]
  rfl

end Put

/-- No node of the table has an identifier that the hash does not know. -/
theorem NbhdInv.nodeIdAt_ne
    (h : NbhdInv s) {id : NodeId} (hmiss : hashGet s.hash id.bytes = none)
    {r : Ref} (hr : r ∈ allNodes s.bucket) :
    nodeIdAt s.heap r ≠ some id := by
  intro hid
  obtain ⟨n, hget, rfl⟩ := nodeIdAt_eq_some.mp hid
  rw [(h.hash_iff n.id.bytes r).mpr ⟨hr, n, hget, rfl⟩] at hmiss
  cases hmiss

/-- A new object is none of the nodes in the buckets. -/
theorem NbhdInv.ne_fresh
    (h : NbhdInv s) {r : Ref} (hr : r ∈ allNodes s.bucket) :
    r ≠ s.heap.fresh := by
  obtain ⟨n, hget⟩ := h.live hr
  exact Nat.ne_of_lt (Heap.lt_fresh hget)

/-- The table with a new object that is in no bucket. -/
theorem NbhdInv.alloc (h : NbhdInv s) (n : UdpNode v) :
    NbhdInv { s with heap := s.heap.alloc n } := by
  refine h.congr_heap ?_
  intro r hr
  rw [nodeIdAt, nodeIdAt, Heap.get_alloc_of_ne _ _ (h.ne_fresh hr)]

/-- The table with a new node, in a bucket and in the hash. -/
theorem NbhdInv.insert
    {u w : List Buck} {b : Buck} {n : UdpNode v}
    (h : NbhdInv s)
    (hmiss : hashGet s.hash n.id.bytes = none)
    (hsplit : s.bucket = u ++ b :: w)
    (hlow : b.key ≤ n.id.toNat) (hhigh : n.id.toNat < upper Buck.key (2 ^ 160) w)
    (hsmall : b.nodes.length < bcktSizeMax) :
    NbhdInv
      { heap := s.heap.alloc n
        bucket := u ++ ⟨b.id, b.nodes ++ [s.heap.fresh]⟩ :: w
        hash := (hashPut s.hash n.id.bytes (some s.heap.fresh)).2 } where
  buckets := by
    have hpart := (h.alloc n).buckets
    dsimp only at hpart
    rw [hsplit] at hpart
    refine hpart.insert (Heap.get_alloc_self _ _) hlow hhigh hsmall ?_ ?_
    · rw [← hsplit]
      intro hmem
      exact h.ne_fresh hmem rfl
    · rw [← hsplit]
      intro r hr
      rw [nodeIdAt, Heap.get_alloc_of_ne _ _ (h.ne_fresh hr)]
      exact h.nodeIdAt_ne hmiss hr
  hash_iff := by
    intro key r
    have hmem : r ∈ allNodes (u ++ ⟨b.id, b.nodes ++ [s.heap.fresh]⟩ :: w) ↔
        r = s.heap.fresh ∨ r ∈ allNodes s.bucket := by
      rw [hsplit]
      simp
      tauto
    dsimp only
    rw [hashGet_hashPut, hmem]
    split
    · rename_i hkey
      subst hkey
      constructor
      · rintro ⟨⟩
        exact ⟨.inl rfl, n, Heap.get_alloc_self _ _, rfl⟩
      · rintro ⟨rfl | hr, m, hm, hmid⟩
        · rfl
        · rw [Heap.get_alloc_of_ne _ _ (h.ne_fresh hr)] at hm
          exact absurd (nodeIdAt_eq_some.mpr ⟨m, hm, NodeId.bytes_inj hmid⟩)
            (h.nodeIdAt_ne hmiss hr)
    · rename_i hkey
      rw [h.hash_iff key r]
      constructor
      · rintro ⟨hr, m, hm, hmid⟩
        exact ⟨.inr hr, m, Heap.get_alloc_of_get n hm, hmid⟩
      · rintro ⟨rfl | hr, m, hm, hmid⟩
        · rw [Heap.get_alloc_self] at hm
          cases hm
          exact absurd hmid.symm hkey
        · rw [Heap.get_alloc_of_ne _ _ (h.ne_fresh hr)] at hm
          exact ⟨hr, m, hm, hmid⟩

/-- `nbhd_put` -/
theorem nbhdPut_inv (h : NbhdInv s) (me id : NodeId) (sa : Ip v) :
    NbhdInv (nbhdPut me s id sa) := by
  rw [nbhdPut]
  split
  · exact h
  split
  · exact h
  split
  · exact h.modify _ _ fun n => rfl
  · rename_i hmiss
    obtain ⟨u, b, w, hsplit, hlow, hhigh⟩ := h.buckets.locate id
    have hpart := (h.alloc (nodeInit id sa)).buckets
    have hid : ∀ r ∈ allNodes s.bucket,
        nodeIdAt (s.heap.alloc (nodeInit id sa)) r ≠ some id := by
      intro r hr
      rw [nodeIdAt, Heap.get_alloc_of_ne _ _ (h.ne_fresh hr)]
      exact h.nodeIdAt_ne hmiss hr
    dsimp only at hpart ⊢
    rw [hsplit] at hpart hid
    rw [hsplit, bcktPut_of_new (n := nodeInit id sa) hpart hlow hhigh hid]
    by_cases hfull : b.nodes.length ≥ bcktSizeMax
    · -- refused: the new object is freed again
      rw [if_pos hfull, ← hsplit]
      refine h.congr_heap ?_
      intro r hr
      rw [nodeIdAt, nodeIdAt, Heap.get_free_of_ne _ (h.ne_fresh hr),
        Heap.get_alloc_of_ne _ _ (h.ne_fresh hr)]
    · rw [if_neg hfull]
      exact h.insert hmiss hsplit hlow hhigh (Nat.not_le.mp hfull)

/-! ## Deletion -/

/-- The buckets with only the nodes that satisfy `p`. -/
def keepNodes (p : Ref → Bool) (l : List Buck) : List Buck :=
  l.map fun b => { b with nodes := b.nodes.filter p }

theorem allNodes_keepNodes (p : Ref → Bool) (l : List Buck) :
    allNodes (keepNodes p l) = (allNodes l).filter p := by
  induction l with
  | nil =>
      rfl
  | cons b l ih =>
      have ih' : allNodes (l.map fun b => { b with nodes := b.nodes.filter p }) =
          (allNodes l).filter p := ih
      simp [keepNodes, ih']

theorem keepNodes_congr
    {p q : Ref → Bool} {l : List Buck} (h : ∀ r ∈ allNodes l, p r = q r) :
    keepNodes p l = keepNodes q l := by
  refine List.map_congr_left ?_
  intro b hb
  congr 1
  refine List.filter_congr ?_
  intro r hr
  exact h r (List.mem_flatMap.mpr ⟨b, hb, hr⟩)

theorem keepNodes_true (l : List Buck) : keepNodes (fun _ => true) l = l := by
  simp [keepNodes]

theorem keepNodes_keepNodes (p q : Ref → Bool) (l : List Buck) :
    keepNodes q (keepNodes p l) = keepNodes (fun r => p r && q r) l := by
  simp [keepNodes, List.filter_filter, Bool.and_comm]

/-- Fewer nodes keep the invariant of the buckets. -/
theorem BucketPartition.keep
    {heap : Heap (UdpNode v)} {l : List Buck}
    (h : BucketPartition heap l) (p : Ref → Bool) :
    BucketPartition heap (keepNodes p l) where
  halving := by
    have hkeys : (keepNodes p l).map Buck.key = l.map Buck.key := by
      simp [keepNodes, Buck.key]
    rw [hkeys]
    exact h.halving
  placed := by
    refine h.placed.map (fun _ => rfl) ?_
    intro b hi hlies r hr
    exact hlies r (List.mem_filter.mp hr).1
  small := by
    intro b' hb'
    obtain ⟨b, hb, rfl⟩ := List.mem_map.mp hb'
    exact Nat.le_trans (List.length_filter_le _ _) (h.small b hb)
  distinct := by
    rw [allNodes_keepNodes]
    exact h.distinct.filter p
  ids_distinct := by
    rw [allNodes_keepNodes]
    intro r hr r' hr'
    exact h.ids_distinct r (List.mem_filter.mp hr).1 r' (List.mem_filter.mp hr').1

/-- `bckt_del` of a node that is in a bucket removes that node. -/
theorem bcktDel_eq
    {heap : Heap (UdpNode v)} {l : List Buck} {r : Ref} {n : UdpNode v}
    (h : BucketPartition heap l) (hr : r ∈ allNodes l) (hget : heap.get r = some n) :
    bcktDel heap l n = keepNodes (fun q => q != r) l := by
  obtain ⟨b, hb, hrb⟩ := List.mem_flatMap.mp hr
  obtain ⟨u, w, rfl⟩ := List.append_of_mem hb
  obtain ⟨m, hm, hlow, hhigh⟩ := h.placed.at r hrb
  cases hm.symm.trans hget
  have hbest := h.bestMatch hlow hhigh
  have hfind : bcktFindNode heap (u ++ b :: w) n.id = some r := by
    rw [bcktFindNode, hbest, (getElem?_length u w b).1]
    dsimp only
    cases hfound : b.nodes.find? (isNode heap n.id) with
    | none =>
        have := List.find?_eq_none.mp hfound r hrb
        simp [isNode, hget] at this
    | some q =>
        have hq := List.mem_of_find?_eq_some hfound
        have hnode := List.find?_some hfound
        rw [isNode, Option.any_eq_true] at hnode
        obtain ⟨m, hm, hmid⟩ := hnode
        rw [h.ids_distinct q (by simp [hq]) r hr m n hm hget (of_decide_eq_true hmid)]
  have hdistinct := h.distinct
  simp only [allNodes_append, allNodes_cons] at hdistinct
  have hu : r ∉ allNodes u := by
    intro hmem
    exact (List.nodup_append.mp hdistinct).2.2 r hmem r (by simp [hrb]) rfl
  have hbw := (List.nodup_append.mp hdistinct).2.1
  have hw : r ∉ allNodes w := by
    intro hmem
    exact (List.nodup_append.mp hbw).2.2 r hrb r hmem rfl
  have hsame : ∀ l : List Buck, r ∉ allNodes l → keepNodes (fun q => q != r) l = l := by
    intro l hl
    rw [keepNodes_congr (q := fun _ => true) ?_, keepNodes_true]
    intro q hq
    have : q ≠ r := by
      rintro rfl
      exact hl hq
    simpa using this
  have hkeep : keepNodes (fun q => q != r) (u ++ b :: w) =
      keepNodes (fun q => q != r) u ++
        ⟨b.id, b.nodes.filter fun q => q != r⟩ :: keepNodes (fun q => q != r) w := by
    simp [keepNodes]
  rw [bcktDel, hfind]
  dsimp only
  rw [hbest, setNodes, modify_at, hkeep, hsame u hu, hsame w hw]
  congr 2
  congr 1
  exact (List.nodup_append.mp hbw).1.erase_eq_filter r

/-- `nbhd_del` of a node that is in a bucket. -/
theorem nbhdDel_spec
    (h : NbhdInv s) {r : Ref} (hr : r ∈ allNodes s.bucket) :
    NbhdInv (nbhdDel s r) ∧
      (nbhdDel s r).bucket = keepNodes (fun q => q != r) s.bucket ∧
      (nbhdDel s r).heap = s.heap.free r := by
  obtain ⟨n, hget⟩ := h.live hr
  have hbucket := bcktDel_eq h.buckets hr hget
  have hother : ∀ q ∈ allNodes (keepNodes (fun q => q != r) s.bucket),
      q ∈ allNodes s.bucket ∧ q ≠ r := by
    intro q hq
    rw [allNodes_keepNodes] at hq
    simpa using hq
  rw [nbhdDel, hget]
  refine ⟨⟨?_, ?_⟩, hbucket, rfl⟩
  · dsimp only
    rw [hbucket]
    refine (h.buckets.keep _).congr ?_
    intro q hq
    rw [nodeIdAt, nodeIdAt, Heap.get_free_of_ne _ (hother q hq).2]
  · intro key q
    dsimp only
    rw [hbucket, allNodes_keepNodes, hashGet_hashDel]
    split
    · rename_i hkey
      subst hkey
      constructor
      · rintro ⟨⟩
      · rintro ⟨hq, m, hm, hmid⟩
        have hq' : q ∈ allNodes s.bucket ∧ q ≠ r := by
          simpa using hq
        rw [Heap.get_free_of_ne _ hq'.2] at hm
        exact absurd (h.buckets.ids_distinct q hq'.1 r hr m n hm hget
          (NodeId.bytes_inj hmid)) hq'.2
    · rename_i hkey
      rw [h.hash_iff key q]
      constructor
      · rintro ⟨hq, m, hm, hmid⟩
        have hqr : q ≠ r := by
          rintro rfl
          cases hm.symm.trans hget
          exact hkey hmid.symm
        exact ⟨by simpa using ⟨hq, hqr⟩, m, by rwa [Heap.get_free_of_ne _ hqr], hmid⟩
      · rintro ⟨hq, m, hm, hmid⟩
        have hq' : q ∈ allNodes s.bucket ∧ q ≠ r := by
          simpa using hq
        rw [Heap.get_free_of_ne _ hq'.2] at hm
        exact ⟨hq'.1, m, hm, hmid⟩

/-! ## Expiry -/

/-- `s'` is `s` without the nodes that satisfy `p`. -/
structure Removed (s s' : Nbhd v) (p : Ref → Bool) : Prop where
  inv : NbhdInv s'
  bucket_eq : s'.bucket = keepNodes (fun r => !p r) s.bucket
  get_eq : ∀ r ∈ allNodes s.bucket, p r = false → s'.heap.get r = s.heap.get r

namespace Removed

variable {s₁ s₂ : Nbhd v} {p q : Ref → Bool}

theorem refl (h : NbhdInv s) : Removed s s fun _ => false where
  inv := h
  bucket_eq := (keepNodes_true s.bucket).symm
  get_eq := fun _ _ _ => rfl

theorem congr
    (h : Removed s s₁ p) (hpq : ∀ r ∈ allNodes s.bucket, p r = q r) :
    Removed s s₁ q where
  inv := h.inv
  bucket_eq := by
    rw [h.bucket_eq]
    refine keepNodes_congr ?_
    intro r hr
    rw [hpq r hr]
  get_eq := by
    intro r hr hq
    exact h.get_eq r hr (by rw [hpq r hr, hq])

/-- What is left after the first removal. -/
theorem mem_iff (h : Removed s s₁ p) {r : Ref} :
    r ∈ allNodes s₁.bucket ↔ r ∈ allNodes s.bucket ∧ p r = false := by
  rw [h.bucket_eq, allNodes_keepNodes]
  simp

theorem trans (h₁ : Removed s s₁ p) (h₂ : Removed s₁ s₂ q) :
    Removed s s₂ fun r => p r || q r where
  inv := h₂.inv
  bucket_eq := by
    rw [h₂.bucket_eq, h₁.bucket_eq, keepNodes_keepNodes]
    simp
  get_eq := by
    intro r hr hpq
    rw [Bool.or_eq_false_iff] at hpq
    rw [h₂.get_eq r (h₁.mem_iff.mpr ⟨hr, hpq.1⟩) hpq.2, h₁.get_eq r hr hpq.1]

end Removed

/-- The inner loop of `nbhd_expire` removes the bad ones of the given nodes. -/
theorem nbhdExpireNodes_spec
    (h : NbhdInv s) {rs : List Ref}
    (hsub : ∀ r ∈ rs, r ∈ allNodes s.bucket) (hnodup : rs.Nodup) :
    Removed s (nbhdExpireNodes s rs) fun r => decide (r ∈ rs) && isBad s.heap r := by
  induction rs generalizing s with
  | nil =>
      exact (Removed.refl h).congr fun r _ => by simp
  | cons r rs ih =>
      obtain ⟨hr, hnodup'⟩ := List.nodup_cons.mp hnodup
      rw [nbhdExpireNodes, List.foldl_cons]
      cases hbad : isBad s.heap r with
      | false =>
          have htail := ih h (fun q hq => hsub q (by simp [hq])) hnodup'
          rw [if_neg (by simp)]
          refine htail.congr ?_
          intro q _
          rcases eq_or_ne q r with rfl | hqr
          · simp [hbad]
          · simp [hqr]
      | true =>
          obtain ⟨hinv, hbucket, hheap⟩ := nbhdDel_spec h (hsub r (by simp))
          have hdel : Removed s (nbhdDel s r) fun q => q == r := by
            refine ⟨hinv, hbucket, ?_⟩
            intro q _ hq
            rw [hheap, Heap.get_free_of_ne _ (by simpa using hq)]
          have hne : ∀ q ∈ rs, q ≠ r := by
            rintro q hq rfl
            exact hr hq
          have htail := ih hinv (by
            intro q hq
            rw [hdel.mem_iff]
            exact ⟨hsub q (by simp [hq]), by simpa using hne q hq⟩) hnodup'
          rw [if_pos rfl]
          refine (hdel.trans htail).congr ?_
          intro q _
          rcases eq_or_ne q r with rfl | hqr
          · simp [hbad]
          · have hsame : isBad (nbhdDel s r).heap q = isBad s.heap q := by
              rw [isBad, isBad, hheap, Heap.get_free_of_ne _ hqr]
            simp [hqr, hsame]

/-- One round of the outer loop of `nbhd_expire`. -/
theorem nbhdExpireBucket_spec
    (h : NbhdInv s) {i : Nat} {b : Buck} (hb : s.bucket[i]? = some b) :
    Removed s (nbhdExpireBucket s i) fun r =>
      decide (r ∈ b.nodes) && isBad s.heap r := by
  have hmem := List.mem_of_getElem? hb
  rw [nbhdExpireBucket, hb]
  refine nbhdExpireNodes_spec h ?_ ?_
  · intro r hr
    exact List.mem_flatMap.mpr ⟨b, hmem, hr⟩
  · exact (List.nodup_flatMap.mp h.buckets.distinct).1 b hmem

/-- After `k` rounds the bad nodes of the first `k` buckets are gone. -/
theorem nbhdExpire_loop (h : NbhdInv s) {k : Nat} (hk : k ≤ s.bucket.length) :
    Removed s ((List.range k).foldl nbhdExpireBucket s) fun r =>
      decide (r ∈ allNodes (s.bucket.take k)) && isBad s.heap r := by
  induction k with
  | zero =>
      exact (Removed.refl h).congr fun r _ => by simp [allNodes]
  | succ k ih =>
      have hprev := ih (by omega)
      rw [List.range_succ, List.foldl_append, List.foldl_cons, List.foldl_nil]
      generalize (List.range k).foldl nbhdExpireBucket s = s₁ at hprev ⊢
      have hk' : k < s.bucket.length := by omega
      have hbucket : s₁.bucket[k]? = some
          { s.bucket[k] with nodes := s.bucket[k].nodes.filter fun r =>
            !(decide (r ∈ allNodes (s.bucket.take k)) && isBad s.heap r) } := by
        rw [hprev.bucket_eq, keepNodes, List.getElem?_map, List.getElem?_eq_getElem hk']
        rfl
      refine (hprev.trans (nbhdExpireBucket_spec hprev.inv hbucket)).congr ?_
      intro r hr
      have htake : r ∈ allNodes (s.bucket.take (k + 1)) ↔
          r ∈ allNodes (s.bucket.take k) ∨ r ∈ s.bucket[k].nodes := by
        rw [List.take_succ_eq_append_getElem hk', allNodes_append]
        simp [allNodes]
      cases hp : decide (r ∈ allNodes (s.bucket.take k)) && isBad s.heap r with
      | true =>
          have hboth := Bool.and_eq_true_iff.mp hp
          have hmem : r ∈ allNodes (s.bucket.take (k + 1)) :=
            htake.mpr (.inl (of_decide_eq_true hboth.1))
          simp [hmem, hboth.2]
      | false =>
          have hsame : isBad s₁.heap r = isBad s.heap r := by
            rw [isBad, isBad, hprev.get_eq r hr hp]
          rw [hsame]
          cases hbad : isBad s.heap r with
          | false =>
              simp
          | true =>
              have hnot : r ∉ allNodes (s.bucket.take k) := by
                simpa [hbad] using hp
              simp [htake, hnot]

/-- `nbhd_expire` removes exactly the bad nodes. -/
theorem nbhdExpire_spec (h : NbhdInv s) :
    Removed s (nbhdExpire s) (isBad s.heap) := by
  refine (nbhdExpire_loop h (Nat.le_refl _)).congr ?_
  intro r hr
  simp [hr]

/-! ## Runs -/

/-- The operations on the routing table. -/
inductive NbhdOp (v : Build) where
  | put (id : NodeId) (sa : Ip v)
  | pinged (id : NodeId) (time : Int)
  | ponged (id : NodeId) (sa : Ip v) (time : Int)
  | expire
  | split (target : NodeId)

/-- The loop of `nbhd_split` does not end. -/
inductive NbhdFault where
  | splitLoop
deriving DecidableEq, Repr

/-- The table after an operation. -/
def nbhdStep (me : NodeId) (s : Nbhd v) : NbhdOp v → Except NbhdFault (Nbhd v)
  | .put id sa => .ok (nbhdPut me s id sa)
  | .pinged id time => .ok (nbhdPinged s id time)
  | .ponged id sa time => .ok (nbhdPonged s id sa time)
  | .expire => .ok (nbhdExpire s)
  | .split target =>
      match nbhdSplit s target with
      | none => .error .splitLoop
      | some s => .ok s

/-- One operation. -/
theorem nbhdStep_inv (me : NodeId) (s : Nbhd v) (op : NbhdOp v) (h : NbhdInv s) :
    ∃ s', nbhdStep me s op = .ok s' ∧ NbhdInv s' := by
  cases op with
  | put id sa =>
      exact ⟨_, rfl, nbhdPut_inv h me id sa⟩
  | pinged id time =>
      exact ⟨_, rfl, nbhdPinged_inv h id time⟩
  | ponged id sa time =>
      exact ⟨_, rfl, nbhdPonged_inv h id sa time⟩
  | expire =>
      exact ⟨_, rfl, (nbhdExpire_spec h).inv⟩
  | split target =>
      obtain ⟨s', hsplit, hs'⟩ := nbhdSplit_inv h target
      exact ⟨s', by rw [nbhdStep, hsplit], hs'⟩

/-- The identifier lies in the interval of the bucket at position `i`. -/
def InBucket (l : List Buck) (i : Nat) (id : NodeId) : Prop :=
  ∃ u b w, l = u ++ b :: w ∧ u.length = i ∧ b.key ≤ id.toNat ∧
    id.toNat < upper Buck.key (2 ^ 160) w

/-- The buckets cut the identifiers into intervals without gap or overlap, and
`bckt_find_best_match` finds the right one. -/
theorem NbhdInv.inBucket_iff (h : NbhdInv s) (id : NodeId) (i : Nat) :
    InBucket s.bucket i id ↔ i = bcktFindBestMatch s.bucket id := by
  constructor
  · rintro ⟨u, b, w, hsplit, rfl, hlow, hhigh⟩
    have hpart := h.buckets
    rw [hsplit] at hpart ⊢
    exact (hpart.bestMatch hlow hhigh).symm
  · rintro rfl
    obtain ⟨u, b, w, hsplit, hlow, hhigh⟩ := h.buckets.locate id
    have hpart := h.buckets
    refine ⟨u, b, w, hsplit, ?_, hlow, hhigh⟩
    rw [hsplit] at hpart ⊢
    exact (hpart.bestMatch hlow hhigh).symm

/-- Every run of the operations from `nbhd_init` returns, in a state in which
* the bucket identifiers start at 0, increase strictly, come from halving the
  range of identifiers and so bound dyadic intervals;
* every identifier lies in exactly the bucket that `bckt_find_best_match` finds,
  and every node lies in the bucket of its identifier;
* no identifier occurs twice, no bucket holds more than `BCKT_SIZE_MAX` nodes,
  and the hash maps exactly the identifiers in the buckets, each to its node;
* `nbhd_expire` would remove exactly the nodes with `pinged >= 4`. -/
theorem nbhd_run (me : NodeId) (ops : List (NbhdOp v)) :
    ∃ s : Nbhd v, run (nbhdStep me) nbhdInit ops = .ok s ∧ NbhdInv s ∧
      (∃ ids, s.bucket.map Buck.key = 0 :: ids) ∧
      s.bucket.Pairwise (fun a b => a.key < b.key) ∧
      Intervals Buck.key (fun b hi => Dyadic 160 b.key hi) (2 ^ 160) s.bucket ∧
      (∀ id i, InBucket s.bucket i id ↔ i = bcktFindBestMatch s.bucket id) ∧
      Removed s (nbhdExpire s) (isBad s.heap) := by
  obtain ⟨s, hrun, hinv⟩ := run_invariant (nbhdStep_inv me) ops nbhdInit_inv
  exact ⟨s, hrun, hinv, hinv.buckets.halving.head_eq_zero,
    hinv.buckets.increasing.pairwise, hinv.buckets.dyadic, hinv.inBucket_iff,
    nbhdExpire_spec hinv⟩

end Torrentkino
