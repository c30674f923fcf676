import Torrentkino.Lib.Sorted
import Torrentkino.P2p.Distance
import Torrentkino.P2p.Recency

/-!
# The value store over whole runs

The targets of the store are sorted by their distance to the own node id.  A new
target goes to its place, and if there are too many the last one is dropped.

**Results.**
* `objects_valPut_old`, `objects_valPut_new`, `valPut_refused`,
  `objects_valExpire`: what a call does to the sequence of targets.
* `value_store_sorted`: order, sizes and hash after any calls, and exactly when
  a new target is refused.
-/

namespace Torrentkino

open Memory

variable {v : Build}

/-- The distance of a target to the own node id. -/
def TargetV.distance (me : NodeId) (t : TargetV v) : Nat :=
  t.target.distance me

/-- The invariant of the store. -/
structure ValueInv (me : NodeId) (s : Value v) : Prop where
  sorted : Sorted (TargetV.distance me) s.targets.objects
  length_le : s.targets.objects.length ≤ valueSizeMax
  nodes : ∀ t ∈ s.targets.objects,
    1 ≤ t.nodes.objects.length ∧ t.nodes.objects.length ≤ tgtVSizeMax

/-! ## `val_put` -/

theorem targets_valLimit (s : Value v) :
    (valLimit s).targets = s.targets.limit valueSizeMax := by
  rw [valLimit, Index.limit]
  split
  · cases s.targets.list.getLast? <;> rfl
  · rfl

/-- The target is not listed. -/
theorem valFind_eq_none_iff (s : Value v) (target : NodeId) :
    valFind s target = none ↔ ∀ t ∈ s.targets.objects, t.target ≠ target := by
  rw [valFind, Index.find_eq_none_iff]
  constructor
  · intro h t ht heq
    exact h t ht (congrArg NodeId.bytes heq)
  · intro h t ht heq
    exact h t ht (NodeId.bytes_inj heq)

/-- `val_ins_sort` inserts at the place that belongs to the distance, unless
this is behind the last target of a full store. -/
theorem valPosition_eq
    (me : NodeId) {s : Value v} (target : NodeId)
    (hlen : s.targets.objects.length ≤ valueSizeMax) :
    valPosition me s target =
      if placeOf (TargetV.distance me) s.targets.objects (target.distance me) < valueSizeMax then
        some (placeOf (TargetV.distance me) s.targets.objects (target.distance me))
      else none := by
  have hfind : s.targets.list.findIdx (valFarther me s target) =
      placeOf (TargetV.distance me) s.targets.objects (target.distance me) := by
    rw [placeOf, ← s.targets.findIdx_list]
    refine congrArg (s.targets.list.findIdx ·) (funext fun r => ?_)
    rw [valFarther]
    refine congrArg (Option.any · _) (funext fun old => ?_)
    exact decide_eq_decide.mpr (NodeId.strSha1Compare_neg_iff _ _ _)
  have hle := placeOf_le (TargetV.distance me) s.targets.objects (target.distance me)
  rw [valPosition, List.findIdx?_eq_guard_findIdx_lt, hfind]
  rw [Index.length_objects] at hle hlen
  generalize placeOf (TargetV.distance me) s.targets.objects (target.distance me) = i at hle ⊢
  by_cases hlt : i < s.targets.list.length
  · have hroom : i < valueSizeMax := Nat.lt_of_lt_of_le hlt hlen
    simp [Option.guard, hlt, hroom]
  · obtain rfl : i = s.targets.list.length := Nat.le_antisymm hle (Nat.not_lt.mp hlt)
    simp [Option.guard]

/-- Updating the nodes of a listed target. -/
theorem objects_valUpdateAt
    (now : Int) {s : Value v} {r : Ref} {t : TargetV v}
    (ht : s.targets.heap.get r = some t) (id : NodeId) (port : Nat) (sa : Ip v) :
    (valUpdateAt now s r id port sa).1.targets.objects =
      s.targets.objects.map fun u =>
        if u.key = t.key then (tgtVUpdate now t id sa port).1 else u := by
  rw [valUpdateAt]
  split
  · rename_i hnone
    cases hnone.symm.trans ht
  · rename_i u hu
    cases hu.symm.trans ht
    refine s.targets.objects_modify ht _ ?_
    intro w hw
    cases hw.symm.trans ht
    rw [TargetV.key, TargetV.key, target_tgtVUpdate]

/-- A listed target gets the node. -/
theorem objects_valPut_old
    (me : NodeId) (now : Int) {s : Value v} {t : TargetV v} (ht : t ∈ s.targets.objects)
    (id : NodeId) (port : Nat) (sa : Ip v) :
    (valPut me now s t.target id port sa).1.targets.objects =
      s.targets.objects.map fun u =>
        if u.key = t.key then (tgtVUpdate now t id sa port).1 else u := by
  obtain ⟨r, hr⟩ := (s.targets.mem_objects_iff t).mp ht
  have hfind : valFind s t.target = some r := (s.targets.find_eq_some_iff _ _).mpr ⟨t, hr, rfl⟩
  rw [valPut]
  split
  · rename_i q hq
    cases hq.symm.trans hfind
    exact objects_valUpdateAt now hr id port sa
  · rename_i hnone
    cases hnone.symm.trans hfind

/-- A new target goes to its place, and the last of the old ones is dropped if
the store was full. -/
theorem objects_valPut_new
    (me : NodeId) (now : Int) {s : Value v} {target : NodeId} (id : NodeId) (port : Nat)
    (sa : Ip v) (hlen : s.targets.objects.length ≤ valueSizeMax)
    (hnew : valFind s target = none) {i : Nat}
    (hi : i = placeOf (TargetV.distance me) s.targets.objects (target.distance me))
    (hroom : i < valueSizeMax) :
    (valPut me now s target id port sa).1.targets.objects =
      (s.targets.objects.take (valueSizeMax - 1)).take i ++
        (tgtVUpdate now (tgtVInit target) id sa port).1 ::
          (s.targets.objects.take (valueSizeMax - 1)).drop i := by
  have hpos : valPosition me s target = some i := by
    rw [valPosition_eq me target hlen, ← hi, if_pos hroom]
  have hile : i ≤ s.targets.objects.length := hi ▸ placeOf_le _ _ _
  have hkey : s.targets.find (TargetV.key (tgtVInit target : TargetV v)) = none := hnew
  -- the store after `val_ins_sort`
  let s₁ := valLimit { s with targets := s.targets.insert i (tgtVInit target) hkey }
  have hs₁ : s₁.targets = (s.targets.insert i (tgtVInit target) hkey).limit valueSizeMax :=
    targets_valLimit _
  have hobjects : s₁.targets.objects =
      (s.targets.objects.take (valueSizeMax - 1)).take i ++
        tgtVInit target :: (s.targets.objects.take (valueSizeMax - 1)).drop i := by
    have hlen₁ : (s.targets.insert i (tgtVInit target) hkey).list.length ≤ valueSizeMax + 1 := by
      rw [Index.length_objects] at hlen hile
      simp only [Index.list_insert, List.length_append, List.length_cons, List.length_take,
        List.length_drop]
      omega
    rw [hs₁, Index.objects_limit _ hlen₁, Index.objects_insert]
    exact take_insert _ _ (Nat.le_sub_one_of_lt hroom) hile
  have hget : s₁.targets.heap.get s.targets.heap.fresh = some (tgtVInit target) := by
    rw [hs₁]
    refine Index.get_limit (Heap.get_alloc_self _ _) ?_
    rw [← hs₁, hobjects]
    exact List.mem_append_right _ List.mem_cons_self
  -- only the new target has its key
  have hold : ∀ l : List (TargetV v), l.Sublist s.targets.objects →
      l.map (fun u => if u.key = (tgtVInit target : TargetV v).key then
        (tgtVUpdate now (tgtVInit target) id sa port).1 else u) = l := by
    intro l hl
    refine (List.map_congr_left ?_).trans (List.map_id _)
    intro u hu
    exact if_neg ((s.targets.find_eq_none_iff _).mp hkey u (hl.subset hu))
  have hput : (valPut me now s target id port sa).1 =
      (valUpdateAt now s₁ s.targets.heap.fresh id port sa).1 := by
    rw [valPut]
    split
    · rename_i r hr
      cases hr.symm.trans hnew
    · simp only [valInsSort, hpos]
      rfl
  rw [hput, objects_valUpdateAt now hget, hobjects, List.map_append, List.map_cons, if_pos rfl,
    hold _ ((List.take_sublist _ _).trans (List.take_sublist _ _)),
    hold _ ((List.drop_sublist _ _).trans (List.take_sublist _ _))]

/-- A target that is farther than all those of a full store is refused. -/
theorem valPut_refused
    (me : NodeId) (now : Int) {s : Value v} {target : NodeId} (id : NodeId) (port : Nat)
    (sa : Ip v) (hlen : s.targets.objects.length ≤ valueSizeMax)
    (hnew : valFind s target = none)
    (hfull : ¬ placeOf (TargetV.distance me) s.targets.objects (target.distance me) <
      valueSizeMax) :
    valPut me now s target id port sa = (s, sa) := by
  have hpos : valPosition me s target = none := by
    rw [valPosition_eq me target hlen, if_neg hfull]
  have hlimit : valLimit s = s := by
    rw [valLimit, if_neg]
    rw [Index.length_objects] at hlen
    omega
  rw [valPut]
  split
  · rename_i r hr
    cases hr.symm.trans hnew
  · simp only [valInsSort, hpos, hlimit]

/-! ## `val_expire` -/

/-- What `val_expire` makes of a target. -/
def valExpired (now : Int) (t : TargetV v) : Option (TargetV v) :=
  Option.guard (fun t => !decide (t.nodes.list.length = 0)) (tgtVExpire now t)

theorem objects_valExpire (now : Int) (s : Value v) :
    (valExpire now s).targets.objects = s.targets.objects.filterMap (valExpired now) := by
  have htargets : (valExpire now s).targets = s.targets.list.foldl
      (fun targets r => (valExpireTarget now ⟨targets⟩ r).targets) s.targets :=
    (List.foldl_hom Value.targets fun _ _ => rfl).symm
  rw [htargets]
  refine Index.objects_foldl ?_ _
  intro targets r hr
  have hvisit := targets.visits_modify_remove hr (tgtVExpire now)
    (fun t => t.nodes.list.length = 0) fun t _ => by
      rw [TargetV.key, TargetV.key, target_tgtVExpire]
  rw [valExpireTarget, apply_ite Value.targets]
  exact hvisit

theorem valExpired_eq_some
    {now : Int} {t u : TargetV v} (h : valExpired now t = some u) :
    u = tgtVExpire now t ∧ u.nodes.list.length ≠ 0 := by
  obtain ⟨rfl, hne⟩ := Option.guard_eq_some_iff.mp h
  exact ⟨rfl, by simpa using hne⟩

/-! ## The invariant -/

section Invariant

variable {me : NodeId} {s : Value v}

theorem valueInv_valInit (me : NodeId) : ValueInv me (valInit : Value v) where
  sorted := List.Pairwise.nil
  length_le := Nat.zero_le _
  nodes := by
    intro t ht
    cases ht

/-- An updated target has a node, and not too many. -/
theorem length_tgtVUpdate
    (now : Int) {t : TargetV v} (id : NodeId) (sa : Ip v) (port : Nat)
    (hlen : t.nodes.objects.length ≤ tgtVSizeMax) :
    1 ≤ (tgtVUpdate now t id sa port).1.nodes.objects.length ∧
      (tgtVUpdate now t id sa port).1.nodes.objects.length ≤ tgtVSizeMax := by
  rw [objects_tgtVUpdate now id sa port (t.nodes.length_objects ▸ hlen)]
  refine ⟨?_, Recent.length_step_le _ hlen⟩
  rw [Recent.step, List.length_take, List.length_cons, tgtVSizeMax]
  omega

theorem ValueInv.valPut_old
    (h : ValueInv me s) (now : Int) {t : TargetV v} (ht : t ∈ s.targets.objects)
    (id : NodeId) (port : Nat) (sa : Ip v) :
    ValueInv me (valPut me now s t.target id port sa).1 := by
  have hobjects := objects_valPut_old me now ht id port sa
  have htarget : ∀ u : TargetV v,
      (if u.key = t.key then (tgtVUpdate now t id sa port).1 else u).target = u.target := by
    intro u
    split
    · rename_i hkey
      rw [target_tgtVUpdate]
      exact (NodeId.bytes_inj hkey).symm
    · rfl
  constructor
  · rw [hobjects, Sorted, List.pairwise_map]
    refine h.sorted.imp ?_
    intro a b hab
    rwa [TargetV.distance, TargetV.distance, htarget, htarget]
  · rw [hobjects, List.length_map]
    exact h.length_le
  · rw [hobjects]
    intro w hw
    obtain ⟨u, hu, rfl⟩ := List.mem_map.mp hw
    split
    · exact length_tgtVUpdate now id sa port (h.nodes t ht).2
    · exact h.nodes u hu

theorem ValueInv.valPut_new
    (h : ValueInv me s) (now : Int) {target : NodeId} (hnew : valFind s target = none)
    (id : NodeId) (port : Nat) (sa : Ip v) :
    ValueInv me (valPut me now s target id port sa).1 := by
  by_cases hroom : placeOf (TargetV.distance me) s.targets.objects (target.distance me) <
      valueSizeMax
  · have hobjects := objects_valPut_new me now id port sa h.length_le hnew rfl hroom
    rw [← take_insert _ _ (Nat.le_sub_one_of_lt hroom) (placeOf_le _ _ _)] at hobjects
    have hdistance : TargetV.distance me (tgtVUpdate now (tgtVInit target) id sa port).1 =
        target.distance me := by
      rw [TargetV.distance, target_tgtVUpdate]
      rfl
    constructor
    · rw [hobjects, ← hdistance]
      refine (h.sorted.insert ?_).sublist (List.take_sublist _ _)
      intro t ht heq
      rw [hdistance] at heq
      exact (valFind_eq_none_iff s target).mp hnew t ht (NodeId.distance_inj heq)
    · rw [hobjects]
      exact List.length_take_le _ _
    · rw [hobjects]
      intro t ht
      rcases List.mem_append.mp (List.mem_of_mem_take ht) with ht | ht
      · exact h.nodes t (List.mem_of_mem_take ht)
      · rcases List.mem_cons.mp ht with rfl | ht
        · exact length_tgtVUpdate now id sa port (Nat.zero_le _)
        · exact h.nodes t (List.mem_of_mem_drop ht)
  · rw [valPut_refused me now id port sa h.length_le hnew hroom]
    exact h

theorem ValueInv.valPut
    (h : ValueInv me s) (now : Int) (target id : NodeId) (port : Nat) (sa : Ip v) :
    ValueInv me (valPut me now s target id port sa).1 := by
  cases hfind : valFind s target with
  | none =>
      exact h.valPut_new now hfind id port sa
  | some r =>
      obtain ⟨t, ht, hkey⟩ := (s.targets.find_eq_some_iff _ _).mp hfind
      obtain rfl : t.target = target := NodeId.bytes_inj hkey
      exact h.valPut_old now ((s.targets.mem_objects_iff t).mpr ⟨r, ht⟩) id port sa

theorem ValueInv.valExpire (h : ValueInv me s) (now : Int) :
    ValueInv me (valExpire now s) := by
  have hobjects := objects_valExpire now s
  constructor
  · rw [hobjects, Sorted, List.pairwise_filterMap]
    refine h.sorted.imp ?_
    intro a b hab a' ha' b' hb'
    rwa [(valExpired_eq_some ha').1, (valExpired_eq_some hb').1, TargetV.distance,
      TargetV.distance, target_tgtVExpire, target_tgtVExpire]
  · rw [hobjects]
    exact Nat.le_trans (List.length_filterMap_le _ _) h.length_le
  · rw [hobjects]
    intro u hu
    obtain ⟨t, ht, hsome⟩ := List.mem_filterMap.mp hu
    obtain ⟨rfl, hne⟩ := valExpired_eq_some hsome
    refine ⟨?_, ?_⟩
    · rw [Index.length_objects]
      omega
    · rw [objects_tgtVExpire]
      exact Recent.length_step_le _ (h.nodes t ht).2

end Invariant

/-! ## Runs -/

/-- A call that changes the store. -/
inductive ValOp (v : Build) where
  | put (now : Int) (target id : NodeId) (port : Nat) (sa : Ip v)
  | expire (now : Int)

/-- One call. -/
def valStep (me : NodeId) (s : Value v) : ValOp v → Value v
  | .put now target id port sa => (valPut me now s target id port sa).1
  | .expire now => valExpire now s

theorem valueInv_run (me : NodeId) (ops : List (ValOp v)) :
    ValueInv me (ops.foldl (valStep me) valInit) := by
  refine List.foldlRecOn ops _ (valueInv_valInit me) ?_
  intro s hs op _
  cases op with
  | put now target id port sa =>
      exact hs.valPut now target id port sa
  | expire now =>
      exact hs.valExpire now

/-- There is no room for a new target: the store is full, and the target is
farther than all those in it. -/
def ValFull (me : NodeId) (s : Value v) (target : NodeId) : Prop :=
  s.targets.objects.length = valueSizeMax ∧
    ∀ t ∈ s.targets.objects, t.target.distance me < target.distance me

/-- The old targets that stay when a new one is stored: all of them, or all but
the farthest one if the store is full. -/
def valKept (s : Value v) : List (TargetV v) :=
  if s.targets.objects.length = valueSizeMax then s.targets.objects.dropLast
  else s.targets.objects

theorem valKept_eq_take {s : Value v} (hlen : s.targets.objects.length ≤ valueSizeMax) :
    valKept s = s.targets.objects.take (valueSizeMax - 1) := by
  rw [valKept]
  split
  · rename_i hfull
    rw [List.dropLast_eq_take, hfull]
  · rename_i hroom
    rw [List.take_of_length_le]
    omega

/-- A new target has its place inside the store, unless there is no room. -/
theorem ValueInv.placeOf_lt_iff
    {me : NodeId} {s : Value v} (h : ValueInv me s) {target : NodeId}
    (hnew : ∀ t ∈ s.targets.objects, t.target ≠ target) :
    placeOf (TargetV.distance me) s.targets.objects (target.distance me) < valueSizeMax ↔
      ¬ ValFull me s target := by
  have hle := placeOf_le (TargetV.distance me) s.targets.objects (target.distance me)
  have hall : placeOf (TargetV.distance me) s.targets.objects (target.distance me) =
      s.targets.objects.length ↔
        ∀ t ∈ s.targets.objects, t.target.distance me < target.distance me := by
    rw [placeOf_eq_length_iff]
    refine forall₂_congr fun t ht => ?_
    have hne : t.target.distance me ≠ target.distance me :=
      fun heq => hnew t ht (NodeId.distance_inj heq)
    exact ⟨fun hle => Nat.lt_of_le_of_ne hle hne, Nat.le_of_lt⟩
  have hlen := h.length_le
  rw [ValFull, ← hall]
  omega

/-- After any calls the store is sorted by the distance to the own node id, has
no target twice and not too many, no target without nodes or with too many, and
its hash refers to exactly the listed targets.  A new target is refused exactly
if the store is full of nearer ones; otherwise it is stored, and of a full store
exactly the farthest target is dropped. -/
theorem value_store_sorted (me : NodeId) (ops : List (ValOp v)) :
    let s := ops.foldl (valStep me) valInit
    ValueInv me s ∧ (s.targets.objects.map TargetV.target).Nodup ∧
      s.targets.Holds s.targets.objects ∧
      ∀ (now : Int) (target id : NodeId) (port : Nat) (sa : Ip v),
        (∀ t ∈ s.targets.objects, t.target ≠ target) →
        ((valPut me now s target id port sa).1 = s ↔ ValFull me s target) ∧
          (¬ ValFull me s target → ∃ i,
            (valPut me now s target id port sa).1.targets.objects =
              (valKept s).take i ++ (tgtVUpdate now (tgtVInit target) id sa port).1 ::
                (valKept s).drop i) := by
  intro s
  have h : ValueInv me s := valueInv_run me ops
  refine ⟨h, ?_, s.targets.holds_objects, ?_⟩
  · rw [List.Nodup, List.pairwise_map]
    refine h.sorted.imp ?_
    intro a b hab heq
    rw [TargetV.distance, TargetV.distance, heq] at hab
    exact Nat.lt_irrefl _ hab
  · intro now target id port sa hnew
    have hfind : valFind s target = none := (valFind_eq_none_iff s target).mpr hnew
    have hstored : ¬ ValFull me s target → ∃ i,
        (valPut me now s target id port sa).1.targets.objects =
          (valKept s).take i ++ (tgtVUpdate now (tgtVInit target) id sa port).1 ::
            (valKept s).drop i := by
      intro hroom
      refine ⟨placeOf (TargetV.distance me) s.targets.objects (target.distance me), ?_⟩
      rw [valKept_eq_take h.length_le]
      exact objects_valPut_new me now id port sa h.length_le hfind rfl
        ((h.placeOf_lt_iff hnew).mpr hroom)
    refine ⟨⟨?_, ?_⟩, hstored⟩
    · -- a store that is the same does not have the target
      intro hsame
      by_contra hroom
      obtain ⟨i, hi⟩ := hstored hroom
      rw [hsame] at hi
      refine hnew (tgtVUpdate now (tgtVInit target) id sa port).1 ?_ (target_tgtVUpdate _ _ _ _ _)
      rw [hi]
      exact List.mem_append_right _ List.mem_cons_self
    · intro hfull
      rw [valPut_refused me now id port sa h.length_le hfind]
      rw [h.placeOf_lt_iff hnew]
      exact not_not_intro hfull

/-! ## Entries -/

/-- The store has an entry of the node for the target, with this pair. -/
def ValueHas (s : Value v) (target id : NodeId) (pair : Pair v) : Prop :=
  ∃ t ∈ s.targets.objects, t.target = target ∧ ∃ n ∈ t.nodes.objects, n.id = id ∧ n.pair = pair

theorem mem_tgtVUpdate
    (now : Int) {t : TargetV v} (id : NodeId) (sa : Ip v) (port : Nat)
    (hlen : t.nodes.objects.length ≤ tgtVSizeMax) :
    (nodeVUpdate now id sa port).1 ∈ (tgtVUpdate now t id sa port).1.nodes.objects := by
  rw [objects_tgtVUpdate now id sa port (t.nodes.length_objects ▸ hlen), Recent.step]
  exact List.mem_cons_self

/-- What `val_put` does not refuse is stored. -/
theorem ValueInv.valPut_has
    {me : NodeId} {s : Value v} (h : ValueInv me s) (now : Int) {target : NodeId} (id : NodeId)
    (port : Nat) (sa : Ip v)
    (hroom : (∀ t ∈ s.targets.objects, t.target ≠ target) → ¬ ValFull me s target) :
    ValueHas (Torrentkino.valPut me now s target id port sa).1 target id
      (ipMergePortToSin sa port).pair := by
  by_cases hlisted : ∃ t ∈ s.targets.objects, t.target = target
  · obtain ⟨t, ht, rfl⟩ := hlisted
    refine ⟨(tgtVUpdate now t id sa port).1, ?_, target_tgtVUpdate _ _ _ _ _,
      (nodeVUpdate now id sa port).1, mem_tgtVUpdate now id sa port (h.nodes t ht).2, rfl, rfl⟩
    rw [objects_valPut_old me now ht]
    exact List.mem_map.mpr ⟨t, ht, if_pos rfl⟩
  · have hnew : ∀ t ∈ s.targets.objects, t.target ≠ target := by
      intro t ht heq
      exact hlisted ⟨t, ht, heq⟩
    refine ⟨(tgtVUpdate now (tgtVInit target) id sa port).1, ?_, target_tgtVUpdate _ _ _ _ _,
      (nodeVUpdate now id sa port).1, mem_tgtVUpdate now id sa port (Nat.zero_le _), rfl, rfl⟩
    rw [objects_valPut_new me now id port sa h.length_le ((valFind_eq_none_iff s target).mpr hnew)
      rfl ((h.placeOf_lt_iff hnew).mpr (hroom hnew))]
    exact List.mem_append_right _ List.mem_cons_self

end Torrentkino
