import Torrentkino.Lib.Sorted
import Torrentkino.P2p.Recency

/-!
# The cache over whole runs

A new target goes to the start of the cache, and if there are too many the last
one is dropped.  Neither updates nor requests change the order, so that the last
target is the one that came into the cache first.

**Results.**
* `objects_cachePut_old`, `objects_cachePut_new`, `objects_cacheCompactList`,
  `objects_cacheExpire`: what a call does to the sequence of targets.
* `cache_store_ordered`: hash, sizes and order after any calls, which target a
  full cache drops, and which ones the expiry removes.
-/

namespace Torrentkino

open Memory

variable {v : Build}

/-! ## The calls -/

theorem targets_cacheLimit (s : Cache v) :
    (cacheLimit s).targets = s.targets.limit cacheSizeMax := by
  rw [cacheLimit, Index.limit]
  split
  · cases s.targets.list.getLast? <;> rfl
  · rfl

/-- The target is not listed. -/
theorem cacheFind_eq_none_iff (s : Cache v) (target : NodeId) :
    cacheFind s target = none ↔ ∀ t ∈ s.targets.objects, t.target ≠ target := by
  rw [cacheFind, Index.find_eq_none_iff]
  constructor
  · intro h t ht heq
    exact h t ht (congrArg NodeId.bytes heq)
  · intro h t ht heq
    exact h t ht (NodeId.bytes_inj heq)

/-- The pairs go to a listed target. -/
theorem objects_cacheUpdateAt
    (now : Int) {s : Cache v} {r : Ref} {t : TargetC v} (ht : s.targets.heap.get r = some t)
    (pairs : List (Pair v)) (rnd : Random) :
    (cacheUpdateAt now s r pairs rnd).1.targets.objects =
      s.targets.objects.map fun u =>
        if u.key = t.key then (tgtCUpdates now pairs t rnd).1 else u := by
  rw [cacheUpdateAt]
  split
  · rename_i hnone
    cases hnone.symm.trans ht
  · rename_i u hu
    cases hu.symm.trans ht
    refine s.targets.objects_modify ht _ ?_
    intro w hw
    cases hw.symm.trans ht
    rw [TargetC.key, TargetC.key, target_tgtCUpdates]

/-- A listed target gets the pairs, and the order stays. -/
theorem objects_cachePut_old
    (now : Int) {s : Cache v} {t : TargetC v} (ht : t ∈ s.targets.objects)
    (pairs : List (Pair v)) (rnd : Random) (hlen : s.targets.objects.length ≤ cacheSizeMax) :
    (cachePut now s t.target pairs rnd).1.targets.objects =
      s.targets.objects.map fun u =>
        if u.key = t.key then (tgtCUpdates now pairs t rnd).1 else u := by
  obtain ⟨r, hr⟩ := (s.targets.mem_objects_iff t).mp ht
  have hfind : cacheFind s t.target = some r :=
    (s.targets.find_eq_some_iff _ _).mpr ⟨t, hr, rfl⟩
  have hprepare : cachePrepare s t.target = (s, r) := by
    rw [cachePrepare]
    split
    · rename_i q hq
      cases hq.symm.trans hfind
      rfl
    · rename_i hnone
      cases hnone.symm.trans hfind
  have hobjects := objects_cacheUpdateAt now hr pairs rnd
  have hlen' : (cacheUpdateAt now s r pairs rnd).1.targets.objects.length ≤ cacheSizeMax := by
    rw [hobjects, List.length_map]
    exact hlen
  rw [cachePut, hprepare, targets_cacheLimit, Index.objects_limit, List.take_of_length_le hlen',
    hobjects]
  rw [Index.length_objects] at hlen'
  exact Nat.le_succ_of_le hlen'

/-- A new target goes to the start, and the last one is dropped if there are too
many. -/
theorem objects_cachePut_new
    (now : Int) {s : Cache v} {target : NodeId} (hnew : cacheFind s target = none)
    (pairs : List (Pair v)) (rnd : Random) (hlen : s.targets.objects.length ≤ cacheSizeMax) :
    (cachePut now s target pairs rnd).1.targets.objects =
      ((tgtCUpdates now pairs (tgtCInit target) rnd).1 :: s.targets.objects).take
        cacheSizeMax := by
  have hkey : s.targets.find (TargetC.key (tgtCInit target : TargetC v)) = none := hnew
  let s₁ : Cache v := { s with targets := s.targets.insert 0 (tgtCInit target) hkey }
  have hprepare : cachePrepare s target = (s₁, s.targets.heap.fresh) := by
    rw [cachePrepare]
    split
    · rename_i r hr
      cases hr.symm.trans hnew
    · rfl
  have hs₁ : s₁.targets.objects = tgtCInit target :: s.targets.objects :=
    s.targets.objects_insert 0 (tgtCInit target) hkey
  have hget : s₁.targets.heap.get s.targets.heap.fresh = some (tgtCInit target) :=
    Heap.get_alloc_self _ _
  have hobjects : (cacheUpdateAt now s₁ s.targets.heap.fresh pairs rnd).1.targets.objects =
      (tgtCUpdates now pairs (tgtCInit target) rnd).1 :: s.targets.objects := by
    rw [objects_cacheUpdateAt now hget, hs₁, List.map_cons, if_pos rfl]
    refine congrArg _ ((List.map_congr_left ?_).trans (List.map_id _))
    intro u hu
    exact if_neg ((s.targets.find_eq_none_iff _).mp hkey u hu)
  rw [cachePut, hprepare, targets_cacheLimit, Index.objects_limit, hobjects]
  rw [← Index.length_objects, hobjects, List.length_cons]
  exact Nat.succ_le_succ hlen

/-- A request extends the lifetime of its target. -/
theorem objects_cacheCompactList (now : Int) (s : Cache v) (target : NodeId) :
    (cacheCompactList now s target).2.targets.objects =
      s.targets.objects.map fun t =>
        if t.target = target then { t with lifetime := timeAdd30Min now } else t := by
  rw [cacheCompactList]
  dsimp only
  split
  · rename_i hnone
    refine ((List.map_congr_left ?_).trans (List.map_id _)).symm
    intro t ht
    exact if_neg ((cacheFind_eq_none_iff s target).mp hnone t ht)
  · rename_i r hr
    obtain ⟨t, ht, hkey⟩ := (s.targets.find_eq_some_iff _ _).mp hr
    refine (s.targets.objects_modify ht (fun t => { t with lifetime := timeAdd30Min now })
      fun _ _ => rfl).trans (List.map_congr_left ?_)
    intro u _
    have hiff : u.key = t.key ↔ u.target = target := by
      rw [hkey]
      exact ⟨NodeId.bytes_inj, congrArg NodeId.bytes⟩
    rw [if_congr hiff rfl rfl]

theorem lifetime_tgtCExpire (now : Int) (t : TargetC v) :
    (tgtCExpire now t).lifetime = t.lifetime := by
  rw [tgtCExpire]
  refine List.foldlRecOn (motive := fun u : TargetC v => u.lifetime = t.lifetime) t.nodes.list _ rfl ?_
  intro u hu r _
  split
  · exact hu
  · exact hu

/-- The expiry removes the targets whose lifetime is over. -/
theorem objects_cacheExpire (now : Int) (s : Cache v) :
    (cacheExpire now s).targets.objects =
      (s.targets.objects.filter fun t => now ≤ t.lifetime).map (tgtCExpire now) := by
  have htargets : (cacheExpire now s).targets = s.targets.list.foldl
      (fun targets r => (cacheExpireTarget now ⟨targets⟩ r).targets) s.targets :=
    (List.foldl_hom Cache.targets fun _ _ => rfl).symm
  have hvisits : ∀ (targets : Index (TargetC.key (v := v))) (r : Ref), targets.heap.Live r →
      Index.Visits targets (cacheExpireTarget now ⟨targets⟩ r).targets r
        fun t => Option.guard (fun u => !decide (now > u.lifetime)) (tgtCExpire now t) := by
    intro targets r hr
    have hvisit := targets.visits_modify_remove hr (tgtCExpire now)
      (fun t => now > t.lifetime) fun t _ => by
        rw [TargetC.key, TargetC.key, target_tgtCExpire]
    rw [cacheExpireTarget, apply_ite Cache.targets]
    exact hvisit
  rw [htargets, Index.objects_foldl hvisits, ← List.filterMap_eq_map, ← List.filterMap_eq_filter,
    List.filterMap_filterMap]
  refine List.filterMap_congr ?_
  intro t _
  by_cases hold : now ≤ t.lifetime
  · simp [Option.guard, lifetime_tgtCExpire, hold]
  · simp [Option.guard, lifetime_tgtCExpire, hold]

/-! ## Runs -/

/-- A call that changes the cache. -/
inductive CacheOp (v : Build) where
  | put (now : Int) (target : NodeId) (pairs : List (Pair v)) (rnd : Random)
  | compactList (now : Int) (target : NodeId)
  | expire (now : Int)

/-- One call. -/
def cacheStep (s : Cache v) : CacheOp v → Cache v
  | .put now target pairs rnd => (cachePut now s target pairs rnd).1
  | .compactList now target => (cacheCompactList now s target).2
  | .expire now => cacheExpire now s

/-- The targets that a call brings into the cache. -/
def cacheInserts (s : Cache v) : CacheOp v → List NodeId
  | .put _ target _ _ => if cacheFind s target = none then [target] else []
  | _ => []

/-- The cache with the targets that have come into it, the latest one first. -/
structure LoggedCache (v : Build) where
  cache : Cache v
  inserted : List NodeId

/-- One call, with the target it has brought into the cache. -/
def LoggedCache.step (s : LoggedCache v) (op : CacheOp v) : LoggedCache v where
  cache := cacheStep s.cache op
  inserted := cacheInserts s.cache op ++ s.inserted

/-- Before the first call. -/
def LoggedCache.init : LoggedCache v where
  cache := cacheInit
  inserted := []

/-- The order of the cache is the order in which its targets have come into
it. -/
structure CacheInv (s : LoggedCache v) : Prop where
  length_le : s.cache.targets.objects.length ≤ cacheSizeMax
  inserted : ∀ t ∈ s.cache.targets.objects, t.target ∈ s.inserted
  order : Sorted (fun t : TargetC v => s.inserted.idxOf t.target) s.cache.targets.objects

/-- What leaves the identifiers alone, or drops some, keeps the order. -/
theorem CacheInv.of_sublist
    {s s' : LoggedCache v} (h : CacheInv s) (hlog : s'.inserted = s.inserted)
    (hsub : (s'.cache.targets.objects.map TargetC.target).Sublist
      (s.cache.targets.objects.map TargetC.target)) :
    CacheInv s' where
  length_le := by
    have hle := hsub.length_le
    rw [List.length_map, List.length_map] at hle
    exact Nat.le_trans hle h.length_le
  inserted := by
    intro t ht
    obtain ⟨u, hu, heq⟩ := List.mem_map.mp (hsub.subset (List.mem_map_of_mem ht))
    rw [hlog, ← heq]
    exact h.inserted u hu
  order := by
    have hids : (s.cache.targets.objects.map TargetC.target).Pairwise
        fun a b => s.inserted.idxOf a < s.inserted.idxOf b :=
      List.pairwise_map.mpr h.order
    have hkept := hids.sublist hsub
    rw [List.pairwise_map] at hkept
    rw [hlog]
    exact hkept

theorem CacheInv.put_new
    {s : LoggedCache v} (h : CacheInv s) (now : Int) {target : NodeId}
    (hnew : cacheFind s.cache target = none) (pairs : List (Pair v)) (rnd : Random) :
    CacheInv (s.step (.put now target pairs rnd)) := by
  let t := (tgtCUpdates now pairs (tgtCInit target : TargetC v) rnd).1
  have htarget : t.target = target := target_tgtCUpdates _ _ _ _
  have hobjects : (s.step (.put now target pairs rnd)).cache.targets.objects =
      (t :: s.cache.targets.objects).take cacheSizeMax :=
    objects_cachePut_new now hnew pairs rnd h.length_le
  have hlog : (s.step (.put now target pairs rnd)).inserted = target :: s.inserted := by
    simp [LoggedCache.step, cacheInserts, hnew]
  have hne := (cacheFind_eq_none_iff s.cache target).mp hnew
  have hlater : ∀ u ∈ s.cache.targets.objects,
      (target :: s.inserted).idxOf u.target = s.inserted.idxOf u.target + 1 := by
    intro u hu
    exact List.idxOf_cons_ne _ fun heq => hne u hu heq.symm
  constructor
  · rw [hobjects]
    exact List.length_take_le _ _
  · rw [hobjects, hlog]
    intro u hu
    rcases List.mem_cons.mp (List.mem_of_mem_take hu) with rfl | hu
    · rw [htarget]
      exact List.mem_cons_self
    · exact List.mem_cons_of_mem _ (h.inserted u hu)
  · rw [hobjects, hlog]
    refine Sorted.sublist (List.pairwise_cons.mpr ⟨?_, ?_⟩) (List.take_sublist _ _)
    · intro u hu
      dsimp only
      rw [htarget, List.idxOf_cons_self, hlater u hu]
      exact Nat.succ_pos _
    · refine h.order.imp_of_mem ?_
      intro a b ha hb hab
      dsimp only
      rw [hlater a ha, hlater b hb]
      exact Nat.succ_lt_succ hab

/-- One call keeps the order. -/
theorem CacheInv.step {s : LoggedCache v} (h : CacheInv s) (op : CacheOp v) :
    CacheInv (s.step op) := by
  cases op with
  | put now target pairs rnd =>
      cases hfind : cacheFind s.cache target with
      | none =>
          exact h.put_new now hfind pairs rnd
      | some r =>
          obtain ⟨t, ht, hkey⟩ := (s.cache.targets.find_eq_some_iff _ _).mp hfind
          obtain rfl : t.target = target := NodeId.bytes_inj hkey
          refine h.of_sublist (by simp [LoggedCache.step, cacheInserts, hfind]) ?_
          have hobjects := objects_cachePut_old now ((s.cache.targets.mem_objects_iff t).mpr
            ⟨r, ht⟩) pairs rnd h.length_le
          change ((cachePut now s.cache t.target pairs rnd).1.targets.objects.map _).Sublist _
          rw [hobjects, List.map_map, List.map_congr_left]
          intro u _
          simp only [Function.comp]
          split
          · rename_i hsame
            rw [target_tgtCUpdates]
            exact (NodeId.bytes_inj hsame).symm
          · rfl
  | compactList now target =>
      refine h.of_sublist rfl ?_
      change ((cacheCompactList now s.cache target).2.targets.objects.map _).Sublist _
      rw [objects_cacheCompactList, List.map_map, List.map_congr_left]
      intro u _
      simp only [Function.comp]
      split <;> rfl
  | expire now =>
      refine h.of_sublist rfl ?_
      change ((cacheExpire now s.cache).targets.objects.map _).Sublist _
      have hids : TargetC.target ∘ tgtCExpire now = (TargetC.target : TargetC v → NodeId) :=
        funext (target_tgtCExpire now)
      rw [objects_cacheExpire, List.map_map, hids]
      exact List.filter_sublist.map _

theorem cacheInv_run (ops : List (CacheOp v)) :
    CacheInv (ops.foldl LoggedCache.step .init) := by
  have hinit : CacheInv (LoggedCache.init : LoggedCache v) := by
    constructor
    · exact Nat.zero_le _
    · intro t ht
      cases ht
    · exact List.Pairwise.nil
  exact List.foldlRecOn ops _ hinit fun s hs op _ => hs.step op

/-- The log does not change what the cache does. -/
theorem cache_foldl_step (ops : List (CacheOp v)) :
    (ops.foldl LoggedCache.step .init).cache = ops.foldl cacheStep cacheInit :=
  (List.foldl_hom LoggedCache.cache fun _ _ => rfl).symm

theorem CacheInv.nodup {s : LoggedCache v} (h : CacheInv s) :
    (s.cache.targets.objects.map TargetC.target).Nodup := by
  rw [List.Nodup, List.pairwise_map]
  refine h.order.imp ?_
  intro a b hab heq
  simp only [heq, Nat.lt_irrefl] at hab

/-- A full cache drops the target that has been in it for the longest time. -/
theorem CacheInv.put_full
    {s : LoggedCache v} (h : CacheInv s) (now : Int) {target : NodeId}
    (hnew : ∀ t ∈ s.cache.targets.objects, t.target ≠ target)
    (hfull : s.cache.targets.objects.length = cacheSizeMax) (pairs : List (Pair v))
    (rnd : Random) :
    ∃ old ∈ s.cache.targets.objects,
      (∀ t ∈ s.cache.targets.objects, t.target ≠ old.target →
        s.inserted.idxOf t.target < s.inserted.idxOf old.target) ∧
      (cachePut now s.cache target pairs rnd).1.targets.objects =
        (tgtCUpdates now pairs (tgtCInit target) rnd).1 ::
          s.cache.targets.objects.filter fun t => t.target ≠ old.target := by
  have hput := objects_cachePut_new now ((cacheFind_eq_none_iff s.cache target).mpr hnew) pairs rnd
    h.length_le
  have hnodup := h.nodup
  have horder := h.order
  generalize s.cache.targets.objects = objects at *
  obtain ⟨init, old, rfl⟩ : ∃ init old, objects = init ++ [old] := by
    refine ⟨_, _, (List.dropLast_append_getLast ?_).symm⟩
    rintro rfl
    cases hfull
  have hinit : init.length = cacheSizeMax - 1 := by
    rw [List.length_append, List.length_singleton] at hfull
    omega
  have hlast : ∀ t ∈ init, s.inserted.idxOf t.target < s.inserted.idxOf old.target := by
    intro t ht
    exact (List.pairwise_append.mp horder).2.2 t ht old List.mem_cons_self
  refine ⟨old, List.mem_append_right _ List.mem_cons_self, ?_, ?_⟩
  · intro t ht hne
    rcases List.mem_append.mp ht with ht | ht
    · exact hlast t ht
    · exact absurd (congrArg TargetC.target (List.mem_singleton.mp ht)) hne
  · have hkept : init.filter (fun t => t.target ≠ old.target) = init := by
      rw [List.filter_eq_self]
      intro t ht
      have hlt := hlast t ht
      have hne : t.target ≠ old.target := by
        intro heq
        rw [heq] at hlt
        exact Nat.lt_irrefl _ hlt
      simpa using hne
    rw [hput, List.filter_append, hkept, List.filter_cons_of_neg (by simp), List.filter_nil,
      List.append_nil, show cacheSizeMax = cacheSizeMax - 1 + 1 from rfl, List.take_succ_cons,
      List.take_append_of_le_length (Nat.le_of_eq hinit.symm),
      List.take_of_length_le (Nat.le_of_eq hinit)]

/-- After any calls the hash refers to exactly the listed targets, no target is
listed twice, and there are not too many.  A new target drops from a full cache
exactly the one that came into it first, and the expiry removes exactly the
targets whose lifetime is over. -/
theorem cache_store_ordered (ops : List (CacheOp v)) :
    let s := ops.foldl LoggedCache.step .init
    s.cache = ops.foldl cacheStep cacheInit ∧
      s.cache.targets.Holds s.cache.targets.objects ∧
      (s.cache.targets.objects.map TargetC.target).Nodup ∧
      s.cache.targets.objects.length ≤ cacheSizeMax ∧
      (∀ (now : Int) (target : NodeId) (pairs : List (Pair v)) (rnd : Random),
        (∀ t ∈ s.cache.targets.objects, t.target ≠ target) →
        s.cache.targets.objects.length = cacheSizeMax →
        ∃ old ∈ s.cache.targets.objects,
          (∀ t ∈ s.cache.targets.objects, t.target ≠ old.target →
            s.inserted.idxOf t.target < s.inserted.idxOf old.target) ∧
          (cachePut now s.cache target pairs rnd).1.targets.objects =
            (tgtCUpdates now pairs (tgtCInit target) rnd).1 ::
              s.cache.targets.objects.filter fun t => t.target ≠ old.target) ∧
      ∀ now, (cacheExpire now s.cache).targets.objects =
        (s.cache.targets.objects.filter fun t => now ≤ t.lifetime).map (tgtCExpire now) := by
  intro s
  have h : CacheInv s := cacheInv_run ops
  refine ⟨cache_foldl_step ops, s.cache.targets.holds_objects, h.nodup, h.length_le, ?_, ?_⟩
  · intro now target pairs rnd hnew hfull
    exact h.put_full now hnew hfull pairs rnd
  · intro now
    exact objects_cacheExpire now s.cache

end Torrentkino
