import Torrentkino.P2p.NodeUdp
import Torrentkino.P2p.Time
import Torrentkino.Shr.Index

/-!
# `p2p/cache.c`

The results of earlier lookups: a list of targets, the latest one first, each
with the pairs that were found for it, again the latest one first.
-/

namespace Torrentkino

open Memory

/-- `CACHE_SIZE_MAX` -/
def cacheSizeMax : Nat := 50

/-- `TGT_C_SIZE_MAX` -/
def tgtCSizeMax : Nat := 10

/-- `NODE_C` -/
structure NodeC (v : Build) where
  pair : Pair v
  eol : Int
deriving DecidableEq, Repr

/-- The key of a node in the hash of its target. -/
def NodeC.key {v : Build} (n : NodeC v) : Bytes :=
  n.pair.bytes

/-- `TARGET_C` -/
structure TargetC (v : Build) where
  target : NodeId
  nodes : Index (NodeC.key (v := v))
  lifetime : Int
  refresh : Int

/-- The key of a target in the hash of the cache. -/
def TargetC.key {v : Build} (t : TargetC v) : Bytes :=
  t.target.bytes

/-- `CACHE` -/
structure Cache (v : Build) where
  targets : Index (TargetC.key (v := v))

section Cache

variable {v : Build}

/-- `node_c_update`, which `node_c_init` consists of. -/
def nodeCUpdate (now : Int) (pair : Pair v) : NodeC v where
  pair := pair
  eol := timeAdd30Min now

/-- `tgt_c_init`; `myalloc` clears the two times. -/
def tgtCInit (target : NodeId) : TargetC v where
  target := target
  nodes := .init (tgtCSizeMax + 1) (by decide)
  lifetime := 0
  refresh := 0

/-- `tgt_c_del` -/
def tgtCDel (t : TargetC v) (r : Ref) : TargetC v :=
  { t with nodes := t.nodes.remove r }

/-- Delete the last node if there are too many. -/
def tgtCLimit (t : TargetC v) : TargetC v :=
  if t.nodes.list.length > tgtCSizeMax then
    match t.nodes.list.getLast? with
    | none => t
    | some r => tgtCDel t r
  else t

/-- `tgt_c_find` -/
def tgtCFind (t : TargetC v) (pair : Pair v) : Option Ref :=
  t.nodes.find pair.bytes

/-- `tgt_c_put`, for a pair that is not listed. -/
def tgtCPut (now : Int) (t : TargetC v) (pair : Pair v) (rnd : Random)
    (hnew : tgtCFind t pair = none) : TargetC v × Random :=
  let refresh := timeAdd5MinApprox now rnd
  (tgtCLimit
    { t with
      nodes := t.nodes.insert 0 (nodeCUpdate now pair) hnew
      lifetime := timeAdd30Min now
      refresh := refresh.1 }, refresh.2)

/-- `tgt_c_update` -/
def tgtCUpdate (now : Int) (t : TargetC v) (pair : Pair v) (rnd : Random) :
    TargetC v × Random :=
  match h : tgtCFind t pair with
  | none => tgtCPut now t pair rnd h
  | some r =>
      let nodes := t.nodes.modify r (fun _ => nodeCUpdate now pair) (by
        intro a ha
        obtain ⟨b, hb, hkey⟩ := (t.nodes.find_eq_some_iff _ _).mp h
        cases ha.symm.trans hb
        exact hkey.symm)
      ({ t with nodes := nodes.toFront r }, rnd)

/-- The loop of `cache_put` over the pairs of the compact list. -/
def tgtCUpdates (now : Int) :
    List (Pair v) → TargetC v → Random → TargetC v × Random
  | [], t, rnd => (t, rnd)
  | pair :: pairs, t, rnd =>
      let u := tgtCUpdate now t pair rnd
      tgtCUpdates now pairs u.1 u.2

/-- The node at a reference is past its end of life. -/
def tgtCOld (now : Int) (t : TargetC v) (r : Ref) : Bool :=
  (t.nodes.heap.get r).any fun n => now > n.eol

/-- `tgt_c_expire` -/
def tgtCExpire (now : Int) (t : TargetC v) : TargetC v :=
  t.nodes.list.foldl (fun t r => if tgtCOld now t r then tgtCDel t r else t) t

/-- The functions on a target leave its identifier alone. -/
@[simp] theorem target_tgtCLimit (t : TargetC v) : (tgtCLimit t).target = t.target := by
  rw [tgtCLimit]
  split
  · split <;> rfl
  · rfl

@[simp] theorem target_tgtCUpdate
    (now : Int) (t : TargetC v) (pair : Pair v) (rnd : Random) :
    (tgtCUpdate now t pair rnd).1.target = t.target := by
  rw [tgtCUpdate]
  split
  · simp [tgtCPut]
  · rfl

@[simp] theorem target_tgtCUpdates
    (now : Int) (pairs : List (Pair v)) (t : TargetC v) (rnd : Random) :
    (tgtCUpdates now pairs t rnd).1.target = t.target := by
  induction pairs generalizing t rnd with
  | nil =>
      rfl
  | cons pair pairs ih =>
      rw [tgtCUpdates, ih, target_tgtCUpdate]

@[simp] theorem target_tgtCExpire (now : Int) (t : TargetC v) :
    (tgtCExpire now t).target = t.target := by
  rw [tgtCExpire]
  generalize t.nodes.list = l
  induction l generalizing t with
  | nil =>
      rfl
  | cons r l ih =>
      rw [List.foldl_cons, ih]
      split <;> rfl

/-- `cache_init` -/
def cacheInit : Cache v where
  targets := .init (cacheSizeMax + 1) (by decide)

/-- `cache_find` -/
def cacheFind (s : Cache v) (target : NodeId) : Option Ref :=
  s.targets.find target.bytes

/-- `cache_del` -/
def cacheDel (s : Cache v) (r : Ref) : Cache v :=
  { s with targets := s.targets.remove r }

/-- `cache_prepare` -/
def cachePrepare (s : Cache v) (target : NodeId) : Cache v × Ref :=
  match h : cacheFind s target with
  | some r => (s, r)
  | none =>
      ({ s with targets := s.targets.insert 0 (tgtCInit target) h }, s.targets.heap.fresh)

/-- Delete the last target if there are too many. -/
def cacheLimit (s : Cache v) : Cache v :=
  if s.targets.list.length > cacheSizeMax then
    match s.targets.list.getLast? with
    | none => s
    | some r => cacheDel s r
  else s

/-- The loop of `cache_put`, for the target at a reference. -/
def cacheUpdateAt (now : Int) (s : Cache v) (r : Ref) (pairs : List (Pair v))
    (rnd : Random) : Cache v × Random :=
  match h : s.targets.heap.get r with
  | none => (s, rnd)
  | some t =>
      let u := tgtCUpdates now pairs t rnd
      let targets := s.targets.modify r (fun _ => u.1) (by
        intro a ha
        cases ha.symm.trans h
        rw [TargetC.key, TargetC.key, target_tgtCUpdates])
      ({ s with targets := targets }, u.2)

/-- `cache_put`, for the pairs of a compact list. -/
def cachePut (now : Int) (s : Cache v) (target : NodeId) (pairs : List (Pair v))
    (rnd : Random) : Cache v × Random :=
  let p := cachePrepare s target
  let u := cacheUpdateAt now p.1 p.2 pairs rnd
  (cacheLimit u.1, u.2)

/-- One round of `cache_expire`. -/
def cacheExpireTarget (now : Int) (s : Cache v) (r : Ref) : Cache v :=
  let targets := s.targets.modify r (tgtCExpire now) (by
    intro t _
    rw [TargetC.key, TargetC.key, target_tgtCExpire])
  let s := { s with targets := targets }
  if (s.targets.heap.get r).any fun t => now > t.lifetime then cacheDel s r else s

/-- `cache_expire` -/
def cacheExpire (now : Int) (s : Cache v) : Cache v :=
  s.targets.list.foldl (cacheExpireTarget now) s

/-- The pairs that `cache_compact_list` copies. -/
def cacheCompactPairs (s : Cache v) (target : NodeId) : List (Pair v) :=
  match s.targets.lookup target.bytes with
  | none => []
  | some t => (t.nodes.objects.take 8).map (·.pair)

/-- `cache_compact_list`, which also extends the lifetime of the target. -/
def cacheCompactList (now : Int) (s : Cache v) (target : NodeId) :
    List (Pair v) × Cache v :=
  (cacheCompactPairs s target,
    match cacheFind s target with
    | none => s
    | some r =>
        { s with
          targets := s.targets.modify r
            (fun t => { t with lifetime := timeAdd30Min now }) fun _ _ => rfl })

end Cache
end Torrentkino
