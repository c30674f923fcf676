import Torrentkino.Lib.Recent
import Torrentkino.P2p.Cache
import Torrentkino.P2p.Value
import Torrentkino.Shr.Sequence

/-!
# The nodes of a target

A target of the value store and a target of the cache keep their nodes in the
same way: an update moves the node to the start of the list, the last node is
dropped if there are too many, and nodes past their end of life are dropped by
the expiry.  Both are lists of the latest entries in the sense of `Recent`.

**Results.**
* `objects_tgtVUpdate`, `objects_tgtVExpire`, `objects_tgtCUpdate`,
  `objects_tgtCExpire`: one call is one step.
* `targets_keep_latest`: after any calls with a clock that does not run
  backwards a target holds what the history says, the hash refers to exactly
  these nodes, and the compact lists are their first eight pairs.
-/

namespace Torrentkino

open Memory

/-! ## The two ways of an update -/

namespace Index

variable {α : Type} {key : α → Bytes}

/-- A new object at the start, and the last one dropped if there are too many. -/
theorem objects_insert_limit
    (t : Index key) {a : α} {n : Nat} (eol : α → Int) (hkey : t.find (key a) = none)
    (hlen : t.list.length ≤ n) :
    ((t.insert 0 a hkey).limit n).objects =
      Recent.step key eol n t.objects (.update a) := by
  have hnew := (t.find_eq_none_iff _).mp hkey
  have hlen' : (t.insert 0 a hkey).list.length ≤ n + 1 := by
    simpa using hlen
  rw [objects_limit _ hlen', objects_insert, Recent.step,
    List.filter_eq_self.mpr fun b hb => by simpa using hnew b hb]
  rfl

/-- A listed object is replaced and moves to the start. -/
theorem objects_replace
    (t : Index key) {r : Ref} {a b : α} {n : Nat} (eol : α → Int)
    (ha : t.heap.get r = some a) (hf : ∀ a, t.heap.get r = some a → key b = key a)
    (hlen : t.list.length ≤ n) :
    ((t.modify r (fun _ => b) hf).toFront r).objects =
      Recent.step key eol n t.objects (.update b) := by
  have hlt : (t.objects.filter fun c => key c ≠ key b).length < t.objects.length := by
    refine List.length_filter_lt_length_iff_exists.mpr ⟨a, ?_, ?_⟩
    · exact (t.mem_objects_iff a).mpr ⟨r, ha⟩
    · simpa using (hf a ha).symm
  rw [length_objects] at hlt
  rw [objects_modify_toFront _ ha, Recent.step, List.take_of_length_le]
  rw [List.length_cons]
  omega

/-- The list has exactly these objects in this order, and the hash leads from
the key of each to its item. -/
structure Holds (t : Index key) (l : List α) : Prop where
  items : t.list.map t.heap.get = l.map some
  hash_iff : ∀ k r, hashGet t.hash k = some r ↔
    r ∈ t.list ∧ ∃ a ∈ l, t.heap.get r = some a ∧ key a = k

theorem holds_objects (t : Index key) : t.Holds t.objects where
  items := t.map_get_list
  hash_iff := by
    intro k r
    rw [t.hashed]
    constructor
    · rintro ⟨a, ha, hkey⟩
      exact ⟨(t.mem_list_iff r).mpr ⟨a, ha⟩, a, (t.mem_objects_iff a).mpr ⟨r, ha⟩, ha, hkey⟩
    · rintro ⟨-, a, -, ha, hkey⟩
      exact ⟨a, ha, hkey⟩

/-- The loop of an expiry. -/
theorem objects_foldl_expire
    (t : Index key) (eol : α → Int) (n : Nat) (now : Int) :
    (t.list.foldl
        (fun t r => if (t.heap.get r).any (fun a => now > eol a) then t.remove r else t) t).objects =
      Recent.step key eol n t.objects (.expire now) := by
  rw [objects_foldl_remove, Recent.step]
  refine List.filter_congr ?_
  intro a _
  rw [← decide_not]
  exact decide_eq_decide.mpr Int.not_lt

end Index

variable {v : Build}

/-! ## Targets of the value store -/

theorem nodes_tgtVLimit (t : TargetV v) :
    (tgtVLimit t).nodes = t.nodes.limit tgtVSizeMax := by
  rw [tgtVLimit, Index.limit]
  split
  · cases t.nodes.list.getLast? <;> rfl
  · rfl

/-- `tgt_v_update` moves the node to the start, and drops the last one if there
are too many. -/
theorem objects_tgtVUpdate
    (now : Int) {t : TargetV v} (id : NodeId) (sa : Ip v) (port : Nat)
    (hlen : t.nodes.list.length ≤ tgtVSizeMax) :
    (tgtVUpdate now t id sa port).1.nodes.objects =
      Recent.step NodeV.key NodeV.eol tgtVSizeMax t.nodes.objects
        (.update (nodeVUpdate now id sa port).1) := by
  rw [tgtVUpdate]
  split
  · rename_i hnone
    rw [tgtVPut]
    dsimp only
    rw [nodes_tgtVLimit]
    exact t.nodes.objects_insert_limit (a := (nodeVUpdate now id sa port).1) _ hnone hlen
  · rename_i r hr
    obtain ⟨n, hn, -⟩ := (t.nodes.find_eq_some_iff _ _).mp hr
    exact Index.objects_replace _ _ hn _ hlen

theorem objects_tgtVExpire (now : Int) (t : TargetV v) :
    (tgtVExpire now t).nodes.objects =
      Recent.step NodeV.key NodeV.eol tgtVSizeMax t.nodes.objects (.expire now) := by
  have hnodes : (tgtVExpire now t).nodes = t.nodes.list.foldl
      (fun nodes r => if (nodes.heap.get r).any (fun n => now > n.eol) then nodes.remove r
        else nodes) t.nodes := by
    refine (List.foldl_hom TargetV.nodes ?_).symm
    intro t r
    rw [tgtVOld, apply_ite TargetV.nodes]
    rfl
  rw [hnodes]
  exact t.nodes.objects_foldl_expire _ _ _

/-! ## Targets of the cache -/

theorem nodes_tgtCLimit (t : TargetC v) :
    (tgtCLimit t).nodes = t.nodes.limit tgtCSizeMax := by
  rw [tgtCLimit, Index.limit]
  split
  · cases t.nodes.list.getLast? <;> rfl
  · rfl

/-- `tgt_c_update` moves the pair to the start, and drops the last one if there
are too many. -/
theorem objects_tgtCUpdate
    (now : Int) {t : TargetC v} (pair : Pair v) (rnd : Random)
    (hlen : t.nodes.list.length ≤ tgtCSizeMax) :
    (tgtCUpdate now t pair rnd).1.nodes.objects =
      Recent.step NodeC.key NodeC.eol tgtCSizeMax t.nodes.objects
        (.update (nodeCUpdate now pair)) := by
  rw [tgtCUpdate]
  split
  · rename_i hnone
    rw [tgtCPut]
    dsimp only
    rw [nodes_tgtCLimit]
    exact t.nodes.objects_insert_limit (a := nodeCUpdate now pair) _ hnone hlen
  · rename_i r hr
    obtain ⟨n, hn, -⟩ := (t.nodes.find_eq_some_iff _ _).mp hr
    exact Index.objects_replace _ _ hn _ hlen

theorem objects_tgtCExpire (now : Int) (t : TargetC v) :
    (tgtCExpire now t).nodes.objects =
      Recent.step NodeC.key NodeC.eol tgtCSizeMax t.nodes.objects (.expire now) := by
  have hnodes : (tgtCExpire now t).nodes = t.nodes.list.foldl
      (fun nodes r => if (nodes.heap.get r).any (fun n => now > n.eol) then nodes.remove r
        else nodes) t.nodes := by
    refine (List.foldl_hom TargetC.nodes ?_).symm
    intro t r
    rw [tgtCOld, apply_ite TargetC.nodes]
    rfl
  rw [hnodes]
  exact t.nodes.objects_foldl_expire _ _ _

/-! ## Histories -/

/-- The life of a node: 30 minutes. -/
def nodeLife : Int := 1800

/-- A call for a target of the value store. -/
inductive TgtVOp (v : Build) where
  | update (now : Int) (id : NodeId) (sa : Ip v) (port : Nat)
  | expire (now : Int)

/-- The clock reading of a call. -/
def TgtVOp.now : TgtVOp v → Int
  | update now _ _ _ => now
  | expire now => now

/-- The call as an operation on a list of the latest entries. -/
def TgtVOp.recent : TgtVOp v → Recent.Op (NodeV v)
  | update now id sa port => .update (nodeVUpdate now id sa port).1
  | expire now => .expire now

/-- One call. -/
def tgtVStep (t : TargetV v) : TgtVOp v → TargetV v
  | .update now id sa port => (tgtVUpdate now t id sa port).1
  | .expire now => tgtVExpire now t

/-- A call for a target of the cache. -/
inductive TgtCOp (v : Build) where
  | update (now : Int) (pair : Pair v)
  | expire (now : Int)

/-- The clock reading of a call. -/
def TgtCOp.now : TgtCOp v → Int
  | update now _ => now
  | expire now => now

/-- The call as an operation on a list of the latest entries. -/
def TgtCOp.recent : TgtCOp v → Recent.Op (NodeC v)
  | update now pair => .update (nodeCUpdate now pair)
  | expire now => .expire now

/-- One call. -/
def tgtCStep (s : TargetC v × Random) : TgtCOp v → TargetC v × Random
  | .update now pair => tgtCUpdate now s.1 pair s.2
  | .expire now => (tgtCExpire now s.1, s.2)

theorem objects_tgtVStep
    {t : TargetV v} (op : TgtVOp v) (hlen : t.nodes.objects.length ≤ tgtVSizeMax) :
    (tgtVStep t op).nodes.objects =
      Recent.step NodeV.key NodeV.eol tgtVSizeMax t.nodes.objects op.recent := by
  rw [Index.length_objects] at hlen
  cases op with
  | update now id sa port =>
      exact objects_tgtVUpdate now id sa port hlen
  | expire now =>
      exact objects_tgtVExpire now t

theorem objects_tgtCStep
    {s : TargetC v × Random} (op : TgtCOp v) (hlen : s.1.nodes.objects.length ≤ tgtCSizeMax) :
    (tgtCStep s op).1.nodes.objects =
      Recent.step NodeC.key NodeC.eol tgtCSizeMax s.1.nodes.objects op.recent := by
  rw [Index.length_objects] at hlen
  cases op with
  | update now pair =>
      exact objects_tgtCUpdate now pair s.2 hlen
  | expire now =>
      exact objects_tgtCExpire now s.1

/-- Calls that are steps on a list of the latest entries, one after the other. -/
theorem foldl_eq_recent
    {σ ι α κ : Type} [DecidableEq κ] {key : α → κ} {eol : α → Int} {limit : Nat}
    {step : σ → ι → σ} {list : σ → List α} {recent : ι → Recent.Op α}
    (hstep : ∀ s op, (list s).length ≤ limit →
      list (step s op) = Recent.step key eol limit (list s) (recent op))
    (ops : List ι) (s : σ) (hs : (list s).length ≤ limit) :
    list (ops.foldl step s) =
      (ops.map recent).foldl (Recent.step key eol limit) (list s) := by
  induction ops generalizing s with
  | nil =>
      rfl
  | cons op ops ih =>
      have hlen : (list (step s op)).length ≤ limit := by
        rw [hstep s op hs]
        exact Recent.length_step_le _ hs
      rw [List.foldl_cons, ih _ hlen, hstep s op hs, List.map_cons, List.foldl_cons]

theorem objects_foldl_tgtVStep
    (target : NodeId) {ops : List (TgtVOp v)}
    (hclock : (ops.map TgtVOp.now).Pairwise (· ≤ ·)) :
    (ops.foldl tgtVStep (tgtVInit target)).nodes.objects =
      Recent.spec NodeV.key NodeV.eol tgtVSizeMax (ops.map TgtVOp.recent) := by
  have hordered : Recent.Ordered NodeV.eol nodeLife (ops.map TgtVOp.recent) := by
    rw [Recent.Ordered, List.map_map]
    refine (List.map_congr_left ?_ ▸ hclock)
    intro op _
    cases op <;> simp [TgtVOp.now, TgtVOp.recent, Recent.Op.clock, nodeVUpdate, timeAdd30Min,
      nodeLife]
  rw [← Recent.foldl_step_eq_spec NodeV.key tgtVSizeMax (by decide) _ hordered]
  exact foldl_eq_recent (fun t op => objects_tgtVStep (t := t) op) ops _ (Nat.zero_le _)

theorem objects_foldl_tgtCStep
    (target : NodeId) (rnd : Random) {ops : List (TgtCOp v)}
    (hclock : (ops.map TgtCOp.now).Pairwise (· ≤ ·)) :
    (ops.foldl tgtCStep (tgtCInit target, rnd)).1.nodes.objects =
      Recent.spec NodeC.key NodeC.eol tgtCSizeMax (ops.map TgtCOp.recent) := by
  have hordered : Recent.Ordered NodeC.eol nodeLife (ops.map TgtCOp.recent) := by
    rw [Recent.Ordered, List.map_map]
    refine (List.map_congr_left ?_ ▸ hclock)
    intro op _
    cases op <;> simp [TgtCOp.now, TgtCOp.recent, Recent.Op.clock, nodeCUpdate, timeAdd30Min,
      nodeLife]
  rw [← Recent.foldl_step_eq_spec NodeC.key tgtCSizeMax (by decide) _ hordered]
  exact foldl_eq_recent (fun s op => objects_tgtCStep (s := s) op) ops _ (Nat.zero_le _)

/-- After any calls with a clock that does not run backwards, a target holds the
latest nodes of at most ten keys, without those past their end of life at the
last expiry; and the compact lists are the first eight pairs. -/
theorem targets_keep_latest (v : Build) :
    (∀ (target : NodeId) (ops : List (TgtVOp v)),
      (ops.map TgtVOp.now).Pairwise (· ≤ ·) →
      let t := ops.foldl tgtVStep (tgtVInit target)
      let latest := Recent.spec NodeV.key NodeV.eol tgtVSizeMax (ops.map TgtVOp.recent)
      t.nodes.Holds latest ∧
        ∀ s : Value v, s.targets.lookup target.bytes = some t →
          valCompactList s target = ((latest.take 8).map NodeV.pair).flatMap Pair.bytes) ∧
    (∀ (target : NodeId) (rnd : Random) (ops : List (TgtCOp v)),
      (ops.map TgtCOp.now).Pairwise (· ≤ ·) →
      let t := (ops.foldl tgtCStep (tgtCInit target, rnd)).1
      let latest := Recent.spec NodeC.key NodeC.eol tgtCSizeMax (ops.map TgtCOp.recent)
      t.nodes.Holds latest ∧
        ∀ (s : Cache v) (now : Int), s.targets.lookup target.bytes = some t →
          (cacheCompactList now s target).1 = (latest.take 8).map NodeC.pair) := by
  constructor
  · intro target ops hclock t latest
    have hobjects : t.nodes.objects = latest := objects_foldl_tgtVStep target hclock
    refine ⟨hobjects ▸ t.nodes.holds_objects, ?_⟩
    intro s hs
    rw [valCompactList, valCompactPairs, hs, ← hobjects]
  · intro target rnd ops hclock t latest
    have hobjects : t.nodes.objects = latest := objects_foldl_tgtCStep target rnd hclock
    refine ⟨hobjects ▸ t.nodes.holds_objects, ?_⟩
    intro s now hs
    rw [cacheCompactList, cacheCompactPairs, hs, ← hobjects]

/-! ## A target that overflows -/

/-- An update of a target of the store. -/
theorem lookup_valUpdateAt
    (now : Int) {s : Value v} {r : Ref} {target : NodeId} {t : TargetV v} (id : NodeId)
    (port : Nat) (sa : Ip v) (hr : valFind s target = some r) (ht : s.targets.heap.get r = some t) :
    (valUpdateAt now s r id port sa).1.targets.lookup target.bytes =
      some (tgtVUpdate now t id sa port).1 := by
  rw [valUpdateAt]
  split
  · rename_i hnone
    cases ht.symm.trans hnone
  · rename_i u hu
    cases ht.symm.trans hu
    change (valFind s target).bind (s.targets.heap.modify r _).get = _
    rw [hr, Option.bind_some, Heap.get_modify_self, ht]
    rfl

/-- An announce for a target of the store is an update of that target. -/
theorem lookup_valPut
    (me : NodeId) (now : Int) {s : Value v} {target : NodeId} {t : TargetV v} (id : NodeId)
    (port : Nat) (sa : Ip v) (ht : s.targets.lookup target.bytes = some t) :
    (valPut me now s target id port sa).1.targets.lookup target.bytes =
      some (tgtVUpdate now t id sa port).1 := by
  obtain ⟨r, hr, hget⟩ := Option.bind_eq_some_iff.mp ht
  have hfind : valFind s target = some r := hr
  rw [valPut]
  split
  · rename_i q hq
    cases hfind.symm.trans hq
    exact lookup_valUpdateAt now id port sa hfind hget
  · rename_i hnone
    cases hfind.symm.trans hnone

/-- The first announce in an empty store. -/
theorem lookup_valPut_init
    (me : NodeId) (now : Int) (target id : NodeId) (port : Nat) (sa : Ip v) :
    (valPut me now valInit target id port sa).1.targets.lookup target.bytes =
      some (tgtVUpdate now (tgtVInit target) id sa port).1 := by
  have hnew : valFind (valInit : Value v) target = none := rfl
  let s : Value v := { targets := valInit.targets.insert 0 (tgtVInit target) hnew }
  have hput : valPut me now valInit target id port sa = valUpdateAt now s 0 id port sa := rfl
  have hget : s.targets.heap.get 0 = some (tgtVInit target) := Heap.get_alloc_self _ _
  rw [hput]
  exact lookup_valUpdateAt now id port sa
    ((s.targets.find_eq_some_iff _ _).mpr ⟨_, hget, rfl⟩) hget

/-- The loop of `cache_put` is a sequence of updates. -/
theorem tgtCUpdates_eq_foldl (now : Int) (pairs : List (Pair v)) (t : TargetC v) (rnd : Random) :
    tgtCUpdates now pairs t rnd = (pairs.map (TgtCOp.update now)).foldl tgtCStep (t, rnd) := by
  induction pairs generalizing t rnd with
  | nil =>
      rfl
  | cons pair pairs ih =>
      exact ih _ _

/-- The first reply in an empty cache. -/
theorem lookup_cachePut_init
    (now : Int) (target : NodeId) (pairs : List (Pair v)) (rnd : Random) :
    (cachePut now cacheInit target pairs rnd).1.targets.lookup target.bytes =
      some ((pairs.map (TgtCOp.update now)).foldl tgtCStep (tgtCInit target, rnd)).1 := by
  have hnew : cacheFind (cacheInit : Cache v) target = none := rfl
  let s : Cache v := { targets := cacheInit.targets.insert 0 (tgtCInit target) hnew }
  have hput : (cachePut now cacheInit target pairs rnd).1 = (cacheUpdateAt now s 0 pairs rnd).1 :=
    rfl
  have hget : s.targets.heap.get 0 = some (tgtCInit target) := Heap.get_alloc_self _ _
  have hr : cacheFind s target = some 0 := (s.targets.find_eq_some_iff _ _).mpr ⟨_, hget, rfl⟩
  rw [hput, ← tgtCUpdates_eq_foldl, cacheUpdateAt]
  split
  · rename_i hnone
    cases hget.symm.trans hnone
  · rename_i u hu
    cases hget.symm.trans hu
    change (cacheFind s target).bind (s.targets.heap.modify 0 _).get = _
    rw [hr, Option.bind_some, Heap.get_modify_self, hget]
    rfl

/-- The announce of a node. -/
structure Announced (v : Build) where
  now : Int
  id : NodeId
  sa : Ip v
  port : Nat

/-- It arrives at the target, or at the store. -/
def Announced.op (a : Announced v) : TgtVOp v :=
  .update a.now a.id a.sa a.port

def Announced.put (s : Value v) (a : Announced v) : Value v :=
  (valPut .zero a.now s .zero a.id a.port a.sa).1

theorem lookup_foldl_put
    (announces : List (Announced v)) {s : Value v} {t : TargetV v}
    (ht : s.targets.lookup NodeId.zero.bytes = some t) :
    (announces.foldl Announced.put s).targets.lookup NodeId.zero.bytes =
      some ((announces.map Announced.op).foldl tgtVStep t) := by
  induction announces generalizing s t with
  | nil =>
      exact ht
  | cons a announces ih =>
      exact ih (lookup_valPut .zero a.now a.id a.port a.sa ht)

/-- Announces for one target in an empty store. -/
theorem lookup_announces (a : Announced v) (announces : List (Announced v)) :
    ((a :: announces).foldl Announced.put valInit).targets.lookup NodeId.zero.bytes =
      some (((a :: announces).map Announced.op).foldl tgtVStep (tgtVInit .zero)) :=
  lookup_foldl_put announces (lookup_valPut_init .zero a.now .zero a.id a.port a.sa)

/-- Node `i` announces itself at `now`. -/
def announceOf (now i port : Nat) : Announced .ipv4 where
  now := now
  id := .all (UInt8.ofNat i)
  sa := .ofQuad 10 0 0 (UInt8.ofNat i) (26, 225)
  port := port

/-- Nine nodes after the first one, the first one again with another port, and two more. -/
def laterAnnounces : List (Announced .ipv4) :=
  (List.range' 2 9).map (fun i => announceOf i i 80) ++
    [announceOf 11 1 81, announceOf 12 11 80, announceOf 13 12 80]

/-- The pairs of the nodes, in the order in which a lookup finds them. -/
def foundPairs : List (Pair .ipv4) :=
  (List.range' 1 10 ++ [1, 11, 12]).map fun i => (announceOf 0 i 80).sa.pair

/-- The announces, and then the expiry. -/
def overflowOps : List (TgtVOp .ipv4) :=
  (announceOf 1 1 80 :: laterAnnounces).map Announced.op ++ [.expire 1806]

/-- Two nodes were dropped for the newest ones, and two more by the expiry; the
node that came again is third. -/
theorem targets_keep_latest_overflow :
    (∃ latest, (overflowOps.foldl tgtVStep (tgtVInit .zero)).nodes.Holds latest ∧
        latest.map NodeV.id = [12, 11, 1, 10, 9, 8, 7, 6].map NodeId.all) ∧
      valCompactList ((announceOf 1 1 80 :: laterAnnounces).foldl Announced.put valInit) .zero =
        [10, 0, 0, 12, 0, 80, 10, 0, 0, 11, 0, 80, 10, 0, 0, 1, 0, 81, 10, 0, 0, 10, 0, 80,
          10, 0, 0, 9, 0, 80, 10, 0, 0, 8, 0, 80, 10, 0, 0, 7, 0, 80, 10, 0, 0, 6, 0, 80] ∧
      (cacheCompactList 9 (cachePut 0 cacheInit .zero foundPairs
          ⟨fun _ => 0, fun _ => 0⟩).1 .zero).1.map Pair.bytes =
        [12, 11, 1, 10, 9, 8, 7, 6].map fun i => [10, 0, 0, i, 26, 225] := by
  obtain ⟨hvalues, hcache⟩ := targets_keep_latest .ipv4
  have hdropped := hvalues .zero overflowOps (by decide +kernel)
  refine ⟨⟨_, hdropped.1, by decide +kernel⟩, ?_, ?_⟩
  · have hkept := hvalues .zero ((announceOf 1 1 80 :: laterAnnounces).map Announced.op)
      (by decide +kernel)
    rw [hkept.2 _ (lookup_announces _ _)]
    decide +kernel
  · have hfound := hcache .zero ⟨fun _ => 0, fun _ => 0⟩ (foundPairs.map (TgtCOp.update 0))
      (by decide +kernel)
    rw [hfound.2 _ 9 (lookup_cachePut_init 0 .zero foundPairs _)]
    decide +kernel

end Torrentkino
