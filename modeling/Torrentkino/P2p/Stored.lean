import Torrentkino.P2p.Cache
import Torrentkino.P2p.Value
import Torrentkino.Shr.Sequence

/-!
# Where the stored addresses come from

What holds of everything that is put into the two stores holds of everything in
them: their operations only move, copy and drop.
-/

namespace Torrentkino

open Memory

/-! ## Objects on a heap -/

namespace Index

variable {α : Type} {key : α → Bytes} {P : α → Prop} {t : Index key}

/-- All objects have a property. -/
def All (P : α → Prop) (t : Index key) : Prop :=
  ∀ r a, t.heap.get r = some a → P a

theorem All.of_mem (h : t.All P) {a : α} (ha : a ∈ t.objects) : P a := by
  obtain ⟨r, hr⟩ := (t.mem_objects_iff a).mp ha
  exact h r a hr

theorem all_init (capacity : Nat) (hpos : 0 < capacity) :
    (Index.init capacity hpos : Index key).All P := by
  intro r a ha
  cases ha

theorem All.insert (h : t.All P) (i : Nat) {a : α} (ha : P a) (hkey : t.find (key a) = none) :
    (t.insert i a hkey).All P := by
  intro r b hb
  rw [heap_insert] at hb
  by_cases hr : r = t.heap.fresh
  · rw [hr, Heap.get_alloc_self] at hb
    cases hb
    exact ha
  · exact h r b ((Heap.get_alloc_of_ne _ _ hr).symm.trans hb)

theorem All.remove (h : t.All P) (q : Ref) : (t.remove q).All P := by
  intro r a ha
  rw [get_remove] at ha
  split at ha
  · cases ha
  · exact h r a ha

theorem All.modify
    {t' : Index key} {q : Ref} {f : α → α} (h : t.All P) (hheap : t'.heap = t.heap.modify q f)
    (hP : ∀ a, t.heap.get q = some a → P a → P (f a)) : t'.All P := by
  intro r b hb
  rw [hheap] at hb
  by_cases hr : r = q
  · subst hr
    obtain ⟨a, ha, rfl⟩ := Option.map_eq_some_iff.mp ((Heap.get_modify_self _ _ _).symm.trans hb)
    exact hP a ha (h r a ha)
  · exact h r b ((Heap.get_modify_of_ne _ _ hr).symm.trans hb)

theorem All.toFront (h : t.All P) (q : Ref) : (t.toFront q).All P := by
  intro r b hb
  cases hq : t.heap.get q with
  | none =>
      rw [Index.toFront] at hb
      split at hb
      · exact h r b hb
      · rename_i a ha
        cases hq.symm.trans ha
  | some a =>
      rw [t.get_toFront hq] at hb
      split at hb
      · cases hb
        exact h q b hq
      split at hb
      · cases hb
      · exact h r b hb

end Index

variable {v : Build}

/-! ## The value store -/

section Value

variable {V : NodeId → Pair v → Prop} {s : Value v} {t : TargetV v}

/-- All entries of a target have a property. -/
def TargetV.All (V : NodeId → Pair v → Prop) (t : TargetV v) : Prop :=
  t.nodes.All fun n => V t.target n.pair

/-- All entries of the store. -/
def Value.All (V : NodeId → Pair v → Prop) (s : Value v) : Prop :=
  s.targets.All (TargetV.All V)

theorem value_all_valInit : (valInit : Value v).All V :=
  Index.all_init _ _

theorem TargetV.All.tgtVLimit (h : t.All V) : (tgtVLimit t).All V := by
  rw [Torrentkino.tgtVLimit]
  split
  · split
    · exact h
    · exact Index.All.remove h _
  · exact h

theorem TargetV.All.tgtVUpdate
    (h : t.All V) (now : Int) (id : NodeId) {sa : Ip v} {port : Nat}
    (hput : V t.target (ipMergePortToSin sa port).pair) :
    (tgtVUpdate now t id sa port).1.All V := by
  rw [Torrentkino.tgtVUpdate]
  split
  · rename_i hnew
    refine TargetV.All.tgtVLimit ?_
    exact Index.All.insert h 0 (a := (nodeVUpdate now id sa port).1) hput hnew
  · refine Index.All.toFront ?_ _
    exact Index.All.modify h rfl fun _ _ _ => hput

theorem TargetV.All.tgtVExpire (h : t.All V) (now : Int) : (tgtVExpire now t).All V := by
  refine List.foldlRecOn (motive := TargetV.All V) t.nodes.list _ h fun u hu r _ => ?_
  split
  · exact Index.All.remove hu r
  · exact hu

theorem Value.All.valLimit (h : s.All V) : (valLimit s).All V := by
  rw [Torrentkino.valLimit]
  split
  · split
    · exact h
    · exact Index.All.remove h _
  · exact h

/-- `val_put` adds one entry. -/
theorem Value.All.valPut
    (h : s.All V) (me : NodeId) (now : Int) {target : NodeId} (id : NodeId) {port : Nat}
    {sa : Ip v} (hput : V target (ipMergePortToSin sa port).pair) :
    (valPut me now s target id port sa).1.All V := by
  have hupdate : ∀ (s : Value v) (r : Ref), s.All V →
      (∀ t, s.targets.heap.get r = some t → t.target = target) →
      (valUpdateAt now s r id port sa).1.All V := by
    intro s r hs htarget
    rw [valUpdateAt]
    split
    · exact hs
    · rename_i t ht
      have hnew : (tgtVUpdate now t id sa port).1.All V :=
        TargetV.All.tgtVUpdate (hs r t ht) now id (htarget t ht ▸ hput)
      exact Index.All.modify hs rfl fun _ _ _ => hnew
  rw [Torrentkino.valPut]
  split
  · rename_i r hr
    refine hupdate s r h fun t ht => ?_
    obtain ⟨t', ht', hkey⟩ := (s.targets.find_eq_some_iff _ _).mp hr
    cases ht.symm.trans ht'
    exact NodeId.bytes_inj hkey
  · rename_i hnew
    have hlimit : ∀ {s s' : Value v} {r : Ref} {t : TargetV v}, s' = Torrentkino.valLimit s →
        s'.targets.heap.get r = some t → s.targets.heap.get r = some t := by
      rintro s _ r t rfl ht
      rw [Torrentkino.valLimit] at ht
      split at ht
      · split at ht
        · exact ht
        · rw [valDel, Index.get_remove] at ht
          split at ht
          · cases ht
          · exact ht
      · exact ht
    rw [valInsSort]
    cases valPosition me s target with
    | none =>
        exact h.valLimit
    | some i =>
        refine hupdate _ _ (Value.All.valLimit ?_) fun t ht => ?_
        · have hempty : (tgtVInit target : TargetV v).All V := Index.all_init _ _
          exact Index.All.insert h i hempty hnew
        · have hget := hlimit rfl ht
          cases (Heap.get_alloc_self _ _).symm.trans hget
          rfl

theorem Value.All.valExpire (h : s.All V) (now : Int) : (valExpire now s).All V := by
  refine List.foldlRecOn (motive := Value.All V) s.targets.list _ h fun u hu r _ => ?_
  have hexpire : ∀ targets : Index (TargetV.key (v := v)),
      targets.heap = u.targets.heap.modify r (Torrentkino.tgtVExpire now) →
      targets.All (TargetV.All V) :=
    fun targets hheap => Index.All.modify hu hheap fun t _ ht => ht.tgtVExpire now
  rw [valExpireTarget]
  dsimp only
  split
  · exact Index.All.remove (hexpire _ rfl) r
  · exact hexpire _ rfl

/-- What `val_compact_list` copies. -/
theorem Value.All.valCompactPairs
    (h : s.All V) {target : NodeId} {pair : Pair v} (hpair : pair ∈ valCompactPairs s target) :
    V target pair := by
  rw [Torrentkino.valCompactPairs] at hpair
  split at hpair
  · cases hpair
  · rename_i t ht
    obtain ⟨r, hr, hget⟩ := Option.bind_eq_some_iff.mp ht
    obtain ⟨t', ht', hkey⟩ := (s.targets.find_eq_some_iff _ _).mp hr
    cases hget.symm.trans ht'
    obtain ⟨n, hn, rfl⟩ := List.mem_map.mp hpair
    rw [← NodeId.bytes_inj hkey]
    exact Index.All.of_mem (h r t ht') (List.mem_of_mem_take hn)

end Value

/-! ## The cache -/

section Cache

variable {C : Pair v → Prop} {s : Cache v} {t : TargetC v}

/-- All pairs of a target have a property. -/
def TargetC.All (C : Pair v → Prop) (t : TargetC v) : Prop :=
  t.nodes.All fun n => C n.pair

/-- All pairs of the cache. -/
def Cache.All (C : Pair v → Prop) (s : Cache v) : Prop :=
  s.targets.All (TargetC.All C)

theorem cache_all_cacheInit : (cacheInit : Cache v).All C :=
  Index.all_init _ _

theorem TargetC.All.tgtCUpdate
    (h : t.All C) (now : Int) {pair : Pair v} (hpair : C pair) (rnd : Random) :
    (tgtCUpdate now t pair rnd).1.All C := by
  rw [Torrentkino.tgtCUpdate]
  split
  · rename_i hnew
    have hinsert : ∀ t' : TargetC v,
        t'.nodes = t.nodes.insert 0 (nodeCUpdate now pair) hnew → (tgtCLimit t').All C := by
      intro t' ht'
      have hall : t'.All C := by
        rw [TargetC.All, ht']
        exact Index.All.insert h 0 (a := nodeCUpdate now pair) hpair hnew
      rw [tgtCLimit]
      split
      · split
        · exact hall
        · exact Index.All.remove hall _
      · exact hall
    exact hinsert _ rfl
  · refine Index.All.toFront ?_ _
    exact Index.All.modify h rfl fun _ _ _ => hpair

theorem TargetC.All.tgtCUpdates
    (h : t.All C) (now : Int) {pairs : List (Pair v)} (hpairs : ∀ pair ∈ pairs, C pair)
    (rnd : Random) : (tgtCUpdates now pairs t rnd).1.All C := by
  induction pairs generalizing t rnd with
  | nil =>
      exact h
  | cons pair pairs ih =>
      exact ih (h.tgtCUpdate now (hpairs pair List.mem_cons_self) rnd)
        (fun p hp => hpairs p (List.mem_cons_of_mem _ hp)) _

theorem TargetC.All.tgtCExpire (h : t.All C) (now : Int) : (tgtCExpire now t).All C := by
  refine List.foldlRecOn (motive := TargetC.All C) t.nodes.list _ h fun u hu r _ => ?_
  split
  · exact Index.All.remove hu r
  · exact hu

/-- `cache_put` adds the pairs that it is given. -/
theorem Cache.All.cachePut
    (h : s.All C) (now : Int) (target : NodeId) {pairs : List (Pair v)}
    (hpairs : ∀ pair ∈ pairs, C pair) (rnd : Random) :
    (cachePut now s target pairs rnd).1.All C := by
  have hprepare : (cachePrepare s target).1.All C := by
    rw [cachePrepare]
    split
    · exact h
    · rename_i hnew
      have hempty : (tgtCInit target : TargetC v).All C := Index.all_init _ _
      exact Index.All.insert h 0 hempty hnew
  rw [Torrentkino.cachePut]
  generalize cachePrepare s target = p at hprepare
  have hupdate : (cacheUpdateAt now p.1 p.2 pairs rnd).1.All C := by
    rw [cacheUpdateAt]
    split
    · exact hprepare
    · rename_i t ht
      have hnew : (tgtCUpdates now pairs t rnd).1.All C :=
        TargetC.All.tgtCUpdates (hprepare p.2 t ht) now hpairs rnd
      exact Index.All.modify hprepare rfl fun _ _ _ => hnew
  dsimp only
  rw [cacheLimit]
  split
  · split
    · exact hupdate
    · exact Index.All.remove hupdate _
  · exact hupdate

theorem Cache.All.cacheExpire (h : s.All C) (now : Int) : (cacheExpire now s).All C := by
  refine List.foldlRecOn (motive := Cache.All C) s.targets.list _ h fun u hu r _ => ?_
  have hexpire : ∀ targets : Index (TargetC.key (v := v)),
      targets.heap = u.targets.heap.modify r (Torrentkino.tgtCExpire now) →
      targets.All (TargetC.All C) :=
    fun targets hheap => Index.All.modify hu hheap fun t _ ht => ht.tgtCExpire now
  rw [cacheExpireTarget]
  dsimp only
  split
  · exact Index.All.remove (hexpire _ rfl) r
  · exact hexpire _ rfl

/-- Changes of the times of a target. -/
theorem Cache.All.modify
    (h : s.All C) {targets : Index (TargetC.key (v := v))} {r : Ref} {f : TargetC v → TargetC v}
    (hheap : targets.heap = s.targets.heap.modify r f) (hf : ∀ t, (f t).nodes = t.nodes) :
    Cache.All C { s with targets := targets } := by
  refine Index.All.modify h hheap fun t _ ht => ?_
  rw [TargetC.All, hf]
  exact ht

/-- What `cache_compact_list` copies. -/
theorem Cache.All.cacheCompactList
    (h : s.All C) (now : Int) (target : NodeId) :
    (∀ pair ∈ (cacheCompactList now s target).1, C pair) ∧
      (cacheCompactList now s target).2.All C := by
  constructor
  · intro pair hpair
    rw [Torrentkino.cacheCompactList, cacheCompactPairs] at hpair
    dsimp only at hpair
    split at hpair
    · cases hpair
    · rename_i t ht
      obtain ⟨r, -, hget⟩ := Option.bind_eq_some_iff.mp ht
      obtain ⟨n, hn, rfl⟩ := List.mem_map.mp hpair
      exact Index.All.of_mem (h r t hget) (List.mem_of_mem_take hn)
  · rw [Torrentkino.cacheCompactList]
    dsimp only
    split
    · exact h
    · exact h.modify rfl fun _ => rfl

end Cache

end Torrentkino
