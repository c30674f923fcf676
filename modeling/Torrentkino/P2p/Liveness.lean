import Torrentkino.Lib.Watchdog
import Torrentkino.P2p.KnownAddress
import Torrentkino.P2p.TokenLife

/-!
# Which nodes are still there

A node that is known is pinged every few minutes, and its entry counts the pings since its
last answer.  With the fourth one it is bad, and the next expiry drops it.  What a daemon knows of
one node is thereby a peer of `Watchdog`, with the timers of `p2p_cron`.

**Results.**
* `step_daemonStep`: every event is a step of the watchdog of every node.
* `pinged_le_four`: no node is pinged a fifth time.
* `silent_node_leaves`: a node that does not answer leaves the table.
* `answering_node_stays`: a node that has answered stays for a while.
-/

namespace Torrentkino

open Memory Simulation Watchdog

variable {v : Build}

/-! ## The table -/

/-- The node with an identifier. -/
def nodeOf (t : Nbhd v) (id : NodeId) : Option (UdpNode v) :=
  (hashGet t.hash id.bytes).bind t.heap.get

/-- What the table knows of its answers. -/
def watchOf (t : Nbhd v) (id : NodeId) : Option Peer :=
  (nodeOf t id).map fun n => ⟨n.pinged, n.timePing⟩

section Table

variable {t t' : Nbhd v} {id id' : NodeId} {r : Ref} {n : UdpNode v}

theorem nodeOf_of_get (hr : hashGet t.hash id.bytes = some r) (hn : t.heap.get r = some n) :
    nodeOf t id = some n := by
  rw [nodeOf, hr]
  exact hn

theorem nodeOf_of_not_mem (hr : hashGet t.hash id.bytes = none) : nodeOf t id = none := by
  rw [nodeOf, hr]
  rfl

theorem watchOf_of_get (hr : hashGet t.hash id.bytes = some r) (hn : t.heap.get r = some n) :
    watchOf t id = some ⟨n.pinged, n.timePing⟩ := by
  rw [watchOf, nodeOf_of_get hr hn]
  rfl

theorem watchOf_of_not_mem (hr : hashGet t.hash id.bytes = none) : watchOf t id = none := by
  rw [watchOf, nodeOf_of_not_mem hr]
  rfl

/-- An identifier is not in the hash, or there is a node with it. -/
theorem NbhdInv.nodeOf_cases (h : NbhdInv t) (id : NodeId) :
    hashGet t.hash id.bytes = none ∨
      ∃ r n, hashGet t.hash id.bytes = some r ∧ r ∈ allNodes t.bucket ∧
        t.heap.get r = some n ∧ n.id = id := by
  cases hr : hashGet t.hash id.bytes with
  | none =>
      exact .inl rfl
  | some r =>
      obtain ⟨hmem, n, hn, hkey⟩ := (h.hash_iff _ _).mp hr
      exact .inr ⟨r, n, rfl, hmem, hn, NodeId.bytes_inj hkey⟩

theorem NbhdInv.hashGet_of_get
    (h : NbhdInv t) (hr : r ∈ allNodes t.bucket) (hn : t.heap.get r = some n) :
    hashGet t.hash n.id.bytes = some r :=
  (h.hash_iff _ _).mpr ⟨hr, n, hn, rfl⟩

theorem NbhdInv.nodeOf_id (h : NbhdInv t) (hn : nodeOf t id = some n) : n.id = id := by
  rcases h.nodeOf_cases id with hr | ⟨r, m, hr, -, hm, hid⟩
  · cases (nodeOf_of_not_mem hr).symm.trans hn
  · cases (nodeOf_of_get hr hm).symm.trans hn
    exact hid

/-- The nodes of the table are those that are found by their identifiers. -/
theorem NbhdInv.inTable_iff (h : NbhdInv t) : InTable t n ↔ nodeOf t n.id = some n := by
  constructor
  · rintro ⟨b, hb, r, hr, hn⟩
    exact nodeOf_of_get (h.hashGet_of_get (List.mem_flatMap.mpr ⟨b, hb, hr⟩) hn) hn
  · intro hn
    rcases h.nodeOf_cases n.id with hr | ⟨r, m, hr, hmem, hm, -⟩
    · cases (nodeOf_of_not_mem hr).symm.trans hn
    · cases (nodeOf_of_get hr hm).symm.trans hn
      obtain ⟨b, hb, hrb⟩ := List.mem_flatMap.mp hmem
      exact ⟨b, hb, r, hrb, hm⟩

theorem NbhdInv.watchOf_eq_none_iff (h : NbhdInv t) (id : NodeId) :
    watchOf t id = none ↔ ∀ n, InTable t n → n.id ≠ id := by
  rw [watchOf, Option.map_eq_none_iff]
  constructor
  · rintro hnone n hn rfl
    cases hnone.symm.trans (h.inTable_iff.mp hn)
  · intro hne
    refine Option.eq_none_iff_forall_ne_some.mpr fun n hn => ?_
    have hid := h.nodeOf_id hn
    exact hne n (h.inTable_iff.mpr (by rwa [hid])) hid

/-- The node with an identifier is where it was and as it was. -/
theorem NbhdInv.watchOf_congr
    (h : NbhdInv t) (hhash : hashGet t'.hash id.bytes = hashGet t.hash id.bytes)
    (hget : ∀ {r n}, r ∈ allNodes t.bucket → t.heap.get r = some n → t'.heap.get r = some n) :
    watchOf t' id = watchOf t id := by
  rcases h.nodeOf_cases id with hnone | ⟨r, n, hr, hmem, hn, -⟩
  · rw [watchOf_of_not_mem hnone, watchOf_of_not_mem (hhash.trans hnone)]
  · rw [watchOf_of_get hr hn, watchOf_of_get (hhash.trans hr) (hget hmem hn)]

/-- A node of the table changes and keeps its identifier. -/
theorem nodeOf_modify
    (t : Nbhd v) (r : Ref) (f : UdpNode v → UdpNode v) (id : NodeId) :
    nodeOf { t with heap := t.heap.modify r f } id =
      if hashGet t.hash id.bytes = some r then (nodeOf t id).map f else nodeOf t id := by
  rw [nodeOf, nodeOf]
  cases hq : hashGet t.hash id.bytes with
  | none =>
      rfl
  | some q =>
      by_cases heq : q = r
      · subst heq
        rw [if_pos rfl]
        exact Heap.get_modify_self _ _ _
      · rw [if_neg fun h => heq (Option.some.inj h)]
        exact Heap.get_modify_of_ne _ _ heq

/-- It is the node that the hash has for another identifier. -/
theorem NbhdInv.hashGet_eq_iff
    (h : NbhdInv t) (hr : hashGet t.hash id'.bytes = some r) :
    hashGet t.hash id.bytes = some r ↔ id = id' := by
  constructor
  · intro hid
    obtain ⟨-, n, hn, hkey⟩ := (h.hash_iff _ _).mp hid
    obtain ⟨-, n', hn', hkey'⟩ := (h.hash_iff _ _).mp hr
    cases hn.symm.trans hn'
    exact NodeId.bytes_inj (hkey.symm.trans hkey')
  · rintro rfl
    exact hr

/-- What an update of the node with identifier `id'` does to what is known. -/
theorem NbhdInv.watchOf_modify
    (h : NbhdInv t) (hr : hashGet t.hash id'.bytes = some r) {f : UdpNode v → UdpNode v}
    {g : Peer → Peer} (hf : ∀ n, (⟨(f n).pinged, (f n).timePing⟩ : Peer) = g ⟨n.pinged, n.timePing⟩)
    (id : NodeId) :
    watchOf { t with heap := t.heap.modify r f } id =
      if id = id' then (watchOf t id).map g else watchOf t id := by
  rw [watchOf, nodeOf_modify, if_congr (h.hashGet_eq_iff hr) rfl rfl, watchOf]
  split
  · rw [Option.map_map, Option.map_map]
    exact congrArg (Option.map · _) (funext hf)
  · rfl

theorem watchOf_modify_same
    (t : Nbhd v) (r : Ref) {f : UdpNode v → UdpNode v}
    (hf : ∀ n, (f n).pinged = n.pinged ∧ (f n).timePing = n.timePing) (id : NodeId) :
    watchOf { t with heap := t.heap.modify r f } id = watchOf t id := by
  rw [watchOf, nodeOf_modify, watchOf]
  split
  · rw [Option.map_map]
    refine congrArg (Option.map · _) (funext fun n => ?_)
    rw [Function.comp_apply, (hf n).1, (hf n).2]
  · rfl

/-- There is nothing to update for an identifier that is not known. -/
theorem watchOf_of_unknown
    (hnone : hashGet t.hash id'.bytes = none) (g : Peer → Peer) (id : NodeId) :
    watchOf t id = if id = id' then (watchOf t id).map g else watchOf t id := by
  split
  · rename_i hid
    rw [hid, watchOf_of_not_mem hnone]
    rfl
  · rfl

theorem watchOf_nbhdPinged (h : NbhdInv t) (id' : NodeId) (time : Int) (id : NodeId) :
    watchOf (nbhdPinged t id' time) id =
      if id = id' then (watchOf t id).map fun p => ⟨p.asked + 1, time⟩ else watchOf t id := by
  rw [nbhdPinged]
  split
  · rename_i hnone
    exact watchOf_of_unknown hnone _ id
  · rename_i r hr
    exact h.watchOf_modify hr (fun _ => rfl) id

theorem watchOf_nbhdPonged (h : NbhdInv t) (id' : NodeId) (sa : Ip v) (time : Int) (id : NodeId) :
    watchOf (nbhdPonged t id' sa time) id =
      if id = id' then (watchOf t id).map fun _ => ⟨0, time⟩ else watchOf t id := by
  rw [nbhdPonged]
  split
  · rename_i hnone
    exact watchOf_of_unknown hnone _ id
  · rename_i r hr
    exact h.watchOf_modify hr (fun _ => rfl) id

/-- Who is found after the expiry was found before at the same place, and is not bad. -/
theorem NbhdInv.hashGet_nbhdExpire
    (h : NbhdInv t) (hr : hashGet (nbhdExpire t).hash id.bytes = some r) :
    hashGet t.hash id.bytes = some r ∧ isBad t.heap r = false := by
  have hspec := nbhdExpire_spec h
  obtain ⟨hmem, n, hn, hkey⟩ := (hspec.inv.hash_iff _ _).mp hr
  obtain ⟨hbefore, hgood⟩ := hspec.mem_iff.mp hmem
  rw [hspec.get_eq r hbefore hgood] at hn
  exact ⟨(h.hash_iff _ _).mpr ⟨hbefore, n, hn, hkey⟩, hgood⟩

/-- `nbhd_expire` drops the node, if it is bad. -/
theorem watchOf_nbhdExpire (h : NbhdInv t) (id : NodeId) :
    watchOf (nbhdExpire t) id = (watchOf t id).filter fun p => p.asked < 4 := by
  rcases h.nodeOf_cases id with hnone | ⟨r, n, hr, hmem, hn, hid⟩
  · have hgone : hashGet (nbhdExpire t).hash id.bytes = none := by
      refine Option.eq_none_iff_forall_ne_some.mpr fun r hr => ?_
      cases hnone.symm.trans (h.hashGet_nbhdExpire hr).1
    rw [watchOf_of_not_mem hnone, watchOf_of_not_mem hgone]
    rfl
  · have hspec := nbhdExpire_spec h
    have hbad : isBad t.heap r = decide (4 ≤ n.pinged) := by
      rw [isBad, hn]
      rfl
    rw [watchOf_of_get hr hn, Option.filter_some]
    by_cases hlt : n.pinged < 4
    · have hgood : isBad t.heap r = false := by
        rw [hbad]
        exact decide_eq_false (Nat.not_le.mpr hlt)
      have hkept : (nbhdExpire t).heap.get r = some n := (hspec.get_eq r hmem hgood).trans hn
      have hhash := hspec.inv.hashGet_of_get (hspec.mem_iff.mpr ⟨hmem, hgood⟩) hkept
      rw [hid] at hhash
      rw [if_pos (decide_eq_true hlt)]
      exact watchOf_of_get hhash hkept
    · have hgone : hashGet (nbhdExpire t).hash id.bytes = none := by
        refine Option.eq_none_iff_forall_ne_some.mpr fun q hq => ?_
        obtain ⟨hbefore, hgood⟩ := h.hashGet_nbhdExpire hq
        cases hr.symm.trans hbefore
        rw [hbad] at hgood
        exact of_decide_eq_false hgood (Nat.not_lt.mp hlt)
      rw [if_neg (by simpa using hlt)]
      exact watchOf_of_not_mem hgone

/-- Somebody is put into the table: the node stays as it was, or it is new. -/
theorem watchOf_nbhdPut (h : NbhdInv t) (me id' : NodeId) (sa : Ip v) (id : NodeId) :
    watchOf (nbhdPut me t id' sa) id = watchOf t id ∨
      id = id' ∧ watchOf t id = none ∧ watchOf (nbhdPut me t id' sa) id = some ⟨0, 0⟩ := by
  rw [nbhdPut]
  split
  · exact .inl rfl
  split
  · exact .inl rfl
  split
  · refine .inl (watchOf_modify_same t _ ?_ id)
    exact fun _ => ⟨rfl, rfl⟩
  rename_i hnew
  -- The new node has a reference of its own.
  have hold : ∀ {r n}, r ∈ allNodes t.bucket → t.heap.get r = some n →
      (t.heap.alloc (nodeInit id' sa)).get r = some n :=
    fun hr hn => Heap.get_alloc_of_get _ hn
  dsimp only
  split
  · refine .inl (h.watchOf_congr rfl fun hr hn => ?_)
    exact (Heap.get_free_of_ne _ (h.ne_fresh hr)).trans (hold hr hn)
  · rename_i bucket hbucket
    have hhash := hashGet_hashPut t.hash (nodeInit id' sa).id.bytes t.heap.fresh id.bytes
    by_cases hid : id = id'
    · subst hid
      refine .inr ⟨rfl, watchOf_of_not_mem hnew, ?_⟩
      have hfound := hhash.trans (if_pos rfl)
      rw [watchOf_of_get (by exact hfound) (Heap.get_alloc_self _ _)]
      rfl
    · have hkey : id.bytes ≠ (nodeInit id' sa).id.bytes := fun hkey => hid (NodeId.bytes_inj hkey)
      exact .inl (h.watchOf_congr (hhash.trans (if_neg hkey)) hold)

theorem watchOf_nbhdSplit
    (hsplit : nbhdSplit t id' = some t') (id : NodeId) : watchOf t' id = watchOf t id := by
  obtain ⟨bucket, -, rfl⟩ := Option.map_eq_some_iff.mp hsplit
  rfl

end Table

/-! ## What is known of a node -/

/-- The times of `p2p_cron`: the fourth ping is the last one, the next ping comes in four to six
minutes, the next round of pings within seconds and the next expiry within 70 seconds. -/
def pingTiming : Timing where
  limit := 4
  rest := 240
  long := 360
  round := 7
  purge := 70
  limit_pos := Nat.succ_pos 3
  round_nonneg := Int.natCast_nonneg 7
  purge_nonneg := Int.natCast_nonneg 70
  purge_lt_rest := Int.ofNat_lt.mpr (Nat.lt_of_sub_pos (Nat.succ_pos 169))
  rest_le_long := Int.ofNat_le.mpr (Nat.le_add_right 240 120)

theorem timeAdd5SecApprox_le (now : Int) (rnd : Random) :
    (timeAdd5SecApprox now rnd).1 ≤ now + 7 := by
  have hbound := timeAddApprox_bounds 4 (by decide : 0 < 3) now rnd
  rw [timeAdd5SecApprox]
  omega

theorem timeAdd1MinApprox_le (now : Int) (rnd : Random) :
    (timeAdd1MinApprox now rnd).1 ≤ now + 70 := by
  have hbound := timeAddApprox_bounds 50 (by decide : 0 < 20) now rnd
  rw [timeAdd1MinApprox]
  omega

theorem timeAdd5MinApprox_bounds (now : Int) (rnd : Random) :
    now + 240 ≤ (timeAdd5MinApprox now rnd).1 ∧ (timeAdd5MinApprox now rnd).1 ≤ now + 360 := by
  have hbound := timeAddApprox_bounds 240 (by decide : 0 < 120) now rnd
  rw [timeAdd5MinApprox]
  omega

/-- What the daemon knows of the node with an identifier. -/
def watched (id : NodeId) (s : Main v) : Watchdog.State where
  now := s.now
  peer := watchOf s.nbhd id
  round := s.p2p.timePing
  purge := s.p2p.timeExpire

section Daemon

variable {conf : Conf} {id : NodeId} {s s' s'' : Main v}

/-- The clock, and when the next round of pings is due and when the next expiry. -/
structure SameTimes (p p' : P2p) : Prop where
  now : p'.timeNow = p.timeNow
  expire : p'.timeExpire = p.timeExpire
  ping : p'.timePing = p.timePing

theorem SameTimes.refl (p : P2p) : SameTimes p p :=
  ⟨rfl, rfl, rfl⟩

theorem SameTimes.trans {p p' p'' : P2p} (h : SameTimes p p') (h' : SameTimes p' p'') :
    SameTimes p p'' :=
  ⟨h'.now.trans h.now, h'.expire.trans h.expire, h'.ping.trans h.ping⟩

/-- What is known of the node stays as it was. -/
structure SameWatch (id : NodeId) (s s' : Main v) : Prop where
  times : SameTimes s.p2p s'.p2p
  table : NbhdInv s.nbhd → NbhdInv s'.nbhd ∧ watchOf s'.nbhd id = watchOf s.nbhd id

/-- The table stays as it was, or the node is new. -/
def Meets (id : NodeId) (t t' : Nbhd v) : Prop :=
  NbhdInv t → NbhdInv t' ∧
    (watchOf t' id = watchOf t id ∨ watchOf t id = none ∧ watchOf t' id = some ⟨0, 0⟩)

namespace SameWatch

theorem of_eq (hp2p : s'.p2p = s.p2p) (hnbhd : s'.nbhd = s.nbhd) : SameWatch id s s' where
  times := by
    rw [hp2p]
    exact .refl _
  table h := by
    rw [hnbhd]
    exact ⟨h, rfl⟩

theorem refl (s : Main v) : SameWatch id s s :=
  .of_eq rfl rfl

theorem trans (h : SameWatch id s s') (h' : SameWatch id s' s'') : SameWatch id s s'' where
  times := h.times.trans h'.times
  table hinv := by
    obtain ⟨hinv', hsame⟩ := h.table hinv
    obtain ⟨hinv'', hsame'⟩ := h'.table hinv'
    exact ⟨hinv'', hsame'.trans hsame⟩

theorem watched_eq (h : SameWatch id s s') (hinv : NbhdInv s.nbhd) :
    watched id s' = watched id s := by
  rw [watched, watched, (h.table hinv).2, h.times.expire, h.times.ping, Main.now, Main.now,
    h.times.now]

end SameWatch

namespace Meets

theorem refl (t : Nbhd v) : Meets id t t :=
  fun h => ⟨h, .inl rfl⟩

theorem trans {t t' t'' : Nbhd v} (h : Meets id t t') (h' : Meets id t' t'') : Meets id t t'' := by
  intro hinv
  obtain ⟨hinv', hcase⟩ := h hinv
  obtain ⟨hinv'', hcase'⟩ := h' hinv'
  refine ⟨hinv'', ?_⟩
  rcases hcase' with hsame' | ⟨hnone', hnew'⟩
  · rw [hsame']
    exact hcase
  rcases hcase with hsame | ⟨-, hnew⟩
  · exact .inr ⟨hsame.symm.trans hnone', hnew'⟩
  · cases hnone'.symm.trans hnew

theorem put (me id' : NodeId) (sa : Ip v) (t : Nbhd v) : Meets id t (nbhdPut me t id' sa) := by
  intro hinv
  refine ⟨nbhdPut_inv hinv me id' sa, ?_⟩
  rcases watchOf_nbhdPut hinv me id' sa id with hsame | ⟨-, hnew⟩
  · exact .inl hsame
  · exact .inr hnew

end Meets

/-! ## The tasks of `p2p_cron` -/

theorem sameWatch_startLookup
    (s : Main v) (target : NodeId) (type : TidType) (query : Option (Ip v × DnsMsg)) :
    SameWatch id s (startLookup conf s target type query) := by
  refine List.foldlRecOn (motive := SameWatch id s) _ _ (.of_eq rfl rfl) ?_
  exact fun s₁ h₁ node _ => h₁.trans (.of_eq rfl rfl)

theorem sameWatch_cronFind (s : Main v) (target : NodeId) :
    SameWatch id s (p2pCronFind conf s target) := by
  rw [p2pCronFind]
  split
  · exact .refl s
  refine foldl_rel SameWatch.refl SameWatch.trans (fun s r => ?_) _ s
  rw [cronFindNode]
  split
  · exact .refl s
  split
  · refine ⟨.refl _, fun hinv => ⟨hinv.modify r _ fun _ => rfl, ?_⟩⟩
    refine watchOf_modify_same _ r ?_ id
    exact fun _ => ⟨rfl, rfl⟩
  · exact .refl s

theorem sameWatch_cronFindRandom (s : Main v) : SameWatch id s (p2pCronFindRandom conf s) := by
  have hrandom : SameWatch id s { s with random := (randUrandom s.random sha1Size).2 } :=
    .of_eq rfl rfl
  exact hrandom.trans (sameWatch_cronFind _ _)

theorem sameWatch_cronSplit (h : cronSplit conf s = .ok s') : SameWatch id s s' := by
  rw [cronSplit] at h
  split at h
  · cases h
  · rename_i nbhd hnbhd
    cases h
    refine ⟨.refl _, fun hinv => ⟨?_, watchOf_nbhdSplit hnbhd id⟩⟩
    obtain ⟨t, ht, hinv'⟩ := nbhdSplit_inv hinv conf.nodeId
    cases hnbhd.symm.trans ht
    exact hinv'

theorem sameWatch_p2pBootstrap (resolved : List (List (Ip v))) (s : Main v) :
    SameWatch id s (p2pBootstrap conf resolved s) := by
  rw [p2pBootstrap]
  split
  · exact .refl s
  · refine foldl_rel SameWatch.refl SameWatch.trans (fun s sa => ?_) _ s
    exact .of_eq rfl rfl

theorem sameWatch_cronLookupAll (done rest : List Identity) (s : Main v) :
    SameWatch id s (cronLookupAll conf done rest s) := by
  induction rest generalizing done s with
  | nil =>
      exact .of_eq rfl rfl
  | cons identity rest ih =>
      rw [cronLookupAll]
      split
      · refine SameWatch.trans ?_ (ih _ _)
        exact (sameWatch_startLookup s identity.hostId .announceStart none).trans (.of_eq rfl rfl)
      · exact ih _ _

theorem sameWatch_cacheRenew (s : Main v) : SameWatch id s (cacheRenew conf s) := by
  refine foldl_rel SameWatch.refl SameWatch.trans (fun s r => ?_) _ s
  rw [cacheRenewTarget]
  split
  · exact .refl s
  split
  · exact (sameWatch_startLookup s _ .getPeers none).trans (.of_eq rfl rfl)
  · exact .refl s

theorem sameWatch_tdbExpireItem (s : Main v) (ti : Ref) :
    SameWatch id s (tdbExpireItem conf s ti) := by
  have hannounce : SameWatch id s (p2pCronAnnounce conf s ti) := by
    rw [p2pCronAnnounce]
    split
    · exact .refl s
    · refine foldl_rel SameWatch.refl SameWatch.trans (fun s n => ?_) _ s
      exact .of_eq rfl rfl
  rcases tdbExpireItem_cases conf s ti with heq | ⟨tid, s₁, -, -, ⟨-, rfl⟩ | ⟨-, rfl⟩, heq⟩
  · rw [heq]
    exact .refl s
  · rw [heq]
    exact hannounce.trans (.of_eq rfl rfl)
  · rw [heq]
    exact .of_eq rfl rfl

/-- A periodic task that has nothing to do with the node. -/
theorem sameWatch_periodic
    {due : P2p → Int} {setDue : P2p → Int → P2p} {again : Int → Random → Int × Random}
    {task : Main v → Except Fault (Main v)}
    (h : periodic due setDue again task s = .ok s')
    (htask : ∀ {s s'}, task s = .ok s' → SameWatch id s s')
    (hset : ∀ p t, SameTimes p (setDue p t)) :
    SameWatch id s s' := by
  rcases periodic_cases h with ⟨-, rfl⟩ | ⟨-, s₁, hrun, rfl⟩
  · exact .refl _
  · exact (htask hrun).trans ⟨hset _ _, fun hinv => ⟨hinv, rfl⟩⟩

/-- Such a task that cannot fail. -/
theorem sameWatch_task
    {due : P2p → Int} {setDue : P2p → Int → P2p} {again : Int → Random → Int × Random}
    {f : Main v → Main v} (h : periodic due setDue again (fun s => .ok (f s)) s = .ok s')
    (hf : ∀ s, SameWatch id s (f s)) (hset : ∀ p t, SameTimes p (setDue p t)) :
    SameWatch id s s' := by
  refine sameWatch_periodic h (fun {s s'} hrun => ?_) hset
  cases hrun
  exact hf s

/-- The expiry is a purge. -/
theorem purges_cronExpire
    (id : NodeId)
    (h : periodic (·.timeExpire) (fun p t => { p with timeExpire := t }) timeAdd1MinApprox
      (cronExpire conf) s = .ok s')
    (hinv : NbhdInv s.nbhd) :
    NbhdInv s'.nbhd ∧ s'.now = s.now ∧ s'.p2p.timePing = s.p2p.timePing ∧
      Purges pingTiming s.now (watchOf s.nbhd id) s.p2p.timeExpire (watchOf s'.nbhd id)
        s'.p2p.timeExpire := by
  rcases periodic_cases h with ⟨hearly, rfl⟩ | ⟨hdue, s₁, hrun, rfl⟩
  · exact ⟨hinv, rfl, rfl, .early hearly⟩
  · obtain ⟨s₂, hloop, rfl⟩ := map_eq_ok hrun
    have hsame : SameWatch id s s₂ :=
      tdbExpireLoop_rel SameWatch.refl SameWatch.trans sameWatch_tdbExpireItem hloop
    obtain ⟨hinv₂, hwatch⟩ := hsame.table hinv
    have hnow : s₂.now = s.now := hsame.times.now
    refine ⟨(nbhdExpire_spec hinv₂).inv, hnow, hsame.times.ping, ?_⟩
    dsimp only
    rw [watchOf_nbhdExpire hinv₂, hwatch]
    refine .purge hdue ?_
    rw [← hnow]
    exact timeAdd1MinApprox_le _ _

/-! ## The round of pings -/

/-- What a round of pings does to a node of the table: it is not yet due, or it is asked. -/
def Pinged (now : Int) (w w' : Option Peer) : Prop :=
  (∀ p, w = some p → now ≤ p.due) ∧ w' = w ∨
    ∃ p due, w = some p ∧ p.due < now ∧ now + 240 ≤ due ∧ due ≤ now + 360 ∧
      w' = some ⟨p.asked + 1, due⟩

/-- Everything but what is known of the nodes stays as it was. -/
structure SameNodes (s s' : Main v) : Prop where
  times : SameTimes s.p2p s'.p2p
  bucket : s'.nbhd.bucket = s.nbhd.bucket
  hash : s'.nbhd.hash = s.nbhd.hash
  inv : NbhdInv s'.nbhd

/-- `nbhd_pinged` for a node that is known. -/
theorem exists_nbhdPinged
    {r : Ref} (s : Main v) {id' : NodeId} (hr : hashGet s.nbhd.hash id'.bytes = some r) :
    ∃ time rnd, s.now + 240 ≤ time ∧ time ≤ s.now + 360 ∧
      s.nbhdPinged id' = { s with nbhd := nbhdPinged s.nbhd id' time, random := rnd } := by
  obtain ⟨hlow, hhigh⟩ := timeAdd5MinApprox_bounds s.now s.random
  refine ⟨_, (timeAdd5MinApprox s.now s.random).2, hlow, hhigh, ?_⟩
  have hexists : hashExists s.nbhd.hash id'.bytes = true := by
    rw [hashExists, hr]
    rfl
  rw [Main.nbhdPinged, if_pos hexists]

/-- A node of the round is not yet due, or it is pinged.  The ping and its transaction have
nothing to do with the table. -/
theorem cronPingNode_cases
    (conf : Conf) {r : Ref} {n : UdpNode v} (hn : s.nbhd.heap.get r = some n) (j : Nat) :
    s.now ≤ n.timePing ∧ cronPingNode conf s (r, j) = s ∨
      n.timePing < s.now ∧ ∃ s₁ : Main v, cronPingNode conf s (r, j) = s₁.nbhdPinged n.id ∧
        s₁.nbhd = s.nbhd ∧ s₁.p2p = s.p2p := by
  rw [cronPingNode, hn]
  dsimp only
  by_cases hdue : n.timePing < s.now
  · refine .inr ⟨hdue, ?_⟩
    rw [if_pos hdue]
    split
    · exact ⟨_, rfl, rfl, rfl⟩
    · exact ⟨_, rfl, rfl, rfl⟩
  · refine .inl ⟨Int.not_lt.mp hdue, ?_⟩
    rw [if_neg hdue]

/-- One node of the round. -/
theorem cronPingNode_spec
    (conf : Conf) (id : NodeId) (hinv : NbhdInv s.nbhd) {r : Ref}
    (hr : r ∈ allNodes s.nbhd.bucket) (j : Nat) :
    SameNodes s (cronPingNode conf s (r, j)) ∧
      (hashGet s.nbhd.hash id.bytes ≠ some r →
        watchOf (cronPingNode conf s (r, j)).nbhd id = watchOf s.nbhd id) ∧
      (hashGet s.nbhd.hash id.bytes = some r →
        Pinged s.now (watchOf s.nbhd id) (watchOf (cronPingNode conf s (r, j)).nbhd id)) := by
  obtain ⟨n, hn⟩ := hinv.live hr
  have hhash := hinv.hashGet_of_get hr hn
  have hwatch : hashGet s.nbhd.hash id.bytes = some r →
      watchOf s.nbhd id = some ⟨n.pinged, n.timePing⟩ :=
    fun hid => watchOf_of_get hid hn
  rcases cronPingNode_cases conf hn j with ⟨hearly, heq⟩ | ⟨hdue, s₁, heq, hnbhd, hp2p⟩
  · rw [heq]
    refine ⟨⟨.refl _, rfl, rfl, hinv⟩, fun _ => rfl, fun hid => .inl ⟨?_, rfl⟩⟩
    rintro p hp
    cases (hwatch hid).symm.trans hp
    exact hearly
  · have hnow : s₁.now = s.now := congrArg P2p.timeNow hp2p
    obtain ⟨time, rnd, hlow, hhigh, hpinged⟩ := exists_nbhdPinged s₁ (by rwa [hnbhd])
    rw [hnow] at hlow hhigh
    rw [heq, hpinged, hnbhd]
    have hafter := watchOf_nbhdPinged hinv n.id time id
    refine ⟨⟨?_, ?_, ?_, nbhdPinged_inv hinv n.id time⟩, fun hne => ?_, fun hid => ?_⟩
    · rw [hp2p]
      exact .refl _
    · rw [nbhdPinged, hhash]
    · rw [nbhdPinged, hhash]
    · refine hafter.trans (if_neg ?_)
      rintro rfl
      exact hne hhash
    · refine .inr ⟨_, time, hwatch hid, hdue, hlow, hhigh, ?_⟩
      refine (hafter.trans (if_pos ((hinv.hashGet_eq_iff hhash).mp hid))).trans ?_
      rw [hwatch hid]
      rfl

/-- A round over different nodes of the table. -/
theorem cronPing_loop
    (conf : Conf) (id : NodeId) (hinv : NbhdInv s.nbhd) (nodes : List (Ref × Nat))
    (hmem : ∀ x ∈ nodes, x.1 ∈ allNodes s.nbhd.bucket) (hnodup : (nodes.map Prod.fst).Nodup) :
    SameNodes s (nodes.foldl (cronPingNode conf) s) ∧
      ((∀ x ∈ nodes, hashGet s.nbhd.hash id.bytes ≠ some x.1) →
        watchOf (nodes.foldl (cronPingNode conf) s).nbhd id = watchOf s.nbhd id) ∧
      ∀ x ∈ nodes, hashGet s.nbhd.hash id.bytes = some x.1 →
        Pinged s.now (watchOf s.nbhd id) (watchOf (nodes.foldl (cronPingNode conf) s).nbhd id) := by
  induction nodes generalizing s with
  | nil =>
      exact ⟨⟨.refl _, rfl, rfl, hinv⟩, fun _ => rfl, fun x hx => absurd hx List.not_mem_nil⟩
  | cons node nodes ih =>
      obtain ⟨r, j⟩ := node
      obtain ⟨hnew, hnodup⟩ := List.nodup_cons.mp hnodup
      obtain ⟨hfirst, hother, hthis⟩ :=
        cronPingNode_spec conf id hinv (hmem _ List.mem_cons_self) j
      obtain ⟨hrest, hothers, hone⟩ := ih hfirst.inv
        (fun x hx => by
          rw [hfirst.bucket]
          exact hmem x (List.mem_cons_of_mem _ hx)) hnodup
      rw [hfirst.hash] at hothers hone
      rw [List.foldl_cons]
      have hsame : SameNodes s (nodes.foldl (cronPingNode conf) (cronPingNode conf s (r, j))) :=
        { times := hfirst.times.trans hrest.times
          bucket := hrest.bucket.trans hfirst.bucket
          hash := hrest.hash.trans hfirst.hash
          inv := hrest.inv }
      refine ⟨hsame, fun hne => ?_, fun x hx hid => ?_⟩
      · rw [hothers fun x hx => hne x (List.mem_cons_of_mem _ hx)]
        exact hother (hne _ List.mem_cons_self)
      · rcases List.mem_cons.mp hx with rfl | hlater
        · -- The node does not come again.
          rw [hothers ?_]
          · exact hthis hid
          · intro y hy hid'
            cases hid.symm.trans hid'
            exact hnew (List.mem_map.mpr ⟨y, hy, rfl⟩)
        · have hne : hashGet s.nbhd.hash id.bytes ≠ some r := by
            intro hid'
            cases hid.symm.trans hid'
            exact hnew (List.mem_map.mpr ⟨x, hlater, rfl⟩)
          have hnow : (cronPingNode conf s (r, j)).now = s.now := hfirst.times.now
          rw [← hother hne, ← hnow]
          exact hone x hlater hid

theorem map_fst_zipIdx (l : List Buck) :
    (l.flatMap fun b => b.nodes.zipIdx).map Prod.fst = allNodes l := by
  rw [allNodes, List.map_flatMap]
  exact List.flatMap_congr fun b _ => List.zipIdx_map_fst 0 b.nodes

/-- `p2p_cron_ping` -/
theorem pinged_cronPing (conf : Conf) (id : NodeId) (hinv : NbhdInv s.nbhd) :
    SameNodes s (p2pCronPing conf s) ∧
      Pinged s.now (watchOf s.nbhd id) (watchOf (p2pCronPing conf s).nbhd id) := by
  have hmap := map_fst_zipIdx s.nbhd.bucket
  obtain ⟨hsame, hother, hthis⟩ := cronPing_loop conf id hinv
    (s.nbhd.bucket.flatMap fun b => b.nodes.zipIdx)
    (fun x hx => by
      rw [← hmap]
      exact List.mem_map_of_mem hx)
    (by
      rw [hmap]
      exact hinv.buckets.distinct)
  refine ⟨hsame, ?_⟩
  rcases hinv.nodeOf_cases id with hnone | ⟨r, n, hr, hmem, hn, -⟩
  · refine .inl ⟨fun p hp => ?_, hother fun x _ hx => by cases hnone.symm.trans hx⟩
    cases (watchOf_of_not_mem hnone).symm.trans hp
  · rw [← hmap] at hmem
    obtain ⟨x, hx, rfl⟩ := List.mem_map.mp hmem
    exact hthis x hx hr

/-- The round is one of the watchdog. -/
theorem asks_cronPing
    (id : NodeId) (h : periodic (·.timePing) (fun p t => { p with timePing := t }) timeAdd5SecApprox
      (fun s => .ok (p2pCronPing conf s)) s = .ok s') (hinv : NbhdInv s.nbhd) :
    NbhdInv s'.nbhd ∧ s'.now = s.now ∧ s'.p2p.timeExpire = s.p2p.timeExpire ∧
      Asks pingTiming s.now (watchOf s.nbhd id) s.p2p.timePing (watchOf s'.nbhd id)
        s'.p2p.timePing := by
  rcases periodic_cases h with ⟨hearly, rfl⟩ | ⟨hdue, s₁, hrun, rfl⟩
  · exact ⟨hinv, rfl, rfl, .early hearly⟩
  · cases hrun
    obtain ⟨hsame, hpinged⟩ := pinged_cronPing conf id hinv
    have hnow : (p2pCronPing conf s).now = s.now := hsame.times.now
    have hagain : (timeAdd5SecApprox (p2pCronPing conf s).now (p2pCronPing conf s).random).1 ≤
        s.now + 7 := by
      rw [← hnow]
      exact timeAdd5SecApprox_le _ _
    refine ⟨hsame.inv, hnow, hsame.times.expire, ?_⟩
    dsimp only
    rcases hpinged with ⟨hrests, hwatch⟩ | ⟨p, due, hp, hpdue, hlow, hhigh, hwatch⟩
    · rw [hwatch]
      exact .rests hdue hagain hrests
    · rw [hwatch, hp]
      exact .asks hdue hagain hpdue hlow hhigh

/-! ## A tick -/

theorem watchOf_of_empty (hinv : NbhdInv s.nbhd) (hempty : nbhdIsEmpty s.nbhd = true) :
    watchOf s.nbhd id = none := by
  refine (hinv.watchOf_eq_none_iff id).mpr fun n hn => ?_
  obtain ⟨b, hb, r, hr, -⟩ := hn
  have hnil := of_decide_eq_true (List.all_eq_true.mp hempty b hb)
  rw [hnil] at hr
  cases hr

/-- A tick of the clock is one of the watchdog. -/
theorem step_p2pCron
    {now : Int} {resolved : List (List (Ip v))} (h : p2pCron conf now resolved s = .ok s')
    (hnow : s.now ≤ now) (hinv : NbhdInv s.nbhd) :
    NbhdInv s'.nbhd ∧ Step pingTiming .tick (watched id s) (watched id s') := by
  simp only [p2pCron] at h
  split at h
  · rename_i hempty
    have hsame : SameWatch id { s with p2p := { s.p2p with timeNow := now } } s' := by
      exact sameWatch_task h (sameWatch_p2pBootstrap resolved) fun _ _ => ⟨rfl, rfl, rfl⟩
    refine ⟨(hsame.table hinv).1, ?_⟩
    rw [hsame.watched_eq hinv]
    exact .idle hnow (watchOf_of_empty hinv hempty)
  · obtain ⟨s₁, htoken, h⟩ := bind_eq_ok h
    obtain ⟨s₂, hexpire, h⟩ := bind_eq_ok h
    obtain ⟨s₃, hsplit, h⟩ := bind_eq_ok h
    obtain ⟨s₄, hfind, h⟩ := bind_eq_ok h
    obtain ⟨s₅, hmaintain, h⟩ := bind_eq_ok h
    obtain ⟨s₆, hlookup, h⟩ := bind_eq_ok h
    obtain ⟨s₇, hping, h⟩ := bind_eq_ok h
    obtain ⟨s₈, hcache, h⟩ := bind_eq_ok h
    cases h
    have hbefore : SameWatch id { s with p2p := { s.p2p with timeNow := now } } s₁ := by
      refine sameWatch_periodic htoken (fun {s s'} hrun => ?_) fun _ _ => ⟨rfl, rfl, rfl⟩
      cases hrun
      exact .of_eq rfl rfl
    have hsplit' : SameWatch id s₂ s₃ :=
      sameWatch_periodic hsplit sameWatch_cronSplit fun _ _ => ⟨rfl, rfl, rfl⟩
    have hfind' : SameWatch id s₃ s₄ :=
      sameWatch_task hfind (fun s => sameWatch_cronFind s _) fun _ _ => ⟨rfl, rfl, rfl⟩
    have hmaintain' : SameWatch id s₄ s₅ :=
      sameWatch_task hmaintain sameWatch_cronFindRandom fun _ _ => ⟨rfl, rfl, rfl⟩
    have hlookup' : SameWatch id s₅ s₆ :=
      sameWatch_task hlookup (fun s => sameWatch_cronLookupAll _ _ s) fun _ _ => ⟨rfl, rfl, rfl⟩
    have hbetween : SameWatch id s₂ s₆ :=
      hsplit'.trans (hfind'.trans (hmaintain'.trans hlookup'))
    have hafter : SameWatch id s₇ s' :=
      sameWatch_task hcache sameWatch_cacheRenew fun _ _ => ⟨rfl, rfl, rfl⟩
    obtain ⟨hinv₁, hwatch₁⟩ := hbefore.table hinv
    obtain ⟨hinv₂, hnow₂, hround₂, hpurges⟩ := purges_cronExpire id hexpire hinv₁
    obtain ⟨hinv₆, hwatch₆⟩ := hbetween.table hinv₂
    obtain ⟨hinv₇, hnow₇, hpurge₇, hasks⟩ := asks_cronPing id hping hinv₆
    obtain ⟨hinv', hwatch'⟩ := hafter.table hinv₇
    have hclock₁ : s₁.now = now := hbefore.times.now
    have hclock₆ : s₆.now = now := (hbetween.times.now.trans hnow₂).trans hclock₁
    have hclock₇ : s₇.now = now := hnow₇.trans hclock₆
    rw [hclock₁, hwatch₁, hbefore.times.expire] at hpurges
    rw [hclock₆, hwatch₆, hbetween.times.ping, hround₂, hbefore.times.ping] at hasks
    rw [hbetween.times.expire] at hpurge₇
    rw [← hpurge₇] at hpurges
    refine ⟨hinv', ?_⟩
    rw [hafter.watched_eq hinv₇, watched, watched, hclock₇]
    exact .tick hnow hpurges hasks

/-! ## Datagrams -/

theorem p2p_actStep {a : Act v} (hsteady : a.Steady s) (h : actStep conf s a = .ok s') :
    s'.p2p = s.p2p := by
  cases a with
  | event | names names | found r time | tdbPut type other | send sa dict other | respond d =>
      cases h
      rfl
  | store m =>
      cases h
      exact hsteady.1
  | nbhd op =>
      rw [actStep] at h
      split at h
      · cases h
      · cases h
        rfl
  | tdbDel ti =>
      cases hsteady
  | lookup target type owner query =>
      cases h
      exact List.foldlRecOn (motive := fun s' : Main v => s'.p2p = s.p2p) _ _ rfl
        fun _ hs _ _ => hs
  | nodes id ti tid token nodes sa =>
      cases h
      rw [p2pGetPeersGetNodes]
      split
      · rfl
      · refine List.foldlRecOn (motive := fun s' : Main v => s'.p2p = s.p2p) _ _ rfl ?_
        intro s₁ hs₁ node _
        rw [getNodesQuery]
        split
        · exact hs₁
        split
        · exact hs₁
        dsimp only
        split
        · exact hs₁
        split
        · exact hs₁
        split
        · exact hs₁
        · exact hs₁
  | values id ti token values sa =>
      rcases p2pGetPeersGetValues_cases h with
        rfl | ⟨l, lookup, -, rfl | ⟨pairs, -, -, -, hanswer⟩⟩
      · rfl
      · rfl
      · obtain ⟨put, -, cache, sent, rfl, -⟩ := answerInitiator_cases hanswer
        rfl

theorem SteadyActs.p2p_eq (h : SteadyActs conf s s') : s'.p2p = s.p2p :=
  Leads.lift (r := fun s s' : Main v => s'.p2p = s.p2p) (fun _ => rfl)
    (fun h h' => h'.trans h) p2p_actStep h

/-- A datagram sets the clock and leaves the timers alone. -/
theorem p2p_p2pParse
    {behind : Bytes} {now : Int} {bencode : Raw} {sa : Ip v}
    (h : p2pParse conf behind now s bencode sa = .ok s') :
    s'.p2p = { s.p2p with timeNow := now } := by
  rcases p2pParse_cases h with rfl | ⟨-, -, packet, ⟨-, hrun⟩ | ⟨-, hrun⟩⟩
  · rfl
  · exact (calm_p2pRequest (A := fun _ => True) trivial hrun).steady.p2p_eq
  · rcases p2pReply_cases hrun with
      ⟨rfl, -⟩ | ⟨head, -, ⟨rfl, -⟩ | ⟨ti, type, s₁, -, -, hhandled, rfl⟩⟩
    · rfl
    · rfl
    have hcleanup : (replyCleanup type ti s₁).p2p = s₁.p2p := by
      cases type <;> rfl
    rw [hcleanup]
    rcases hhandled with rfl | ⟨reply, -, hreply⟩
    · rfl
    · exact (steady_handleReply hreply).p2p_eq

theorem now_p2p
    {now : Int} {behind datagram : Bytes} {sa : Ip v}
    (h : daemonStep conf s (.p2p now behind datagram sa) = .ok s') : s'.now = now :=
  congrArg P2p.timeNow (p2p_p2pParse (s := { s with sent := [] }) h)

theorem meets_getNodesQuery (l : Ref) (tid : Bytes) (s : Main v) (node : NodeId × Ip v) :
    Meets id s.nbhd (getNodesQuery conf l tid s node).nbhd := by
  rw [getNodesQuery]
  split
  · exact .refl _
  split
  · exact .refl _
  have hput : Meets id s.nbhd (s.nbhdPut conf node.1 node.2).nbhd := .put _ _ _ _
  dsimp only
  split
  · exact hput
  split
  · exact hput
  split
  · exact hput
  · exact hput

theorem meets_findNodeReply (s : Main v) (nodes : Bytes) :
    Meets id s.nbhd (p2pFindNodeGetReply conf s nodes).nbhd := by
  refine foldl_rel (r := fun s s' : Main v => Meets id s.nbhd s'.nbhd) (fun _ => .refl _)
    (fun h h' => h.trans h') (fun s node => ?_) _ s
  rw [findNodeStore]
  split
  · exact .refl _
  split
  · exact .refl _
  · exact .put _ _ _ _

/-- A reply, unless it is a pong of the node. -/
theorem meets_handleReply
    {id' : NodeId} {ti : Ref} {tid : Bytes} {sa : Ip v} {reply : Reply}
    (hpong : reply = .pong → id' ≠ id) (h : handleReply conf s id' ti tid sa reply = .ok s') :
    Meets id s.nbhd s'.nbhd := by
  cases reply with
  | pong =>
      cases h
      rw [p2pPong]
      split
      · refine fun hinv => ⟨nbhdPonged_inv hinv id' sa _, .inl ?_⟩
        exact (watchOf_nbhdPonged hinv id' sa _ id).trans (if_neg fun hid => hpong rfl hid.symm)
      · exact .refl _
  | findNode nodes =>
      cases h
      exact meets_findNodeReply s nodes
  | getPeersNodes token nodes =>
      cases h
      rw [p2pGetPeersGetNodes]
      split
      · exact .refl _
      · refine List.foldlRecOn (motive := fun s' : Main v => Meets id s.nbhd s'.nbhd) _ _
          (.refl _) ?_
        exact fun s₁ h₁ node _ => h₁.trans (meets_getNodesQuery _ tid s₁ node)
  | getPeersValues token values =>
      rcases p2pGetPeersGetValues_cases h with
        rfl | ⟨l, lookup, -, rfl | ⟨pairs, -, -, -, hanswer⟩⟩
      · exact .refl _
      · exact .refl _
      · obtain ⟨put, -, cache, sent, rfl, -⟩ := answerInitiator_cases hanswer
        exact .refl _
  | announce =>
      cases h
      exact .refl _

/-- The event is the reply of the node to a ping. -/
def PongOf (conf : Conf) (id : NodeId) (s : Main v) : Event v → Prop
  | .p2p _ _ datagram sa =>
      (benValidate (received datagram)).isSome ∧ ipIsLinklocal sa = false ∧
        ∃ packet head ti type, messageOf (received datagram) = some ('r'.toUInt8, packet) ∧
          replyHead conf.nodeId packet = .ok head ∧ head.id = id ∧
          tdbItem s.transaction head.t = some ti ∧
          tdbType s.transaction (some ti) = some type ∧ (type = .ping ∨ type = .pingMulticast)
  | _ => False

/-- Another datagram leaves the node alone, or brings it. -/
theorem meets_p2p
    {now : Int} {behind datagram : Bytes} {sa : Ip v}
    (hpong : ¬ PongOf conf id s (.p2p now behind datagram sa))
    (h : daemonStep conf s (.p2p now behind datagram sa) = .ok s') :
    Meets id s.nbhd s'.nbhd := by
  rcases p2pParse_cases h with
    rfl | ⟨hlocal, hvalid, packet, ⟨-, hrun⟩ | ⟨hmessage, hrun⟩⟩
  · exact .refl _
  · rcases nbhd_p2pRequest hrun with ⟨-, hnbhd⟩ | ⟨head, -, hnbhd⟩
    · rw [hnbhd]
      exact .refl _
    · rw [hnbhd]
      exact .put _ _ _ _
  rcases p2pReply_cases hrun with
    ⟨rfl, -⟩ | ⟨head, hhead, ⟨rfl, -⟩ | ⟨ti, type, s₁, hti, htype, hhandled, rfl⟩⟩
  · exact .refl _
  · exact .put _ _ _ _
  rw [nbhd_replyCleanup]
  have hput : Meets id s.nbhd (nbhdPut conf.nodeId s.nbhd head.id sa) := .put _ _ _ _
  rcases hhandled with rfl | ⟨reply, hreply, hhandled⟩
  · exact hput
  · refine hput.trans (meets_handleReply ?_ hhandled)
    rintro rfl hid
    exact hpong ⟨hvalid, hlocal, packet, head, ti, type, hmessage, hhead, hid, hti, htype,
      replyBody_eq_pong hreply⟩

/-- `p2p_pong` resets what is known of a node of the table. -/
theorem watchOf_p2pPong (hinv : NbhdInv s.nbhd) (id : NodeId) (sa : Ip v) :
    NbhdInv (p2pPong s id sa).nbhd ∧
      (watchOf s.nbhd id = none ∧ watchOf (p2pPong s id sa).nbhd id = none ∨
        ∃ due, s.now + 240 ≤ due ∧ due ≤ s.now + 360 ∧
          watchOf (p2pPong s id sa).nbhd id = some ⟨0, due⟩) := by
  rw [p2pPong]
  rcases hinv.nodeOf_cases id with hnone | ⟨r, n, hr, -, hn, -⟩
  · have hexists : hashExists s.nbhd.hash id.bytes = false := by
      rw [hashExists, hnone]
      rfl
    rw [hexists, if_neg Bool.false_ne_true]
    exact ⟨hinv, .inl ⟨watchOf_of_not_mem hnone, watchOf_of_not_mem hnone⟩⟩
  · have hexists : hashExists s.nbhd.hash id.bytes = true := by
      rw [hashExists, hr]
      rfl
    obtain ⟨hlow, hhigh⟩ := timeAdd5MinApprox_bounds s.now s.random
    rw [hexists, if_pos rfl]
    refine ⟨nbhdPonged_inv hinv id sa _, .inr ⟨_, hlow, hhigh, ?_⟩⟩
    refine (watchOf_nbhdPonged hinv id sa _ id).trans ((if_pos rfl).trans ?_)
    rw [watchOf_of_get hr hn]
    rfl

/-- A pong resets what is known of the node, if there is room for it. -/
theorem watchOf_pong
    {now : Int} {behind datagram : Bytes} {sa : Ip v} (hinv : NbhdInv s.nbhd)
    (hpong : PongOf conf id s (.p2p now behind datagram sa))
    (h : daemonStep conf s (.p2p now behind datagram sa) = .ok s') :
    NbhdInv s'.nbhd ∧ (watchOf s.nbhd id = none ∧ watchOf s'.nbhd id = none ∨
      ∃ due, now + 240 ≤ due ∧ due ≤ now + 360 ∧ watchOf s'.nbhd id = some ⟨0, due⟩) := by
  obtain ⟨hvalid, hlocal, packet, head, ti, type, hmessage, hhead, rfl, hti, htype, hkind⟩ := hpong
  have hpongs : replyBody v type head.r = .ok .pong := by
    rcases hkind with rfl | rfl <;> rfl
  let s₀ : Main v := { s with sent := [], p2p := { s.p2p with timeNow := now } }
  have hrun : daemonStep conf s (.p2p now behind datagram sa) =
      .ok (replyCleanup type ti (p2pPong (s₀.nbhdPut conf head.id sa) head.id sa)) :=
    (p2pParse_of_reply hvalid hmessage hlocal conf behind now { s with sent := [] }).trans
      (p2pReply_handled (s := s₀) hhead hti htype hpongs sa)
  cases h.symm.trans hrun
  rw [nbhd_replyCleanup]
  have hmet : Meets head.id s.nbhd (s₀.nbhdPut conf head.id sa).nbhd := .put _ _ _ _
  obtain ⟨hput, hmeets⟩ := hmet hinv
  obtain ⟨hinv', ⟨hnone, hafter⟩ | hreset⟩ := watchOf_p2pPong hput head.id sa
  · refine ⟨hinv', .inl ⟨?_, hafter⟩⟩
    rcases hmeets with hsame | ⟨hbefore, -⟩
    · exact hsame.symm.trans hnone
    · exact hbefore
  · exact ⟨hinv', .inr hreset⟩

/-! ## Events -/

/-- What an event is for the node. -/
structure Labels (conf : Conf) (id : NodeId) (s : Main v) (e : Event v) (l : Label) : Prop where
  tick : l = .tick ↔ ∃ now resolved, e = .cron now resolved
  answer : l = .answer ↔ PongOf conf id s e

theorem labels_other
    {e : Event v} (hcron : ∀ now resolved, e ≠ .cron now resolved) (hpong : ¬ PongOf conf id s e) :
    Labels conf id s e .other where
  tick := iff_of_false (fun hl => by cases hl) fun ⟨now, resolved, he⟩ => hcron now resolved he
  answer := iff_of_false (fun hl => by cases hl) hpong

theorem Labels.ne_tick
    {e : Event v} {l : Label} (h : Labels conf id s e l)
    (hcron : ∀ now resolved, e ≠ .cron now resolved) : l ≠ .tick := by
  intro hl
  obtain ⟨now, resolved, he⟩ := h.tick.mp hl
  exact hcron now resolved he

theorem watched_of
    (id : NodeId) {now : Int} (hp2p : s'.p2p = { s.p2p with timeNow := now }) :
    watched id s' = { watched id s with now := now, peer := watchOf s'.nbhd id } := by
  rw [watched, Main.now, hp2p]
  rfl

/-- Every event is a step of the watchdog. -/
theorem step_daemonStep
    (id : NodeId) {e : Event v} (hinv : NbhdInv s.nbhd) (hnow : 0 ≤ s.now)
    (hclock : Clockwise s e) (h : daemonStep conf s e = .ok s') :
    NbhdInv s'.nbhd ∧
      ∃ l, Labels conf id s e l ∧ Step pingTiming l (watched id s) (watched id s') := by
  cases e with
  | dns datagram sa =>
      have hresolves := resolves_rParse (s := { s with sent := [] }) h
      have hnbhd : s'.nbhd = s.nbhd := nbhd_resolves (s := { s with sent := [] }) hresolves
      have hp2p : s'.p2p = s.p2p := hresolves.steady.p2p_eq
      have hwatched : watched id s' = { watched id s with now := s.now } := by
        rw [watched, Main.now, hp2p, hnbhd]
        rfl
      refine ⟨by rwa [hnbhd], .other, labels_other (fun _ _ he => by cases he) ?_, ?_⟩
      · exact fun hpong => hpong
      · rw [hwatched]
        exact .pass (le_refl _)
  | cron now resolved =>
      obtain ⟨hinv', hstep⟩ := step_p2pCron (s := { s with sent := [] }) h hclock hinv
      refine ⟨hinv', .tick, ⟨?_, ?_⟩, hstep⟩
      · exact iff_of_true rfl ⟨now, resolved, rfl⟩
      · exact iff_of_false (fun hl => by cases hl) fun hpong => hpong
  | p2p now behind datagram sa =>
      have hp2p : s'.p2p = { s.p2p with timeNow := now } :=
        p2p_p2pParse (s := { s with sent := [] }) h
      have hwatched := watched_of id hp2p
      have hcron : ∀ now' resolved, Event.p2p now behind datagram sa ≠ .cron now' resolved :=
        fun _ _ he => by cases he
      by_cases hpong : PongOf conf id s (.p2p now behind datagram sa)
      · obtain ⟨hinv', hcase⟩ := watchOf_pong hinv hpong h
        refine ⟨hinv', .answer, ⟨?_, iff_of_true rfl hpong⟩, ?_⟩
        · exact iff_of_false (fun hl => by cases hl) fun ⟨_, _, he⟩ => hcron _ _ he
        rw [hwatched]
        rcases hcase with ⟨hbefore, hafter⟩ | ⟨due, hlow, hhigh, hafter⟩
        · rw [hafter, ← hbefore]
          exact .unheard hclock hbefore
        · rw [hafter]
          exact .answer hclock hlow hhigh
      · obtain ⟨hinv', hcase⟩ := meets_p2p hpong h hinv
        refine ⟨hinv', .other, labels_other hcron hpong, ?_⟩
        rw [hwatched]
        rcases hcase with hsame | ⟨hbefore, hafter⟩
        · rw [hsame]
          exact .pass hclock
        · rw [hafter]
          exact .joins hclock hbefore (hnow.trans hclock)

/-! ## Runs -/

theorem nbhdInv_clockwise
    {events : List (Event v)} (hinv : NbhdInv s.nbhd) (hnow : 0 ≤ s.now)
    (hclock : Along Clockwise (daemonStep conf) s events)
    (hrun : run (daemonStep conf) s events = .ok s') : NbhdInv s'.nbhd := by
  have hkeeps := hclock.invariant (p := fun s => NbhdInv s.nbhd ∧ 0 ≤ s.now)
    (fun s e s' hs hok hstep => ⟨(step_daemonStep .zero hs.1 hs.2 hok hstep).1,
      hs.2.trans (daemonStep_now hok hstep)⟩) hrun ⟨hinv, hnow⟩
  exact hkeeps.1

/-- What an observer of the node sees of a run. -/
inductive Observes (conf : Conf) (id : NodeId) :
    Main v → List (Event v) → List (Label × Watchdog.State) → Prop
  | nil (s : Main v) : Observes conf id s [] []
  | cons {s s' e events l steps} (hstep : daemonStep conf s e = .ok s')
      (hlabel : Labels conf id s e l) (hsteps : Observes conf id s' events steps) :
      Observes conf id s (e :: events) ((l, watched id s') :: steps)

/-- Every run can be observed, and is one of the watchdog. -/
theorem exists_observes
    (id : NodeId) {events : List (Event v)} (hinv : NbhdInv s.nbhd) (hnow : 0 ≤ s.now)
    (hclock : Along Clockwise (daemonStep conf) s events)
    (hrun : run (daemonStep conf) s events = .ok s') :
    ∃ steps, Observes conf id s events steps ∧ Trace pingTiming (watched id s) steps := by
  induction events generalizing s with
  | nil =>
      exact ⟨[], .nil s, trivial⟩
  | cons e events ih =>
      obtain ⟨s₁, hstep, hrun⟩ := run_cons_eq_ok hrun
      obtain ⟨hinv₁, l, hlabel, hwatch⟩ := step_daemonStep id hinv hnow hclock.1 hstep
      have hnow₁ : 0 ≤ s₁.now := hnow.trans (daemonStep_now hclock.1 hstep)
      obtain ⟨steps, hsteps, htrace⟩ := ih hinv₁ hnow₁ (hclock.2 s₁ hstep) hrun
      exact ⟨_, .cons hstep hlabel hsteps, hwatch, htrace⟩

namespace Observes

variable {events : List (Event v)} {steps : List (Label × Watchdog.State)}

/-- What is seen is what is known after some of the events. -/
theorem exists_prefix (h : Observes conf id s events steps) :
    ∀ x ∈ steps, ∃ pre s₁, pre <+: events ∧ run (daemonStep conf) s pre = .ok s₁ ∧
      x.2 = watched id s₁ := by
  induction h with
  | nil s =>
      intro x hx
      cases hx
  | @cons s s' e events l steps hstep hlabel hsteps ih =>
      intro x hx
      rcases List.mem_cons.mp hx with rfl | hx
      · refine ⟨[e], s', ⟨events, rfl⟩, ?_, rfl⟩
        rw [run, hstep]
        rfl
      · obtain ⟨pre, s₁, hpre, hrun, heq⟩ := ih x hx
        refine ⟨e :: pre, s₁, List.cons_prefix_cons.mpr ⟨rfl, hpre⟩, ?_, heq⟩
        rw [run, hstep]
        exact hrun

/-- The last thing that is seen is what is known at the end. -/
theorem last (h : Observes conf id s events steps)
    (hrun : run (daemonStep conf) s events = .ok s') :
    watched id s' = watched id s ∨ ∃ x ∈ steps, x.2 = watched id s' := by
  induction h with
  | nil s =>
      cases hrun
      exact .inl rfl
  | @cons s s₁ e events l steps hstep hlabel hsteps ih =>
      obtain ⟨s₂, hstep', hrun⟩ := run_cons_eq_ok hrun
      cases hstep.symm.trans hstep'
      rcases ih hrun with heq | ⟨x, hx, heq⟩
      · exact .inr ⟨_, List.mem_cons_self, heq.symm⟩
      · exact .inr ⟨x, List.mem_cons_of_mem _ hx, heq⟩

/-- Who does not answer is not seen to answer. -/
theorem ne_answer (h : Observes conf id s events steps)
    (hsilent : Along (fun s e => ¬ PongOf conf id s e) (daemonStep conf) s events) :
    ∀ x ∈ steps, x.1 ≠ .answer := by
  induction h with
  | nil s =>
      intro x hx
      cases hx
  | @cons s s' e events l steps hstep hlabel hsteps ih =>
      intro x hx
      rcases List.mem_cons.mp hx with rfl | hx
      · exact fun hl => hsilent.1 (hlabel.answer.mp hl)
      · exact ih (hsilent.2 s' hstep) x hx

end Observes

/-- The clock ticks again within `gap`, and the last tick was at `last`. -/
def TicksWithin (gap : Int) : Int → List (Event v) → Prop
  | _, [] => True
  | last, .dns _ _ :: events => TicksWithin gap last events
  | last, .p2p now _ _ _ :: events => now ≤ last + gap ∧ TicksWithin gap last events
  | last, .cron now _ :: events => now ≤ last + gap ∧ TicksWithin gap now events

theorem Observes.attentive
    {gap last : Int} {events : List (Event v)} {steps : List (Label × Watchdog.State)}
    (h : Observes conf id s events steps) (hnow : s.now ≤ last + gap)
    (hticks : TicksWithin gap last events) (hgap : 0 ≤ gap) : Attentive gap last steps := by
  induction h generalizing last with
  | nil s =>
      trivial
  | @cons s s' e events l steps hstep hlabel hsteps ih =>
      cases e with
      | dns datagram sa =>
          have hp2p : s'.p2p = s.p2p :=
            (resolves_rParse (s := { s with sent := [] }) hstep).steady.p2p_eq
          have hclock : s'.now = s.now := congrArg P2p.timeNow hp2p
          rw [Attentive, if_neg (hlabel.ne_tick fun _ _ he => by cases he)]
          have hle : s'.now ≤ last + gap := by
            rw [hclock]
            exact hnow
          exact ⟨hle, ih hle hticks⟩
      | p2p now behind datagram sa =>
          have hclock := now_p2p hstep
          rw [Attentive, if_neg (hlabel.ne_tick fun _ _ he => by cases he)]
          have hle : s'.now ≤ last + gap := by
            rw [hclock]
            exact hticks.1
          exact ⟨hle, ih hle hticks.2⟩
      | cron now resolved =>
          have hclock : s'.now = now := (p2pCron_tokens hstep).1
          have hl : l = .tick := hlabel.tick.mpr ⟨now, resolved, rfl⟩
          rw [Attentive, if_pos hl]
          have hle : s'.now ≤ last + gap := by
            rw [hclock]
            exact hticks.1
          refine ⟨hle, ?_⟩
          have hnext : (watched id s').now = now := hclock
          rw [hnext]
          exact ih (by omega) hticks.2

/-- A state that the daemon reaches with a clock that does not go back. -/
def Reached (conf : Conf) (s : Main v) : Prop :=
  ∃ now identity rnd names events, 0 ≤ now ∧
    Along Clockwise (daemonStep conf) (mainInit now identity rnd names) events ∧
    run (daemonStep conf) (mainInit now identity rnd names) events = .ok s

/-- What holds of every node in such a state. -/
theorem Reached.inv (h : Reached conf s) :
    NbhdInv s.nbhd ∧ 0 ≤ s.now ∧ ∀ id, Inv pingTiming (watched id s) := by
  obtain ⟨now, identity, rnd, names, events, hnow, hclock, hrun⟩ := h
  refine ⟨nbhdInv_run hrun, ?_, fun id => ?_⟩
  · exact hnow.trans (run_now hclock hrun)
  have hinit : Inv pingTiming (watched id (mainInit now identity rnd names : Main v)) := by
    have hnone : watchOf (nbhdInit : Nbhd v) id = none :=
      watchOf_of_empty (s := mainInit now identity rnd names) nbhdInit_inv rfl
    refine ⟨?_, ?_, fun p hp => ?_, fun p hp => ?_, fun p hp => ?_⟩
    · exact hnow.trans (Int.le_add_of_nonneg_right pingTiming.round_nonneg)
    · exact hnow.trans (Int.le_add_of_nonneg_right pingTiming.purge_nonneg)
    · cases hnone.symm.trans hp
    · cases hnone.symm.trans hp
    · cases hnone.symm.trans hp
  obtain ⟨steps, hsteps, htrace⟩ := exists_observes (s := mainInit now identity rnd names) id
    nbhdInit_inv hnow hclock hrun
  rcases hsteps.last hrun with heq | ⟨x, hx, heq⟩
  · rwa [heq]
  · rw [← heq]
    exact htrace.inv hinit x hx

/-- With a clock that does not go back no node is pinged a fifth time without an answer: the
expiry comes first.  So the counter of a node is never larger than four. -/
theorem pinged_le_four (h : Reached conf s) : ∀ n, InTable s.nbhd n → n.pinged ≤ 4 := by
  intro n hn
  obtain ⟨hinv, -, hwatch⟩ := h.inv
  have hpeer : watchOf s.nbhd n.id = some ⟨n.pinged, n.timePing⟩ := by
    rw [watchOf, hinv.inTable_iff.mp hn]
    rfl
  exact (hwatch n.id).asked_le _ hpeer

/-- A node that does not answer for 1538 seconds and five times the longest time between two ticks
is dropped on the way, whatever else happens, if the clock does not go back. -/
theorem silent_node_leaves
    (h : Reached conf s) {gap : Int} (hgap : 0 ≤ gap) {events : List (Event v)}
    (hclock : Along Clockwise (daemonStep conf) s events)
    (hticks : TicksWithin gap s.now events)
    (hsilent : Along (fun s e => ¬ PongOf conf id s e) (daemonStep conf) s events)
    (hrun : run (daemonStep conf) s events = .ok s') (hlong : s.now + 1538 + 5 * gap < s'.now) :
    ∃ pre s₁, pre <+: events ∧ run (daemonStep conf) s pre = .ok s₁ ∧
      ∀ n, InTable s₁.nbhd n → n.id ≠ id := by
  obtain ⟨hinv, hnow, hwatch⟩ := h.inv
  have hinvs : ∀ {pre s₁}, pre <+: events → run (daemonStep conf) s pre = .ok s₁ →
      NbhdInv s₁.nbhd := by
    rintro pre s₁ ⟨rest, rfl⟩ hpre
    exact nbhdInv_clockwise hinv hnow hclock.left hpre
  by_contra hnever
  have hknown : ∀ {pre s₁}, pre <+: events → run (daemonStep conf) s pre = .ok s₁ →
      watchOf s₁.nbhd id ≠ none := by
    intro pre s₁ hpre hrun₁ hnone
    exact hnever ⟨pre, s₁, hpre, hrun₁, ((hinvs hpre hrun₁).watchOf_eq_none_iff id).mp hnone⟩
  obtain ⟨steps, hsteps, htrace⟩ := exists_observes id hinv hnow hclock hrun
  have hpeers : ∀ x ∈ steps, x.2.peer ≠ none := by
    intro x hx
    obtain ⟨pre, s₁, hpre, hrun₁, heq⟩ := hsteps.exists_prefix x hx
    rw [heq]
    exact hknown hpre hrun₁
  have hle := htrace.late_le (hwatch id) ((hwatch id).late hgap) hgap (hsteps.ne_answer hsilent)
    (hsteps.attentive (Int.le_add_of_nonneg_right hgap) hticks hgap)
    (hknown List.nil_prefix rfl) hpeers
  have hpatience : pingTiming.lastPurge gap s.now + gap = s.now + 1538 + 5 * gap := by
    change s.now + ((4 : Nat) : Int) * (360 + 7 + gap) + 70 + gap = s.now + 1538 + 5 * gap
    omega
  rcases hsteps.last hrun with heq | ⟨x, hx, heq⟩
  · have hsame : s'.now = s.now := congrArg Watchdog.State.now heq
    omega
  · have hlast := hle x hx
    rw [heq] at hlast
    change s'.now ≤ pingTiming.lastPurge gap s.now + gap at hlast
    omega

/-- A node that has answered stays in the table for the next sixteen minutes, whatever
happens, if the clock does not go back. -/
theorem answering_node_stays
    (h : Reached conf s) {e : Event v} (hpong : PongOf conf id s e) (hclock : Clockwise s e)
    (hstep : daemonStep conf s e = .ok s') (hknown : ∃ n, InTable s'.nbhd n ∧ n.id = id)
    {events : List (Event v)} (hclocks : Along Clockwise (daemonStep conf) s' events)
    (hrun : run (daemonStep conf) s' events = .ok s'') (hsoon : s''.now < s'.now + 960) :
    ∃ n, InTable s''.nbhd n ∧ n.id = id := by
  obtain ⟨hinv, hnow, -⟩ := h.inv
  obtain ⟨hinv', l, hlabel, hwatch⟩ := step_daemonStep id hinv hnow hclock hstep
  have hnow' : 0 ≤ s'.now := hnow.trans (daemonStep_now hclock hstep)
  have hpeer : (watched id s').peer ≠ none := by
    intro hnone
    obtain ⟨n, hn, hid⟩ := hknown
    exact (hinv'.watchOf_eq_none_iff id).mp hnone n hn hid
  rw [hlabel.answer.mpr hpong] at hwatch
  have hspared := hwatch.spared hpeer
  obtain ⟨steps, hsteps, htrace⟩ := exists_observes id hinv' hnow' hclocks hrun
  have hstays : (watched id s'').peer ≠ none := by
    rcases hsteps.last hrun with heq | ⟨x, hx, heq⟩
    · rwa [heq]
    · rw [← heq]
      refine htrace.spared hspared x hx ?_
      rw [heq]
      change s''.now < s'.now + ((4 : Nat) : Int) * 240
      omega
  by_contra hgone
  refine hstays (((nbhdInv_clockwise hinv' hnow' hclocks hrun).watchOf_eq_none_iff id).mpr ?_)
  exact fun n hn hid => hgone ⟨n, hn, hid⟩

/-! ## A node that comes and goes -/

theorem clockwise_cron
    {now : Int} {resolved : List (List (Ip v))} {events : List (Event v)} (hnow : s.now ≤ now)
    (h : ∀ s', s'.now = now → Along Clockwise (daemonStep conf) s' events) :
    Along Clockwise (daemonStep conf) s (.cron now resolved :: events) :=
  ⟨hnow, fun s' hstep => h s' (p2pCron_tokens hstep).1⟩

theorem clockwise_p2p
    {now : Int} {behind datagram : Bytes} {sa : Ip v} {events : List (Event v)} (hnow : s.now ≤ now)
    (h : ∀ s', s'.now = now → Along Clockwise (daemonStep conf) s' events) :
    Along Clockwise (daemonStep conf) s (.p2p now behind datagram sa :: events) :=
  ⟨hnow, fun s' hstep => h s' (now_p2p hstep)⟩

/-- Nothing but the clock, at these times. -/
def ticksAt (times : List Int) : List (Event v) :=
  times.map fun now => .cron now []

theorem clockwise_ticksAt {times : List Int} (h : (s.now :: times).IsChain (· ≤ ·)) :
    Along Clockwise (daemonStep conf) s (ticksAt times) := by
  induction times generalizing s with
  | nil =>
      trivial
  | cons now times ih =>
      obtain ⟨hnow, hrest⟩ := List.isChain_cons_cons.mp h
      exact clockwise_cron hnow fun s' hs' => ih (by rwa [hs'])

theorem silent_ticksAt (times : List Int) :
    Along (fun s e => ¬ PongOf conf id s e) (daemonStep conf) s (ticksAt times) := by
  induction times generalizing s with
  | nil =>
      trivial
  | cons now times ih =>
      exact ⟨fun hpong => hpong, fun s' _ => ih⟩

end Daemon

/-- The daemon pings a bootstrap node, and a node comes with a query. -/
def comingRun : List (Event .ipv4) :=
  [.cron 100 [[.ofQuad 10 0 0 8 (26, 225)]],
    .p2p 101 [] (benEncRec (pingDict .zero [0, 0, 0, 1])) (.ofQuad 10 0 0 9 (26, 225))]

/-- There is a node with the identifier of 20 zero bytes. -/
def knowsZero (s : Main .ipv4) : Bool :=
  s.nbhd.bucket.any fun b => b.nodes.any fun r =>
    (s.nbhd.heap.get r).any fun n => n.id = .zero

theorem exists_of_knowsZero {s : Main .ipv4} (h : knowsZero s = true) :
    ∃ n, InTable s.nbhd n ∧ n.id = .zero := by
  obtain ⟨b, hb, hany⟩ := List.any_eq_true.mp h
  obtain ⟨r, hr, hany⟩ := List.any_eq_true.mp hany
  obtain ⟨n, hget, hid⟩ := (Option.any_eq_true _ _).mp hany
  exact ⟨n, ⟨b, hb, r, hr, hget⟩, of_decide_eq_true hid⟩

theorem reached_of_ticks
    {times : List Int} (htimes : (101 :: times).IsChain (· ≤ ·)) {s : Main .ipv4}
    (hrun : run (daemonStep onesConf) silentInit (comingRun ++ ticksAt times) = .ok s) :
    Reached onesConf s := by
  refine ⟨0, [], _, [], comingRun ++ ticksAt times, le_refl 0, ?_, hrun⟩
  refine clockwise_cron (by decide) fun s₁ hs₁ => clockwise_p2p ?_ fun s₂ hs₂ =>
    clockwise_ticksAt (by rwa [hs₂])
  rw [hs₁]
  decide

theorem reached_comingRun :
    ∃ s, run (daemonStep onesConf) silentInit comingRun = .ok s ∧ Reached onesConf s ∧
      s.now = 101 ∧ knowsZero s = true := by
  have hlast : (run (daemonStep onesConf) silentInit comingRun).map
      (fun s => (s.now, knowsZero s)) = .ok (101, true) := by
    decide +kernel
  obtain ⟨s, hrun, heq⟩ := map_eq_ok hlast
  obtain ⟨hnow, hknows⟩ := Prod.mk.inj heq
  exact ⟨s, hrun, @reached_of_ticks [] (by decide) _ hrun, hnow, hknows⟩

/-- The counters of the nodes in the table. -/
def pingsOpen (s : Main .ipv4) : List Nat :=
  s.nbhd.bucket.flatMap fun b => b.nodes.filterMap fun r => (s.nbhd.heap.get r).map (·.pinged)

/-- With the fourth ping the counter is as large as it can be, and the next tick drops the
node. -/
theorem pinged_le_four_fourPings :
    ∃ s s' : Main .ipv4, Reached onesConf s ∧ pingsOpen s = [4] ∧
      (∀ n, InTable s.nbhd n → n.pinged ≤ 4) ∧
      daemonStep onesConf s (.cron 2100 []) = .ok s' ∧ pingsOpen s' = [] := by
  have hlast : (run (daemonStep onesConf) silentInit
      (comingRun ++ ticksAt [500, 900, 1300, 1700])).map pingsOpen = .ok [4] := by
    decide +kernel
  have hnext : (run (daemonStep onesConf) silentInit
      ((comingRun ++ ticksAt [500, 900, 1300, 1700]) ++ [.cron 2100 []])).map pingsOpen =
      .ok [] := by
    decide +kernel
  obtain ⟨s, hrun, hpings⟩ := map_eq_ok hlast
  rw [run_append, hrun] at hnext
  obtain ⟨s', hrun', hnone⟩ := map_eq_ok hnext
  obtain ⟨s₁, hstep, hnil⟩ := run_cons_eq_ok hrun'
  cases hnil
  have hreached := reached_of_ticks (by decide) hrun
  exact ⟨s, s', hreached, hpings, pinged_le_four hreached, hstep, hnone⟩

/-- Seven ticks in two hours. -/
def silentTimes : List Int :=
  [1101, 2101, 3101, 4101, 5101, 6101, 7101]

theorem silent_node_leaves_coming :
    ∃ s s' : Main .ipv4, Reached onesConf s ∧ (∃ n, InTable s.nbhd n ∧ n.id = .zero) ∧
      run (daemonStep onesConf) s (ticksAt silentTimes) = .ok s' ∧
      ∃ (pre : List (Event .ipv4)) (s₁ : Main .ipv4), pre <+: ticksAt silentTimes ∧
        run (daemonStep onesConf) s pre = .ok s₁ ∧
        ∀ n : UdpNode .ipv4, InTable s₁.nbhd n → n.id ≠ .zero := by
  obtain ⟨s, hrun, hreached, hnow, hknows⟩ := reached_comingRun
  have hlast : (run (daemonStep onesConf) silentInit (comingRun ++ ticksAt silentTimes)).map
      (·.now) = .ok 7101 := by
    decide +kernel
  obtain ⟨s', hrun', hnow'⟩ := map_eq_ok hlast
  rw [run_append, hrun] at hrun'
  have hchain : (s.now :: silentTimes).IsChain (· ≤ ·) := by
    rw [hnow]
    decide
  have hticks : TicksWithin 1000 s.now (ticksAt silentTimes : List (Event .ipv4)) := by
    rw [hnow]
    simp [ticksAt, silentTimes, TicksWithin]
  refine ⟨s, s', hreached, exists_of_knowsZero hknows, hrun', ?_⟩
  refine silent_node_leaves hreached (by decide) (clockwise_ticksAt hchain) hticks
    (silent_ticksAt silentTimes) hrun' ?_
  rw [hnow, hnow']
  decide

/-- The node answers a ping. -/
def zeroPong : Event .ipv4 :=
  .p2p 102 [] (benEncRec (pongDict .zero [8, 9, 10, 11])) (.ofQuad 10 0 0 9 (26, 225))

theorem answering_node_stays_coming :
    ∃ s s' s'' : Main .ipv4, Reached onesConf s ∧ daemonStep onesConf s zeroPong = .ok s' ∧
      run (daemonStep onesConf) s' (ticksAt [600, 1000]) = .ok s'' ∧
      ∃ n, InTable s''.nbhd n ∧ n.id = .zero := by
  obtain ⟨s, hrun, hreached, hnow, -⟩ := reached_comingRun
  have hmiddle : (run (daemonStep onesConf) silentInit (comingRun ++ [zeroPong])).map
      (fun s => (s.now, knowsZero s)) = .ok (102, true) := by
    decide +kernel
  have hlast : (run (daemonStep onesConf) silentInit
      (comingRun ++ (zeroPong :: ticksAt [600, 1000]))).map (·.now) = .ok 1000 := by
    decide +kernel
  have htype : (run (daemonStep onesConf) silentInit comingRun).map
      (fun s => (tdbItem s.transaction [8, 9, 10, 11]).bind fun ti =>
        tdbType s.transaction (some ti)) = .ok (some .ping) := by
    decide +kernel
  rw [run_append, hrun] at hmiddle hlast
  obtain ⟨s', hrun', heq⟩ := map_eq_ok hmiddle
  obtain ⟨hnow', hknows⟩ := Prod.mk.inj heq
  obtain ⟨s₁, hstep, hnil⟩ := run_cons_eq_ok hrun'
  cases hnil
  obtain ⟨s'', hrun'', hnow''⟩ := map_eq_ok hlast
  obtain ⟨s₂, hstep', hrun''⟩ := run_cons_eq_ok hrun''
  cases hstep.symm.trans hstep'
  rw [hrun] at htype
  obtain ⟨ti, hti, htype⟩ := Option.bind_eq_some_iff.mp (Except.ok.inj htype)
  have hhead : replyHead onesConf.nodeId (pongDict .zero [8, 9, 10, 11]) =
      .ok ⟨.dict [entry "id" (.str NodeId.zero.bytes)], .zero, [8, 9, 10, 11]⟩ :=
    replyHead_replyDict (by decide) [] rfl
  have hpong : PongOf onesConf .zero s zeroPong :=
    ⟨by decide +kernel, rfl, pongDict .zero [8, 9, 10, 11], _, ti, .ping, by decide +kernel,
      hhead, rfl, hti, htype, .inl rfl⟩
  have hclock : Clockwise s zeroPong := by
    change s.now ≤ 102
    omega
  have hchain : (s'.now :: [600, 1000]).IsChain (· ≤ ·) := by
    rw [hnow']
    decide
  refine ⟨s, s', s'', hreached, hstep, hrun'', ?_⟩
  refine answering_node_stays hreached hpong hclock hstep (exists_of_knowsZero hknows)
    (clockwise_ticksAt hchain) hrun'' ?_
  rw [hnow', hnow'']
  decide

end Torrentkino
