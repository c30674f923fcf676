import Torrentkino.P2p.Act
import Torrentkino.Shr.Index

/-!
# Who owns a lookup, and who gets a reply

Transactions are put by periodic tasks and by queries of names, and deleted by
replies and by expiry, which puts others before.  `TdbOp` lists what the program
does to them, and the daemon does nothing else.

**Results.**
* `transactions_in_order`: in every run the hash leads to the listed transactions, each
  lookup has one owner and lives as long as it does, and each transaction ends in
  one of two ways.
* `tdbOps_run`: a run of the daemon is such a run.
-/

namespace Torrentkino

open Memory Simulation

variable {v : Build}

/-! ## Owners -/

section Owners

variable {t t' : Transaction v} {ti ti' l : Ref} {tid : Tid}

/-- A transaction that is done with its first reply. -/
def TidType.Single (type : TidType) : Prop :=
  type = .ping ∨ type = .findNode ∨ type = .announceEngage

/-- The lookup belongs to the transaction. -/
def Owns (t : Transaction v) (ti l : Ref) : Prop :=
  ∃ tid, t.tids.heap.get ti = some tid ∧ tid.lookup = some l

/-- The hash leads from each id to its transaction, and the lookups that exist are
those of the transactions, which have one each if they are to have any. -/
structure TransactionInv (t : Transaction v) : Prop where
  indexed : t.tids.Indexed Tid.id
  owner_iff : ∀ ti tid, t.tids.heap.get ti = some tid →
    (tid.type.HasLookup ↔ ∃ l, tid.lookup = some l)
  unique : ∀ ti ti' l, Owns t ti l → Owns t ti' l → ti = ti'
  live_iff : ∀ l, t.lookups.Live l ↔ ∃ ti, Owns t ti l

/-- The same transactions, and lookups that have changed at most in place. -/
structure KeepsOwners (t t' : Transaction v) : Prop where
  tids : t'.tids = t.tids
  live_iff : ∀ l, t'.lookups.Live l ↔ t.lookups.Live l

namespace KeepsOwners

theorem refl (t : Transaction v) : KeepsOwners t t :=
  ⟨rfl, fun _ => Iff.rfl⟩

theorem trans {t'' : Transaction v} (h : KeepsOwners t t') (h' : KeepsOwners t' t'') :
    KeepsOwners t t'' :=
  ⟨h'.tids.trans h.tids, fun l => (h'.live_iff l).trans (h.live_iff l)⟩

theorem modifyLookup (t : Transaction v) (l : Ref) (f : Lookup v → Lookup v) :
    KeepsOwners t (t.modifyLookup l f) := by
  refine ⟨rfl, fun q => ?_⟩
  change (t.lookups.modify l f).Live q ↔ t.lookups.Live q
  rcases eq_or_ne q l with rfl | hq
  · simp [Heap.Live]
  · simp [Heap.Live, Heap.get_modify_of_ne _ _ hq]

end KeepsOwners

namespace TransactionInv

theorem init : TransactionInv (tdbInit : Transaction v) where
  indexed := Table.Indexed.init 1000 (by decide)
  owner_iff := fun _ _ hget => nomatch hget
  unique := fun _ _ _ ⟨_, hget, _⟩ => nomatch hget
  live_iff := by
    intro l
    simp [Owns, tdbInit, Table.init, Heap.Live]

theorem congr (h : TransactionInv t) (hkeeps : KeepsOwners t t') : TransactionInv t' := by
  have howns : ∀ ti l, Owns t' ti l ↔ Owns t ti l := by
    intro ti l
    rw [Owns, Owns, hkeeps.tids]
  constructor
  · rw [hkeeps.tids]
    exact h.indexed
  · rw [hkeeps.tids]
    exact h.owner_iff
  · intro ti ti' l hl hl'
    exact h.unique ti ti' l ((howns ti l).mp hl) ((howns ti' l).mp hl')
  · intro l
    rw [hkeeps.live_iff, h.live_iff]
    simp only [howns]

/-- A transaction is found under its id. -/
theorem tdbItem_eq_some_iff (h : TransactionInv t) (id : Bytes) :
    tdbItem t id = some ti ↔ ∃ tid, t.tids.heap.get ti = some tid ∧ tid.id = id :=
  h.indexed.find_eq_some_iff id ti

/-! ### A new transaction -/

/-- A transaction is new in the heap, and its lookup is new as well, if it has one. -/
theorem new
    (h : TransactionInv t) (hindexed : t'.tids.Indexed Tid.id)
    (hget : ∀ q, t'.tids.heap.get q =
      if q = t.tids.heap.fresh then some tid else t.tids.heap.get q)
    (hlookup : ¬ tid.type.HasLookup ∧ tid.lookup = none ∧ t'.lookups = t.lookups ∨
      tid.type.HasLookup ∧ tid.lookup = some t.lookups.fresh ∧
        ∃ lookup, t'.lookups = t.lookups.alloc lookup) :
    TransactionInv t' := by
  have hself : t'.tids.heap.get t.tids.heap.fresh = some tid := by
    rw [hget, if_pos rfl]
  have hold : ∀ q, q ≠ t.tids.heap.fresh → t'.tids.heap.get q = t.tids.heap.get q := by
    intro q hq
    rw [hget, if_neg hq]
  have hunowned : ∀ q, ¬ Owns t q t.lookups.fresh := by
    intro q howns
    obtain ⟨lookup, hlive⟩ := (h.live_iff _).mpr ⟨q, howns⟩
    exact Nat.lt_irrefl _ (Heap.lt_fresh hlive)
  have howns : ∀ q l, Owns t' q l ↔
      q = t.tids.heap.fresh ∧ tid.lookup = some l ∨ Owns t q l := by
    intro q l
    rcases eq_or_ne q t.tids.heap.fresh with rfl | hq
    · have hnone : t.tids.heap.get t.tids.heap.fresh = none :=
        t.tids.heap.unused _ (Nat.le_refl _)
      simp [Owns, hself, hnone]
    · simp [Owns, hold q hq, hq]
  refine ⟨hindexed, ?_, ?_, ?_⟩
  · intro q tid' hq
    rcases eq_or_ne q t.tids.heap.fresh with rfl | hne
    · cases hself.symm.trans hq
      rcases hlookup with ⟨htype, hnone, -⟩ | ⟨htype, hsome, -⟩
      · simp [htype, hnone]
      · simp [htype, hsome]
    · rw [hold q hne] at hq
      exact h.owner_iff q tid' hq
  · intro q q' l hl hl'
    rcases (howns q l).mp hl with ⟨rfl, hsome⟩ | hl <;>
      rcases (howns q' l).mp hl' with ⟨rfl, hsome'⟩ | hl'
    · rfl
    · rcases hlookup with ⟨-, hnone, -⟩ | ⟨-, hfresh, -⟩
      · cases hnone.symm.trans hsome
      · cases hfresh.symm.trans hsome
        exact absurd hl' (hunowned q')
    · rcases hlookup with ⟨-, hnone, -⟩ | ⟨-, hfresh, -⟩
      · cases hnone.symm.trans hsome'
      · cases hfresh.symm.trans hsome'
        exact absurd hl (hunowned q)
    · exact h.unique q q' l hl hl'
  · intro l
    simp only [howns]
    rcases hlookup with ⟨-, hnone, hsame⟩ | ⟨-, hfresh, lookup, halloc⟩
    · rw [hsame, h.live_iff, hnone]
      simp
    · rw [halloc, hfresh]
      rcases eq_or_ne l t.lookups.fresh with rfl | hl
      · simp [Heap.live_alloc_self]
      · have hlive : (t.lookups.alloc lookup).Live l ↔ t.lookups.Live l := by
          rw [Heap.Live, Heap.Live, Heap.get_alloc_of_ne _ _ hl]
        rw [hlive, h.live_iff]
        simp [Ne.symm hl]

theorem indexed_tdbPut
    (h : TransactionInv t) {rnd : Random}
    (hunused : hashExists t.tids.hash (tdbCreateRandomId t rnd).1 = false) (now : Int)
    (type : TidType) :
    (tdbPut now t type rnd).2.1.tids.Indexed Tid.id := by
  refine Table.Indexed.append (a := ⟨_, length_randUnused _ _ _ _, _, _, _⟩) h.indexed ?_
  have hnone : hashGet t.tids.hash (tdbCreateRandomId t rnd).1 = none := by
    simpa [hashExists] using hunused
  exact hnone

theorem tdbPut
    (h : TransactionInv t) {rnd : Random}
    (hunused : hashExists t.tids.hash (tdbCreateRandomId t rnd).1 = false) (now : Int)
    {type : TidType} (htype : ¬ type.HasLookup) :
    TransactionInv (tdbPut now t type rnd).2.1 := by
  let tid : Tid := ⟨(tdbCreateRandomId t rnd).1, length_randUnused _ _ _ _, timeAdd1Min now, type,
    none⟩
  have hget : ∀ q, (Torrentkino.tdbPut now t type rnd).2.1.tids.heap.get q =
      if q = t.tids.heap.fresh then some tid else t.tids.heap.get q := fun _ => rfl
  exact h.new (indexed_tdbPut h hunused now type) hget (.inl ⟨htype, rfl, rfl⟩)

/-- `tdb_put` and `tdb_link_ldb` -/
theorem link
    (h : TransactionInv t) {rnd : Random}
    (hunused : hashExists t.tids.hash (tdbCreateRandomId t rnd).1 = false) (now : Int)
    {type : TidType} (htype : type.HasLookup) (lookup : Lookup v) :
    TransactionInv (tdbLinkLdb (Torrentkino.tdbPut now t type rnd).2.1
      (Torrentkino.tdbPut now t type rnd).1.1 lookup) := by
  let tid : Tid := ⟨(tdbCreateRandomId t rnd).1, length_randUnused _ _ _ _, timeAdd1Min now, type,
    some t.lookups.fresh⟩
  have hget : ∀ q, (tdbLinkLdb (Torrentkino.tdbPut now t type rnd).2.1
      (Torrentkino.tdbPut now t type rnd).1.1 lookup).tids.heap.get q =
      if q = t.tids.heap.fresh then some tid else t.tids.heap.get q := by
    intro q
    change ((t.tids.heap.alloc _).modify t.tids.heap.fresh _).get q = _
    rcases eq_or_ne q t.tids.heap.fresh with rfl | hq
    · rw [Heap.get_modify_self, Heap.get_alloc_self, if_pos rfl]
      rfl
    · rw [Heap.get_modify_of_ne _ _ hq, Heap.get_alloc_of_ne _ _ hq, if_neg hq]
  exact h.new ((indexed_tdbPut h hunused now type).modify _ fun _ => rfl) hget
    (.inr ⟨htype, rfl, lookup, rfl⟩)

/-! ### The end of a transaction -/

theorem get_tdbDel (hget : t.tids.heap.get ti = some tid) (q : Ref) :
    (tdbDel t ti).tids.heap.get q = if q = ti then none else t.tids.heap.get q := by
  rw [tdbDel, hget]
  change (t.tids.heap.free ti).get q = _
  rcases eq_or_ne q ti with rfl | hq
  · rw [Heap.get_free_self, if_pos rfl]
  · rw [Heap.get_free_of_ne _ hq, if_neg hq]

/-- The lookup of a transaction ends with it, and no other one does. -/
theorem live_tdbDel_iff
    (h : TransactionInv t) (hget : t.tids.heap.get ti = some tid) (l : Ref) :
    (tdbDel t ti).lookups.Live l ↔ t.lookups.Live l ∧ ¬ Owns t ti l := by
  have howns : Owns t ti l ↔ tid.lookup = some l := by
    simp [Owns, hget]
  have hfree : ∀ q, (t.lookups.free q).Live l ↔ t.lookups.Live l ∧ q ≠ l := by
    intro q
    rcases eq_or_ne l q with rfl | hl
    · simp [Heap.Live]
    · simp [Heap.Live, Heap.get_free_of_ne _ hl, Ne.symm hl]
  have howner := h.owner_iff ti tid hget
  rw [howns, tdbDel, hget]
  dsimp only
  cases hlookup : tid.lookup with
  | none =>
      cases tid.type <;> simp [ldbFree]
  | some q =>
      rcases howner.mpr ⟨q, hlookup⟩ with htype | htype
      · rw [htype]
        simp [ldbFree, hfree]
      · rw [htype]
        simp [ldbFree, hfree]

theorem tdbDel (h : TransactionInv t) (ti : Ref) : TransactionInv (tdbDel t ti) := by
  cases hget : t.tids.heap.get ti with
  | none =>
      rwa [Torrentkino.tdbDel, hget]
  | some tid =>
      have howns : ∀ q l, Owns (Torrentkino.tdbDel t ti) q l ↔ q ≠ ti ∧ Owns t q l := by
        intro q l
        rw [Owns, get_tdbDel hget]
        split
        · rename_i hq
          simp [hq]
        · rename_i hq
          simp [hq, Owns]
      refine ⟨?_, ?_, ?_, ?_⟩
      · rw [Torrentkino.tdbDel, hget]
        exact h.indexed.remove hget
      · intro q tid' hq
        rw [get_tdbDel hget] at hq
        split at hq
        · cases hq
        · exact h.owner_iff q tid' hq
      · intro q q' l hl hl'
        exact h.unique q q' l ((howns q l).mp hl).2 ((howns q' l).mp hl').2
      · intro l
        rw [h.live_tdbDel_iff hget, h.live_iff]
        simp only [howns]
        constructor
        · rintro ⟨⟨q, hq⟩, hnot⟩
          exact ⟨q, fun heq => hnot (heq ▸ hq), hq⟩
        · rintro ⟨q, hne, hq⟩
          exact ⟨⟨q, hq⟩, fun hti => hne (h.unique q ti l hq hti)⟩

end TransactionInv
end Owners

/-! ## What the program does to transactions -/

section Ops

variable {conf : Conf} {s s' : Main v}

/-- The steps that a run consists of. -/
inductive TdbOp (v : Build) where
  /-- `tdb_put`, with `tdb_link_ldb` behind it if there is a lookup, and what leaves
  the transactions alone. -/
  | act (a : Act v)
  /-- The end of the loop body of `tdb_expire`. -/
  | expire (ti : Ref)
  /-- `p2p_reply` -/
  | reply (packet : Ben) (sa : Ip v)

/-- The state after a step. -/
def tdbStep (conf : Conf) (s : Main v) : TdbOp v → Except Fault (Main v)
  | .act a => actStep conf s a
  | .expire ti => .ok { s with transaction := tdbDel s.transaction ti }
  | .reply packet sa => p2pReply conf s packet sa

namespace TdbOp

/-- The program takes such a step. -/
def Calls (s : Main v) : TdbOp v → Prop
  | .act (.tdbDel _) => False
  | .act _ => True
  | .expire ti => ∃ tid, s.transaction.tids.heap.get ti = some tid ∧ tid.time < s.now
  | .reply _ _ => True

/-- If the step puts a transaction, `tdb_create_random_id` finds an unused id. -/
def Unused (s : Main v) : TdbOp v → Prop
  | .act (.tdbPut _ _) | .act (.lookup _ _ _ _) =>
      hashExists s.transaction.tids.hash (tdbCreateRandomId s.transaction s.random).1 = false
  | _ => True

/-- The program takes the step and finds an unused id. -/
def InOrder (s : Main v) (op : TdbOp v) : Prop :=
  op.Calls s ∧ op.Unused s

end TdbOp

/-- The reply is matched to the transaction. -/
def Matches (conf : Conf) (s : Main v) (packet : Ben) (ti : Ref) : Prop :=
  ∃ head, replyHead conf.nodeId packet = .ok head ∧ tdbItem s.transaction head.t = some ti

/-- The step ends the transaction. -/
def TdbOp.Ends (conf : Conf) (s : Main v) (ti : Ref) (tid : Tid) : TdbOp v → Prop
  | .act _ => False
  | .expire q => q = ti ∧ tid.time < s.now
  | .reply packet _ => Matches conf s packet ti ∧ tid.type.Single

/-! ### Steps that leave the transactions alone -/

theorem keepsOwners_getNodesQuery (l : Ref) (tid : Bytes) (s : Main v) (node : NodeId × Ip v) :
    KeepsOwners s.transaction (getNodesQuery conf l tid s node).transaction := by
  rw [getNodesQuery]
  split
  · exact .refl _
  split
  · exact .refl _
  dsimp only
  split
  · exact .refl _
  split
  · exact .refl _
  split
  · exact .modifyLookup _ _ _
  · exact .modifyLookup _ _ _

theorem keepsOwners_nodes
    (id : NodeId) (ti : Ref) (tid token nodes : Bytes) (sa : Ip v) :
    KeepsOwners s.transaction (p2pGetPeersGetNodes conf s id ti tid token nodes sa).transaction := by
  rw [p2pGetPeersGetNodes]
  split
  · exact .refl _
  · refine List.foldlRecOn (motive := fun s' : Main v => KeepsOwners s.transaction s'.transaction)
      _ _ (.modifyLookup _ _ _) ?_
    exact fun s₁ h₁ node _ => h₁.trans (keepsOwners_getNodesQuery _ tid s₁ node)

theorem keepsOwners_values
    {id : NodeId} {ti : Ref} {token : Bytes} {values : List Ben} {sa : Ip v}
    (h : p2pGetPeersGetValues s id ti token values sa = .ok s') :
    KeepsOwners s.transaction s'.transaction := by
  rcases p2pGetPeersGetValues_cases h with
    rfl | ⟨l, lookup, -, rfl | ⟨pairs, -, -, -, hanswer⟩⟩
  · exact .refl _
  · exact .modifyLookup _ _ _
  · obtain ⟨put, -, cache, sent, rfl, -⟩ := answerInitiator_cases hanswer
    exact KeepsOwners.trans (.modifyLookup _ _ _) (.modifyLookup _ _ _)

theorem keepsOwners_handleReply
    {id : NodeId} {ti : Ref} {tid : Bytes} {sa : Ip v} {reply : Reply}
    (h : handleReply conf s id ti tid sa reply = .ok s') :
    KeepsOwners s.transaction s'.transaction := by
  cases reply with
  | pong =>
      cases h
      rw [p2pPong]
      split
      · exact .refl _
      · exact .refl _
  | findNode nodes =>
      cases h
      refine List.foldlRecOn (motive := fun s' : Main v => KeepsOwners s.transaction s'.transaction)
        _ _ (.refl _) ?_
      intro s₁ h₁ node _
      rw [findNodeStore]
      split
      · exact h₁
      split
      · exact h₁
      · exact h₁
  | getPeersNodes token nodes =>
      cases h
      exact keepsOwners_nodes id ti tid token nodes sa
  | getPeersValues token values =>
      exact keepsOwners_values h
  | announce =>
      cases h
      exact .refl _

/-- The queries that start a lookup change it in place. -/
theorem keepsOwners_startLookup
    (conf : Conf) (s : Main v) (target : NodeId) (type : TidType)
    (query : Option (Ip v × DnsMsg)) :
    KeepsOwners
      (tdbLinkLdb (tdbPut s.now s.transaction type s.random).2.1
        (tdbPut s.now s.transaction type s.random).1.1 (ldbInit target query))
      (startLookup conf s target type query).transaction := by
  refine List.foldlRecOn
    (motive := fun s' : Main v => KeepsOwners (tdbLinkLdb _ _ _) s'.transaction)
    _ _ (.refl _) ?_
  exact fun s₁ h₁ node _ => h₁.trans (.modifyLookup _ _ _)

/-! ### One step -/

/-- A step leaves the transactions alone, or it puts one, or it deletes one. -/
inductive TdbEffect (conf : Conf) (s s' : Main v) (op : TdbOp v) : Prop where
  | keeps (hkeeps : KeepsOwners s.transaction s'.transaction)
      (hends : ∀ ti tid, s.transaction.tids.heap.get ti = some tid → ¬ op.Ends conf s ti tid)
  | put (type : TidType) (htype : ¬ type.HasLookup)
      (hunused : hashExists s.transaction.tids.hash
        (tdbCreateRandomId s.transaction s.random).1 = false)
      (hends : ∀ ti tid, ¬ op.Ends conf s ti tid)
      (heq : s'.transaction = (tdbPut s.now s.transaction type s.random).2.1)
  | link (type : TidType) (htype : type.HasLookup) (lookup : Lookup v)
      (hunused : hashExists s.transaction.tids.hash
        (tdbCreateRandomId s.transaction s.random).1 = false)
      (hends : ∀ ti tid, ¬ op.Ends conf s ti tid)
      (hkeeps : KeepsOwners
        (tdbLinkLdb (tdbPut s.now s.transaction type s.random).2.1
          (tdbPut s.now s.transaction type s.random).1.1 lookup) s'.transaction)
  | del (ti : Ref) (tid : Tid) (t : Transaction v) (hkeeps : KeepsOwners s.transaction t)
      (hget : s.transaction.tids.heap.get ti = some tid)
      (hends : ∀ q tid', s.transaction.tids.heap.get q = some tid' →
        (op.Ends conf s q tid' ↔ q = ti))
      (heq : s'.transaction = tdbDel t ti)

theorem tdbEffect_act
    {a : Act v} (hcalls : (TdbOp.act a).Calls s) (hunused : (TdbOp.act a).Unused s)
    (h : actStep conf s a = .ok s') :
    TdbEffect conf s s' (.act a) := by
  cases a with
  | tdbDel ti =>
      cases hcalls
  | event | store m | names names | found r time | send sa dict other | respond d =>
      cases h
      exact .keeps (.refl _) fun _ _ _ hends => hends
  | nbhd op =>
      rw [actStep] at h
      split at h
      · cases h
      · cases h
        exact .keeps (.refl _) fun _ _ _ hends => hends
  | tdbPut type other =>
      cases h
      exact .put type other hunused (fun _ _ hends => hends) rfl
  | lookup target type owner query =>
      cases h
      exact .link type owner _ hunused (fun _ _ hends => hends)
        (keepsOwners_startLookup conf s target type query)
  | nodes id ti tid token nodes sa =>
      cases h
      exact .keeps (keepsOwners_nodes id ti tid token nodes sa) fun _ _ _ hends => hends
  | values id ti token values sa =>
      exact .keeps (keepsOwners_values h) fun _ _ _ hends => hends

theorem tdbType_eq {t : Transaction v} {ti : Ref} {tid : Tid} (h : t.tids.heap.get ti = some tid) :
    tdbType t (some ti) = some tid.type := by
  simp [tdbType, h]

theorem replyCleanup_of_single
    {type : TidType} (htype : type.Single) (ti : Ref) (s : Main v) :
    (replyCleanup type ti s).transaction = tdbDel s.transaction ti := by
  rcases htype with rfl | rfl | rfl <;> rfl

theorem replyCleanup_of_not_single
    {type : TidType} (htype : ¬ type.Single) (ti : Ref) (s : Main v) :
    replyCleanup type ti s = s := by
  cases type with
  | ping | findNode | announceEngage =>
      exact absurd (by simp [TidType.Single]) htype
  | pingMulticast | getPeers | announceStart =>
      rfl

theorem tdbEffect_reply
    {packet : Ben} {sa : Ip v} (h : p2pReply conf s packet sa = .ok s') :
    TdbEffect conf s s' (.reply packet sa) := by
  rcases p2pReply_cases h with
    ⟨rfl, d, hdrop⟩ | ⟨head, hhead, ⟨rfl, hnone⟩ | ⟨ti, type, s₁, hti, htype, hhandled, rfl⟩⟩
  · refine .keeps (.refl _) ?_
    rintro ti tid - ⟨⟨head, hhead, -⟩, -⟩
    cases hdrop.symm.trans hhead
  · refine .keeps (.refl _) ?_
    rintro ti tid hget ⟨⟨head', hhead', hti⟩, -⟩
    cases hhead.symm.trans hhead'
    rw [hti, tdbType_eq hget] at hnone
    cases hnone
  obtain ⟨tid, hget, rfl⟩ : ∃ tid, s.transaction.tids.heap.get ti = some tid ∧ tid.type = type :=
    Option.map_eq_some_iff.mp htype
  have hkeeps : KeepsOwners s.transaction s₁.transaction := by
    rcases hhandled with rfl | ⟨reply, -, hrun⟩
    · exact .refl _
    · exact keepsOwners_handleReply (s := s.nbhdPut conf head.id sa) hrun
  have hmatch : ∀ q, Matches conf s packet q ↔ q = ti := by
    intro q
    constructor
    · rintro ⟨head', hhead', hq⟩
      cases hhead.symm.trans hhead'
      exact Option.some.inj (hq.symm.trans hti)
    · rintro rfl
      exact ⟨head, hhead, hti⟩
  by_cases hsingle : tid.type.Single
  · refine .del ti tid s₁.transaction hkeeps hget (fun q tid' hq => ?_)
      (replyCleanup_of_single hsingle ti s₁)
    constructor
    · exact fun hends => (hmatch q).mp hends.1
    · rintro rfl
      cases hget.symm.trans hq
      exact ⟨(hmatch q).mpr rfl, hsingle⟩
  · refine .keeps (by rwa [replyCleanup_of_not_single hsingle]) ?_
    rintro q tid' hq ⟨hmatches, hsingle'⟩
    cases (hmatch q).mp hmatches
    cases hget.symm.trans hq
    exact hsingle hsingle'

theorem tdbEffect
    {op : TdbOp v} (hcalls : op.Calls s) (hunused : op.Unused s)
    (h : tdbStep conf s op = .ok s') :
    TdbEffect conf s s' op := by
  cases op with
  | act a =>
      exact tdbEffect_act hcalls hunused h
  | expire ti =>
      cases h
      obtain ⟨tid, hget, hexpired⟩ := hcalls
      refine .del ti tid s.transaction (.refl _) hget (fun q tid' hq => ?_) rfl
      constructor
      · exact fun hends => hends.1.symm
      · rintro rfl
        cases hget.symm.trans hq
        exact ⟨rfl, hexpired⟩
  | reply packet sa =>
      exact tdbEffect_reply h

theorem transactionInv_tdbStep
    {op : TdbOp v} (hinv : TransactionInv s.transaction) (hcalls : op.Calls s)
    (hunused : op.Unused s) (h : tdbStep conf s op = .ok s') :
    TransactionInv s'.transaction := by
  cases tdbEffect hcalls hunused h with
  | keeps hkeeps hends =>
      exact hinv.congr hkeeps
  | put type htype hunused hends heq =>
      rw [heq]
      exact hinv.tdbPut hunused s.now htype
  | link type htype lookup hunused hends hkeeps =>
      exact (hinv.link hunused s.now htype lookup).congr hkeeps
  | del ti tid t hkeeps hget hends heq =>
      rw [heq]
      exact (hinv.congr hkeeps).tdbDel ti

/-- What a step does to the transactions that are there: those that it ends are gone
with their lookups, the others are as they were. -/
structure OneStep (conf : Conf) (s : Main v) (op : TdbOp v) (s' : Main v) : Prop where
  kept : ∀ ti tid, s.transaction.tids.heap.get ti = some tid → ¬ op.Ends conf s ti tid →
    s'.transaction.tids.heap.get ti = some tid ∧
      ∀ l, tid.lookup = some l → s'.transaction.lookups.Live l
  ended : ∀ ti tid, s.transaction.tids.heap.get ti = some tid → op.Ends conf s ti tid →
    s'.transaction.tids.heap.get ti = none ∧ tdbItem s'.transaction tid.id = none ∧
      ∀ l, tid.lookup = some l → ¬ s'.transaction.lookups.Live l
  unknown : ∀ packet sa head, op = .reply packet sa → replyHead conf.nodeId packet = .ok head →
    tdbItem s.transaction head.t = none → s' = s.nbhdPut conf head.id sa

theorem TransactionInv.tdbItem_eq_none
    {t : Transaction v} (h : TransactionInv t) {id : Bytes}
    (hnone : ∀ ti tid, t.tids.heap.get ti = some tid → tid.id ≠ id) :
    tdbItem t id = none := by
  refine Option.eq_none_iff_forall_ne_some.mpr fun ti hti => ?_
  obtain ⟨tid, hget, hid⟩ := (h.tdbItem_eq_some_iff id).mp hti
  exact hnone ti tid hget hid

theorem TransactionInv.id_inj
    {t : Transaction v} (h : TransactionInv t) {ti q : Ref} {tid tid' : Tid}
    (hti : t.tids.heap.get ti = some tid) (hq : t.tids.heap.get q = some tid')
    (hid : tid'.id = tid.id) :
    q = ti := by
  have hfound := (h.tdbItem_eq_some_iff tid.id).mpr ⟨tid', hq, hid⟩
  exact Option.some.inj (hfound.symm.trans ((h.tdbItem_eq_some_iff tid.id).mpr ⟨tid, hti, rfl⟩))

theorem kept_tdbStep
    {op : TdbOp v} (hinv : TransactionInv s.transaction) (heffect : TdbEffect conf s s' op)
    {ti : Ref} {tid : Tid} (hget : s.transaction.tids.heap.get ti = some tid)
    (hends : ¬ op.Ends conf s ti tid) :
    s'.transaction.tids.heap.get ti = some tid ∧
      ∀ l, tid.lookup = some l → s'.transaction.lookups.Live l := by
  have hlive : ∀ l, tid.lookup = some l → s.transaction.lookups.Live l :=
    fun l hl => (hinv.live_iff l).mpr ⟨ti, tid, hget, hl⟩
  cases heffect with
  | keeps hkeeps _ =>
      rw [hkeeps.tids]
      exact ⟨hget, fun l hl => (hkeeps.live_iff l).mpr (hlive l hl)⟩
  | put type htype hunused _ heq =>
      rw [heq]
      exact ⟨Heap.get_alloc_of_get _ hget, hlive⟩
  | link type htype lookup hunused _ hkeeps =>
      rw [hkeeps.tids]
      constructor
      · refine (Heap.get_modify_of_ne _ _ ?_).trans (Heap.get_alloc_of_get _ hget)
        exact (Heap.lt_fresh hget).ne
      · exact fun l hl => (hkeeps.live_iff l).mpr ((hlive l hl).alloc lookup)
  | del q tid' t hkeeps hq hiff heq =>
      have hne : ti ≠ q := fun hti => hends ((hiff ti tid hget).mpr hti)
      have hq' : t.tids.heap.get q = some tid' := by
        rwa [hkeeps.tids]
      rw [heq]
      constructor
      · rw [TransactionInv.get_tdbDel hq', if_neg hne, hkeeps.tids]
        exact hget
      · intro l hl
        refine ((hinv.congr hkeeps).live_tdbDel_iff hq' l).mpr ⟨(hkeeps.live_iff l).mpr (hlive l hl),
          ?_⟩
        rintro ⟨tid'', hget', hl'⟩
        rw [hkeeps.tids] at hget'
        exact hne (hinv.unique ti q l ⟨tid, hget, hl⟩ ⟨tid'', hget', hl'⟩)

theorem ended_tdbStep
    {op : TdbOp v} (hinv : TransactionInv s.transaction) (hinv' : TransactionInv s'.transaction)
    (heffect : TdbEffect conf s s' op)
    {ti : Ref} {tid : Tid} (hget : s.transaction.tids.heap.get ti = some tid)
    (hends : op.Ends conf s ti tid) :
    s'.transaction.tids.heap.get ti = none ∧ tdbItem s'.transaction tid.id = none ∧
      ∀ l, tid.lookup = some l → ¬ s'.transaction.lookups.Live l := by
  cases heffect with
  | keeps _ hnot =>
      exact absurd hends (hnot ti tid hget)
  | put _ _ _ hnot _ =>
      exact absurd hends (hnot ti tid)
  | link _ _ _ _ hnot _ =>
      exact absurd hends (hnot ti tid)
  | del q tid' t hkeeps hq hiff heq =>
      cases (hiff ti tid hget).mp hends
      have hget' : t.tids.heap.get ti = some tid := by
        rwa [hkeeps.tids]
      have hdel := TransactionInv.get_tdbDel hget'
      rw [heq] at hinv' ⊢
      refine ⟨by rw [hdel, if_pos rfl], hinv'.tdbItem_eq_none fun r tid'' hr hid => ?_, ?_⟩
      · rw [hdel] at hr
        split at hr
        · cases hr
        · rename_i hne
          rw [hkeeps.tids] at hr
          exact hne (hinv.id_inj hget hr hid)
      · intro l hl hlive
        exact (((hinv.congr hkeeps).live_tdbDel_iff hget' l).mp hlive).2 ⟨tid, hget', hl⟩

theorem oneStep_tdbStep
    {op : TdbOp v} (hinv : TransactionInv s.transaction) (hcalls : op.Calls s)
    (hunused : op.Unused s) (h : tdbStep conf s op = .ok s') :
    OneStep conf s op s' where
  kept := fun _ _ hget hends =>
    kept_tdbStep hinv (tdbEffect hcalls hunused h) hget hends
  ended := fun _ _ hget hends =>
    ended_tdbStep hinv (transactionInv_tdbStep hinv hcalls hunused h)
      (tdbEffect hcalls hunused h) hget hends
  unknown := by
    rintro packet sa head rfl hhead hnone
    rw [tdbStep, p2pReply, hhead] at h
    dsimp only at h
    rw [show tdbItem (s.nbhdPut conf head.id sa).transaction head.t = none from hnone] at h
    exact (Except.ok.inj h).symm

theorem TdbEffect.fresh_le {op : TdbOp v} (h : TdbEffect conf s s' op) :
    s.transaction.tids.heap.fresh ≤ s'.transaction.tids.heap.fresh := by
  cases h with
  | keeps hkeeps _ =>
      rw [hkeeps.tids]
  | put type htype hunused _ heq =>
      rw [heq]
      exact Nat.le_succ _
  | link type htype lookup hunused _ hkeeps =>
      rw [hkeeps.tids]
      exact Nat.le_succ _
  | del q tid' t hkeeps hq hiff heq =>
      have hq' : t.tids.heap.get q = some tid' := by
        rwa [hkeeps.tids]
      rw [heq, tdbDel, hq', ← hkeeps.tids]
      exact Nat.le_refl _

/-- A transaction that is gone does not come back. -/
theorem TdbEffect.gone
    {op : TdbOp v} (h : TdbEffect conf s s' op) {ti : Ref}
    (hold : ti < s.transaction.tids.heap.fresh) (hgone : s.transaction.tids.heap.get ti = none) :
    s'.transaction.tids.heap.get ti = none := by
  cases h with
  | keeps hkeeps _ =>
      rwa [hkeeps.tids]
  | put type htype hunused _ heq =>
      rw [heq]
      exact (Heap.get_alloc_of_ne _ _ hold.ne).trans hgone
  | link type htype lookup hunused _ hkeeps =>
      rw [hkeeps.tids]
      exact (Heap.get_modify_of_ne _ _ hold.ne).trans
        ((Heap.get_alloc_of_ne _ _ hold.ne).trans hgone)
  | del q tid' t hkeeps hq hiff heq =>
      have hq' : t.tids.heap.get q = some tid' := by
        rwa [hkeeps.tids]
      rw [heq, TransactionInv.get_tdbDel hq', hkeeps.tids, hgone, ite_self]

/-! ### Runs -/

/-- A reply that ends a transaction is the last one that is matched to it. -/
def MatchedOnce (conf : Conf) (s₀ : Main v) (ops : List (TdbOp v)) : Prop :=
  ∀ pre packet sa mid packet' sa' post s₁ s₂ ti tid,
    ops = pre ++ .reply packet sa :: (mid ++ .reply packet' sa' :: post) →
    run (tdbStep conf) s₀ pre = .ok s₁ →
    run (tdbStep conf) s₀ (pre ++ .reply packet sa :: mid) = .ok s₂ →
    s₁.transaction.tids.heap.get ti = some tid → tid.type.Single → Matches conf s₁ packet ti →
    ¬ Matches conf s₂ packet' ti

theorem transactionInv_run
    {ops : List (TdbOp v)} (hops : Along TdbOp.InOrder (tdbStep conf) s ops)
    (hrun : run (tdbStep conf) s ops = .ok s') (hinv : TransactionInv s.transaction) :
    TransactionInv s'.transaction :=
  hops.invariant (p := fun s : Main v => TransactionInv s.transaction)
    (fun _ _ _ hs hok hstep => transactionInv_tdbStep hs hok.1 hok.2 hstep) hrun hinv

theorem gone_run
    {ops : List (TdbOp v)} (hops : Along TdbOp.InOrder (tdbStep conf) s ops)
    (hrun : run (tdbStep conf) s ops = .ok s') {ti : Ref}
    (hold : ti < s.transaction.tids.heap.fresh) (hgone : s.transaction.tids.heap.get ti = none) :
    s'.transaction.tids.heap.get ti = none :=
  (hops.invariant (p := fun s : Main v => ti < s.transaction.tids.heap.fresh ∧
      s.transaction.tids.heap.get ti = none)
    (fun _ _ _ hs hok hstep =>
      have heffect := tdbEffect hok.1 hok.2 hstep
      ⟨Nat.lt_of_lt_of_le hs.1 heffect.fresh_le, heffect.gone hs.1 hs.2⟩)
    hrun ⟨hold, hgone⟩).2

theorem matchedOnce_run
    {ops : List (TdbOp v)} (hops : Along TdbOp.InOrder (tdbStep conf) s ops)
    (hinv : TransactionInv s.transaction) :
    MatchedOnce conf s ops := by
  rintro pre packet sa mid packet' sa' post s₁ s₂ ti tid rfl hpre hrun hget hsingle hmatches
    ⟨head, -, hitem⟩
  have hops₂ : Along TdbOp.InOrder (tdbStep conf) s (pre ++ .reply packet sa :: mid) := by
    rw [← List.cons_append, ← List.append_assoc] at hops
    exact hops.left
  have hops₁ := hops₂.right hpre
  have hinv₁ := transactionInv_run hops₂.left hpre hinv
  have hinv₂ := transactionInv_run hops₂ hrun hinv
  rw [run_append, hpre] at hrun
  obtain ⟨s', hstep, hmid⟩ := bind_eq_ok (show run (tdbStep conf) s₁ (_ :: mid) = .ok s₂ from hrun)
  have heffect := tdbEffect hops₁.1.1 hops₁.1.2 hstep
  have hinv' := transactionInv_tdbStep hinv₁ hops₁.1.1 hops₁.1.2 hstep
  have hgone : s'.transaction.tids.heap.get ti = none :=
    (ended_tdbStep hinv₁ hinv' heffect hget ⟨hmatches, hsingle⟩).1
  have hold : ti < s'.transaction.tids.heap.fresh :=
    Nat.lt_of_lt_of_le (Heap.lt_fresh hget) heffect.fresh_le
  obtain ⟨tid', hget', -⟩ := (hinv₂.tdbItem_eq_some_iff _).mp hitem
  rw [gone_run (hops₁.2 s' hstep) hmid hold hgone] at hget'
  cases hget'

/-- In every run in which `tdb_create_random_id` always finds an unused id
* the hash leads exactly from the ids of the listed transactions to these, every
  transaction of a lookup owns one that no other one owns, and no other lookup exists;
* a step ends a transaction if it is the end of `tdb_expire` after its time, or a reply
  that is matched to it and it is of a type that expects one; then its lookup is
  released and its id is unknown, and otherwise it stays with its lookup;
* after such a reply no other one is matched to it. -/
theorem transactions_in_order
    (conf : Conf) (now : Int) (identity : List Identity) (rnd : Random) (names : Bytes)
    (ops : List (TdbOp v))
    (hops : Along TdbOp.InOrder (tdbStep conf) (mainInit now identity rnd names) ops) :
    (∀ s, run (tdbStep conf) (mainInit now identity rnd names) ops = .ok s →
        TransactionInv s.transaction) ∧
      AllSteps (OneStep conf) (tdbStep conf) (mainInit now identity rnd names) ops ∧
      MatchedOnce conf (mainInit now identity rnd names) ops := by
  have hinit : TransactionInv (mainInit now identity rnd names : Main v).transaction := .init
  have hstep : ∀ (s : Main v) op s', TransactionInv s.transaction → op.InOrder s →
      tdbStep conf s op = .ok s' → OneStep conf s op s' ∧ TransactionInv s'.transaction :=
    fun s op s' hs hok hstep =>
      ⟨oneStep_tdbStep hs hok.1 hok.2 hstep, transactionInv_tdbStep hs hok.1 hok.2 hstep⟩
  exact ⟨fun s hrun => transactionInv_run hops hrun hinit, run_allSteps hstep ops hinit hops,
    matchedOnce_run hops hinit⟩

/-- A ping and a lookup, and two replies with the id of the ping. -/
def twoReplies : List (TdbOp .ipv4) :=
  [.act (.tdbPut .ping (by simp [TidType.HasLookup])),
    .act (.lookup .zero .getPeers TidType.hasLookup_getPeers none),
    .reply (pongDict .zero [8, 9, 10, 11]) (.ofQuad 10 0 0 9 (26, 225)),
    .reply (pongDict .zero [8, 9, 10, 11]) (.ofQuad 10 0 0 9 (26, 225))]

/-- The first one ends the ping, and the lookup stays. -/
theorem transactions_in_order_twoReplies :
    ∃ s, run (tdbStep onesConf) (mainInit 0 [] ⟨fun _ => 0, UInt8.ofNat⟩ []) twoReplies = .ok s ∧
      s.transaction.tids.list = [1] ∧ Owns s.transaction 1 0 ∧ TransactionInv s.transaction ∧
      MatchedOnce onesConf (mainInit 0 [] ⟨fun _ => 0, UInt8.ofNat⟩ []) twoReplies := by
  have hmap : (run (tdbStep onesConf) (mainInit 0 [] ⟨fun _ => 0, UInt8.ofNat⟩ []) twoReplies).map
      (fun s => (s.transaction.tids.list,
        (s.transaction.tids.heap.get 1).bind Tid.lookup)) = .ok ([1], some 0) := by
    decide +kernel
  obtain ⟨s, hrun, heq⟩ := map_eq_ok hmap
  obtain ⟨hlist, howns⟩ := Prod.mk.inj heq
  have hops : Along TdbOp.InOrder (tdbStep onesConf)
      (mainInit 0 [] ⟨fun _ => 0, UInt8.ofNat⟩ []) twoReplies := by
    refine ⟨⟨trivial, by unfold TdbOp.Unused; decide +kernel⟩, fun s₁ h₁ => ?_⟩
    cases h₁
    refine ⟨⟨trivial, by unfold TdbOp.Unused; decide +kernel⟩, fun s₂ _ => ?_⟩
    exact ⟨⟨trivial, trivial⟩, fun _ _ => ⟨⟨trivial, trivial⟩, fun _ _ => trivial⟩⟩
  obtain ⟨hinv, -, honce⟩ := transactions_in_order onesConf 0 [] ⟨fun _ => 0, UInt8.ofNat⟩ []
    twoReplies hops
  exact ⟨s, hrun, hlist, Option.bind_eq_some_iff.mp howns, hinv s hrun, honce⟩

/-! ## The daemon -/

theorem tdbOps_act
    {a : Act v} (ha : ∀ ti, a ≠ .tdbDel ti) (h : actStep conf s a = .ok s') :
    Leads (tdbStep conf) TdbOp.Calls s s' := by
  refine .single (.act a) ?_ h
  cases a with
  | tdbDel ti =>
      exact ha ti rfl
  | _ =>
      trivial

theorem tdbOps_steady (h : SteadyActs conf s s') : Leads (tdbStep conf) TdbOp.Calls s s' := by
  refine Leads.lift (r := Leads (tdbStep conf) TdbOp.Calls) Leads.refl Leads.trans ?_ h
  rintro s s' a ha hstep
  refine tdbOps_act ?_ hstep
  rintro ti rfl
  exact ha

theorem tdbOps_tick (h : TickActs conf s s') : Leads (tdbStep conf) TdbOp.Calls s s' := by
  refine Leads.lift (r := Leads (tdbStep conf) TdbOp.Calls) Leads.refl Leads.trans ?_ h
  rintro s s' a ha hstep
  rcases ha.cases with ⟨m, rfl, -⟩ | ⟨ti, tid, rfl, htid, hexpired⟩ | hcalm
  · exact tdbOps_act (by simp) hstep
  · exact .single (.expire ti) ⟨tid, htid, hexpired⟩ hstep
  · refine tdbOps_act ?_ hstep
    rintro ti rfl
    exact hcalm

/-- An event consists of such steps, and a reply reaches `p2p_reply` once. -/
theorem tdbOps_daemonStep {e : Event v} (h : daemonStep conf s e = .ok s') :
    Leads (tdbStep conf) TdbOp.Calls s s' := by
  have hevent : Leads (tdbStep conf) TdbOp.Calls s { s with sent := [] } :=
    tdbOps_act (a := .event) (by simp) rfl
  refine hevent.trans ?_
  have hclock : ∀ (s : Main v) (now : Int), Leads (tdbStep conf) TdbOp.Calls s
      { s with p2p := { s.p2p with timeNow := now } } := fun s now =>
    tdbOps_act (a := .store { s with p2p := { s.p2p with timeNow := now } }) (by simp) rfl
  cases e with
  | dns datagram sa =>
      exact tdbOps_steady (resolves_rParse h).steady
  | cron now resolved =>
      exact (hclock _ now).trans (tdbOps_tick (tick_p2pCron h))
  | p2p now behind datagram sa =>
      refine (hclock _ now).trans ?_
      rcases p2pParse_cases h with rfl | ⟨-, -, packet, ⟨-, hrun⟩ | ⟨-, hrun⟩⟩
      · exact .refl _
      · exact tdbOps_steady (calm_p2pRequest (A := fun _ => True) trivial hrun).steady
      · exact .single (.reply packet sa) trivial hrun

/-- Every run of the daemon is a run of such steps. -/
theorem tdbOps_run {events : List (Event v)} (h : run (daemonStep conf) s events = .ok s') :
    Leads (tdbStep conf) TdbOp.Calls s s' :=
  Reaches.lift Leads.refl Leads.trans (fun _ hstep => tdbOps_daemonStep hstep)
    ⟨events, fun _ _ => trivial, h⟩

end Ops
end Torrentkino
