import Torrentkino.Lib.Walk
import Torrentkino.P2p.TransactionInv

/-!
# The walk of `tdb_expire`

`tdb_expire` goes over the list of the transactions with a saved successor.  It takes the
current one out when its time is over, and before that `p2p_cron_announce` may put new ones at
the end of the list.  Those have a minute left: the walk does nothing to them, if it gets there
at all.

**Results.**
* `TransactionInv.tidList`: what the walk needs to know of the list, which is so in every
  state of an orderly run.
* `expiredExactly`: the walk ends, it has taken out the transactions whose time was over and
  no other ones, and each one that was to start an announce has started it once, while it had
  its lookup.
-/

namespace Torrentkino

open Memory

variable {v : Build}

/-! ## The list -/

/-- The listed transactions exist, and each one that is to have a lookup has one of its own. -/
structure TidList (t : Transaction v) : Prop where
  nodup : t.tids.list.Nodup
  live : ∀ ti ∈ t.tids.list, t.tids.heap.Live ti
  owner_iff : ∀ ti ∈ t.tids.list, ∀ tid, t.tids.heap.get ti = some tid →
    (tid.type.HasLookup ↔ ∃ l, tid.lookup = some l)
  unique : ∀ ti ∈ t.tids.list, ∀ ti' ∈ t.tids.list, ∀ l, Owns t ti l → Owns t ti' l → ti = ti'
  lookup : ∀ ti ∈ t.tids.list, ∀ l, Owns t ti l → t.lookups.Live l

theorem TransactionInv.tidList {t : Transaction v} (h : TransactionInv t) : TidList t where
  nodup := h.indexed.nodup
  live := fun ti hti => (h.indexed.mem_list_iff ti).mp hti
  owner_iff := fun ti _ => h.owner_iff ti
  unique := fun ti _ ti' _ => h.unique ti ti'
  lookup := fun ti _ l hl => (h.live_iff l).mpr ⟨ti, hl⟩

/-- The current transaction is listed, and the other ones are others. -/
theorem TidList.cut
    {t : Transaction v} {done todo : List Ref} {ti : Ref} (h : TidList t)
    (hlist : t.tids.list = done ++ ti :: todo) :
    ti ∈ t.tids.list ∧ ∀ q ∈ done ++ todo, q ∈ t.tids.list ∧ q ≠ ti := by
  have hnodup := h.nodup
  rw [hlist] at hnodup ⊢
  have hdone : ti ∉ done :=
    fun hmem => List.disjoint_of_nodup_append hnodup hmem (.head _)
  have htodo : ti ∉ todo := (List.nodup_cons.mp hnodup.of_append_right).1
  refine ⟨List.mem_append_right _ (.head _), fun q hq => ?_⟩
  rcases List.mem_append.mp hq with hq | hq
  · exact ⟨List.mem_append_left _ hq, ne_of_mem_of_not_mem hq hdone⟩
  · exact ⟨List.mem_append_right _ (.tail _ hq), ne_of_mem_of_not_mem hq htodo⟩

/-- The time of the transaction is over. -/
def isExpired (s : Main v) (ti : Ref) : Bool :=
  (s.transaction.tids.heap.get ti).any fun tid => tid.time < s.now

/-- The time of the transaction is over, and it is to start an announce. -/
def isExpiredStart (s : Main v) (ti : Ref) : Bool :=
  (s.transaction.tids.heap.get ti).any fun tid =>
    tid.time < s.now && tid.type = .announceStart

/-! ## An announce puts transactions at the end -/

section Appends

variable {conf : Conf} {s s' s'' : Main v} {new new' : List Ref}

/-- New transactions have been put at the end of the list, and the clock stands still. -/
structure Appends (s s' : Main v) (new : List Ref) : Prop where
  now : s'.now = s.now
  list : s'.transaction.tids.list = s.transaction.tids.list ++ new
  lookups : s'.transaction.lookups = s.transaction.lookups
  fresh : s.transaction.tids.heap.fresh ≤ s'.transaction.tids.heap.fresh
  old : ∀ ti < s.transaction.tids.heap.fresh,
    s'.transaction.tids.heap.get ti = s.transaction.tids.heap.get ti
  unused : ∀ ti ∈ new, s.transaction.tids.heap.fresh ≤ ti
  engage : ∀ ti ∈ new, ∃ tid, s'.transaction.tids.heap.get ti = some tid ∧
    tid.type = .announceEngage ∧ tid.time = timeAdd1Min s.now
  nodup : new.Nodup

namespace Appends

theorem refl (s : Main v) : Appends s s [] where
  now := rfl
  list := (List.append_nil _).symm
  lookups := rfl
  fresh := Nat.le_refl _
  old := fun _ _ => rfl
  unused := List.forall_mem_nil _
  engage := List.forall_mem_nil _
  nodup := List.nodup_nil

theorem lt_fresh (h : Appends s s' new) {ti : Ref} (hti : ti ∈ new) :
    ti < s'.transaction.tids.heap.fresh := by
  obtain ⟨tid, hget, -⟩ := h.engage ti hti
  exact Heap.lt_fresh hget

theorem trans (h : Appends s s' new) (h' : Appends s' s'' new') :
    Appends s s'' (new ++ new') where
  now := h'.now.trans h.now
  list := by rw [h'.list, h.list, List.append_assoc]
  lookups := h'.lookups.trans h.lookups
  fresh := h.fresh.trans h'.fresh
  old := by
    intro ti hti
    rw [h'.old ti (hti.trans_le h.fresh), h.old ti hti]
  unused := by
    intro ti hti
    rcases List.mem_append.mp hti with hti | hti
    · exact h.unused ti hti
    · exact h.fresh.trans (h'.unused ti hti)
  engage := by
    intro ti hti
    rcases List.mem_append.mp hti with hti | hti
    · rw [h'.old ti (h.lt_fresh hti)]
      exact h.engage ti hti
    · rw [← h.now]
      exact h'.engage ti hti
  nodup := by
    refine List.Nodup.append h.nodup h'.nodup ?_
    intro ti hti hti'
    exact absurd (h.lt_fresh hti) (Nat.not_lt.mpr (h'.unused ti hti'))

/-- One round of the loop in `p2p_cron_announce`. -/
theorem announceTo (conf : Conf) (target : NodeId) (s : Main v) (n : NodeL v) :
    Appends s (announceTo conf target s n) [s.transaction.tids.heap.fresh] where
  now := rfl
  list := by
    change s.transaction.tids.list.take s.transaction.tids.list.length ++
      s.transaction.tids.heap.fresh ::
        s.transaction.tids.list.drop s.transaction.tids.list.length = _
    rw [List.take_length, List.drop_length]
  lookups := rfl
  fresh := Nat.le_succ _
  old := by
    intro ti hti
    exact Heap.get_alloc_of_ne _ _ (Nat.ne_of_lt hti)
  unused := by
    intro ti hti
    rw [List.mem_singleton.mp hti]
  engage := by
    intro ti hti
    rw [List.mem_singleton.mp hti]
    exact ⟨_, Heap.get_alloc_self _ _, rfl, rfl⟩
  nodup := List.nodup_singleton _

/-- The loop in `p2p_cron_announce`: one transaction for each node. -/
theorem foldl_announceTo (conf : Conf) (target : NodeId) (nodes : List (NodeL v)) (s : Main v) :
    ∃ new, new.length = nodes.length ∧
      Appends s (nodes.foldl (Torrentkino.announceTo conf target) s) new := by
  induction nodes generalizing s with
  | nil =>
      exact ⟨[], rfl, refl s⟩
  | cons n nodes ih =>
      obtain ⟨new, hlen, hnew⟩ := ih (Torrentkino.announceTo conf target s n)
      refine ⟨_ :: new, ?_, (announceTo conf target s n).trans hnew⟩
      rw [List.length_cons, List.length_cons, hlen]

end Appends

/-- The transactions that `p2p_cron_announce` puts at the end of the list. -/
def appendedBy (conf : Conf) (call : Ref × Main v) : List Ref :=
  (p2pCronAnnounce conf call.2 call.1).transaction.tids.list.drop
    call.2.transaction.tids.list.length

theorem appends_announce (conf : Conf) (call : Ref × Main v) :
    Appends call.2 (p2pCronAnnounce conf call.2 call.1) (appendedBy conf call) ∧
      (appendedBy conf call).length ≤ 8 := by
  obtain ⟨new, hlen, hnew⟩ : ∃ new, new.length ≤ 8 ∧
      Appends call.2 (p2pCronAnnounce conf call.2 call.1) new := by
    rw [p2pCronAnnounce]
    split
    · exact ⟨[], Nat.zero_le _, .refl _⟩
    · rename_i l lookup _
      obtain ⟨new, hlen, hnew⟩ := Appends.foldl_announceTo conf lookup.target
        ((lookup.nodes.objects.filter fun n => n.token ≠ []).take 8) call.2
      refine ⟨new, ?_, hnew⟩
      rw [hlen]
      exact List.length_take_le _ _
  have happended : appendedBy conf call = new := by
    rw [appendedBy, hnew.list, List.drop_left]
  rw [happended]
  exact ⟨hnew, hlen⟩

end Appends

/-! ## The body of the loop -/

section Item

variable {conf : Conf} {s : Main v} {ti : Ref} {tid : Tid}

/-- The call of `p2p_cron_announce` for the current transaction, with the state it is made in. -/
def announcedAt (s : Main v) (ti : Ref) : List (Ref × Main v) :=
  if isExpiredStart s ti then [(ti, s)] else []

theorem mem_announcedAt {call : Ref × Main v} :
    call ∈ announcedAt s ti ↔ isExpiredStart s ti ∧ call = (ti, s) := by
  rw [announcedAt]
  split
  · rename_i hstart
    simp [hstart]
  · rename_i hstart
    simp [hstart]

theorem map_fst_announcedAt (s : Main v) (ti : Ref) :
    (announcedAt s ti).map Prod.fst = [ti].filter (isExpiredStart s) := by
  rw [announcedAt, List.filter_singleton]
  cases isExpiredStart s ti <;> rfl

theorem tdbExpireItem_of_not_expired (conf : Conf) (hexpired : ¬ isExpired s ti) :
    tdbExpireItem conf s ti = s ∧ announcedAt s ti = [] := by
  rw [isExpired] at hexpired
  cases hget : s.transaction.tids.heap.get ti with
  | none =>
      simp [tdbExpireItem, announcedAt, isExpiredStart, hget]
  | some tid =>
      have htime : ¬ tid.time < s.now := by simpa [hget] using hexpired
      simp [tdbExpireItem, announcedAt, isExpiredStart, hget, htime]

/-- The transaction announces, if it was to start an announce, and then it is deleted. -/
theorem tdbExpireItem_of_expired (conf : Conf) (hexpired : isExpired s ti) :
    ∃ s₁, Appends s s₁ ((announcedAt s ti).flatMap (appendedBy conf)) ∧
      ((announcedAt s ti).flatMap (appendedBy conf)).length ≤ 8 ∧
      tdbExpireItem conf s ti = { s₁ with transaction := tdbDel s₁.transaction ti } := by
  rw [isExpired] at hexpired
  cases hget : s.transaction.tids.heap.get ti with
  | none =>
      rw [hget] at hexpired
      cases hexpired
  | some tid =>
      have htime : tid.time < s.now := by simpa [hget] using hexpired
      by_cases htype : tid.type = .announceStart
      · have hcall : announcedAt s ti = [(ti, s)] := by
          simp [announcedAt, isExpiredStart, hget, htime, htype]
        rw [hcall, List.flatMap_singleton]
        obtain ⟨happends, hlen⟩ := appends_announce conf (ti, s)
        exact ⟨_, happends, hlen, by simp [tdbExpireItem, hget, htime, htype]⟩
      · have hcall : announcedAt s ti = [] := by
          simp [announcedAt, isExpiredStart, hget, htype]
        rw [hcall]
        exact ⟨s, .refl s, Nat.zero_le _, by simp [tdbExpireItem, hget, htime, htype]⟩

/-- The list without a transaction. -/
theorem list_tdbDel {t : Transaction v} (hget : t.tids.heap.get ti = some tid) :
    (tdbDel t ti).tids.list = t.tids.list.erase ti := by
  rw [tdbDel, hget]
  rfl

theorem fresh_tids_tdbDel (t : Transaction v) (ti : Ref) :
    (tdbDel t ti).tids.heap.fresh = t.tids.heap.fresh := by
  rw [tdbDel]
  split
  · rfl
  · rfl

/-- Another lookup stays. -/
theorem get_lookups_tdbDel
    {t : Transaction v} {l : Ref} (howns : ¬ Owns t ti l) :
    (tdbDel t ti).lookups.get l = t.lookups.get l := by
  rw [tdbDel]
  cases hget : t.tids.heap.get ti with
  | none =>
      rfl
  | some tid =>
      have hfree : (ldbFree t.lookups tid.lookup).get l = t.lookups.get l := by
        cases hlookup : tid.lookup with
        | none =>
            rfl
        | some q =>
            refine Heap.get_free_of_ne _ ?_
            rintro rfl
            exact howns ⟨tid, hget, hlookup⟩
      cases htype : tid.type <;> simp [htype, hfree]

/-- The lookup of the transaction is released. -/
theorem get_lookups_tdbDel_self
    {t : Transaction v} {l : Ref} (hget : t.tids.heap.get ti = some tid)
    (htype : tid.type.HasLookup) (hlookup : tid.lookup = some l) :
    (tdbDel t ti).lookups.get l = none := by
  rw [tdbDel, hget]
  rcases htype with htype | htype
  · simp [htype, hlookup, ldbFree]
  · simp [htype, hlookup, ldbFree]

/-- The current transaction is gone, and new ones may have been put at the end of the list. -/
structure Expires (s s' : Main v) (ti : Ref) (new : List Ref) : Prop where
  now : s'.now = s.now
  list : s'.transaction.tids.list = s.transaction.tids.list.erase ti ++ new
  fresh : s.transaction.tids.heap.fresh ≤ s'.transaction.tids.heap.fresh
  self : s'.transaction.tids.heap.get ti = none
  old : ∀ q < s.transaction.tids.heap.fresh, q ≠ ti →
    s'.transaction.tids.heap.get q = s.transaction.tids.heap.get q
  unused : ∀ q ∈ new, s.transaction.tids.heap.fresh ≤ q
  engage : ∀ q ∈ new, ∃ tid, s'.transaction.tids.heap.get q = some tid ∧
    tid.type = .announceEngage ∧ tid.time = timeAdd1Min s.now
  nodup : new.Nodup
  lookups : ∀ l, ¬ Owns s.transaction ti l →
    s'.transaction.lookups.get l = s.transaction.lookups.get l
  released : ∀ tid, s.transaction.tids.heap.get ti = some tid → tid.type.HasLookup →
    ∀ l, tid.lookup = some l → s'.transaction.lookups.get l = none

theorem expires_tdbExpireItem
    (hmem : ti ∈ s.transaction.tids.list) (hget : s.transaction.tids.heap.get ti = some tid)
    (hexpired : isExpired s ti) :
    Expires s (tdbExpireItem conf s ti) ti ((announcedAt s ti).flatMap (appendedBy conf)) ∧
      ((announcedAt s ti).flatMap (appendedBy conf)).length ≤ 8 := by
  obtain ⟨s₁, happends, hlen, hitem⟩ := tdbExpireItem_of_expired conf hexpired
  have hlt := Heap.lt_fresh hget
  have hget₁ : s₁.transaction.tids.heap.get ti = some tid := by
    rw [happends.old ti hlt, hget]
  have howns : ∀ l, Owns s₁.transaction ti l ↔ Owns s.transaction ti l := by
    intro l
    rw [Owns, Owns, happends.old ti hlt]
  rw [hitem]
  refine ⟨⟨happends.now, ?_, ?_, ?_, ?_, happends.unused, ?_, happends.nodup, ?_, ?_⟩, hlen⟩
  · rw [list_tdbDel hget₁, happends.list, List.erase_append_left _ hmem]
  · rw [fresh_tids_tdbDel]
    exact happends.fresh
  · rw [TransactionInv.get_tdbDel hget₁, if_pos rfl]
  · intro q hq hne
    rw [TransactionInv.get_tdbDel hget₁, if_neg hne, happends.old q hq]
  · intro q hq
    have hne : q ≠ ti := Nat.ne_of_gt (hlt.trans_le (happends.unused q hq))
    rw [TransactionInv.get_tdbDel hget₁, if_neg hne]
    exact happends.engage q hq
  · intro l hl
    rw [get_lookups_tdbDel (mt (howns l).mp hl), happends.lookups]
  · intro tid' hget' htype l hlookup
    cases hget.symm.trans hget'
    exact get_lookups_tdbDel_self hget₁ htype hlookup

end Item

/-! ## The loop with a log of its announces -/

section Logged

variable {conf : Conf} {x : Main v × List (Ref × Main v)} {ti : Ref}

/-- The body of the loop, with the calls of `p2p_cron_announce` so far. -/
def loggedItem (conf : Conf) (x : Main v × List (Ref × Main v)) (ti : Ref) :
    Main v × List (Ref × Main v) :=
  (tdbExpireItem conf x.1 ti, x.2 ++ announcedAt x.1 ti)

/-- The list that the loop goes over. -/
def loggedList (x : Main v × List (Ref × Main v)) : List Ref :=
  x.1.transaction.tids.list

/-- `tdb_expire` with its calls of `p2p_cron_announce`. -/
def tdbExpireLogged (conf : Conf) (s : Main v) : Option (Main v × List (Ref × Main v)) :=
  Walk.walk loggedList (loggedItem conf) (9 * s.transaction.tids.list.length) (s, [])
    s.transaction.tids.list.head?

/-- The log does not change what the loop does. -/
theorem tdbExpireLoop_of_walk
    {rounds : Nat} {item : Option Ref} {x' : Main v × List (Ref × Main v)}
    (h : Walk.walk loggedList (loggedItem conf) rounds x item = some x') :
    tdbExpireLoop conf rounds x.1 item = .ok x'.1 := by
  induction rounds generalizing x item with
  | zero =>
      cases item with
      | none =>
          cases h
          rfl
      | some ti =>
          cases h
  | succ rounds ih =>
      cases item with
      | none =>
          cases h
          rfl
      | some ti =>
          exact ih h

theorem loggedItem_of_not_expired (hexpired : ¬ isExpired x.1 ti) : loggedItem conf x ti = x := by
  obtain ⟨hitem, hcall⟩ := tdbExpireItem_of_not_expired conf hexpired
  rw [loggedItem, hitem, hcall, List.append_nil]

/-- Each transaction is listed once, and exists. -/
def LiveList (x : Main v × List (Ref × Main v)) : Prop :=
  (loggedList x).Nodup ∧ ∀ ti ∈ loggedList x, x.1.transaction.tids.heap.Live ti

/-- The current transaction stays, or it is gone. -/
theorem loggedItem_cases (conf : Conf) (hx : LiveList x) (hmem : ti ∈ loggedList x) :
    ¬ isExpired x.1 ti ∧ loggedItem conf x ti = x ∨
      isExpired x.1 ti ∧
        Expires x.1 (loggedItem conf x ti).1 ti
          ((announcedAt x.1 ti).flatMap (appendedBy conf)) ∧
        ((announcedAt x.1 ti).flatMap (appendedBy conf)).length ≤ 8 := by
  by_cases hexpired : isExpired x.1 ti
  · obtain ⟨tid, hget⟩ := hx.2 ti hmem
    exact .inr ⟨hexpired, expires_tdbExpireItem hmem hget hexpired⟩
  · exact .inl ⟨hexpired, loggedItem_of_not_expired hexpired⟩

theorem liveList_loggedItem (hx : LiveList x) (hmem : ti ∈ loggedList x) :
    LiveList (loggedItem conf x ti) := by
  rcases loggedItem_cases conf hx hmem with ⟨-, hsame⟩ | ⟨-, hexpires, -⟩
  · rwa [hsame]
  have hlt : ∀ q ∈ loggedList x, q < x.1.transaction.tids.heap.fresh := by
    intro q hq
    obtain ⟨tid, hget⟩ := hx.2 q hq
    exact Heap.lt_fresh hget
  rw [LiveList, loggedList, hexpires.list]
  constructor
  · refine (hx.1.erase ti).append hexpires.nodup ?_
    intro q hq hnew
    exact absurd (hlt q (List.mem_of_mem_erase hq)) (Nat.not_lt.mpr (hexpires.unused q hnew))
  · intro q hq
    rcases List.mem_append.mp hq with hq | hq
    · obtain ⟨hne, hq⟩ := hx.1.mem_erase_iff.mp hq
      rw [Heap.Live, hexpires.old q (hlt q hq) hne]
      exact hx.2 q hq
    · obtain ⟨tid, hget, -⟩ := hexpires.engage q hq
      exact ⟨tid, hget⟩

/-- What the walk over the list of the transactions may do to it. -/
def expireWalk (conf : Conf) : Walk.SavedWalk loggedList (loggedItem (v := v) conf) 8 where
  inv := LiveList
  inert := fun x ti => ¬ isExpired x.1 ti
  nodup := fun hx => hx.1
  inv_body := liveList_loggedItem
  list_body := by
    intro x ti hx hmem
    rcases loggedItem_cases conf hx hmem with ⟨-, hsame⟩ | ⟨-, hexpires, hlen⟩
    · rw [hsame]
      exact ⟨[], Nat.zero_le _, List.forall_mem_nil _, .inl (List.append_nil _).symm⟩
    · refine ⟨_, hlen, ?_, .inr hexpires.list⟩
      intro q hq
      -- The new transaction has a minute left.
      obtain ⟨tid, hget, -, htime⟩ := hexpires.engage q hq
      have hleft : ¬ tid.time < (loggedItem conf x ti).1.now := by
        rw [htime, hexpires.now, timeAdd1Min]
        omega
      simp [isExpired, hget, hleft]
  body_inert := loggedItem_of_not_expired
  inert_body := by
    intro x ti q hx hmem hq hstays
    rcases loggedItem_cases conf hx hmem with ⟨-, hsame⟩ | ⟨hexpired, hexpires, -⟩
    · rwa [hsame]
    · have hne : q ≠ ti := by
        rintro rfl
        exact hstays hexpired
      obtain ⟨tid, hget⟩ := hx.2 q hq
      rwa [isExpired, hexpires.now, hexpires.old q (Heap.lt_fresh hget) hne]

end Logged

/-! ## The transactions in their order -/

section Progress

variable {conf : Conf} {s : Main v} {done todo : List Ref} {ti : Ref}
  {x : Main v × List (Ref × Main v)}

/-- The transaction and its lookup are as they were. -/
structure SameTid (s s' : Main v) (ti : Ref) : Prop where
  get : s'.transaction.tids.heap.get ti = s.transaction.tids.heap.get ti
  lookup : ∀ l, Owns s.transaction ti l →
    s'.transaction.lookups.get l = s.transaction.lookups.get l

/-- Some transactions of the list were dealt with, and these are to come. -/
structure Progress (conf : Conf) (s : Main v) (done todo : List Ref)
    (x : Main v × List (Ref × Main v)) : Prop where
  live : LiveList x
  now : x.1.now = s.now
  fresh : s.transaction.tids.heap.fresh ≤ x.1.transaction.tids.heap.fresh
  list : loggedList x =
    (done.filter fun ti => !isExpired s ti) ++ (todo ++ x.2.flatMap (appendedBy conf))
  kept : ∀ ti ∈ (done.filter fun ti => !isExpired s ti) ++ todo, SameTid s x.1 ti
  deleted : ∀ ti ∈ done, isExpired s ti →
    x.1.transaction.tids.heap.get ti = none ∧
      ∀ l, Owns s.transaction ti l → x.1.transaction.lookups.get l = none
  appended : ∀ ti ∈ x.2.flatMap (appendedBy conf),
    s.transaction.tids.heap.fresh ≤ ti ∧
      ∃ tid, x.1.transaction.tids.heap.get ti = some tid ∧
        tid.type = .announceEngage ∧ tid.time = timeAdd1Min s.now
  calls : x.2.map Prod.fst = done.filter (isExpiredStart s)
  lookup : ∀ call ∈ x.2, ∃ l lookup, s.lookupOf call.1 = some (l, lookup) ∧
    call.2.lookupOf call.1 = some (l, lookup)

namespace SameTid

theorem isExpired (h : SameTid s x.1 ti) (hnow : x.1.now = s.now) :
    isExpired x.1 ti = isExpired s ti := by
  rw [Torrentkino.isExpired, Torrentkino.isExpired, h.get, hnow]

theorem isExpiredStart (h : SameTid s x.1 ti) (hnow : x.1.now = s.now) :
    isExpiredStart x.1 ti = isExpiredStart s ti := by
  rw [Torrentkino.isExpiredStart, Torrentkino.isExpiredStart, h.get, hnow]

theorem owns_iff (h : SameTid s x.1 ti) (l : Ref) :
    Owns x.1.transaction ti l ↔ Owns s.transaction ti l := by
  rw [Owns, Owns, h.get]

end SameTid

theorem lookupOf_of_owns
    {l : Ref} {lookup : Lookup v} (howns : Owns s.transaction ti l)
    (hget : s.transaction.lookups.get l = some lookup) :
    s.lookupOf ti = some (l, lookup) := by
  obtain ⟨tid, htid, hlookup⟩ := howns
  simp [Main.lookupOf, tdbLdb, htid, hlookup, hget]

/-- A transaction that is to start an announce has a lookup until then. -/
theorem lookupOf_of_isExpiredStart
    (hs : TidList s.transaction) (hmem : ti ∈ s.transaction.tids.list)
    (hsame : SameTid s x.1 ti) (hstart : isExpiredStart s ti) :
    ∃ l lookup, s.lookupOf ti = some (l, lookup) ∧ x.1.lookupOf ti = some (l, lookup) := by
  obtain ⟨tid, hget⟩ := hs.live ti hmem
  have htype : tid.type = .announceStart := by
    rw [isExpiredStart, hget] at hstart
    simp only [Option.any_some, Bool.and_eq_true, decide_eq_true_eq] at hstart
    exact hstart.2
  obtain ⟨l, hlookup⟩ := (hs.owner_iff ti hmem tid hget).mp (.inr htype)
  have howns : Owns s.transaction ti l := ⟨tid, hget, hlookup⟩
  obtain ⟨lookup, hl⟩ := hs.lookup ti hmem l howns
  refine ⟨l, lookup, lookupOf_of_owns howns hl, ?_⟩
  refine lookupOf_of_owns ((hsame.owns_iff l).mpr howns) ?_
  rw [hsame.lookup l howns, hl]

namespace Progress

theorem init (hs : TidList s.transaction) :
    Progress conf s [] s.transaction.tids.list (s, []) where
  live := ⟨hs.nodup, hs.live⟩
  now := rfl
  fresh := Nat.le_refl _
  list := by simp [loggedList]
  kept := fun _ _ => ⟨rfl, fun _ _ => rfl⟩
  deleted := List.forall_mem_nil _
  appended := List.forall_mem_nil _
  calls := rfl
  lookup := List.forall_mem_nil _

/-- The next transaction is the current one of the list. -/
theorem mem_loggedList (h : Progress conf s done (ti :: todo) x) : ti ∈ loggedList x := by
  rw [h.list]
  simp

theorem same (h : Progress conf s done (ti :: todo) x) : SameTid s x.1 ti :=
  h.kept ti (by simp)

/-- The transaction stays. -/
theorem item_of_not_expired
    (h : Progress conf s done (ti :: todo) x) (hexpired : ¬ isExpired s ti) :
    Progress conf s (done ++ [ti]) todo x := by
  have hstart : ¬ isExpiredStart s ti := by
    intro hstart
    refine hexpired ?_
    rw [isExpired, Option.any_eq_true]
    rw [isExpiredStart, Option.any_eq_true] at hstart
    obtain ⟨tid, hget, htid⟩ := hstart
    exact ⟨tid, hget, (Bool.and_eq_true_iff.mp htid).1⟩
  have hkept : (done ++ [ti]).filter (fun ti => !isExpired s ti) =
      done.filter (fun ti => !isExpired s ti) ++ [ti] := by
    simp [hexpired]
  refine ⟨h.live, h.now, h.fresh, ?_, ?_, ?_, h.appended, ?_, h.lookup⟩
  · rw [h.list, hkept, List.append_assoc, List.singleton_append, List.cons_append]
  · rw [hkept, List.append_assoc, List.singleton_append]
    exact h.kept
  · intro q hq hover
    rcases List.mem_append.mp hq with hq | hq
    · exact h.deleted q hq hover
    · rw [List.mem_singleton.mp hq] at hover
      exact absurd hover hexpired
  · rw [h.calls, List.filter_append, List.filter_singleton]
    simp [hstart]

/-- A transaction that the walk has put at the end is not the current one, and stays as it is. -/
theorem get_of_expires
    {q : Ref} {new : List Ref} {s' : Main v} (hs : TidList s.transaction)
    (hexpires : Expires x.1 s' ti new) (hmem : ti ∈ s.transaction.tids.list)
    (h : Progress conf s done (ti :: todo) x) (hq : q ∈ x.2.flatMap (appendedBy conf)) :
    s'.transaction.tids.heap.get q = x.1.transaction.tids.heap.get q := by
  obtain ⟨tid, hget⟩ := hs.live ti hmem
  obtain ⟨hnew, tid', hget', -⟩ := h.appended q hq
  exact hexpires.old q (Heap.lt_fresh hget') (Nat.ne_of_gt ((Heap.lt_fresh hget).trans_le hnew))

/-- The lookup of another transaction is another one. -/
theorem not_owns_of_ne
    {q l : Ref} (hs : TidList s.transaction) (hmem : ti ∈ s.transaction.tids.list)
    (hsame : SameTid s x.1 ti) (hq : q ∈ s.transaction.tids.list) (hne : q ≠ ti)
    (hl : Owns s.transaction q l) :
    ¬ Owns x.1.transaction ti l := by
  intro hti
  exact hne (hs.unique q hq ti hmem l hl ((hsame.owns_iff l).mp hti))

/-- Another transaction of the list that was kept so far is kept. -/
theorem sameTid_of_expires
    {q : Ref} {new : List Ref} {s' : Main v} (hs : TidList s.transaction)
    (hexpires : Expires x.1 s' ti new) (hmem : ti ∈ s.transaction.tids.list)
    (hsame : SameTid s x.1 ti) (hq : q ∈ s.transaction.tids.list) (hne : q ≠ ti)
    (h : SameTid s x.1 q) :
    SameTid s s' q := by
  constructor
  · obtain ⟨tid, hget⟩ := hs.live q hq
    have hget' : x.1.transaction.tids.heap.get q = some tid := by rw [h.get, hget]
    rw [hexpires.old q (Heap.lt_fresh hget') hne, h.get]
  · intro l hl
    rw [hexpires.lookups l (not_owns_of_ne hs hmem hsame hq hne hl), h.lookup l hl]

/-- A transaction that was deleted remains so. -/
theorem deleted_of_expires
    {q : Ref} {new : List Ref} {s' : Main v} (hs : TidList s.transaction)
    (hexpires : Expires x.1 s' ti new) (hmem : ti ∈ s.transaction.tids.list)
    (hsame : SameTid s x.1 ti) (hq : q ∈ s.transaction.tids.list) (hne : q ≠ ti)
    (hfresh : s.transaction.tids.heap.fresh ≤ x.1.transaction.tids.heap.fresh)
    (h : x.1.transaction.tids.heap.get q = none ∧
      ∀ l, Owns s.transaction q l → x.1.transaction.lookups.get l = none) :
    s'.transaction.tids.heap.get q = none ∧
      ∀ l, Owns s.transaction q l → s'.transaction.lookups.get l = none := by
  constructor
  · obtain ⟨tid, hget⟩ := hs.live q hq
    rw [hexpires.old q ((Heap.lt_fresh hget).trans_le hfresh) hne, h.1]
  · intro l hl
    rw [hexpires.lookups l (not_owns_of_ne hs hmem hsame hq hne hl), h.2 l hl]

/-- The transaction is deleted, with its lookup. -/
theorem deleted_self
    {new : List Ref} {s' : Main v} (hs : TidList s.transaction)
    (hexpires : Expires x.1 s' ti new) (hmem : ti ∈ s.transaction.tids.list)
    (hsame : SameTid s x.1 ti) :
    s'.transaction.tids.heap.get ti = none ∧
      ∀ l, Owns s.transaction ti l → s'.transaction.lookups.get l = none := by
  refine ⟨hexpires.self, ?_⟩
  rintro l ⟨tid, hget, hlookup⟩
  have htype : tid.type.HasLookup := (hs.owner_iff ti hmem tid hget).mpr ⟨l, hlookup⟩
  have hget' : x.1.transaction.tids.heap.get ti = some tid := by rw [hsame.get, hget]
  exact hexpires.released tid hget' htype l hlookup

/-- The transaction is gone. -/
theorem item_of_expired
    (hs : TidList s.transaction) (hlist : s.transaction.tids.list = done ++ ti :: todo)
    (h : Progress conf s done (ti :: todo) x) (hexpired : isExpired s ti)
    (hexpires : Expires x.1 (loggedItem conf x ti).1 ti
      ((announcedAt x.1 ti).flatMap (appendedBy conf))) :
    Progress conf s (done ++ [ti]) todo (loggedItem conf x ti) := by
  obtain ⟨hmem, hin⟩ := hs.cut hlist
  have hkept : (done ++ [ti]).filter (fun ti => !isExpired s ti) =
      done.filter (fun ti => !isExpired s ti) := by
    simp [hexpired]
  have hstart := h.same.isExpiredStart h.now
  refine ⟨liveList_loggedItem h.live h.mem_loggedList, hexpires.now.trans h.now,
    h.fresh.trans hexpires.fresh, ?_, ?_, ?_, ?_, ?_, ?_⟩
  · have hfront : ti ∉ done.filter fun ti => !isExpired s ti := by
      intro hfront
      exact (hin ti (List.mem_append_left _ (List.mem_of_mem_filter hfront))).2 rfl
    have hx := h.list
    rw [loggedList] at hx
    rw [loggedList, hexpires.list, hx, hkept, List.erase_append_right _ hfront, List.cons_append,
      List.erase_cons_head, loggedItem, List.flatMap_append, List.append_assoc, List.append_assoc]
  · intro q hq
    rw [hkept] at hq
    have hold : SameTid s x.1 q := by
      refine h.kept q ?_
      rcases List.mem_append.mp hq with hq | hq
      · exact List.mem_append_left _ hq
      · exact List.mem_append_right _ (.tail _ hq)
    have hq' : q ∈ done ++ todo := by
      rcases List.mem_append.mp hq with hq | hq
      · exact List.mem_append_left _ (List.mem_of_mem_filter hq)
      · exact List.mem_append_right _ hq
    obtain ⟨hlisted, hne⟩ := hin q hq'
    exact sameTid_of_expires hs hexpires hmem h.same hlisted hne hold
  · intro q hq hover
    rcases List.mem_append.mp hq with hq | hq
    · obtain ⟨hlisted, hne⟩ := hin q (List.mem_append_left _ hq)
      exact deleted_of_expires hs hexpires hmem h.same hlisted hne h.fresh (h.deleted q hq hover)
    · rw [List.mem_singleton.mp hq]
      exact deleted_self hs hexpires hmem h.same
  · intro q hq
    rw [loggedItem, List.flatMap_append] at hq
    rcases List.mem_append.mp hq with hq | hq
    · rw [h.get_of_expires hs hexpires hmem hq]
      exact h.appended q hq
    · rw [← h.now]
      exact ⟨h.fresh.trans (hexpires.unused q hq), hexpires.engage q hq⟩
  · rw [loggedItem, List.map_append, h.calls, map_fst_announcedAt, List.filter_append,
      List.filter_singleton, List.filter_singleton, hstart]
  · intro call hcall
    rcases List.mem_append.mp hcall with hold | hnew
    · exact h.lookup call hold
    · obtain ⟨hover, rfl⟩ := mem_announcedAt.mp hnew
      rw [hstart] at hover
      exact lookupOf_of_isExpiredStart hs hmem h.same hover

/-- One round of the loop. -/
theorem item
    (hs : TidList s.transaction) (hlist : s.transaction.tids.list = done ++ ti :: todo)
    (h : Progress conf s done (ti :: todo) x) :
    Progress conf s (done ++ [ti]) todo (loggedItem conf x ti) := by
  have hsame := h.same.isExpired h.now
  rcases loggedItem_cases conf h.live h.mem_loggedList with ⟨hstays, hx⟩ | ⟨hover, hexpires, -⟩
  · rw [hsame] at hstays
    rw [hx]
    exact h.item_of_not_expired hstays
  · rw [hsame] at hover
    exact h.item_of_expired hs hlist hover hexpires

/-- All rounds. -/
theorem foldl
    (hs : TidList s.transaction) (hlist : s.transaction.tids.list = done ++ todo)
    (h : Progress conf s done todo x) :
    Progress conf s s.transaction.tids.list [] (todo.foldl (loggedItem conf) x) := by
  induction todo generalizing done x with
  | nil =>
      rw [hlist, List.append_nil]
      exact h
  | cons ti todo ih =>
      refine ih ?_ (h.item hs hlist)
      rw [hlist, List.append_assoc, List.singleton_append]

end Progress

/-- The loop is over. -/
structure ExpiresExactly (conf : Conf) (s s' : Main v) (calls : List (Ref × Main v)) : Prop where
  /-- The other transactions come first, in their order, and then those that were put. -/
  list : s'.transaction.tids.list =
    (s.transaction.tids.list.filter fun ti => !isExpired s ti) ++ calls.flatMap (appendedBy conf)
  kept : ∀ ti ∈ s.transaction.tids.list, isExpired s ti = false →
    s'.transaction.tids.heap.get ti = s.transaction.tids.heap.get ti ∧
      s'.lookupOf ti = s.lookupOf ti
  deleted : ∀ ti ∈ s.transaction.tids.list, isExpired s ti →
    s'.transaction.tids.heap.get ti = none ∧
      ∀ l, Owns s.transaction ti l → s'.transaction.lookups.get l = none
  appended : ∀ ti ∈ calls.flatMap (appendedBy conf),
    s.transaction.tids.heap.get ti = none ∧
      ∃ tid, s'.transaction.tids.heap.get ti = some tid ∧ tid.type = .announceEngage ∧
        s.now < tid.time
  /-- A call has put its transactions behind those of the list at that time. -/
  announced : ∀ call ∈ calls,
    (p2pCronAnnounce conf call.2 call.1).transaction.tids.list =
      call.2.transaction.tids.list ++ appendedBy conf call
  /-- One call for each transaction that was to start an announce, in their order. -/
  starts : calls.map Prod.fst = s.transaction.tids.list.filter (isExpiredStart s)
  /-- The lookup exists at the time of the call. -/
  lookup : ∀ call ∈ calls, ∃ l lookup, s.lookupOf call.1 = some (l, lookup) ∧
    call.2.lookupOf call.1 = some (l, lookup)

theorem lookupOf_of_sameTid
    {s' : Main v} (hs : TidList s.transaction) (hmem : ti ∈ s.transaction.tids.list)
    (h : SameTid s s' ti) : s'.lookupOf ti = s.lookupOf ti := by
  obtain ⟨tid, hget⟩ := hs.live ti hmem
  rw [Main.lookupOf, Main.lookupOf, tdbLdb, tdbLdb, h.get, hget]
  cases hlookup : tid.lookup with
  | none =>
      simp [hlookup]
  | some l =>
      simp [hlookup, h.lookup l ⟨tid, hget, hlookup⟩]

theorem Progress.expiresExactly
    (hs : TidList s.transaction) (h : Progress conf s s.transaction.tids.list [] x) :
    ExpiresExactly conf s x.1 x.2 where
  list := h.list
  kept := by
    intro ti hmem hstays
    have hsame : SameTid s x.1 ti := by
      refine h.kept ti (List.mem_append_left _ ?_)
      simp [hmem, hstays]
    exact ⟨hsame.get, lookupOf_of_sameTid hs hmem hsame⟩
  deleted := h.deleted
  appended := by
    intro ti hmem
    obtain ⟨hnew, tid, hget, htype, htime⟩ := h.appended ti hmem
    refine ⟨s.transaction.tids.heap.unused ti hnew, tid, hget, htype, ?_⟩
    rw [htime, timeAdd1Min]
    omega
  announced := fun call _ => (appends_announce conf call).1.list
  starts := h.calls
  lookup := h.lookup

/-- The walk ends, and it has done so. -/
theorem expiredExactly (conf : Conf) (hs : TidList s.transaction) :
    ∃ s' calls, tdbExpireLogged conf s = some (s', calls) ∧ tdbExpire conf s = .ok s' ∧
      ExpiresExactly conf s s' calls := by
  have hlive : LiveList (s, []) := ⟨hs.nodup, hs.live⟩
  have hwalk := (expireWalk conf).walk_eq_foldl hlive (Nat.le_refl _)
  have hprogress : Progress conf s s.transaction.tids.list []
      (s.transaction.tids.list.foldl (loggedItem conf) (s, [])) :=
    (Progress.init hs).foldl hs (List.nil_append _).symm
  exact ⟨_, _, hwalk, tdbExpireLoop_of_walk hwalk, hprogress.expiresExactly hs⟩

end Progress

/-- A lookup of one node, which has sent a token. -/
def tokenLookup : Lookup .ipv4 :=
  let sa := .ofQuad 10 0 0 2 (26, 225)
  ldbUpdate (ldbPut (ldbInit .zero none) .zero sa).2 .zero [7] sa

/-- A daemon with three transactions.  The time of the first two is over, and the first one is to
announce to that node. -/
def overdueMain : Main .ipv4 :=
  let s := mainInit 0 [] ⟨fun _ => 0, UInt8.ofNat⟩ []
  let put := s.tdbPut .announceStart
  let s := { put.2 with transaction := tdbLinkLdb put.2.transaction put.1.1 tokenLookup }
  let s := (s.tdbPut .ping).2
  ({ s with p2p := { s.p2p with timeNow := 61 } }.tdbPut .findNode).2

/-- The last one stays, and the announce comes behind it. -/
theorem expiredExactly_overdueMain :
    ∃ s' calls, tdbExpireLogged onesConf overdueMain = some (s', calls) ∧
      tdbExpire onesConf overdueMain = .ok s' ∧ ExpiresExactly onesConf overdueMain s' calls ∧
      overdueMain.transaction.tids.list = [0, 1, 2] ∧ s'.transaction.tids.list = [2, 3] := by
  have hinv : TransactionInv overdueMain.transaction := by
    refine TransactionInv.tdbPut ?_ (by decide +kernel) _ (by simp [TidType.HasLookup])
    refine TransactionInv.tdbPut ?_ (by decide +kernel) _ (by simp [TidType.HasLookup])
    exact TransactionInv.link .init (by decide +kernel) _ (.inr rfl) _
  obtain ⟨s', calls, hlogged, hrun, hexpires⟩ := expiredExactly onesConf hinv.tidList
  have hlist : (tdbExpire onesConf overdueMain).map (fun s => s.transaction.tids.list) =
      .ok [2, 3] := by
    decide +kernel
  rw [hrun] at hlist
  exact ⟨s', calls, hlogged, hrun, hexpires, by decide +kernel, Except.ok.inj hlist⟩

end Torrentkino
