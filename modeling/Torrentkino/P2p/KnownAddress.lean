import Torrentkino.P2p.TableAddresses

/-!
# The address of a known node

`p2p_request` remembers the sender of a query with `nbhd_put`, and its comment says
that this does not update the address.  For an identifier that is in the table
`nbhd_put` calls `node_update`, which does.

**Results.**
* `addressOf_nbhdPut`: what `nbhd_put` does to the address of a known node.
* `known_address_kept_iff`: which queries leave the addresses of all known nodes as
  they are.
-/

namespace Torrentkino

open Memory Simulation

variable {v : Build}

/-- The address that is stored for an identifier. -/
def addressOf (t : Nbhd v) (id : NodeId) : Option (Ip v) :=
  ((hashGet t.hash id.bytes).bind t.heap.get).map UdpNode.cAddr

/-- The known nodes keep their addresses. -/
def AddressesKept (t t' : Nbhd v) : Prop :=
  ∀ id sa, addressOf t id = some sa → addressOf t' id = some sa

section Table

variable {t : Nbhd v} {me id : NodeId} {sa : Ip v}

theorem addressOf_eq_some :
    addressOf t id = some sa ↔
      ∃ r n, hashGet t.hash id.bytes = some r ∧ t.heap.get r = some n ∧ n.cAddr = sa := by
  simp only [addressOf, Option.map_eq_some_iff, Option.bind_eq_some_iff]
  constructor
  · rintro ⟨n, ⟨r, hr, hget⟩, haddr⟩
    exact ⟨r, n, hr, hget, haddr⟩
  · rintro ⟨r, n, hr, hget, haddr⟩
    exact ⟨n, ⟨r, hr, hget⟩, haddr⟩

/-- The node with the identifier moves to the address; the other ones stay. -/
theorem addressOf_nbhdPut
    (h : NbhdInv t) (hme : nodeMe me id = false) (hhost : ipIsLocalhost sa = false)
    {other : NodeId} {a : Ip v} (hother : addressOf t other = some a) :
    addressOf (nbhdPut me t id sa) other = some (if other = id then sa else a) := by
  obtain ⟨r, n, hr, hget, rfl⟩ := addressOf_eq_some.mp hother
  have hmem := (h.hash_iff _ _).mp hr
  have hfresh := h.ne_fresh hmem.1
  rw [nbhdPut, hme, hhost]
  simp only [Bool.false_eq_true, if_false]
  cases hknown : hashGet t.hash id.bytes with
  | some q =>
      dsimp only
      rw [addressOf_eq_some]
      by_cases heq : other = id
      · subst heq
        cases hknown.symm.trans hr
        refine ⟨r, nodeUpdate n sa, hr, ?_, by rw [if_pos rfl]; rfl⟩
        rw [Heap.get_modify_self, hget]
        rfl
      · have hne : r ≠ q := by
          rintro rfl
          obtain ⟨-, n₁, hget₁, hid₁⟩ := hmem
          obtain ⟨-, n₂, hget₂, hid₂⟩ := (h.hash_iff _ _).mp hknown
          cases hget₁.symm.trans hget₂
          exact heq (NodeId.bytes_inj (hid₁.symm.trans hid₂))
        exact ⟨r, n, hr, by rw [Heap.get_modify_of_ne _ _ hne, hget], by rw [if_neg heq]⟩
  | none =>
      have hne : other ≠ id := by
        rintro rfl
        rw [hknown] at hr
        cases hr
      rw [if_neg hne]
      dsimp only
      split
      · -- There is no room for the new node.
        exact addressOf_eq_some.mpr ⟨r, n, hr,
          by rw [Heap.get_free_of_ne _ hfresh, Heap.get_alloc_of_ne _ _ hfresh, hget], rfl⟩
      · refine addressOf_eq_some.mpr ⟨r, n, ?_, Heap.get_alloc_of_get _ hget, rfl⟩
        have hkey : other.bytes ≠ (nodeInit id sa).id.bytes :=
          fun hkey => hne (NodeId.bytes_inj hkey)
        dsimp only
        rw [hashGet_hashPut, if_neg hkey]
        exact hr

end Table

/-! ## Queries -/

section Queries

variable {conf : Conf} {s s' : Main v}

/-- The handlers of the queries leave the table alone. -/
theorem nbhd_handleRequest
    {id : NodeId} {tid : Bytes} {sa : Ip v} {request : Request}
    (h : handleRequest conf s id tid sa request = .ok s') : s'.nbhd = s.nbhd := by
  cases request with
  | ping =>
      cases h
      rfl
  | findNode target =>
      cases h
      simp only [p2pFindNodeGetRequest]
      split <;> rfl
  | getPeers infoHash =>
      simp only [handleRequest, p2pGetPeersGetRequest] at h
      split at h
      · rw [sendGetPeersValues] at h
        split at h
        · cases h
        · cases h
          rfl
      split at h
      · rw [sendGetPeersNodes] at h
        split at h
        · cases h
        · cases h
          rfl
      · cases h
        rfl
  | announce infoHash token port =>
      cases h
      rfl

/-- A query that gets past the first checks puts its sender into the table, and does
nothing else to it. -/
theorem nbhd_p2pRequest
    {behind : Bytes} {packet : Ben} {sa : Ip v}
    (h : p2pRequest conf behind s packet sa = .ok s') :
    (∃ e, requestHead conf.nodeId packet = .error e) ∧ s'.nbhd = s.nbhd ∨
      ∃ head, requestHead conf.nodeId packet = .ok head ∧
        s'.nbhd = nbhdPut conf.nodeId s.nbhd head.id sa := by
  rw [p2pRequest] at h
  split at h
  · rename_i e hhead
    cases h
    exact .inl ⟨⟨e, hhead⟩, rfl⟩
  · rename_i head hhead
    refine .inr ⟨head, hhead, ?_⟩
    dsimp only at h
    split at h
    · cases h
      rfl
    · exact nbhd_handleRequest h

/-- The daemon when `p2p_parse` hands a datagram over. -/
def Main.atTime (s : Main v) (now : Int) : Main v :=
  { s with sent := [], p2p := { s.p2p with timeNow := now } }

/-- A query leaves the addresses of the known nodes as they are if it is dropped in
front of `nbhd_put`, or comes from the own host, or its identifier is new, or it comes
from the address that is stored for the identifier; every other one moves the node. -/
theorem known_address_kept_iff
    {now : Int} {identity : List Identity} {rnd : Random} {names : Bytes}
    {events : List (Event v)}
    (hrun : run (daemonStep conf) (mainInit now identity rnd names) events = .ok s)
    {time : Int} {behind : Bytes} {packet : Ben} {sa : Ip v}
    (hrequest : p2pRequest conf behind (s.atTime time) packet sa = .ok s') :
    AddressesKept s.nbhd s'.nbhd ↔
      ∀ head, requestHead conf.nodeId packet = .ok head →
        ipIsLocalhost sa = true ∨ ∀ a, addressOf s.nbhd head.id = some a → a = sa := by
  have hinv := nbhdInv_run hrun
  rcases nbhd_p2pRequest hrequest with ⟨⟨e, hhead⟩, hnbhd⟩ | ⟨head, hhead, hnbhd⟩
  · rw [hnbhd, hhead]
    exact iff_of_true (fun _ _ h => h) nofun
  · have hme := (requestHead_eq_ok hhead).1
    change s'.nbhd = nbhdPut conf.nodeId s.nbhd head.id sa at hnbhd
    rw [hnbhd]
    cases hhost : ipIsLocalhost sa with
    | true =>
        refine iff_of_true ?_ fun _ _ => .inl rfl
        rw [nbhdPut, hme, hhost]
        exact fun _ _ h => h
    | false =>
        constructor
        · intro hkept head' hhead'
          cases hhead.symm.trans hhead'
          refine .inr fun a ha => ?_
          have hmoved := addressOf_nbhdPut hinv hme hhost ha
          rw [if_pos rfl, hkept _ _ ha] at hmoved
          exact Option.some.inj hmoved
        · intro hsame id a ha
          rw [addressOf_nbhdPut hinv hme hhost ha]
          split
          · rename_i hid
            subst hid
            rcases hsame head hhead with hfalse | haddr
            · cases hfalse
            · rw [haddr a ha]
          · rfl

end Queries

/-! ## A node that moves -/

/-- The sender of the first query. -/
def firstSender : Ip .ipv4 :=
  .ofQuad 10 0 0 9 (26, 225)

/-- Somebody else. -/
def secondSender : Ip .ipv4 :=
  .ofQuad 10 0 0 10 (26, 225)

/-- A node has pinged this one. -/
def pingedRun : List (Event .ipv4) :=
  [.p2p 1 [] (benEncRec (pingDict .zero [0, 0, 0, 1])) firstSender]

/-- The state behind that ping. -/
def pingedMain : Except Fault (Main .ipv4) :=
  run (daemonStep onesConf) (mainInit 0 [] ⟨fun _ => 0, UInt8.ofNat⟩ []) pingedRun

/-- A ping with the same identifier. -/
def pingAgain (s : Main .ipv4) (sa : Ip .ipv4) : Except Fault (Main .ipv4) :=
  p2pRequest onesConf [] (s.atTime 2) (pingDict .zero [0, 0, 0, 2]) sa

theorem known_address_kept_iff_pinged :
    ∃ s s', pingedMain = .ok s ∧ pingAgain s firstSender = .ok s' ∧
      (AddressesKept s.nbhd s'.nbhd ↔
        ∀ head, requestHead onesConf.nodeId (pingDict .zero [0, 0, 0, 2]) = .ok head →
          ipIsLocalhost firstSender = true ∨
            ∀ a, addressOf s.nbhd head.id = some a → a = firstSender) := by
  have hdone : ((pingedMain.bind fun s => pingAgain s firstSender).map fun _ => ()) = .ok () := by
    decide +kernel
  obtain ⟨s', hs', -⟩ := map_eq_ok hdone
  obtain ⟨s, hs, hrequest⟩ := bind_eq_ok hs'
  exact ⟨s, s', hs, hrequest, known_address_kept_iff hs hrequest⟩

/-- A ping under a known identifier moves the node to its sender. -/
theorem known_address_kept_fails :
    ¬ ∀ (conf : Conf) (now : Int) (identity : List Identity) (rnd : Random) (names : Bytes)
      (events : List (Event .ipv4)) (s s' : Main .ipv4),
      run (daemonStep conf) (mainInit now identity rnd names) events = .ok s →
      ∀ (time : Int) (behind : Bytes) (packet : Ben) (sa : Ip .ipv4),
        p2pRequest conf behind (s.atTime time) packet sa = .ok s' →
          AddressesKept s.nbhd s'.nbhd := by
  intro h
  have hfirst : pingedMain.map (fun s => addressOf s.nbhd .zero) = .ok (some firstSender) := by
    decide +kernel
  have hsecond : (pingedMain.bind fun s => pingAgain s secondSender).map
      (fun s => addressOf s.nbhd .zero) = .ok (some secondSender) := by
    decide +kernel
  obtain ⟨s, hs, hknown⟩ := map_eq_ok hfirst
  obtain ⟨s', hs', hmoved⟩ := map_eq_ok hsecond
  rw [hs] at hs'
  have hrequest : pingAgain s secondSender = .ok s' := hs'
  have hkept := h onesConf 0 [] _ [] pingedRun s s' hs 2 [] _ secondSender hrequest _ _ hknown
  rw [hkept] at hmoved
  exact absurd hmoved (by decide)

end Torrentkino
