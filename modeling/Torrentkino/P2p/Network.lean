import Torrentkino.P2p.Aes

/-!
# Networks of daemons

Many daemons that send each other datagrams.  The network may lose, repeat, delay and
reorder what was sent, and anything may come from outside.

**Result.** `run_aesNet`: a network of daemons that share a key goes through the same states
as a network without encryption.
-/

namespace Torrentkino

open Memory Simulation Network

/-- A host with a daemon: its configuration, the address that others see, and what it finds at
its start.  The address is not the one of the own host, from which packets are taken
without encryption. -/
structure Peer (v : Build) where
  conf : Conf
  addr : Ip v
  started : Int
  identity : List Identity
  rnd : Random
  names : Bytes
  port_ok : 1 ≤ conf.announcePort ∧ conf.announcePort ≤ 65535
  remote : ipIsLocalhost addr = false

/-- The circumstances of a delivery: the clock of the receiver, what lies behind a token
on its heap, and the salts that it finds for its answers.  They are a part of
`/dev/urandom` of their own, beside the random source in the state. -/
structure Circumstances where
  now : Int
  behind : Bytes
  salts : Nat → Salt

section Network

variable {ι : Type} {v : Build}

/-- The state of a host at its start. -/
def Peer.init (peer : Peer v) : Main v :=
  mainInit peer.started peer.identity peer.rnd peer.names

/-- What goes to other daemons. -/
def p2pSent (sent : List (Sent v)) : List (Datagram v) :=
  sent.filterMap fun
    | .p2p d => some d
    | .dns _ _ => none

theorem mem_p2pSent {sent : List (Sent v)} {d : Datagram v} :
    d ∈ p2pSent sent ↔ .p2p d ∈ sent := by
  rw [p2pSent, List.mem_filterMap]
  constructor
  · rintro ⟨sent, hmem, hsome⟩
    cases sent with
    | p2p d' =>
        cases hsome
        exact hmem
    | dns _ _ =>
        cases hsome
  · intro hmem
    exact ⟨_, hmem, rfl⟩

/-- A daemon reacts. -/
def react (peers : ι → Peer v) (i : ι) (s : Main v) (e : Event v) :
    Except Fault (Main v × List (Datagram v)) :=
  (daemonStep (peers i).conf s e).map fun s' => (s', p2pSent s'.sent)

/-- The ciphertexts of some messages. -/
def sendAll (ssl : Polarssl) (key : Option Bytes) (salts : Nat → Salt) (ds : List (Datagram v)) :
    List (Datagram v) :=
  ds.zipIdx.filterMap fun d => sendRaw ssl key (salts d.2) d.1

/-- A daemon of the build with encryption reacts. -/
def reactAes (ssl : Polarssl) (key : Option Bytes) (peers : ι → Peer v) (i : ι) (s : Main v)
    (a : Event v × (Nat → Salt)) : Except AesFault (Main v × List (Datagram v)) :=
  (daemonStepAes ssl key (peers i).conf s a.1).map fun s' =>
    (s', sendAll ssl key a.2 (p2pSent s'.sent))

/-- A datagram arrives with the address of its sender. -/
def arrive (peers : ι → Peer v) (c : Circumstances) (packet : ι × Datagram v) : Event v :=
  .p2p c.now c.behind packet.2.raw (peers packet.1).addr

def arriveAes (peers : ι → Peer v) (c : Circumstances) (packet : ι × Datagram v) :
    Event v × (Nat → Salt) :=
  (arrive peers c packet, c.salts)

/-- All daemons have just been started. -/
def netInit (peers : ι → Peer v) : Net ι (Main v) (Datagram v) :=
  ⟨fun i => (peers i).init, []⟩

/-- What was sent is what the key makes of what a daemon without a key would have sent. -/
def SentAs (ssl : Polarssl) (key : Option Bytes) (packet packet' : ι × Datagram v) : Prop :=
  packet.1 = packet'.1 ∧ ∃ salt, sendRaw ssl key salt packet'.2 = some packet.2

variable {ssl : Polarssl} {key : Option Bytes} {peers : ι → Peer v}

/-- A message of this peer. -/
def OfPeer (peers : ι → Peer v) (i : ι) (d : Datagram v) : Prop :=
  ∃ m : Message v, d.raw = m.raw (peers i).conf.nodeId

/-- With a key or without one, a message can be sent. -/
theorem exists_sendRaw
    (hssl : ssl.Documented) (salt : Salt) {i : ι} {d : Datagram v} (hd : OfPeer peers i d) :
    ∃ d', sendRaw ssl key salt d = some d' := by
  obtain ⟨m, hm⟩ := hd
  obtain ⟨addr, raw⟩ := d
  cases hm
  cases key with
  | none =>
      exact ⟨_, rfl⟩
  | some key =>
      obtain ⟨aes, -, hsend⟩ := exists_seals hssl key salt (peers i).conf.nodeId m addr
      exact ⟨_, hsend⟩

/-- The receiver does with the one what another one does with the other. -/
theorem daemonStepAes_arrive
    (hssl : ssl.Documented) {salt : Salt} {j : ι} {d d' : Datagram v} (hd : OfPeer peers j d)
    (hsend : sendRaw ssl key salt d = some d') (c : Circumstances) (conf : Conf) (s : Main v) :
    daemonStepAes ssl key conf s (arrive peers c (j, d')) =
      (daemonStep conf s (arrive peers c (j, d))).mapError .daemon := by
  obtain ⟨m, hm⟩ := hd
  obtain ⟨addr, raw⟩ := d
  cases hm
  cases key with
  | none =>
      cases hsend
      exact daemonStepAes_eq s _
  | some key =>
      obtain ⟨aes, hseals, hsend'⟩ := exists_seals hssl key salt (peers j).conf.nodeId m addr
      cases hsend'.symm.trans hsend
      exact p2pParseAes_sealed hseals (peers j).remote

/-- All messages are sent. -/
theorem forall₂_sendAll
    (hssl : ssl.Documented) (salts : Nat → Salt) (i : ι) {ds : List (Datagram v)}
    (hds : ∀ d ∈ ds, OfPeer peers i d) :
    List.Forall₂ (fun d' d => OfPeer peers i d ∧ ∃ salt, sendRaw ssl key salt d = some d')
      (sendAll ssl key salts ds) ds := by
  rw [sendAll]
  generalize 0 = n
  induction ds generalizing n with
  | nil =>
      exact .nil
  | cons d ds ih =>
      have hd := hds d List.mem_cons_self
      obtain ⟨d', hd'⟩ := exists_sendRaw hssl (salts n) hd
      simp only [List.zipIdx_cons, List.filterMap_cons]
      rw [hd']
      exact .cons ⟨hd, salts n, hd'⟩
        (ih (fun d hmem => hds d (List.mem_cons_of_mem _ hmem)) (n + 1))

/-- From a sound state a daemon sends messages. -/
theorem react_ok
    {i : ι} {s s' : Main v} {e : Event v} (hsound : s.Sound (.any v))
    (h : daemonStep (peers i).conf s e = .ok s') :
    s'.Sound (.any v) ∧ ∀ d ∈ p2pSent s'.sent, OfPeer peers i d := by
  obtain ⟨hsound', hsays⟩ := hsound.step (peers i).port_ok e.credible_any h
  refine ⟨hsound', fun d hd => ?_⟩
  obtain ⟨m, hm, -⟩ := hsays _ (mem_p2pSent.mp hd)
  exact ⟨m, hm⟩

/-- Daemons of the two builds, in the same state, react alike. -/
theorem reactAlike_aes (hssl : ssl.Documented) :
    ReactAlike (reactAes ssl key peers) (react peers) AesFault.daemon
      (fun _ s t => s = t ∧ t.Sound (.any v))
      (fun i d' d => OfPeer peers i d ∧ ∃ salt, sendRaw ssl key salt d = some d')
      (fun i a e => ∀ s, daemonStepAes ssl key (peers i).conf s a.1 =
        (daemonStep (peers i).conf s e).mapError .daemon) := by
  rintro i s _ a e ⟨rfl, hsound⟩ hevent
  rw [reactAes, react, hevent]
  cases hstep : daemonStep (peers i).conf s e with
  | error e =>
      exact .error e
  | ok s' =>
      obtain ⟨hsound', hds⟩ := react_ok hsound hstep
      exact .ok ⟨⟨rfl, hsound'⟩, forall₂_sendAll hssl a.2 i hds⟩

/-- In every run of a network of daemons that share a key, none of which has the localhost
address, whatever is lost, repeated, delayed or comes from outside, all daemons are in the
states that they would have in the network without encryption, and each packet is what the
key makes of the packet there.  What goes wrong in one network goes wrong in the other. -/
theorem run_aesNet
    [DecidableEq ι] (hssl : ssl.Documented) (key : Option Bytes) (peers : ι → Peer v)
    (ops : List (NetOp ι (Event v × (Nat → Salt)) Circumstances)) :
    Related AesFault.daemon
      (fun n n' => n.nodes = n'.nodes ∧ List.Forall₂ (SentAs ssl key) n.wire n'.wire)
      (run (netStep (reactAes ssl key peers) (arriveAes peers)) (netInit peers) ops)
      (run (netStep (react peers) (arrive peers)) (netInit peers)
        (ops.map (NetOp.map fun a => openEvent ssl key a.1))) := by
  have hinit : ∀ i, (netInit peers).nodes i = (netInit peers).nodes i ∧
      ((netInit peers).nodes i).Sound (.any v) :=
    fun i => ⟨rfl, sound_mainInit (fun _ _ => trivial) _ _ _⟩
  refine (run_net_related (reactAlike_aes hssl) ?_ ?_ ⟨hinit, .nil⟩).mono ?_
  · rintro i c ⟨j, d'⟩ ⟨_, d⟩ ⟨rfl, hd, salt, hsend⟩ s
    exact daemonStepAes_arrive hssl hd hsend c (peers i).conf s
  · rw [List.forall₂_map_right_iff]
    refine List.forall₂_same.mpr fun op _ => ?_
    cases op with
    | input i a => exact .input fun s => daemonStepAes_eq s a.1
    | deliver i place c => exact .deliver i place c
  · rintro n n' ⟨hnodes, hwire⟩
    exact ⟨funext fun i => (hnodes i).1, hwire.imp fun packet packet' h => ⟨h.1, h.2.2⟩⟩

end Network

/-- Two daemons that announce a port. -/
def twoPeers (i : Bool) : Peer .ipv4 where
  conf := if i then { onesConf with nodeId := .zero } else onesConf
  addr := if i then .ofQuad 10 0 0 2 (26, 225) else .ofQuad 10 0 0 1 (26, 225)
  started := 0
  identity := []
  rnd := ⟨fun _ => 0, UInt8.ofNat⟩
  names := []
  port_ok := by cases i <;> decide
  remote := by cases i <;> decide

/-- The first daemon gets a ping from a third one, and its pong goes astray. -/
def strayPong : List (NetOp Bool (Event .ipv4 × (Nat → Salt)) Circumstances) :=
  [.input false (.p2p 0 [] (benEncRec (aesDict pingCipher zeroSalt.bytes))
      (.ofQuad 10 0 0 9 (26, 225)), fun _ => zeroSalt),
    .deliver true 0 ⟨0, [], fun _ => zeroSalt⟩]

theorem run_aesNet_strayPong :
    keyPolarssl.Documented ∧
      Related AesFault.daemon
        (fun n n' => n.nodes = n'.nodes ∧
          List.Forall₂ (SentAs keyPolarssl (some (cstr "key"))) n.wire n'.wire)
        (run (netStep (reactAes keyPolarssl (some (cstr "key")) twoPeers) (arriveAes twoPeers))
          (netInit twoPeers) strayPong)
        (run (netStep (react twoPeers) (arrive twoPeers)) (netInit twoPeers)
          (strayPong.map (NetOp.map fun a => openEvent keyPolarssl (some (cstr "key")) a.1))) :=
  ⟨documented_keyPolarssl, run_aesNet documented_keyPolarssl _ twoPeers strayPong⟩

end Torrentkino
