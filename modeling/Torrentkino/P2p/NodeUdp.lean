import Torrentkino.Lib.BigEndian
import Torrentkino.Shr.Ip

/-!
# `p2p/node_udp.c`

The nodes of the routing table.  Identifiers of nodes and targets are strings of
20 bytes; their order is that of the 160-bit numbers they spell.

The functions that note a time take it as an argument: it is what
`time_add_5_min_approx` computes from the clock and a random jitter.
-/

namespace Torrentkino

open Memory BigEndian

/-- `UCHAR id[SHA1_SIZE]` -/
structure NodeId where
  bytes : Bytes
  length_eq : bytes.length = sha1Size
deriving DecidableEq, Repr

namespace NodeId

/-- The number an identifier spells. -/
def toNat (id : NodeId) : Nat :=
  beNat id.bytes

/-- The identifier in which all bytes are the same. -/
def all (b : UInt8) : NodeId := ⟨List.replicate sha1Size b, by simp⟩

/-- The identifier of 20 zero bytes. -/
def zero : NodeId := ⟨List.replicate sha1Size 0, by simp⟩

@[simp] theorem toNat_zero : zero.toNat = 0 := by
  simp [zero, toNat]

theorem toNat_lt (id : NodeId) : id.toNat < 2 ^ 160 := by
  have h := beNat_lt id.bytes
  rw [id.length_eq] at h
  calc id.toNat < 256 ^ sha1Size := h
    _ = 2 ^ 160 := by decide

theorem bytes_inj {a b : NodeId} (h : a.bytes = b.bytes) : a = b := by
  cases a
  cases b
  simp_all

/-- `memcmp(a, b, SHA1_SIZE) < 0` -/
def lt (a b : NodeId) : Bool :=
  memcmpLt a.bytes b.bytes

theorem lt_iff (a b : NodeId) : a.lt b = true ↔ a.toNat < b.toNat :=
  memcmpLt_iff (a.length_eq.trans b.length_eq.symm)

/-- An identifier from a string of the right length. -/
def ofBytes? (b : Bytes) : Option NodeId :=
  if h : b.length = sha1Size then some ⟨b, h⟩ else none

theorem ofBytes?_bytes (id : NodeId) : ofBytes? id.bytes = some id := by
  simp [ofBytes?, id.length_eq]

end NodeId

/-- `UDP_NODE` -/
structure UdpNode (v : Build) where
  id : NodeId
  cAddr : Ip v
  timePing : Int
  timeFind : Int
  pinged : Nat
deriving DecidableEq, Repr

section Node

variable {v : Build}

/-- `node_init`, which ends in `node_update`. -/
def nodeInit (id : NodeId) (sa : Ip v) : UdpNode v where
  id := id
  cAddr := sa
  timePing := 0
  timeFind := 0
  pinged := 0

/-- `node_update` -/
def nodeUpdate (n : UdpNode v) (sa : Ip v) : UdpNode v :=
  { n with cAddr := sa }

/-- `node_me` -/
def nodeMe (me id : NodeId) : Bool :=
  id = me

/-- `node_ok` -/
def nodeOk (n : UdpNode v) : Bool :=
  n.pinged ≤ 1

/-- `node_bad` -/
def nodeBad (n : UdpNode v) : Bool :=
  n.pinged ≥ 4

/-- `node_pinged` -/
def nodePinged (n : UdpNode v) (time : Int) : UdpNode v :=
  { n with pinged := n.pinged + 1, timePing := time }

/-- `node_ponged` -/
def nodePonged (n : UdpNode v) (sa : Ip v) (time : Int) : UdpNode v :=
  nodeUpdate { n with pinged := 0, timePing := time } sa

@[simp] theorem nodeUpdate_id (n : UdpNode v) (sa : Ip v) :
    (nodeUpdate n sa).id = n.id := rfl

@[simp] theorem nodePinged_id (n : UdpNode v) (time : Int) :
    (nodePinged n time).id = n.id := rfl

@[simp] theorem nodePonged_id (n : UdpNode v) (sa : Ip v) (time : Int) :
    (nodePonged n sa time).id = n.id := rfl

end Node
end Torrentkino
