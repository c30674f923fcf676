import Torrentkino.Shr.Config

/-!
# `shr/ip.c`

Socket addresses.  Of `struct sockaddr_in` and `struct sockaddr_in6` the model
keeps the address and the port; the remaining fields (family, flow information,
scope) are constant or never looked at.
-/

namespace Torrentkino

open Memory

/-- `IP`: the address and the port, both in network byte order. -/
structure Ip (v : Build) where
  addr : Bytes
  port : UInt8 × UInt8
  addr_length : addr.length = v.ipSize
deriving DecidableEq, Repr

/-- The four bytes of an IPv4 address, and the port. -/
def Ip.ofQuad (a b c d : UInt8) (port : UInt8 × UInt8) : Ip .ipv4 where
  addr := [a, b, c, d]
  port := port
  addr_length := rfl

section Ip

variable {v : Build}

/-- The address of the loopback interface. -/
def localhost : Build → Bytes
  | .ipv4 => [0x7f, 0, 0, 1]
  | .ipv6 => [0, 0, 0, 0, 0, 0, 0, 0, 0, 0, 0, 0, 0, 0, 0, 1]

/-- `ip_is_localhost` -/
def ipIsLocalhost (sin : Ip v) : Bool :=
  sin.addr = localhost v

/-- `ip_is_linklocal`: the prefix `fe80::/64`; there is none with IPv4. -/
def ipIsLinklocal (sin : Ip v) : Bool :=
  match v with
  | .ipv4 => false
  | .ipv6 => sin.addr.take 8 = [0xfe, 0x80, 0, 0, 0, 0, 0, 0]

theorem length_copy_ipSize (v : Build) (mem : Mem) (p : Nat) :
    (copy mem p v.ipSize).length = v.ipSize :=
  copy_length p v.ipSize

/-- `ip_tuple_to_sin` -/
def ipTupleToSin (v : Build) (mem : Mem) (p : Nat) : Ip v where
  addr := copy mem p v.ipSize
  port := (mem (p + v.ipSize), mem (p + v.ipSize + 1))
  addr_length := length_copy_ipSize v mem p

/-- `ip_sin_to_tuple` -/
def ipSinToTuple (sin : Ip v) : Bytes :=
  sin.addr ++ [sin.port.1, sin.port.2]

/-- `ip_merge_port_to_sin` -/
def ipMergePortToSin (sin : Ip v) (port : Nat) : Ip v :=
  { sin with port := (UInt8.ofNat (port / 256), UInt8.ofNat port) }

/-- `ip_sin_to_port` -/
def ipSinToPort (sin : Ip v) : Nat :=
  sin.port.1.toNat * 256 + sin.port.2.toNat

theorem length_ipSinToTuple (sin : Ip v) :
    (ipSinToTuple sin).length = v.ipSizeMetaPair := by
  simp [ipSinToTuple, sin.addr_length, Build.ipSizeMetaPair_eq]

/-- `UCHAR pair[IP_SIZE_META_PAIR]`: an entry of a compact list of values. -/
structure Pair (v : Build) where
  bytes : Bytes
  length_eq : bytes.length = v.ipSizeMetaPair
deriving DecidableEq, Repr

/-- The pair that `ip_sin_to_tuple` writes. -/
def Ip.pair (sin : Ip v) : Pair v :=
  ⟨ipSinToTuple sin, length_ipSinToTuple sin⟩

/-- `IP_SIZE_META_PAIR` bytes of memory. -/
def Pair.ofMem (v : Build) (mem : Mem) (p : Nat) : Pair v :=
  ⟨copy mem p v.ipSizeMetaPair, copy_length p v.ipSizeMetaPair⟩

/-- A pair in memory reads back as the address it was written from. -/
theorem ipTupleToSin_of_holds
    {mem : Mem} {p : Nat} {sin : Ip v}
    (h : Holds mem p (ipSinToTuple sin)) :
    ipTupleToSin v mem p = sin := by
  obtain ⟨haddr, h₁, h₂, -⟩ := (holds_append sin.addr _ p).mp h
  have hcopy := copy_of_holds haddr
  rw [sin.addr_length] at hcopy h₁ h₂
  cases sin
  simp only [ipTupleToSin, hcopy, h₁, h₂]

/-- The port that was merged in, as far as it fits 16 bits. -/
theorem ipSinToPort_ipMergePortToSin (sin : Ip v) (port : Nat) :
    ipSinToPort (ipMergePortToSin sin port) = port % 65536 := by
  simp [ipSinToPort, ipMergePortToSin]
  omega

/-- Merging in the port an address has already changes nothing. -/
theorem ipMergePortToSin_eq_self_iff (sin : Ip v) (port : Nat) :
    ipMergePortToSin sin port = sin ↔ ipSinToPort sin = port % 65536 := by
  constructor
  · intro h
    rw [← h, ipSinToPort_ipMergePortToSin]
  · intro h
    have h₁ : UInt8.ofNat (port / 256) = sin.port.1 := by
      rw [← UInt8.toNat_inj]
      have := sin.port.1.toNat_lt
      have := sin.port.2.toNat_lt
      simp [ipSinToPort] at h ⊢
      omega
    have h₂ : UInt8.ofNat port = sin.port.2 := by
      rw [← UInt8.toNat_inj]
      have := sin.port.1.toNat_lt
      have := sin.port.2.toNat_lt
      simp [ipSinToPort] at h ⊢
      omega
    cases sin
    simp_all [ipMergePortToSin]

end Ip
end Torrentkino
