import Torrentkino.Dns.Dns
import Torrentkino.P2p.NodeUdp
import Torrentkino.P2p.Token
import Torrentkino.Shr.Str

/-!
# `p2p/lookup.c`

A lookup keeps the nodes that were asked for a target, the nearest one first,
and the DNS query that it answers, if there is one.

Of that query the address and the message are copied, but the names of the
message stay references into the buffer of `r_parse`.
-/

namespace Torrentkino

open Memory

/-- `NODE_L`; the token has at most `TOKEN_SIZE_MAX` bytes. -/
structure NodeL (v : Build) where
  id : NodeId
  cAddr : Ip v
  token : Bytes
deriving DecidableEq, Repr

/-- `LOOKUP` -/
structure Lookup (v : Build) where
  target : NodeId
  nodes : Table (NodeL v)
  cAddr : Ip v
  msg : DnsMsg
  sendResponseToInitiator : Bool
  numberOfDnsResponses : Nat

section Lookup

variable {v : Build}

/-- A cleared `IP`. -/
def Ip.zero (v : Build) : Ip v where
  addr := List.replicate v.ipSize 0
  port := (0, 0)
  addr_length := by simp

/-- `ldb_init`; without a query `from` and `msg` are null pointers. -/
def ldbInit (target : NodeId) (query : Option (Ip v × DnsMsg)) : Lookup v where
  target := target
  nodes := .init 1000 (by decide)
  cAddr := match query with
    | some (sa, _) => sa
    | none => Ip.zero v
  msg := match query with
    | some (_, msg) => msg
    | none => default
  sendResponseToInitiator := query.isSome
  numberOfDnsResponses := 0

/-- A listed node that is farther from the target. -/
def ldbFarther (l : Lookup v) (id : NodeId) (r : Ref) : Bool :=
  (l.nodes.heap.get r).any fun n =>
    strSha1Compare id.bytes n.id.bytes l.target.bytes < 0

/-- The position where `ldb_put` inserts the node. -/
def ldbPosition (l : Lookup v) (id : NodeId) : Nat :=
  l.nodes.list.findIdx (ldbFarther l id)

/-- `ldb_put`: the position of the new node, and the lookup with it. -/
def ldbPut (l : Lookup v) (id : NodeId) (sa : Ip v) : Nat × Lookup v :=
  if l.nodes.list.length ≥ 32767 then (32767, l)
  else
    let i := ldbPosition l id
    let n := { id := id, cAddr := sa, token := [] }
    (i, { l with nodes := l.nodes.insert i id.bytes n })

/-- `ldb_find` -/
def ldbFind (l : Lookup v) (id : NodeId) : Option Ref :=
  l.nodes.find id.bytes

/-- `ldb_update` -/
def ldbUpdate (l : Lookup v) (id : NodeId) (token : Bytes) (sa : Ip v) : Lookup v :=
  match l.nodes.find id.bytes with
  | none => l
  | some r =>
      { l with
        nodes := l.nodes.modify r fun n => { n with cAddr := sa, token := token } }

/-- `ldb_number_of_dns_responses`: the number so far, and the lookup with the
next one counted.  The counter is an `int`, far from its limit in the minute
that a lookup lives. -/
def ldbNumberOfDnsResponses (l : Lookup v) : Nat × Lookup v :=
  (l.numberOfDnsResponses, { l with numberOfDnsResponses := l.numberOfDnsResponses + 1 })

end Lookup
end Torrentkino
