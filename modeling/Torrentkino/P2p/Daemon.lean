import Torrentkino.Lib.Simulation
import Torrentkino.P2p.Cron

/-!
# The daemon

The functions of `resolver.c` that depend on the state, and the events of the
daemon: a datagram on one of its two sockets, and a tick of the clock.
-/

namespace Torrentkino

open Memory

section Daemon

variable {v : Build}

/-- `id_hostid` -/
def idHostid (conf : Conf) (hostname : Bytes) : NodeId :=
  let id := conf.sha1Hash hostname
  if conf.boolRealm then
    { bytes := List.zipWith (· ^^^ ·) id.bytes (conf.sha1Hash conf.realm).bytes
      length_eq := by simp [NodeId.length_eq] }
  else id

/-- `r_lookup_remote` -/
def rLookupRemote (conf : Conf) (s : Main v) (target : NodeId) (type : TidType)
    (sa : Ip v) (msg : DnsMsg) : Main v :=
  startLookup conf s target type (some (sa, msg))

/-- `r_lookup`: the cache, then the local database, then a remote search. -/
def rLookup (conf : Conf) (s : Main v) (hostname : Bytes) (sa : Ip v) (msg : DnsMsg) :
    Except Fault (Main v) :=
  let target := idHostid conf hostname
  let cached := cacheCompactList s.now s.cache target
  let s := { s with cache := cached.2 }
  if cached.1 ≠ [] then s.rSuccess none sa msg cached.1
  else
    let known := valCompactPairs s.value target
    if known ≠ [] then s.rSuccess none sa msg known
    else .ok (rLookupRemote conf s target .getPeers sa msg)

/-- `r_parse` -/
def Main.rParse (conf : Conf) (s : Main v) (mem : Mem) (bufsize : Nat) (sa : Ip v) :
    Except Fault (Main v) :=
  let parsed := Torrentkino.rParse s.names mem bufsize sa
  let s := { s with names := parsed.2 }
  match parsed.1 with
  | .drop _ => .ok s
  | .lookup msg => rLookup conf s (nameAt s.names msg.question.qName) sa msg
  | .failure msg =>
      .ok { s with sent := s.sent ++ [.dns ⟨sa, (rFailure s.names msg).out⟩ none] }

/-- What the daemon reacts to.  `behind` is what happens to lie behind a token
on the heap, and `resolved` what `getaddrinfo` would find. -/
inductive Event (v : Build) where
  | dns (datagram : Bytes) (sa : Ip v)
  | p2p (now : Int) (behind datagram : Bytes) (sa : Ip v)
  | cron (now : Int) (resolved : List (List (Ip v)))

/-- What `udp_input` receives of a datagram on the peer-to-peer socket. -/
def received (datagram : Bytes) : Raw :=
  ⟨buffer (datagram.take udpBuf) [], (datagram.take udpBuf).length⟩

/-- One event.  `udp_input` receives at most `UDP_BUF` bytes into a cleared
buffer.  The datagrams that were sent before are forgotten. -/
def daemonStep (conf : Conf) (s : Main v) (e : Event v) : Except Fault (Main v) :=
  let s := { s with sent := [] }
  match e with
  | .dns datagram sa =>
      let datagram := datagram.take udpBuf
      s.rParse conf (buffer datagram []) datagram.length sa
  | .p2p now behind datagram sa =>
      let datagram := datagram.take udpBuf
      p2pParse conf behind now s ⟨buffer datagram [], datagram.length⟩ sa
  | .cron now resolved => p2pCron conf now resolved s

end Daemon
end Torrentkino
