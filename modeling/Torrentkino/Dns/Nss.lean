import Torrentkino.Dns.Client

/-!
# `nss/nss.c`

The name service switch of the system hands the name of a host to the client where it
stands, in the memory of the program that asks.  `ChangetoDnsNameFormat` appends a dot to
it there, in spite of the `const`.

A lookup reports the memory of the caller, the query it hands to `sendto`, and its result.
The terminating zero byte and what stands behind it belong to that memory.

**Results.**
* `hostnameChecks_appendDot`: with the dot, the name does not pass the checks any more.
* `nssTkAnswer_again`: so the lookup fails when it is repeated with the same memory.
* `hostname_kept_iff`: the name stays as it is only if there is no socket.
-/

namespace Torrentkino

open Memory CString

/-- `NSS_DOMAIN` -/
def nssDomain : Bytes :=
  cstr "p2p"

/-! ## `ngethostbyname` -/

/-- What `ngethostbyname` gets from the system. -/
structure NssEnv where
  /-- `socket` succeeds. -/
  socket : Bool
  pid : Nat
  /-- What stands in `buf` before it is written to. -/
  stack : Mem
  /-- `sendto` succeeds. -/
  sendto : Bool
  /-- What `recvfrom` stores. -/
  datagram : Option Bytes

/-- What a lookup leaves behind. -/
structure NssLookup (α : Type) where
  /-- The memory of the caller, from the name of the host on. -/
  hostname : Bytes
  query : Option Bytes
  result : Except ClientFault α

/-- `strcat(host, ".")`: the terminating zero byte moves on. -/
def appendDot (host : Bytes) : Bytes :=
  splice host (strlen host) ['.'.toUInt8, 0]

/-- `ngethostbyname`: the number of the addresses, and the addresses. -/
def ngethostbyname (v : Build) (env : NssEnv) (host : Bytes) : NssLookup (Nat × Bytes) :=
  if env.socket then
    let (buf, query) := ngethostbynameQuery env.stack env.pid (cString host) v.addrRecordType
    { hostname := appendDot host
      query := some query
      result :=
        match env.sendto, env.datagram with
        | true, some datagram => ngethostbynameAnswer v buf datagram
        | _, _ => .ok (0, []) }
  else
    { hostname := host
      query := none
      result := .ok (0, []) }

/-! ## The entries -/

/-- `enum nss_status`, for a lookup that failed -/
inductive NssStatus where
  | tryagain
  | notfound
deriving DecidableEq, Repr

/-- `*errnop` -/
inductive Errno where
  | enoent
  | enomem
deriving DecidableEq, Repr

/-- `*h_errnop` -/
inductive HErrno where
  | hostNotFound
  | noRecovery
deriving DecidableEq, Repr

/-- An entry, or what is reported instead. -/
inductive NssResult (α : Type) where
  | success (entry : α)
  | failure (status : NssStatus) (errno : Errno) (hErrno : HErrno)
deriving DecidableEq, Repr

/-- `struct hostent`; there are no aliases. -/
structure Hostent where
  name : Bytes
  addrtype : Build
  length : Nat
  addrList : List Bytes
deriving DecidableEq, Repr

/-- `struct gaih_addrtuple`, of which the list is made -/
structure GaihAddrtuple where
  name : Bytes
  family : Build
  addr : Bytes
  scopeid : Nat
deriving DecidableEq, Repr

/-- The checks on the name. -/
def hostnameValid (hostname : Bytes) (hostsize : Nat) : Bool :=
  strValidHostname (hostname.take hostsize) &&
    strValidTld (cString hostname) hostsize nssDomain

/-- The addresses that `address` consists of. -/
def addressesOf (v : Build) (result : Nat) (address : Bytes) : List Bytes :=
  (List.range result).map fun j => (address.drop (j * v.ipSize)).take v.ipSize

/-- What the two lookups have in common: `total` is the space that they need for so many
addresses, and `fill` makes the entry from them. -/
def nssTkAnswer {α : Type} (v : Build) (env : NssEnv) (buflen : Nat) (total : Nat → Nat)
    (fill : Bytes → List Bytes → α) (hostname : Bytes) (hostsize : Nat) :
    NssLookup (NssResult α) :=
  if hostnameValid hostname hostsize then
    let lookup := ngethostbyname v env hostname
    { hostname := lookup.hostname
      query := lookup.query
      result := lookup.result.map fun (result, address) =>
        if result = 0 then .failure .notfound .enoent .hostNotFound
        else if buflen < total result then .failure .tryagain .enomem .noRecovery
        else .success (fill (lookup.hostname.take hostsize) (addressesOf v result address)) }
  else
    { hostname := hostname
      query := none
      result := .ok (.failure .notfound .enoent .hostNotFound) }

/-- `_nss_tk_hostent`, with pointers of eight bytes -/
def nssTkHostent (v : Build) (buflen : Nat) (env : NssEnv) (hostname : Bytes) (hostsize : Nat) :
    NssLookup (NssResult Hostent) :=
  nssTkAnswer v env buflen
    (fun result => (hostsize + 1) + 8 + result * v.ipSize + (result + 1) * 8)
    (fun name addrs => { name := name, addrtype := v, length := v.ipSize, addrList := addrs })
    hostname hostsize

/-- `_nss_tk_gaih_tuple`, with tuples of forty bytes -/
def nssTkGaihTuple (v : Build) (buflen : Nat) (env : NssEnv) (hostname : Bytes) (hostsize : Nat) :
    NssLookup (NssResult (List GaihAddrtuple)) :=
  nssTkAnswer v env buflen
    (fun result => (hostsize + 1) + result * 40)
    (fun name addrs =>
      addrs.map fun addr => { name := name, family := v, addr := addr, scopeid := 0 })
    hostname hostsize

/-- `_nss_tk_gethostbyname3_r` -/
def nssTkGethostbyname3R (v : Build) (buflen : Nat) (env : NssEnv) (hostname : Bytes) :
    NssLookup (NssResult Hostent) :=
  nssTkHostent v buflen env hostname (strlen hostname)

/-- `_nss_tk_gethostbyname4_r` -/
def nssTkGethostbyname4R (v : Build) (buflen : Nat) (env : NssEnv) (hostname : Bytes) :
    NssLookup (NssResult (List GaihAddrtuple)) :=
  nssTkGaihTuple v buflen env hostname (strlen hostname)

/-- The checks, as the entries of the library make them. -/
def hostnameChecks (hostname : Bytes) : Bool :=
  hostnameValid hostname (strlen hostname)

/-- A lookup leaves the name, its zero byte and the byte behind that alone, and when it is
repeated with the same memory it makes the same checks and sends the same query. -/
structure HostnameKept {α : Type} (lookup : NssEnv → Bytes → NssLookup α) (env : NssEnv)
    (hostname : Bytes) : Prop where
  kept : ∀ i ≤ strlen hostname + 1, (lookup env hostname).hostname[i]? = hostname[i]?
  checks : hostnameChecks (lookup env hostname).hostname = hostnameChecks hostname
  query : ∀ env' : NssEnv, env'.socket = env.socket → env'.pid = env.pid →
    (lookup env' (lookup env hostname).hostname).query = (lookup env hostname).query

/-! ## The dot -/

theorem cString_appendDot (host : Bytes) :
    cString (appendDot host) = cString host ++ ['.'.toUInt8] := by
  have hdot : (0 : UInt8) ∉ cString host ++ ['.'.toUInt8] := by
    rw [List.mem_append]
    exact fun h => h.elim (zero_not_mem_cString host) (by decide)
  rw [appendDot, splice, take_strlen, List.append_assoc, List.cons_append, List.cons_append,
    ← List.singleton_append, ← List.append_assoc, List.nil_append, cString_append_zero,
    cString_eq_self hdot]

/-- There is nothing behind the last dot. -/
theorem tldLoop_dot {fuel : Nat} {s : Bytes} (hfuel : s.length < fuel) :
    tldLoop fuel (s ++ ['.'.toUInt8]) = [] := by
  induction fuel generalizing s with
  | zero =>
      cases hfuel
  | succ fuel ih =>
      rw [tldLoop]
      cases hcut : cutAt '.'.toUInt8 (s ++ ['.'.toUInt8]) with
      | none =>
          exact absurd (List.mem_append_right s (List.mem_singleton_self _)) (cutAt_eq_none.mp hcut)
      | some p =>
          obtain ⟨u, w⟩ := p
          have hsplit := (cutAt_eq_some.mp hcut).1
          have hlen := congrArg List.length hsplit
          rw [List.length_append, List.length_append, List.length_singleton, List.length_cons] at hlen
          rcases List.eq_nil_or_concat' w with rfl | ⟨w, c, rfl⟩
          · cases fuel <;> rfl
          · have hlast := congrArg List.getLast? hsplit
            rw [← List.cons_append, ← List.append_assoc, List.getLast?_concat,
              List.getLast?_concat] at hlast
            rw [List.length_append, List.length_singleton] at hlen
            cases hlast
            exact ih (by omega)

/-- With the dot, the name does not pass the checks any more. -/
theorem hostnameChecks_appendDot (host : Bytes) : hostnameChecks (appendDot host) = false := by
  have htld : tldLoop (cString (appendDot host)).length (cString (appendDot host)) = [] := by
    rw [cString_appendDot]
    exact tldLoop_dot (by rw [List.length_append, List.length_singleton]; omega)
  rw [hostnameChecks, hostnameValid, strValidTld, htld]
  simp only [nssDomain, Bool.and_eq_false_imp]
  intro _
  split
  · rfl
  · decide

theorem getElem?_appendDot (host : Bytes) : (appendDot host)[strlen host]? = some '.'.toUInt8 := by
  have hlen : (host.take (strlen host)).length = strlen host := by
    rw [List.length_take]
    exact Nat.min_eq_left (cString_length_le host)
  rw [appendDot, splice, List.append_assoc, List.getElem?_append_right (Nat.le_of_eq hlen), hlen,
    Nat.sub_self]
  rfl

theorem getElem?_strlen_ne (host : Bytes) : host[strlen host]? ≠ some '.'.toUInt8 := by
  rw [strlen]
  induction host with
  | nil =>
      exact Option.some_ne_none _ ∘ Eq.symm
  | cons c host ih =>
      rcases eq_or_ne c 0 with rfl | hc
      · rw [cString_zero_cons, List.length_nil, List.getElem?_cons_zero]
        decide
      · rw [cString_cons_of_ne host hc, List.length_cons, List.getElem?_cons_succ]
        exact ih

/-! ## Lookups -/

section Lookup

variable {α : Type} {v : Build} {env : NssEnv} {buflen : Nat} {total : Nat → Nat}
variable {fill : Bytes → List Bytes → α} {hostname : Bytes}

theorem nssTkAnswer_hostname (hvalid : hostnameChecks hostname = true) :
    (nssTkAnswer v env buflen total fill hostname (strlen hostname)).hostname =
      if env.socket then appendDot hostname else hostname := by
  rw [hostnameChecks] at hvalid
  rw [nssTkAnswer, if_pos hvalid, ngethostbyname]
  split <;> rfl

/-- Without a socket there is no query. -/
theorem nssTkAnswer_query_none (hsocket : env.socket = false) (hostsize : Nat) :
    (nssTkAnswer v env buflen total fill hostname hostsize).query = none := by
  rw [nssTkAnswer, ngethostbyname, hsocket]
  split <;> rfl

/-- A name that does not pass the checks is not looked up. -/
theorem nssTkAnswer_of_not_valid {hostsize : Nat} (hvalid : hostnameValid hostname hostsize = false) :
    nssTkAnswer v env buflen total fill hostname hostsize =
      { hostname := hostname
        query := none
        result := .ok (.failure .notfound .enoent .hostNotFound) } := by
  rw [nssTkAnswer, hvalid]
  rfl

/-- When a query was built, the lookup cannot be repeated with the same memory. -/
theorem nssTkAnswer_again (hvalid : hostnameChecks hostname = true) (hsocket : env.socket = true)
    (env' : NssEnv) :
    let after := (nssTkAnswer v env buflen total fill hostname (strlen hostname)).hostname
    (nssTkAnswer v env' buflen total fill after (strlen after)).result =
      .ok (.failure .notfound .enoent .hostNotFound) := by
  dsimp only
  rw [nssTkAnswer_hostname hvalid, if_pos hsocket,
    nssTkAnswer_of_not_valid (hostnameChecks_appendDot hostname)]

end Lookup

/-- What holds of both lookups. -/
theorem hostnameKept_iff_socket
    {α : Type} {lookup : NssEnv → Bytes → NssLookup α} {env : NssEnv} {hostname : Bytes}
    (hhostname : (lookup env hostname).hostname =
      if env.socket then appendDot hostname else hostname)
    (hquery : ∀ (env : NssEnv) (hostname : Bytes),
      env.socket = false → (lookup env hostname).query = none) :
    HostnameKept lookup env hostname ↔ env.socket = false := by
  constructor
  · intro h
    by_contra hsocket
    rw [if_pos (Bool.eq_true_of_not_eq_false hsocket)] at hhostname
    have hsame := h.kept (strlen hostname) (Nat.le_succ _)
    rw [hhostname, getElem?_appendDot] at hsame
    exact getElem?_strlen_ne hostname hsame.symm
  · intro hsocket
    have hsame : (lookup env hostname).hostname = hostname := by
      rw [hhostname, hsocket]
      rfl
    constructor
    · intro i _
      rw [hsame]
    · rw [hsame]
    · intro env' hsocket' _
      rw [hquery env _ hsocket, hquery env' _ (hsocket'.trans hsocket)]

/-- Every lookup of a name that passes the checks overwrites its end, unless there is no
socket. -/
theorem hostname_kept_iff (v : Build) (buflen : Nat) {hostname : Bytes}
    (hvalid : hostnameChecks hostname = true) (env : NssEnv) :
    (HostnameKept (nssTkGethostbyname3R v buflen) env hostname ↔ env.socket = false) ∧
      (HostnameKept (nssTkGethostbyname4R v buflen) env hostname ↔ env.socket = false) :=
  ⟨hostnameKept_iff_socket (nssTkAnswer_hostname hvalid)
      fun _ hostname hsocket => nssTkAnswer_query_none hsocket (strlen hostname),
    hostnameKept_iff_socket (nssTkAnswer_hostname hvalid)
      fun _ hostname hsocket => nssTkAnswer_query_none hsocket (strlen hostname)⟩

/-- The shortest name, and a byte behind it. -/
def shortestHost : Bytes :=
  cstr "x.p2p" ++ [0, 7]

/-- A daemon that does not answer. -/
def silentDaemon : NssEnv where
  socket := true
  pid := 1
  stack := fun _ => 0
  sendto := true
  datagram := none

theorem hostname_kept_iff_shortestHost :
    (HostnameKept (nssTkGethostbyname3R .ipv4 1024) silentDaemon shortestHost ↔
        silentDaemon.socket = false) ∧
      (HostnameKept (nssTkGethostbyname4R .ipv4 1024) silentDaemon shortestHost ↔
        silentDaemon.socket = false) :=
  hostname_kept_iff .ipv4 1024 (by decide +kernel) silentDaemon

/-- The zero byte behind the name becomes a dot. -/
theorem hostname_kept_fails :
    ¬ ∀ (v : Build) (buflen : Nat) (hostname : Bytes) (env : NssEnv),
      hostnameChecks hostname = true →
        HostnameKept (nssTkGethostbyname3R v buflen) env hostname ∧
          HostnameKept (nssTkGethostbyname4R v buflen) env hostname := by
  intro h
  have hkept := (h .ipv4 1024 shortestHost silentDaemon (by decide +kernel)).1.kept 5
    (by decide +kernel)
  exact absurd hkept (by decide +kernel)

end Torrentkino
