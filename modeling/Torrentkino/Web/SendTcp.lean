import Torrentkino.Web.Http

/-!
# `web/send_tcp.c`

The loops that send the queue.  What `send` and `sendfile` return is given by a
`Socket`: for the number of the call and the number of bytes it is asked to
send.  While the server runs nothing bounds the loops but these results, so they come
with a number of rounds after which the model gives up.

**Results.**
* `httpSend_accepting`: a socket that takes everything gets the whole queue, and
  the mode of the last request decides whether the connection stays open.
-/

namespace Torrentkino

open Memory CString

/-- The result of `send` or `sendfile`. -/
inductive IoResult where
  | bytes (k : Nat)
  | again
  | error
deriving DecidableEq, Repr

/-- What the calls return.  At most as many bytes are sent as asked for. -/
abbrev Socket := Nat → Nat → IoResult

/-- A socket that always accepts all data. -/
def acceptAll : Socket := fun _ todo => .bytes todo

/-- A connection with the server it belongs to, and the bytes that went over
it. -/
structure Conn where
  srv : Server
  node : TcpNode
  calls : Nat
  sent : Bytes

/-- The ways in which the server gives up, and a loop that did not end. -/
inductive WebFault where
  | notReady
  | notOpen
  | looping
deriving DecidableEq, Repr

/-- `node_status` on a connection. -/
def Conn.status (c : Conn) (status : Pipeline) : Conn :=
  { c with node := nodeStatus c.node status }

/-- The connection after a call that has sent `data`, with a new queue. -/
def Conn.wrote (c : Conn) (data : Bytes) (response : List Response) : Conn :=
  { c with
    node := { c.node with response := response }
    calls := c.calls + 1
    sent := c.sent ++ data }

section Send

variable (host : Host) (socket : Socket)

/-- `send_mem`, on the first part of the queue. -/
def sendMem (buf : Bytes) (list : List Response) : Nat → Nat → Conn → Except WebFault Conn
  | 0, _, _ => .error .looping
  | fuel + 1, offset, c =>
      match socket c.calls (buf.length - offset) with
      | .again => .ok (c.wrote [] (.memory buf offset :: list))
      | .error => .ok ((c.wrote [] (.memory buf offset :: list)).status .shutdown)
      | .bytes k =>
          let data := (buf.drop offset).take k
          let offset := offset + data.length
          if offset ≥ buf.length then .ok (c.wrote data list)
          else sendMem buf list fuel offset (c.wrote data (.memory buf offset :: list))

/-- `send_file`, on the first part of the queue. -/
def sendFile (filename : Bytes) (fStop : Nat) (list : List Response) :
    Nat → Nat → Conn → Except WebFault Conn
  | 0, _, _ => .error .looping
  | fuel + 1, fOffset, c =>
      match host.files filename with
      | none => .error .notOpen
      | some stat =>
          let todo := fStop + 1 - fOffset
          match socket c.calls todo with
          | .again => .ok (c.wrote [] (.file filename fOffset fStop :: list))
          | .error => .ok ((c.wrote [] (.file filename fOffset fStop :: list)).status .shutdown)
          | .bytes k =>
              let data := (stat.content.drop fOffset).take (min k todo)
              let fOffset := fOffset + data.length
              if fOffset > fStop then .ok (c.wrote data list)
              else
                sendFile filename fStop list fuel fOffset
                  (c.wrote data (.file filename fOffset fStop :: list))

/-- The loop of `send_data`. -/
def sendLoop (fuel : Nat) : Nat → Conn → Except WebFault Conn
  | 0, _ => .error .looping
  | rounds + 1, c =>
      match c.node.response with
      | [] => .ok (c.status .sendStop)
      | r :: list => do
          let c ← match r with
            | .memory buf offset => sendMem socket buf list fuel offset c
            | .file filename fOffset fStop => sendFile host socket filename fStop list fuel fOffset c
          if c.node.pipeline = .shutdown then .ok c else sendLoop fuel rounds c

/-- `send_data` -/
def sendData (fuel : Nat) (c : Conn) : Except WebFault Conn :=
  if c.node.pipeline = .sendData then sendLoop host socket fuel fuel c else .ok c

/-- `send_cork_start` -/
def sendCorkStart (c : Conn) : Conn :=
  if c.node.pipeline = .sendInit then c.status .sendData else c

/-- `send_cork_stop` -/
def sendCorkStop (c : Conn) : Conn :=
  if c.node.pipeline = .sendStop then
    match c.node.keepalive with
    | .keepalive => c.status .ready
    | _ => c.status .shutdown
  else c

/-- `send_tcp`, whose cases fall through. -/
def sendTcp (fuel : Nat) (c : Conn) : Except WebFault Conn :=
  match c.node.pipeline with
  | .sendInit => (sendData host socket fuel (sendCorkStart c)).map sendCorkStop
  | .sendData => (sendData host socket fuel c).map sendCorkStop
  | .sendStop => .ok (sendCorkStop c)
  | _ => .ok c

/-- `http_send` -/
def httpSend (fuel : Nat) (c : Conn) : Except WebFault Conn :=
  if c.node.pipeline = .shutdown then .ok c
  else sendTcp host socket fuel (c.status .sendInit)

end Send

/-! ## A socket that takes everything -/

/-- The part exists, and something of it is left. -/
def Response.Sendable (host : Host) : Response → Prop
  | .memory _ _ => True
  | .file filename fOffset fStop =>
      ∃ stat, host.files filename = some stat ∧ fOffset ≤ fStop ∧ fStop < stat.content.length

/-- What is left of the part. -/
def Response.bytes (host : Host) : Response → Bytes
  | .memory buf offset => buf.drop offset
  | .file filename fOffset fStop =>
      match host.files filename with
      | none => []
      | some stat => (stat.content.drop fOffset).take (fStop + 1 - fOffset)

section Accepting

variable {host : Host} {fuel : Nat}

theorem sendMem_accepting
    (buf : Bytes) (list : List Response) (offset : Nat) (c : Conn) :
    sendMem acceptAll buf list (fuel + 1) offset c = .ok (c.wrote (buf.drop offset) list) := by
  have hdata : (buf.drop offset).take (buf.length - offset) = buf.drop offset :=
    List.take_of_length_le (by simp)
  have hdone : offset + (buf.drop offset).length ≥ buf.length := by
    rw [List.length_drop]
    omega
  simp only [sendMem, acceptAll, hdata]
  rw [if_pos hdone]

theorem sendFile_accepting
    {filename : Bytes} {fOffset fStop : Nat} {stat : Stat} (list : List Response) (c : Conn)
    (hfile : host.files filename = some stat) (hle : fOffset ≤ fStop)
    (hlt : fStop < stat.content.length) :
    sendFile host acceptAll filename fStop list (fuel + 1) fOffset c =
      .ok (c.wrote ((stat.content.drop fOffset).take (fStop + 1 - fOffset)) list) := by
  have hlen : ((stat.content.drop fOffset).take (fStop + 1 - fOffset)).length =
      fStop + 1 - fOffset := by
    rw [List.length_take, List.length_drop]
    omega
  simp only [sendFile, hfile, acceptAll, Nat.min_self, hlen]
  rw [if_pos (by omega)]

/-- The loop empties the queue. -/
theorem sendLoop_accepting
    {rounds : Nat} {c : Conn} (hstate : c.node.pipeline ≠ .shutdown)
    (hsendable : ∀ r ∈ c.node.response, r.Sendable host)
    (hrounds : c.node.response.length < rounds) :
    ∃ calls, sendLoop host acceptAll (fuel + 1) rounds c =
      .ok { srv := c.srv
            node := { c.node with response := [], pipeline := .sendStop }
            calls := calls
            sent := c.sent ++ c.node.response.flatMap (·.bytes host) } := by
  obtain ⟨srv, ⟨recvBuf, recv_le, mode, pipeline, response⟩, calls, sent⟩ := c
  dsimp only at hstate hsendable hrounds ⊢
  induction response generalizing rounds calls sent with
  | nil =>
      obtain ⟨rounds, rfl⟩ := Nat.exists_eq_add_of_lt hrounds
      exact ⟨calls, by simp [sendLoop, Conn.status, nodeStatus]⟩
  | cons r list ih =>
      obtain ⟨rounds, rfl⟩ : ∃ k, rounds = k + 1 := ⟨rounds - 1, by omega⟩
      have hr := hsendable r (List.mem_cons_self ..)
      obtain ⟨calls', hrest⟩ := @ih rounds (calls + 1) (sent ++ r.bytes host)
        (fun r' hr' => hsendable r' (List.mem_cons_of_mem r hr')) (by
          rw [List.length_cons] at hrounds
          omega)
      refine ⟨calls', ?_⟩
      rw [List.flatMap_cons, ← List.append_assoc, ← hrest, sendLoop]
      cases r with
      | memory buf offset =>
          simp only [sendMem_accepting]
          exact if_neg hstate
      | file filename fOffset fStop =>
          obtain ⟨stat, hfile, hle, hlt⟩ := hr
          simp only [sendFile_accepting list _ hfile hle hlt, Response.bytes, hfile]
          exact if_neg hstate

/-- A socket that takes everything gets the whole queue. -/
theorem httpSend_accepting
    {c : Conn} (hstate : c.node.pipeline = .ready)
    (hsendable : ∀ r ∈ c.node.response, r.Sendable host)
    (hfuel : c.node.response.length < fuel) :
    ∃ calls, httpSend host acceptAll fuel c =
      .ok { srv := c.srv
            node := { c.node with
              response := []
              pipeline := if c.node.keepalive = .keepalive then .ready else .shutdown }
            calls := calls
            sent := c.sent ++ c.node.response.flatMap (·.bytes host) } := by
  obtain ⟨fuel, rfl⟩ : ∃ k, fuel = k + 1 := ⟨fuel - 1, by omega⟩
  obtain ⟨calls, hloop⟩ := @sendLoop_accepting host fuel (fuel + 1) (c.status .sendData)
    (by simp [Conn.status, nodeStatus]) hsendable hfuel
  refine ⟨calls, ?_⟩
  have hdata : sendData host acceptAll (fuel + 1) (c.status .sendData) =
      sendLoop host acceptAll (fuel + 1) (fuel + 1) (c.status .sendData) :=
    if_pos rfl
  have hcork : sendCorkStart (c.status .sendInit) = c.status .sendData := rfl
  rw [httpSend, if_neg (by rw [hstate]; decide), sendTcp]
  simp only [Conn.status, nodeStatus] at hcork hdata hloop ⊢
  rw [hcork, hdata, hloop]
  cases hkeep : c.node.keepalive <;> rfl

end Accepting
end Torrentkino
