import Mathlib.Logic.Relation
import Torrentkino.Web.SendTcp

/-!
# One call after the other

The loops of `send_tcp` keep all they know in the queue: between two calls of `send`
or `sendfile` there is nothing but the connection.  So a run of `send_tcp` is a
sequence of calls, each of which sends something of the first part of the queue.

**Results.**
* `exists_calls_of_sendLoop`, `sendLoop_of_calls`: `send_data` returns when the calls
  come to an end, and only then.
* `gives_back_iff`: which results of the calls `send_tcp` can cope with.
* `sent_in_order`: the bytes of the queue are sent in order, and each of them once.
-/

namespace Torrentkino

open Memory CString

/-! ## Parts -/

namespace Response

/-- The number of bytes a call asks for. -/
def todo : Response → Nat
  | memory buf offset => buf.length - offset
  | file _ fOffset fStop => fStop + 1 - fOffset

/-- The part when `k` more bytes are sent. -/
def advance (k : Nat) : Response → Response
  | memory buf offset => memory buf (offset + k)
  | file filename fOffset fStop => file filename (fOffset + k) fStop

/-- The file of the part can be opened. -/
def Opens (host : Host) : Response → Prop
  | memory _ _ => True
  | file filename _ _ => (host.files filename).isSome = true

variable {host : Host}

theorem length_bytes_le (r : Response) : (r.bytes host).length ≤ r.todo := by
  cases r with
  | memory buf offset =>
      exact Nat.le_of_eq List.length_drop
  | file filename fOffset fStop =>
      rw [bytes]
      cases host.files filename with
      | none =>
          exact Nat.zero_le _
      | some stat =>
          exact List.length_take_le _ _

theorem bytes_advance (r : Response) (k : Nat) :
    (r.advance k).bytes host = (r.bytes host).drop k := by
  cases r with
  | memory buf offset =>
      exact List.drop_drop.symm
  | file filename fOffset fStop =>
      simp only [advance, bytes]
      cases host.files filename with
      | none =>
          exact List.drop_nil.symm
      | some stat =>
          dsimp only
          rw [List.drop_take, List.drop_drop, Nat.sub_sub]

theorem todo_advance (r : Response) (k : Nat) : (r.advance k).todo = r.todo - k := by
  cases r with
  | memory buf offset =>
      exact (Nat.sub_sub ..).symm
  | file filename fOffset fStop =>
      exact (Nat.sub_sub ..).symm

/-- When nothing is left to ask for, everything was sent. -/
theorem take_eq_bytes
    {r : Response} {k : Nat} (h : (r.advance ((r.bytes host).take k).length).todo = 0) :
    (r.bytes host).take k = r.bytes host := by
  have hle : (r.bytes host).length ≤ r.todo := r.length_bytes_le
  rw [todo_advance, List.length_take] at h
  exact List.take_of_length_le (by omega)

end Response

/-- The bytes that are to be sent. -/
def queueBytes (host : Host) (list : List Response) : Bytes :=
  list.flatMap (·.bytes host)

/-! ## Calls -/

/-- A call with this result, and what follows it up to the next one. -/
def sendCall (host : Host) (result : IoResult) (r : Response) (list : List Response) (c : Conn) :
    Conn :=
  match result with
  | .again => c.wrote [] (r :: list)
  | .error => (c.wrote [] (r :: list)).status .shutdown
  | .bytes k =>
      let data := (r.bytes host).take k
      let rest := r.advance data.length
      c.wrote data (if rest.todo = 0 then list else rest :: list)

/-- The loops make one more call. -/
inductive Call (host : Host) (socket : Socket) (c : Conn) : Conn → Prop
  | mk {r : Response} {list : List Response} (hopen : c.node.pipeline ≠ .shutdown)
      (hqueue : c.node.response = r :: list) (hopens : r.Opens host) :
      Call host socket c (sendCall host (socket c.calls r.todo) r list c)

/-- The loops make some calls. -/
abbrev Calls (host : Host) (socket : Socket) : Conn → Conn → Prop :=
  Relation.ReflTransGen (Call host socket)

/-- `send_mem` or `send_file`, as the part has it. -/
def sendPart (host : Host) (socket : Socket) (r : Response) (list : List Response) (fuel : Nat)
    (c : Conn) : Except WebFault Conn :=
  match r with
  | .memory buf offset => sendMem socket buf list fuel offset c
  | .file filename fOffset fStop => sendFile host socket filename fStop list fuel fOffset c

section Loops

variable {host : Host} {socket : Socket}

section Results

variable {r : Response} {list : List Response} {c : Conn} {k : Nat}
variable (hopen : c.node.pipeline ≠ .shutdown) (hqueue : c.node.response = r :: list)
variable (hopens : r.Opens host)

include hopen hqueue hopens

theorem Call.of_result {result : IoResult} (hresult : socket c.calls r.todo = result) :
    Call host socket c (sendCall host result r list c) :=
  hresult ▸ .mk hopen hqueue hopens

/-- The rest of a part was taken. -/
theorem Call.sent (hresult : socket c.calls r.todo = .bytes k)
    (hall : (r.advance ((r.bytes host).take k).length).todo = 0) :
    Call host socket c (c.wrote ((r.bytes host).take k) list) := by
  have hcall := Call.of_result hopen hqueue hopens hresult
  simp only [sendCall] at hcall
  rwa [if_pos hall] at hcall

/-- A part was not taken as a whole. -/
theorem Call.rest (hresult : socket c.calls r.todo = .bytes k)
    (hmore : (r.advance ((r.bytes host).take k).length).todo ≠ 0) :
    Call host socket c (c.wrote ((r.bytes host).take k)
      (r.advance ((r.bytes host).take k).length :: list)) := by
  have hcall := Call.of_result hopen hqueue hopens hresult
  simp only [sendCall] at hcall
  rwa [if_neg hmore] at hcall

end Results

/-- A round of `send_mem` or `send_file`. -/
theorem sendPart_succ
    {r : Response} (hopens : r.Opens host) (list : List Response) (fuel : Nat) (c : Conn) :
    sendPart host socket r list (fuel + 1) c =
      match socket c.calls r.todo with
      | .again => .ok (sendCall host .again r list c)
      | .error => .ok (sendCall host .error r list c)
      | .bytes k =>
          let data := (r.bytes host).take k
          let rest := r.advance data.length
          if rest.todo = 0 then .ok (c.wrote data list)
          else sendPart host socket rest list fuel (c.wrote data (rest :: list)) := by
  cases r with
  | memory buf offset =>
      simp only [sendPart, sendMem, Response.todo, Response.bytes, Response.advance]
      cases socket c.calls (buf.length - offset) with
      | again =>
          rfl
      | error =>
          rfl
      | bytes k =>
          simp only [Nat.sub_eq_zero_iff_le, ge_iff_le]
  | file filename fOffset fStop =>
      obtain ⟨stat, hstat⟩ := Option.isSome_iff_exists.mp hopens
      simp only [sendPart, sendFile, hstat, Response.todo, Response.bytes, Response.advance]
      cases socket c.calls (fStop + 1 - fOffset) with
      | again =>
          rfl
      | error =>
          rfl
      | bytes k =>
          simp only [List.take_take, Nat.sub_eq_zero_iff_le, gt_iff_lt, Nat.lt_iff_add_one_le]

theorem sendPart_of_not_opens
    {r : Response} (hopens : ¬ r.Opens host) (list : List Response) (fuel : Nat) (c c' : Conn) :
    sendPart host socket r list fuel c ≠ .ok c' := by
  cases r with
  | memory buf offset =>
      exact absurd trivial hopens
  | file filename fOffset fStop =>
      have hnone : host.files filename = none := by simpa [Response.Opens] using hopens
      intro h
      cases fuel with
      | zero =>
          cases h
      | succ fuel =>
          simp only [sendPart, sendFile, hnone] at h
          cases h

theorem sendLoop_cons
    {c : Conn} {r : Response} {list : List Response} (hqueue : c.node.response = r :: list)
    (fuel rounds : Nat) :
    sendLoop host socket fuel (rounds + 1) c =
      (sendPart host socket r list fuel c).bind fun c =>
        if c.node.pipeline = .shutdown then .ok c else sendLoop host socket fuel rounds c := by
  rw [sendLoop, hqueue]
  cases r <;> rfl

/-- More rounds do not change a result. -/
theorem sendPart_mono
    {fuel fuel' : Nat} (hle : fuel ≤ fuel') {r : Response} {list : List Response} {c c' : Conn}
    (h : sendPart host socket r list fuel c = .ok c') :
    sendPart host socket r list fuel' c = .ok c' := by
  induction fuel generalizing fuel' r c with
  | zero =>
      cases r <;> cases h
  | succ fuel ih =>
      obtain ⟨fuel', rfl⟩ := Nat.exists_eq_add_of_le hle
      rw [Nat.add_right_comm]
      by_cases hopens : r.Opens host
      · rw [sendPart_succ hopens] at h ⊢
        cases hresult : socket c.calls r.todo with
        | again =>
            rwa [hresult] at h
        | error =>
            rwa [hresult] at h
        | bytes k =>
            rw [hresult] at h
            dsimp only at h ⊢
            split at h
            · rwa [if_pos ‹_›]
            · rw [if_neg ‹_›]
              exact ih (Nat.le_add_right _ _) h
      · exact absurd h (sendPart_of_not_opens hopens list _ c c')

theorem sendLoop_mono
    {fuel fuel' : Nat} (hle : fuel ≤ fuel') {rounds rounds' : Nat} (hrounds : rounds ≤ rounds')
    {c c' : Conn} (h : sendLoop host socket fuel rounds c = .ok c') :
    sendLoop host socket fuel' rounds' c = .ok c' := by
  induction rounds generalizing rounds' c with
  | zero =>
      cases h
  | succ rounds ih =>
      obtain ⟨rounds', rfl⟩ := Nat.exists_eq_add_of_le hrounds
      rw [Nat.add_right_comm]
      cases hqueue : c.node.response with
      | nil =>
          rw [sendLoop, hqueue] at h ⊢
          exact h
      | cons r list =>
          rw [sendLoop_cons hqueue] at h ⊢
          cases hpart : sendPart host socket r list fuel c with
          | error e =>
              rw [hpart] at h
              cases h
          | ok c₁ =>
              rw [hpart] at h
              rw [sendPart_mono hle hpart]
              simp only [Except.bind] at h ⊢
              split at h
              · rwa [if_pos ‹_›]
              · rw [if_neg ‹_›]
                exact ih (Nat.le_add_right _ _) h

/-- What `send_data` does when there is nothing left to do. -/
inductive Ended (c : Conn) : Conn → Prop
  | broken (h : c.node.pipeline = .shutdown) : Ended c c
  | empty (h : c.node.pipeline ≠ .shutdown) (hqueue : c.node.response = []) :
      Ended c (c.status .sendStop)

theorem calls_of_sendPart
    {fuel : Nat} {r : Response} {list : List Response} {c c' : Conn}
    (hopen : c.node.pipeline ≠ .shutdown) (hqueue : c.node.response = r :: list)
    (h : sendPart host socket r list fuel c = .ok c') : Calls host socket c c' := by
  induction fuel generalizing r c with
  | zero =>
      cases r <;> cases h
  | succ fuel ih =>
      by_cases hopens : r.Opens host
      · rw [sendPart_succ hopens] at h
        cases hresult : socket c.calls r.todo with
        | again =>
            rw [hresult] at h
            cases h
            exact .single (.of_result hopen hqueue hopens hresult)
        | error =>
            rw [hresult] at h
            cases h
            exact .single (.of_result hopen hqueue hopens hresult)
        | bytes k =>
            rw [hresult] at h
            dsimp only at h
            split at h
            · cases h
              exact .single (.sent hopen hqueue hopens hresult ‹_›)
            · exact .head (.rest hopen hqueue hopens hresult ‹_›) (ih hopen rfl h)
      · exact absurd h (sendPart_of_not_opens hopens list _ c c')

/-- When `send_data` returns, the calls have come to an end. -/
theorem exists_calls_of_sendLoop
    {fuel rounds : Nat} {c c' : Conn} (hopen : c.node.pipeline ≠ .shutdown)
    (h : sendLoop host socket fuel rounds c = .ok c') :
    ∃ c₁, Calls host socket c c₁ ∧ Ended c₁ c' := by
  induction rounds generalizing c with
  | zero =>
      cases h
  | succ rounds ih =>
      cases hqueue : c.node.response with
      | nil =>
          rw [sendLoop, hqueue] at h
          cases h
          exact ⟨c, .refl, .empty hopen hqueue⟩
      | cons r list =>
          rw [sendLoop_cons hqueue] at h
          cases hpart : sendPart host socket r list fuel c with
          | error e =>
              rw [hpart] at h
              cases h
          | ok c₁ =>
              rw [hpart] at h
              simp only [Except.bind] at h
              have hcalls := calls_of_sendPart hopen hqueue hpart
              split at h
              · cases h
                exact ⟨c', hcalls, .broken ‹_›⟩
              · obtain ⟨c₂, hrest, hended⟩ := ih ‹_› h
                exact ⟨c₂, hcalls.trans hrest, hended⟩

/-- When the calls come to an end, `send_data` returns. -/
theorem sendLoop_of_calls
    {c c₁ c' : Conn} (hcalls : Calls host socket c c₁) (hended : Ended c₁ c')
    (hopen : c.node.pipeline ≠ .shutdown) :
    ∃ fuel, sendLoop host socket fuel fuel c = .ok c' := by
  induction hcalls using Relation.ReflTransGen.head_induction_on with
  | refl =>
      cases hended with
      | broken h =>
          exact absurd h hopen
      | empty h hqueue =>
          refine ⟨1, ?_⟩
          rw [sendLoop, hqueue]
  | @head c c₂ hcall hrest ih =>
      cases hcall with
      | @mk r list _ hqueue hopens =>
      cases hresult : socket c.calls r.todo with
      | error =>
          -- Behind an error there is no call.
          rw [hresult] at hrest
          rcases Relation.ReflTransGen.cases_head hrest with heq | ⟨c₃, hcall, -⟩
          · subst heq
            refine ⟨1, ?_⟩
            rw [sendLoop_cons hqueue, sendPart_succ hopens, hresult]
            cases hended with
            | broken h =>
                rfl
            | empty h hqueue' =>
                exact absurd rfl h
          · cases hcall with
            | mk hopen' =>
                exact absurd rfl hopen'
      | again =>
          rw [hresult] at ih
          obtain ⟨fuel, hfuel⟩ := ih hopen
          refine ⟨fuel + 1, ?_⟩
          rw [sendLoop_cons hqueue, sendPart_succ hopens, hresult]
          change (if c.node.pipeline = .shutdown then _ else _) = _
          rw [if_neg hopen]
          exact sendLoop_mono (Nat.le_succ fuel) (Nat.le_refl fuel) hfuel
      | bytes k =>
          rw [hresult] at ih
          obtain ⟨fuel, hfuel⟩ := ih hopen
          refine ⟨fuel + 1, ?_⟩
          rw [sendLoop_cons hqueue, sendPart_succ hopens, hresult]
          simp only [sendCall] at hfuel ⊢
          split
          · rw [if_pos ‹_›] at hfuel
            change (if c.node.pipeline = .shutdown then _ else _) = _
            rw [if_neg hopen]
            exact sendLoop_mono (Nat.le_succ fuel) (Nat.le_refl fuel) hfuel
          · rw [if_neg ‹_›] at hfuel
            -- The loop over the part goes on, where `send_data` would start it anew.
            have hmono := sendLoop_mono (Nat.le_refl fuel) (Nat.le_succ fuel) hfuel
            rw [sendLoop_cons rfl] at hmono
            cases hpart : sendPart host socket (r.advance ((r.bytes host).take k).length) list fuel
                (c.wrote ((r.bytes host).take k)
                  (r.advance ((r.bytes host).take k).length :: list)) with
            | error e =>
                rw [hpart] at hmono
                cases hmono
            | ok c₂ =>
                rw [hpart] at hmono
                simp only [Except.bind] at hmono ⊢
                split at hmono
                · rwa [if_pos ‹_›]
                · rw [if_neg ‹_›]
                  exact sendLoop_mono (Nat.le_succ fuel) (Nat.le_refl fuel) hmono

end Loops

/-! ## `send_tcp` -/

/-- The result of the next call. -/
def Conn.reply (socket : Socket) (c : Conn) : Option IoResult :=
  c.node.response.head?.map fun r => socket c.calls r.todo

/-- `send_tcp` starts to send the queue, or goes on. -/
def Conn.Sending (c : Conn) : Prop :=
  c.node.pipeline = .sendInit ∨ c.node.pipeline = .sendData

/-- What becomes of a connection. -/
inductive Gate where
  | close
  | input
  | output
deriving DecidableEq, Repr

/-- `tcp_gate` -/
def tcpGate (n : TcpNode) : Gate :=
  match n.pipeline with
  | .shutdown => .close
  | .ready => .input
  | .sendInit => .output
  | .sendData => .output
  | .sendStop => .output

/-- `tcp_output` -/
def tcpOutput (host : Host) (socket : Socket) (fuel : Nat) (c : Conn) : Except WebFault Conn :=
  match c.node.pipeline with
  | .sendInit => sendTcp host socket fuel c
  | .sendData => sendTcp host socket fuel c
  | .sendStop => sendTcp host socket fuel c
  | _ => .ok c

/-- `send_tcp` returns, and when a call reports that the socket would block, it returns
to the event loop with what is left of the queue. -/
def GivesBack (host : Host) (socket : Socket) (c : Conn) : Prop :=
  ∃ fuel c', sendTcp host socket fuel c = .ok c' ∧
    ∀ c₁ c₂, Calls host socket (c.status .sendData) c₁ → Call host socket c₁ c₂ →
      c₁.reply socket = some .again →
        c'.node.pipeline = .sendData ∧ c'.node.response = c₁.node.response ∧
          tcpGate c'.node = .output

/-- The results from a call on, for what is in the queue then: each of them is a number
of bytes, until the queue is sent or there is an error. -/
inductive Drained (host : Host) (socket : Socket) : Nat → List Response → Prop
  | empty (calls : Nat) : Drained host socket calls []
  | error {calls : Nat} {r : Response} (hopens : r.Opens host)
      (hresult : socket calls r.todo = .error) (list : List Response) :
      Drained host socket calls (r :: list)
  | sent {calls k : Nat} {r : Response} {list : List Response} (hopens : r.Opens host)
      (hresult : socket calls r.todo = .bytes k)
      (hall : (r.advance ((r.bytes host).take k).length).todo = 0)
      (hrest : Drained host socket (calls + 1) list) : Drained host socket calls (r :: list)
  | rest {calls k : Nat} {r : Response} {list : List Response} (hopens : r.Opens host)
      (hresult : socket calls r.todo = .bytes k)
      (hmore : (r.advance ((r.bytes host).take k).length).todo ≠ 0)
      (hrest : Drained host socket (calls + 1)
        (r.advance ((r.bytes host).take k).length :: list)) :
      Drained host socket calls (r :: list)

section Sending

variable {host : Host} {socket : Socket}

@[simp] theorem Conn.pipeline_status (c : Conn) (status : Pipeline) :
    (c.status status).node.pipeline = status := rfl

theorem sendTcp_eq {c : Conn} (hsending : c.Sending) (fuel : Nat) :
    sendTcp host socket fuel c =
      (sendLoop host socket fuel fuel (c.status .sendData)).map sendCorkStop := by
  rcases hsending with h | h
  · rw [sendTcp, h]
    dsimp only
    rw [sendCorkStart, if_pos h, sendData, Conn.pipeline_status, if_pos rfl]
  · have hstatus : c.status .sendData = c := by
      simp only [Conn.status, nodeStatus]
      rw [← h]
    rw [sendTcp, h, hstatus]
    dsimp only
    rw [sendData, if_pos h]

/-- `send_tcp` returns when its calls have come to an end. -/
theorem calls_of_sendTcp
    {c c' : Conn} (hsending : c.Sending) {fuel : Nat}
    (h : sendTcp host socket fuel c = .ok c') :
    ∃ c₁ c₂, Calls host socket (c.status .sendData) c₁ ∧ Ended c₁ c₂ ∧ c' = sendCorkStop c₂ := by
  rw [sendTcp_eq hsending] at h
  cases hloop : sendLoop host socket fuel fuel (c.status .sendData) with
  | error e =>
      rw [hloop] at h
      cases h
  | ok c₂ =>
      rw [hloop] at h
      cases h
      have hopen : (c.status .sendData).node.pipeline ≠ .shutdown := nofun
      obtain ⟨c₁, hcalls, hended⟩ := exists_calls_of_sendLoop hopen hloop
      exact ⟨c₁, c₂, hcalls, hended, rfl⟩

/-- `send_tcp` never returns in the state `NODE_SEND_DATA`. -/
theorem pipeline_ne_of_ended {c c' : Conn} (h : Ended c c') :
    (sendCorkStop c').node.pipeline ≠ .sendData := by
  cases h with
  | broken h =>
      rw [sendCorkStop, if_neg (by rw [h]; decide), h]
      decide
  | empty h hqueue =>
      rw [sendCorkStop, Conn.pipeline_status, if_pos rfl]
      cases (c.status .sendStop).node.keepalive <;> exact nofun

/-- A run that ends without a call that would block. -/
theorem drained_of_calls
    {c c₁ c' : Conn} (hcalls : Calls host socket c c₁) (hended : Ended c₁ c')
    (hopen : c.node.pipeline ≠ .shutdown)
    (hblocks : ∀ c₂ c₃, Calls host socket c c₂ → Call host socket c₂ c₃ →
      c₂.reply socket ≠ some .again) :
    Drained host socket c.calls c.node.response := by
  induction hcalls using Relation.ReflTransGen.head_induction_on with
  | refl =>
      cases hended with
      | broken h =>
          exact absurd h hopen
      | empty h hqueue =>
          rw [hqueue]
          exact .empty _
  | @head c c₂ hcall hrest ih =>
      have hnext : ∀ c₃ c₄, Calls host socket c₂ c₃ → Call host socket c₃ c₄ →
          c₃.reply socket ≠ some .again :=
        fun c₃ c₄ hcalls => hblocks c₃ c₄ (.head hcall hcalls)
      have hreply := hblocks c c₂ .refl hcall
      cases hcall with
      | @mk r list _ hqueue hopens =>
      rw [Conn.reply, hqueue] at hreply
      rw [hqueue]
      cases hresult : socket c.calls r.todo with
      | again =>
          exact absurd (congrArg some hresult) hreply
      | error =>
          exact .error hopens hresult list
      | bytes k =>
          rw [hresult] at ih hnext
          have hdrained := ih hopen hnext
          change Drained host socket (c.calls + 1)
            (if (r.advance ((r.bytes host).take k).length).todo = 0 then list
              else r.advance ((r.bytes host).take k).length :: list) at hdrained
          split at hdrained
          · exact .sent hopens hresult ‹_› hdrained
          · exact .rest hopens hresult ‹_› hdrained

/-- One call: the other results are as before. -/
theorem drained_of_call
    {c c' : Conn} (hdrained : Drained host socket c.calls c.node.response)
    (hcall : Call host socket c c') :
    c.reply socket ≠ some .again ∧
      (c'.node.pipeline = .shutdown ∨ Drained host socket c'.calls c'.node.response) := by
  cases hcall with
  | @mk r list hopen hqueue hopens =>
  rw [Conn.reply]
  rw [hqueue] at hdrained ⊢
  cases hdrained with
  | error _ hresult _ =>
      rw [hresult]
      exact ⟨by simp [hresult], .inl rfl⟩
  | @sent _ k _ _ _ hresult hall hrest =>
      rw [hresult]
      refine ⟨by simp [hresult], .inr ?_⟩
      simp only [sendCall]
      rw [if_pos hall]
      exact hrest
  | @rest _ k _ _ _ hresult hmore hrest =>
      rw [hresult]
      refine ⟨by simp [hresult], .inr ?_⟩
      simp only [sendCall]
      rw [if_neg hmore]
      exact hrest

theorem drained_of_drained
    {c c' : Conn} (hdrained : Drained host socket c.calls c.node.response)
    (hcalls : Calls host socket c c') :
    c'.node.pipeline = .shutdown ∨ Drained host socket c'.calls c'.node.response := by
  induction hcalls with
  | refl =>
      exact .inr hdrained
  | tail _ hcall ih =>
      rcases ih with hshutdown | hdrained
      · cases hcall with
        | mk hopen =>
            exact absurd hshutdown hopen
      · exact (drained_of_call hdrained hcall).2

/-- The results lead to an end. -/
theorem exists_ended_of_drained
    {calls : Nat} {list : List Response} (hdrained : Drained host socket calls list) {c : Conn}
    (hcount : c.calls = calls) (hqueue : c.node.response = list)
    (hopen : c.node.pipeline ≠ .shutdown) :
    ∃ c₁ c', Calls host socket c c₁ ∧ Ended c₁ c' := by
  induction hdrained generalizing c with
  | empty =>
      exact ⟨c, _, .refl, .empty hopen hqueue⟩
  | @error _ r hopens hresult list =>
      rw [← hcount] at hresult
      exact ⟨_, _, .single (.of_result hopen hqueue hopens hresult), .broken rfl⟩
  | @sent _ k r list hopens hresult hall hrest ih =>
      rw [← hcount] at hresult
      obtain ⟨c₁, c', hcalls, hended⟩ := @ih (c.wrote ((r.bytes host).take k) list)
        (congrArg (· + 1) hcount) rfl hopen
      exact ⟨c₁, c', .head (.sent hopen hqueue hopens hresult hall) hcalls, hended⟩
  | @rest _ k r list hopens hresult hmore hrest ih =>
      rw [← hcount] at hresult
      obtain ⟨c₁, c', hcalls, hended⟩ := @ih
        (c.wrote ((r.bytes host).take k)
          (r.advance ((r.bytes host).take k).length :: list)) (congrArg (· + 1) hcount) rfl hopen
      exact ⟨c₁, c', .head (.rest hopen hqueue hopens hresult hmore) hcalls, hended⟩

theorem drained_of_givesBack
    {c : Conn} (hsending : c.Sending) (h : GivesBack host socket c) :
    Drained host socket c.calls c.node.response := by
  obtain ⟨fuel, c', hrun, hblocks⟩ := h
  obtain ⟨c₁, c₂, hcalls, hended, rfl⟩ := calls_of_sendTcp hsending hrun
  have hopen : (c.status .sendData).node.pipeline ≠ .shutdown := nofun
  exact @drained_of_calls host socket (c.status .sendData) c₁ _ hcalls hended hopen
    fun c₂ c₃ hcalls' hcall hagain =>
      pipeline_ne_of_ended hended (hblocks c₂ c₃ hcalls' hcall hagain).1

/-- `send_tcp` can only cope with results that are numbers of bytes, and that lead to
the end of the queue or to an error. -/
theorem gives_back_iff {c : Conn} (hsending : c.Sending) :
    GivesBack host socket c ↔ Drained host socket c.calls c.node.response := by
  refine ⟨drained_of_givesBack hsending, fun hdrained => ?_⟩
  have hopen : (c.status .sendData).node.pipeline ≠ .shutdown := nofun
  obtain ⟨c₁, c', hcalls, hended⟩ :=
    @exists_ended_of_drained host socket _ _ hdrained (c.status .sendData) rfl rfl hopen
  obtain ⟨fuel, hloop⟩ := sendLoop_of_calls hcalls hended hopen
  refine ⟨fuel, sendCorkStop c', ?_, fun c₂ c₃ hcalls' hcall hagain => ?_⟩
  · rw [sendTcp_eq hsending, hloop]
    rfl
  · -- No call reports that the socket would block.
    rcases @drained_of_drained host socket (c.status .sendData) c₂ hdrained hcalls' with
      hshutdown | hdrained'
    · cases hcall with
      | mk hopen' =>
          exact absurd hshutdown hopen'
    · exact absurd hagain (drained_of_call hdrained' hcall).1

end Sending

/-- A server with a file of six bytes. -/
def fileHost : Host where
  home := []
  file := []
  files := fun name =>
    if name = [102] then some ⟨.regular, [1, 2, 3, 4, 5, 6], 0, by decide⟩ else none
  magic := fun _ => none
  now := 0

/-- A connection that has to send three bytes from memory and four from the file. -/
def twoParts : Conn where
  srv := { mime := hashInit 1 (by decide), random := ⟨fun _ => 0, fun _ => 0⟩ }
  node := { nodePut with
    pipeline := .sendData
    response := [.memory [65, 66, 67] 0, .file [102] 1 4] }
  calls := 0
  sent := []

/-- Five of the seven bytes are sent. -/
def halfSent : Conn :=
  { twoParts with
    node := { twoParts.node with response := [.file [102] 3 4] }
    calls := 3
    sent := [65, 66, 67, 2, 3] }

/-- A socket that takes two bytes at a time. -/
def inTwos : Socket := fun _ todo => .bytes (min 2 todo)

/-- It takes nothing when it is called for the fourth time. -/
def blocksOnce : Socket := fun calls todo =>
  if calls = 3 then .again else inTwos calls todo

theorem calls_halfSent : Calls fileHost blocksOnce twoParts halfSent := by
  refine .head (@Call.mk _ _ _ (.memory [65, 66, 67] 0) [.file [102] 1 4] nofun rfl trivial) ?_
  refine .head (@Call.mk _ _ _ (.memory [65, 66, 67] 2) [.file [102] 1 4] nofun rfl trivial) ?_
  exact .single (@Call.mk _ _ _ (.file [102] 1 4) [] nofun rfl rfl)

/-- `send_tcp` returns when the parts go out in pieces, and not in time when the socket
blocks between two pieces. -/
theorem gives_back_iff_twoParts :
    GivesBack fileHost inTwos twoParts ∧ ¬ GivesBack fileHost blocksOnce twoParts := by
  constructor
  · refine (gives_back_iff (.inr rfl)).mpr ?_
    exact .rest trivial rfl (by decide) <| .sent trivial rfl (by decide) <|
      .rest rfl rfl (by decide) <| .sent rfl rfl (by decide) (.empty 4)
  · intro hblocked
    have hdrained := (gives_back_iff (.inr rfl)).mp hblocked
    rcases drained_of_drained hdrained calls_halfSent with hshutdown | hrest
    · cases hshutdown
    · cases hrest with
      | error _ hresult =>
          cases hresult
      | sent _ hresult =>
          cases hresult
      | rest _ hresult =>
          cases hresult

/-- With a socket that blocks `send_tcp` calls `send` again and again. -/
theorem gives_back_fails :
    ¬ ∀ (host : Host) (socket : Socket) (c : Conn), c.Sending → GivesBack host socket c := by
  intro h
  have hblocked := h fileHost (fun _ _ => .again) twoParts (.inr rfl)
  have hdrained : Drained fileHost (fun _ _ => .again) 0 twoParts.node.response :=
    drained_of_givesBack (.inr rfl) hblocked
  cases hdrained with
  | error _ hresult =>
      cases hresult
  | sent _ hresult =>
      cases hresult
  | rest _ hresult =>
      cases hresult

/-! ## The order of the bytes -/

section Order

variable {host : Host} {socket : Socket}

/-- The states that a connection goes through while its queue is sent: in front of a
call, behind it, and with the states that `send_tcp` sets. -/
inductive Moment (host : Host) (socket : Socket) (c₀ : Conn) : Conn → Prop
  | start : Moment host socket c₀ c₀
  | call {c c' : Conn} (h : Moment host socket c₀ c) (hcall : Call host socket c c') :
      Moment host socket c₀ c'
  | status {c : Conn} (h : Moment host socket c₀ c) (status : Pipeline) :
      Moment host socket c₀ (c.status status)

/-- Bytes go from the queue to the client. -/
theorem sendCall_eq (result : IoResult) (r : Response) (list : List Response) (c : Conn) :
    ∃ data, (sendCall host result r list c).sent = c.sent ++ data ∧
      data ++ queueBytes host (sendCall host result r list c).node.response =
        queueBytes host (r :: list) := by
  cases result with
  | again =>
      exact ⟨[], rfl, rfl⟩
  | error =>
      exact ⟨[], rfl, rfl⟩
  | bytes k =>
      refine ⟨(r.bytes host).take k, rfl, ?_⟩
      simp only [sendCall, Conn.wrote]
      split
      · rw [Response.take_eq_bytes ‹_›]
        rfl
      · rw [queueBytes, queueBytes, List.flatMap_cons, List.flatMap_cons,
          Response.bytes_advance, ← List.append_assoc]
        congr 1
        rw [List.length_take]
        rcases Nat.le_total k (r.bytes host).length with hle | hle
        · rw [Nat.min_eq_left hle, List.take_append_drop]
        · rw [Nat.min_eq_right hle, List.drop_length, List.take_of_length_le hle,
            List.append_nil]

theorem sent_of_moment {c₀ c : Conn} (h : Moment host socket c₀ c) :
    ∃ data, c.sent = c₀.sent ++ data ∧
      data ++ queueBytes host c.node.response = queueBytes host c₀.node.response := by
  induction h with
  | start =>
      exact ⟨[], (List.append_nil _).symm, rfl⟩
  | call _ hcall ih =>
      obtain ⟨data, hsent, hqueue⟩ := ih
      cases hcall with
      | @mk r list _ hresponse hopens =>
      obtain ⟨more, hmore, hrest⟩ := @sendCall_eq host (socket _ r.todo) r list _
      refine ⟨data ++ more, ?_, ?_⟩
      · rw [hmore, hsent, List.append_assoc]
      · rw [List.append_assoc, hrest, ← hresponse, hqueue]
  | status _ _ ih =>
      exact ih

theorem moment_of_calls
    {c₀ c c' : Conn} (h : Moment host socket c₀ c) (hcalls : Calls host socket c c') :
    Moment host socket c₀ c' := by
  induction hcalls with
  | refl =>
      exact h
  | tail _ hcall ih =>
      exact .call ih hcall

theorem moment_sendCorkStop {c₀ c : Conn} (h : Moment host socket c₀ c) :
    Moment host socket c₀ (sendCorkStop c) := by
  rw [sendCorkStop]
  split
  · split
    · exact .status h _
    · exact .status h _
  · exact h

/-- `send_tcp` goes from one such state to the next one. -/
theorem moment_sendTcp
    {c₀ c c' : Conn} {fuel : Nat} (h : Moment host socket c₀ c)
    (hrun : sendTcp host socket fuel c = .ok c') : Moment host socket c₀ c' := by
  by_cases hsending : c.Sending
  · obtain ⟨c₁, c₂, hcalls, hended, rfl⟩ := calls_of_sendTcp hsending hrun
    have hmoment := moment_of_calls (.status h .sendData) hcalls
    cases hended with
    | broken =>
        exact moment_sendCorkStop hmoment
    | empty =>
        exact moment_sendCorkStop (.status hmoment _)
  · rw [sendTcp] at hrun
    rw [Conn.Sending, not_or] at hsending
    split at hrun
    · exact absurd ‹_› hsending.1
    · exact absurd ‹_› hsending.2
    · cases hrun
      exact moment_sendCorkStop h
    · cases hrun
      exact h

/-- What was sent is the start of what was queued, and all of it when the queue is
empty. -/
theorem sent_in_order {c₀ c : Conn} (h : Moment host socket c₀ c) :
    (∃ data, c.sent = c₀.sent ++ data ∧ data <+: queueBytes host c₀.node.response ∧
      (c.node.response = [] → data = queueBytes host c₀.node.response)) ∧
      ∀ fuel c', tcpOutput host socket fuel c = .ok c' → Moment host socket c₀ c' := by
  constructor
  · obtain ⟨data, hsent, hqueue⟩ := sent_of_moment h
    refine ⟨data, hsent, ⟨_, hqueue⟩, fun hempty => ?_⟩
    rw [hempty] at hqueue
    rw [← hqueue]
    exact (List.append_nil data).symm
  · intro fuel c' hrun
    rw [tcpOutput] at hrun
    split at hrun
    · exact moment_sendTcp h hrun
    · exact moment_sendTcp h hrun
    · exact moment_sendTcp h hrun
    · cases hrun
      exact h

/-- A part of the queue was sent, the socket blocks, and the loop sends the rest when it
is entered again. -/
theorem sent_in_order_twoParts :
    (∃ data, halfSent.sent = twoParts.sent ++ data ∧
      data <+: queueBytes fileHost twoParts.node.response ∧
      (halfSent.node.response = [] → data = queueBytes fileHost twoParts.node.response)) ∧
      halfSent.reply blocksOnce = some .again ∧
      ∃ c, tcpOutput fileHost blocksOnce 3 halfSent = .ok c ∧
        Moment fileHost blocksOnce twoParts c ∧ c.node.response = [] ∧
        c.sent = [65, 66, 67, 2, 3, 4, 5] := by
  obtain ⟨hstart, hnext⟩ := sent_in_order (moment_of_calls .start calls_halfSent)
  obtain ⟨c, hrun, hempty, hsent⟩ : ∃ c, tcpOutput fileHost blocksOnce 3 halfSent = .ok c ∧
      c.node.response = [] ∧ c.sent = [65, 66, 67, 2, 3, 4, 5] := ⟨_, rfl, rfl, rfl⟩
  exact ⟨hstart, rfl, c, hrun, hnext 3 c hrun, hempty, hsent⟩

end Order

end Torrentkino
