import Torrentkino.Web.WorkerSafe

/-!
# Runs of the worker threads

**Results.**
* `tcpRun_orderly`: in whatever order the threads go on and whatever the peers do, the
  server never uses a connection or a descriptor that is gone, `epoll_ctl` never
  fails, data never reaches a connection that does not wait for a request, no
  connection is served by two threads, and none is forgotten while the server runs.
  What can go wrong is `accept`, a file that is gone, and a call that is repeated
  without end.
* `nodeFree_allClosed`: when all threads have ended, `node_free` closes what is left, and
  every descriptor has been closed as often as it was accepted.
-/

namespace Torrentkino

open Memory CString Decimal Shares Simulation

/-! ## The functions that serve a connection -/

/-- The faults that the state of a connection cannot rule out: a file that is gone,
and a call that is repeated without end. -/
def WebFault.Outside (f : WebFault) : Prop :=
  f = .notOpen ∨ f = .looping

section Serve

variable {host : Host} {socket : Socket} {fuel : Nat}

theorem sendMem_outside {buf : Bytes} {list : List Response} {fuel offset : Nat} {c : Conn}
    {f : WebFault} (h : sendMem socket buf list fuel offset c = .error f) : f.Outside := by
  induction fuel generalizing offset c with
  | zero =>
      cases h
      exact .inr rfl
  | succ fuel ih =>
      rw [sendMem] at h
      split at h
      · cases h
      · cases h
      · dsimp only at h
        split at h
        · cases h
        · exact ih h

theorem sendFile_outside {filename : Bytes} {fStop : Nat} {list : List Response}
    {fuel fOffset : Nat} {c : Conn} {f : WebFault}
    (h : sendFile host socket filename fStop list fuel fOffset c = .error f) : f.Outside := by
  induction fuel generalizing fOffset c with
  | zero =>
      cases h
      exact .inr rfl
  | succ fuel ih =>
      rw [sendFile] at h
      split at h
      · cases h
        exact .inl rfl
      · dsimp only at h
        split at h
        · cases h
        · cases h
        · split at h
          · cases h
          · exact ih h

/-- Where a fault comes from. -/
theorem bind_eq_error {ε σ τ : Type} {x : Except ε σ} {g : σ → Except ε τ} {e : ε}
    (h : x >>= g = .error e) : x = .error e ∨ ∃ c, x = .ok c ∧ g c = .error e := by
  cases x with
  | error e' =>
      cases h
      exact .inl rfl
  | ok c =>
      exact .inr ⟨c, rfl, h⟩

theorem sendLoop_outside {rounds : Nat} {c : Conn} {f : WebFault}
    (h : sendLoop host socket fuel rounds c = .error f) : f.Outside := by
  induction rounds generalizing c with
  | zero =>
      cases h
      exact .inr rfl
  | succ rounds ih =>
      have hrest : ∀ c : Conn, (if c.node.pipeline = .shutdown then Except.ok c
          else sendLoop host socket fuel rounds c) = .error f → f.Outside := by
        intro c hc
        split at hc
        · cases hc
        · exact ih hc
      rw [sendLoop] at h
      split at h
      · cases h
      · rename_i r list _
        cases r with
        | memory buf offset =>
            rcases bind_eq_error h with hpart | ⟨c', -, hnext⟩
            · exact sendMem_outside hpart
            · exact hrest c' hnext
        | file filename fOffset fStop =>
            rcases bind_eq_error h with hpart | ⟨c', -, hnext⟩
            · exact sendFile_outside hpart
            · exact hrest c' hnext

theorem sendData_outside {c : Conn} {f : WebFault} (h : sendData host socket fuel c = .error f) :
    f.Outside := by
  rw [sendData] at h
  split at h
  · exact sendLoop_outside h
  · cases h

theorem sendTcp_outside {c : Conn} {f : WebFault} (h : sendTcp host socket fuel c = .error f) :
    f.Outside := by
  rw [sendTcp] at h
  split at h
  · exact sendData_outside (map_eq_error h)
  · exact sendData_outside (map_eq_error h)
  · cases h
  · cases h

theorem httpSend_outside {c : Conn} {f : WebFault} (h : httpSend host socket fuel c = .error f) :
    f.Outside := by
  rw [httpSend] at h
  split at h
  · cases h
  · exact sendTcp_outside h

theorem tcpBuffer_outside {c : Conn} {buffer : Bytes} {f : WebFault}
    (hready : c.node.pipeline = .ready) (h : tcpBuffer host socket fuel c buffer = .error f) :
    f.Outside := by
  have hstill : (nodeAppendBuffer c.node buffer).pipeline = .ready := hready
  rw [tcpBuffer] at h
  simp only [hstill, ne_eq, not_true_eq_false, if_false] at h
  split at h
  · cases h
  · exact httpSend_outside h

theorem tcpServe_outside {env : Env} {running : Bool} {mode : TcpMode} {n : TcpNode} {f : WebFault}
    (hready : mode = .input → n.pipeline = .ready) (h : tcpServe env running mode n = .error f) :
    f.Outside := by
  cases mode with
  | input =>
      have herror := map_eq_error h
      rw [tcpInputRecv] at herror
      split at herror
      · split at herror
        · cases herror
        · cases herror
        · cases herror
        · cases herror
        · exact tcpBuffer_outside (hready rfl) herror
      · cases herror
  | output =>
      have herror := map_eq_error h
      rw [tcpOutput] at herror
      split at herror
      · exact sendTcp_outside herror
      · exact sendTcp_outside herror
      · exact sendTcp_outside herror
      · cases herror

end Serve

namespace TcpMain

variable {s : TcpMain} {i : Nat} {w : TcpWorker}

/-! ## `epoll_wait` -/

theorem goto_goto (s : TcpMain) (fds : Fd → Option FdState) (i : Nat) (task task' : TcpTask)
    (batch batch' : List TcpEvent) :
    { s.goto i task batch with fds := fds }.goto i task' batch' =
      { s with fds := fds }.goto i task' batch' := by
  simp only [goto, List.set_set]

theorem getElem?_goto (hi : s.workers[i]? = some w) (task : TcpTask) (batch : List TcpEvent) :
    (s.goto i task batch).workers[i]? = some ⟨task, batch⟩ := by
  change (s.workers.set i ⟨task, batch⟩)[i]? = _
  rw [List.getElem?_set_self', hi]
  rfl

/-- The events go from the kernel to the thread, one after the other. -/
theorem Safe.wait {batch : List TcpEvent} (h : s.Safe) (hi : s.workers[i]? = some ⟨.wait, batch⟩)
    (ready : List Ready) :
    ({ s with fds := (epollWait s.fds ready).1 }.goto i .wait
      (batch ++ (epollWait s.fds ready).2)).Safe := by
  induction ready generalizing s batch with
  | nil =>
      have hnil : epollWait s.fds [] = (s.fds, []) := rfl
      rw [hnil, List.append_nil]
      exact h.pass hi rfl rfl (fun _ => Nat.le_refl _) (fun _ => rfl) fun heq =>
        TcpTask.noConfusion heq
  | cons r ready ih =>
      cases r with
      | listener =>
          have huses : ∀ a, TcpWorker.uses a ⟨.wait, batch ++ [.listener]⟩ =
              TcpWorker.uses a ⟨.wait, batch⟩ := by
            intro a
            rw [TcpWorker.uses_append, show TcpEvent.listener.item? = none from rfl,
              if_neg (by simp)]
            rfl
          have hreads : ∀ a, TcpWorker.reads a ⟨.wait, batch ++ [.listener]⟩ =
              TcpWorker.reads a ⟨.wait, batch⟩ := by
            intro a
            rw [TcpWorker.reads_append, show TcpEvent.listener.input? = none from rfl,
              if_neg (by simp)]
            rfl
          have hone : (s.goto i .wait (batch ++ [.listener])).Safe :=
            h.pass hi rfl rfl (fun a => Nat.le_of_eq (hreads a)) huses fun heq =>
              TcpTask.noConfusion heq
          have hrest := ih hone (getElem?_goto hi _ _)
          rw [goto_goto, List.append_assoc] at hrest
          exact hrest
      | fd fd bits =>
          rw [epollWait]
          split
          · rename_i item mode hfd
            have hone := h.deliver ⟨bits.input && mode = .input, bits.output && mode = .output⟩ hi
              hfd fun hset => of_decide_eq_true ((Bool.and_eq_true _ _).mp hset).2
            have hi' : (s.setFd fd (some (.watched item none))).workers[i]? =
              some ⟨.wait, batch⟩ := hi
            have hrest := ih hone (getElem?_goto hi' _ _)
            rw [goto_goto, List.append_assoc] at hrest
            exact hrest
          · exact ih h hi

/-! ## One step -/

/-- Threads that wait for events have handled all they had. -/
def Waiting (s : TcpMain) : Prop :=
  ∀ (j : Nat) (w : TcpWorker), s.workers[j]? = some w → w.task = .wait → w.batch = []

theorem Waiting.goto {s' : TcpMain} {task : TcpTask} {batch : List TcpEvent} (h : s.Waiting)
    (hworkers : s'.workers = s.workers) (hwait : task = .wait → batch = []) :
    (s'.goto i task batch).Waiting := by
  intro j w hj htask
  change (s'.workers.set i ⟨task, batch⟩)[j]? = some w at hj
  rw [hworkers] at hj
  by_cases hij : i = j
  · subst hij
    rw [List.getElem?_set_self'] at hj
    obtain ⟨v, -, rfl⟩ := Option.map_eq_some_iff.mp hj
    exact hwait htask
  · rw [List.getElem?_set_ne hij] at hj
    exact h j w hj htask

/-- The faults that the state of the server cannot rule out: `accept` fails, a file is gone,
or `send` is called again and again. -/
def Outside : TcpFault → Prop
  | .accept => True
  | .web f => f.Outside
  | _ => False

/-- A step leads to a safe state, unless it fails for a reason outside the
server. -/
def Goes (r : Except TcpFault TcpMain) : Prop :=
  (∃ s', r = .ok s' ∧ s'.Safe ∧ s'.Waiting) ∨ ∃ f, r = .error f ∧ Outside f

theorem goes_ok {s' : TcpMain} (h : s'.Safe) (hwaiting : s'.Waiting) : Goes (.ok s') :=
  .inl ⟨s', rfl, h, hwaiting⟩

/-- While nobody unlinks, all connections in the list have a descriptor of their
own, so the list is never full. -/
theorem Safe.length_list_ne (h : s.Safe) (hmutex : s.mutex.isSome = false) :
    (s.list.length : Int) ≠ longMax := by
  have hlive : ∀ a ∈ s.list, ∃ n, s.items.get a = some n := by
    intro a ha
    have hlisted := h.listed a
    have hpos := List.count_pos_iff.mpr ha
    have hnobody : total (TcpWorker.unlinks a) s.workers = 0 := by
      by_contra hne
      obtain ⟨j, v, hj, hv⟩ := exists_of_total_pos (Nat.pos_of_ne_zero hne)
      have htask := TcpWorker.task_of_unlinks_pos hv
      have hlocks := le_total TcpWorker.locks hj
      have hzero := h.mutex
      rw [hmutex] at hzero
      have hone : v.locks = 1 := by
        rw [TcpWorker.locks, htask]
      simp only [Bool.false_eq_true, if_false] at hzero
      omega
    cases hn : s.items.get a with
    | none =>
        rw [hnobody, live, hn, if_neg (by simp)] at hlisted
        omega
    | some n =>
        exact ⟨n, rfl⟩
  have hfds : (s.list.map fun a => (s.items.get a).elim 0 TcpClient.connfd).Nodup := by
    refine List.Nodup.map_on ?_ (List.nodup_iff_count_le_one.mpr h.listed_le)
    intro a ha b hb heq
    obtain ⟨n, hn⟩ := hlive a ha
    obtain ⟨m, hm⟩ := hlive b hb
    rw [hn, hm] at heq
    exact h.connfd_inj hn hm heq
  have hle := hfds.length_le_card
  rw [List.length_map, Fintype.card_fin] at hle
  simp only [longMax]
  omega

section Steps

variable {item : Ref} (env : Env) (h : s.Safe) (hwaiting : s.Waiting) (hi : s.workers[i]? = some w)

include h hwaiting hi

theorem goes_tcpAccept (htask : w.task = .accept) : Goes (s.tcpAccept env i w.batch) := by
  obtain ⟨task, batch⟩ := w
  subst htask
  rw [tcpAccept]
  split
  · exact goes_ok (h.pass hi rfl rfl (fun _ => Nat.le_refl _) (fun _ => rfl) fun heq =>
      TcpTask.noConfusion heq) (hwaiting.goto rfl fun heq => TcpTask.noConfusion heq)
  · exact .inr ⟨_, rfl, trivial⟩
  · rename_i fd _
    split
    · exact goes_ok h hwaiting
    · rename_i hfree
      refine goes_ok (h.accept hi ?_) (hwaiting.goto rfl fun heq => TcpTask.noConfusion heq)
      cases hfd : s.fds fd with
      | none => rfl
      | some state =>
          rw [hfd] at hfree
          exact absurd rfl hfree

theorem goes_tcpPut {connfd : Fd} (htask : w.task = .accepted connfd) :
    Goes (s.tcpPut i connfd w.batch) := by
  obtain ⟨task, batch⟩ := w
  subst htask
  rw [tcpPut]
  by_cases hmutex : s.mutex.isSome = true
  · rw [if_pos hmutex]
    exact goes_ok h hwaiting
  · rw [if_neg hmutex, if_neg (h.length_list_ne (Bool.not_eq_true _ ▸ hmutex))]
    exact goes_ok (h.put hi) (hwaiting.goto rfl fun heq => TcpTask.noConfusion heq)

theorem goes_tcpAdd {connfd : Fd} (htask : w.task = .add item connfd) :
    Goes (s.tcpAdd i item w.batch) := by
  have hitem : w.task.item? = some item := by
    rw [htask]
    rfl
  obtain ⟨n, hn⟩ := h.alone hi hitem
  obtain ⟨m, hm, hmfd, -, hplain⟩ := h.adding_of_task hi htask
  obtain rfl : n = m := Option.some.inj (hn.get.symm.trans hm)
  rw [← hmfd] at hplain
  rw [tcpAdd, hm]
  dsimp only
  rw [hplain]
  exact goes_ok (h.add hn htask) (hwaiting.goto rfl fun heq => TcpTask.noConfusion heq)

theorem goes_tcpTransfer {mode : TcpMode} (htask : w.task = .serve item mode) :
    Goes (s.tcpTransfer env i item mode w.batch) := by
  have hitem : w.task.item? = some item := by
    rw [htask]
    rfl
  obtain ⟨n, hn⟩ := h.alone hi hitem
  have hfd := hn.watched h (by rw [htask]; intro fd heq; cases heq)
  have hready : mode = .input → n.node.pipeline = .ready := by
    rintro rfl
    refine h.ready item n hn.get (.inr (Nat.lt_of_lt_of_le ?_ (le_total _ hi)))
    rw [TcpWorker.reads, if_pos htask]
    omega
  rw [tcpTransfer, hn.get]
  dsimp only
  rw [hfd, if_neg (by simp)]
  cases hserve : tcpServe env s.running mode n.node with
  | error f =>
      exact .inr ⟨_, rfl, tcpServe_outside hready hserve⟩
  | ok node =>
      exact goes_ok (h.serve hn htask node)
        (hwaiting.goto rfl fun heq => TcpTask.noConfusion heq)

theorem goes_tcpGateItem (htask : w.task = .gate item) : Goes (s.tcpGateItem i item w.batch) := by
  have hitem : w.task.item? = some item := by
    rw [htask]
    rfl
  obtain ⟨n, hn⟩ := h.alone hi hitem
  have hfd := hn.watched h (by rw [htask]; intro fd heq; cases heq)
  have hrearm : ∀ mode, (mode = .input → n.node.pipeline = .ready) →
      Goes ((s.tcpRearm item n mode).map fun s => s.goto i .loop w.batch) := by
    intro mode hmode
    rw [tcpRearm, hfd]
    exact goes_ok (h.rearm hn htask hmode)
      (hwaiting.goto rfl fun heq => TcpTask.noConfusion heq)
  rw [tcpGateItem, hn.get]
  dsimp only
  split
  · obtain ⟨task, batch⟩ := w
    subst htask
    exact goes_ok (h.pass hi rfl rfl (fun _ => Nat.le_refl _) (fun _ => rfl) fun heq =>
      TcpTask.noConfusion heq) (hwaiting.goto rfl fun heq => TcpTask.noConfusion heq)
  · rename_i hgate
    refine hrearm .input fun _ => ?_
    rw [tcpGate] at hgate
    split at hgate <;> first | assumption | cases hgate
  · exact hrearm .output fun heq => TcpMode.noConfusion heq

theorem goes_nodeClose (htask : w.task = .disconnect item) :
    Goes ((s.nodeClose item).map fun s => s.goto i (.unlink item) w.batch) := by
  have hitem : w.task.item? = some item := by
    rw [htask]
    rfl
  obtain ⟨n, hn⟩ := h.alone hi hitem
  have hfd := hn.watched h (by rw [htask]; intro fd heq; cases heq)
  rw [nodeClose, hn.get]
  dsimp only
  rw [nodeDisconnect, hfd]
  exact goes_ok (h.close hn htask) (hwaiting.goto rfl fun heq => TcpTask.noConfusion heq)

/-- The thread goes on to the next event. -/
theorem goes_loop (htask : w.task = .loop) : Goes (s.workStep env i w) := by
  obtain ⟨task, batch⟩ := w
  subst htask
  cases batch with
  | nil =>
      exact goes_ok (h.pass hi rfl rfl (fun _ => Nat.le_refl _) (fun _ => rfl) fun heq =>
        TcpTask.noConfusion heq) (hwaiting.goto rfl fun _ => rfl)
  | cons e batch =>
      cases e with
      | listener =>
          refine goes_ok (h.pass hi rfl rfl (fun a => ?_) (fun a => ?_) fun heq =>
            TcpTask.noConfusion heq) (hwaiting.goto rfl fun heq => TcpTask.noConfusion heq)
          · simp [TcpWorker.reads, TcpEvent.input?]
          · simp [TcpWorker.uses, TcpEvent.item?, TcpTask.item?]
      | client item bits =>
          obtain ⟨input, output⟩ := bits
          have hgo : ∀ task : TcpTask, task.item? = some item → task.passive = true →
              (∀ a, TcpWorker.reads a ⟨task, batch⟩ ≤
                TcpWorker.reads a ⟨.loop, .client item ⟨input, output⟩ :: batch⟩) →
              Goes (.ok (s.goto i task batch)) := by
            intro task hitem hpassive hreads
            have huses : ∀ a, TcpWorker.uses a ⟨task, batch⟩ =
                TcpWorker.uses a ⟨.loop, .client item ⟨input, output⟩ :: batch⟩ := by
              intro a
              simp only [TcpWorker.uses, hitem, List.map_cons, List.count_cons,
                show TcpTask.loop.item? = none from rfl,
                show (TcpEvent.client item ⟨input, output⟩).item? = some item from rfl]
              simp
            have hne : ∀ task' : TcpTask, task'.item? = none → task ≠ task' := by
              rintro task' hnone rfl
              rw [hitem] at hnone
              cases hnone
            exact goes_ok (h.pass hi rfl hpassive hreads huses (hne _ rfl))
              (hwaiting.goto rfl fun heq => absurd heq (hne _ rfl))
          rw [workStep]
          dsimp only
          cases input with
          | true =>
              refine hgo (.serve item .input) rfl rfl fun a => ?_
              simp only [TcpWorker.reads, List.map_cons, List.count_cons,
                show (TcpEvent.client item ⟨true, output⟩).input? = some item from rfl]
              simp
              omega
          | false =>
              have hreads : ∀ (task : TcpTask) (a : Ref), task ≠ .serve a .input →
                  TcpWorker.reads a ⟨task, batch⟩ ≤
                    TcpWorker.reads a ⟨.loop, .client item ⟨false, output⟩ :: batch⟩ := by
                intro task a hne
                simp only [TcpWorker.reads, if_neg hne, List.map_cons, List.count_cons,
                  show (TcpEvent.client item ⟨false, output⟩).input? = none from rfl]
                simp
              cases output with
              | true =>
                  exact hgo (.serve item .output) rfl rfl fun a =>
                    hreads _ a fun heq => by cases heq
              | false =>
                  exact hgo (.gate item) rfl rfl fun a =>
                    hreads _ a fun heq => TcpTask.noConfusion heq

/-- `epoll_wait` and what follows it. -/
theorem goes_wait (htask : w.task = .wait) : Goes (s.workStep env i w) := by
  have hempty := hwaiting i w hi htask
  obtain ⟨task, batch⟩ := w
  obtain rfl : task = .wait := htask
  obtain rfl : batch = [] := hempty
  have hsafe := h.wait hi env.ready
  rw [workStep]
  dsimp only
  have hi' : ({ s with fds := (epollWait s.fds env.ready).1 } : TcpMain).workers[i]? =
    some ⟨.wait, []⟩ := hi
  have hgoto : ∀ task batch, ({ s with fds := (epollWait s.fds env.ready).1 }.goto i .wait
      ([] ++ (epollWait s.fds env.ready).2)).goto i task batch =
        { s with fds := (epollWait s.fds env.ready).1 }.goto i task batch :=
    fun task batch => goto_goto { s with fds := (epollWait s.fds env.ready).1 } _ i _ task _ batch
  have hat := getElem?_goto hi' .wait ([] ++ (epollWait s.fds env.ready).2)
  by_cases hrunning : s.running = true
  · rw [if_pos hrunning]
    by_cases hnone : (epollWait s.fds env.ready).2 = []
    · rw [if_pos hnone]
      rw [hnone] at hsafe
      exact goes_ok hsafe (hwaiting.goto rfl fun _ => rfl)
    · rw [if_neg hnone]
      have hloop := hsafe.goto hat .loop _ (TcpWorker.keeps_of_passive rfl rfl)
        (fun _ => Nat.le_refl _) (fun _ => Nat.le_refl _)
        fun _ => ⟨fun _ => rfl, fun heq => TcpTask.noConfusion heq⟩
      rw [hgoto] at hloop
      exact goes_ok hloop (hwaiting.goto rfl fun heq => TcpTask.noConfusion heq)
  · rw [if_neg hrunning]
    have hexit := hsafe.goto hat .exit [] (TcpWorker.keeps_of_passive rfl rfl)
      (fun a => by simp [TcpWorker.reads])
      (fun a => by simp [TcpWorker.uses, TcpTask.item?]) fun hrun => absurd hrun hrunning
    rw [hgoto] at hexit
    exact goes_ok hexit (hwaiting.goto rfl fun heq => TcpTask.noConfusion heq)

/-- A step of a thread keeps the invariant. -/
theorem goes_workStep : Goes (s.workStep env i w) := by
  cases htask : w.task with
  | wait =>
      exact goes_wait env h hwaiting hi htask
  | loop =>
      exact goes_loop env h hwaiting hi htask
  | accept =>
      rw [workStep, htask]
      exact goes_tcpAccept env h hwaiting hi htask
  | accepted connfd =>
      rw [workStep, htask]
      exact goes_tcpPut h hwaiting hi htask
  | add item connfd =>
      rw [workStep, htask]
      exact goes_tcpAdd h hwaiting hi htask
  | serve item mode =>
      rw [workStep, htask]
      exact goes_tcpTransfer env h hwaiting hi htask
  | gate item =>
      rw [workStep, htask]
      exact goes_tcpGateItem h hwaiting hi htask
  | shutdown item =>
      rw [workStep, htask]
      dsimp only
      by_cases hmutex : s.mutex.isSome = true
      · rw [if_pos hmutex]
        exact goes_ok h hwaiting
      · rw [if_neg hmutex]
        obtain ⟨task, batch⟩ := w
        subst htask
        exact goes_ok (h.lock hi (Bool.not_eq_true _ ▸ hmutex))
          (hwaiting.goto rfl fun heq => TcpTask.noConfusion heq)
  | disconnect item =>
      rw [workStep, htask]
      exact goes_nodeClose h hwaiting hi htask
  | unlink item =>
      rw [workStep, htask]
      obtain ⟨task, batch⟩ := w
      subst htask
      exact goes_ok (h.unlink hi) (hwaiting.goto rfl fun heq => TcpTask.noConfusion heq)
  | exit =>
      rw [workStep, htask]
      exact goes_ok h hwaiting

end Steps

/-! ## Runs -/

theorem goes_tcpStep (h : s.Safe) (hwaiting : s.Waiting) (a : TcpAction) : Goes (tcpStep s a) := by
  cases a with
  | signal =>
      exact goes_ok
        ⟨⟨h.held_le, fun hrunning => absurd hrunning Bool.false_ne_true, h.ready⟩,
          ⟨h.fd_item, h.item_fd, h.adding, h.pending, h.log⟩,
          ⟨h.listed, h.listed_le, h.listed_lt, h.mutex⟩, fun _ => rfl⟩
        hwaiting
  | work i env =>
      rw [tcpStep]
      cases hi : s.workers[i]? with
      | none =>
          exact goes_ok h hwaiting
      | some w =>
          exact goes_workStep env h hwaiting hi

theorem waiting_tcpInit (threads : Nat) : (tcpInit threads).Waiting := by
  intro j w hj _
  rw [List.eq_of_mem_replicate (List.mem_of_getElem? hj)]

theorem goes_run (h : s.Safe) (hwaiting : s.Waiting) (actions : List TcpAction) :
    Goes (run tcpStep s actions) := by
  induction actions generalizing s with
  | nil =>
      exact goes_ok h hwaiting
  | cons a actions ih =>
      rw [run]
      rcases goes_tcpStep h hwaiting a with ⟨s₁, hstep, hsafe, hwait⟩ | ⟨f, hstep, hf⟩
      · rw [hstep]
        exact ih hsafe hwait
      · rw [hstep]
        exact .inr ⟨f, rfl, hf⟩

/-- The threads do not get in each other's way. -/
structure Orderly (s : TcpMain) : Prop where
  /-- What a thread will use is there, and `epoll` reports it to nobody else. -/
  usable : ∀ a (i : Nat) w, s.workers[i]? = some w → 0 < TcpWorker.uses a w →
    (s.items.get a).isSome ∧ s.armed a = 0 ∧ TcpWorker.uses a w = 1
  /-- No two threads have the same connection. -/
  exclusive : ∀ a (i j : Nat) w w', s.workers[i]? = some w → s.workers[j]? = some w' →
    0 < TcpWorker.uses a w → 0 < TcpWorker.uses a w' → i = j
  /-- While the server runs, no connection is forgotten. -/
  remembered : s.running = true → ∀ a, (s.items.get a).isSome →
    s.armed a = 1 ∨ ∃ (i : Nat) (w : TcpWorker), s.workers[i]? = some w ∧ 0 < TcpWorker.uses a w
  /-- No two connections have the same descriptor, and all of them are open. -/
  connfd : ∀ a b n m, s.items.get a = some n → s.items.get b = some m →
    (s.fds n.connfd).isSome ∧ (n.connfd = m.connfd → a = b)
  /-- One thread at a time is behind the mutex. -/
  mutex : ∀ (i j : Nat) w w', s.workers[i]? = some w → s.workers[j]? = some w' →
    0 < w.locks → 0 < w'.locks → i = j
  /-- A descriptor is closed once for each time that it was accepted, or is open. -/
  log : ∀ fd, s.log.count (.opened fd) =
    s.log.count (.closed fd) + if (s.fds fd).isSome then 1 else 0

theorem Safe.total_uses_le (h : s.Safe) (a : Ref) :
    s.armed a + total (TcpWorker.uses a) s.workers ≤ if (s.items.get a).isSome then 1 else 0 :=
  h.held_le a

theorem Safe.orderly (h : s.Safe) : s.Orderly where
  usable := by
    intro a i w hi hpos
    have hle := h.total_uses_le a
    have huses := le_total (TcpWorker.uses a) hi
    split at hle
    · rename_i hsome
      exact ⟨hsome, by omega, by omega⟩
    · omega
  exclusive := by
    intro a i j w w' hi hj hw hw'
    have hle := h.total_uses_le a
    exact index_unique (by split at hle <;> omega) hi hj hw hw'
  remembered := by
    intro hrunning a hsome
    have heq : s.armed a + total (TcpWorker.uses a) s.workers = s.live a := h.held_eq hrunning a
    rw [live, if_pos hsome] at heq
    by_cases hpos : 0 < total (TcpWorker.uses a) s.workers
    · exact .inr (exists_of_total_pos hpos)
    · exact .inl (by omega)
  connfd := by
    intro a b n m hn hm
    exact ⟨h.isSome_connfd hn, h.connfd_inj hn hm⟩
  mutex := by
    intro i j w w' hi hj hw hw'
    have htotal := h.mutex
    exact index_unique (by split at htotal <;> omega) hi hj hw hw'
  log := h.log

/-- Whatever the threads and the world around them do in whatever order, the server uses no
connection and no descriptor that is gone, and the threads do not get in each other's
way, unless it ends because `accept` fails or a file is gone, or stays in a loop of calls
that never ends. -/
theorem tcpRun_orderly (threads : Nat) (actions : List TcpAction) :
    (∃ s, run tcpStep (tcpInit threads) actions = .ok s ∧ s.Orderly) ∨
      ∃ f, run tcpStep (tcpInit threads) actions = .error f ∧ Outside f := by
  rcases goes_run (safe_tcpInit threads) (waiting_tcpInit threads) actions with
    ⟨s, hrun, hsafe, -⟩ | hfault
  · exact .inl ⟨s, hrun, hsafe.orderly⟩
  · exact .inr hfault

/-! ## The end -/

/-- All threads have ended. -/
def Ended (s : TcpMain) : Prop :=
  ∀ w ∈ s.workers, w.task = .exit

instance (s : TcpMain) : Decidable s.Ended :=
  List.decidableBAll _ _

/-- The connections in the list are those that are there, each with its own
descriptor, and no other descriptor is open. -/
structure Closing (s : TcpMain) : Prop where
  nodup : s.list.Nodup
  mem_list : ∀ a, a ∈ s.list ↔ (s.items.get a).isSome
  item_fd : ∀ a n, s.items.get a = some n → ∃ armed, s.fds n.connfd = some (.watched a armed)
  fd_item : ∀ fd, (s.fds fd).isSome → ∃ a n, s.items.get a = some n ∧ n.connfd = fd
  log : ∀ fd, s.log.count (.opened fd) =
    s.log.count (.closed fd) + if (s.fds fd).isSome then 1 else 0

theorem Safe.closing (h : s.Safe) (hended : s.Ended) : s.Closing := by
  have hzero : ∀ f : TcpWorker → Nat, (∀ batch, f ⟨.exit, batch⟩ = 0) → total f s.workers = 0 := by
    intro f hf
    refine total_eq_zero fun w hw => ?_
    obtain ⟨task, batch⟩ := w
    obtain rfl : task = .exit := hended _ hw
    exact hf batch
  have hnotPlain : ∀ fd, s.fds fd ≠ some .plain := by
    intro fd hplain
    have hpending := h.pending fd
    rw [hzero _ fun _ => rfl, if_pos hplain] at hpending
    cases hpending
  refine ⟨List.nodup_iff_count_le_one.mpr h.listed_le, fun a => ?_, fun a n hn => ?_,
    fun fd hfd => ?_, h.log⟩
  · have hlisted := h.listed a
    rw [hzero _ fun _ => rfl, live] at hlisted
    rw [← List.count_pos_iff, hlisted]
    split <;> simp_all
  · exact (h.item_fd a n hn).resolve_right fun hplain => hnotPlain _ hplain.1
  · obtain ⟨state, hstate⟩ := Option.isSome_iff_exists.mp hfd
    cases state with
    | plain =>
        exact absurd hstate (hnotPlain fd)
    | watched a armed =>
        obtain ⟨n, hn, hnfd⟩ := h.fd_item fd a armed hstate
        exact ⟨a, n, hn, hnfd⟩

/-- The first connection of the list is gone, and its descriptor is closed. -/
theorem Closing.closed
    {s' : TcpMain} {item : Ref} {list : List Ref} {armed : Option TcpMode} {n : TcpClient}
    (h : s.Closing) (hlist : s.list = item :: list) (hn : s.items.get item = some n)
    (hfd : s.fds n.connfd = some (.watched item armed)) (hlist' : s'.list = list)
    (hget : s'.items.get item = none) (hrest : ∀ a ≠ item, s'.items.get a = s.items.get a)
    (hself : s'.fds n.connfd = none) (hother : ∀ fd ≠ n.connfd, s'.fds fd = s.fds fd)
    (hlog : s'.log = s.log ++ [.closed n.connfd]) : s'.Closing := by
  have hnodup := h.nodup
  rw [hlist, List.nodup_cons] at hnodup
  have hopen : (s.fds n.connfd).isSome = true := by
    rw [hfd]
    rfl
  -- Another connection has another descriptor.
  have hne : ∀ a m, a ≠ item → s.items.get a = some m → m.connfd ≠ n.connfd := by
    intro a m ha hm heq
    obtain ⟨armed', hfd'⟩ := h.item_fd a m hm
    rw [heq, hfd] at hfd'
    cases hfd'
    exact ha rfl
  refine ⟨?_, fun a => ?_, fun a m hm => ?_, fun fd hsome => ?_,
    log_closed h.log hopen hself hother hlog⟩
  · rw [hlist']
    exact hnodup.2
  · rw [hlist']
    by_cases ha : a = item
    · rw [ha, hget]
      exact iff_of_false hnodup.1 (by simp)
    · rw [hrest a ha, ← h.mem_list, hlist, List.mem_cons]
      exact (or_iff_right ha).symm
  · have ha : a ≠ item := by
      rintro rfl
      cases hget.symm.trans hm
    rw [hrest a ha] at hm
    rw [hother _ (hne a m ha hm)]
    exact h.item_fd a m hm
  · have hfdne : fd ≠ n.connfd := by
      rintro rfl
      rw [hself] at hsome
      cases hsome
    rw [hother fd hfdne] at hsome
    obtain ⟨a, m, hm, rfl⟩ := h.fd_item fd hsome
    have ha : a ≠ item := by
      rintro rfl
      cases hn.symm.trans hm
      exact hfdne rfl
    exact ⟨a, m, (hrest a ha).trans hm, rfl⟩

/-- One round of `node_free`. -/
theorem Closing.nodeClose {item : Ref} {list : List Ref} (h : s.Closing)
    (hlist : s.list = item :: list) :
    ∃ s', s.nodeClose item = .ok s' ∧ (s'.nodeUnlink item).Closing ∧
      (s'.nodeUnlink item).list = list := by
  obtain ⟨n, hn⟩ := Option.isSome_iff_exists.mp
    ((h.mem_list item).mp (hlist ▸ List.mem_cons_self ..))
  obtain ⟨armed, hfd⟩ := h.item_fd item n hn
  have herase : s.list.erase item = list := by
    rw [hlist, List.erase_cons_head]
  rw [TcpMain.nodeClose, hn]
  dsimp only
  rw [nodeDisconnect, hfd]
  refine ⟨{ (s.setFd n.connfd none).note (.closed n.connfd) with items := s.items.free item }, rfl,
    ?_, herase⟩
  exact h.closed hlist hn hfd herase (Heap.get_free_self _ _)
    (fun _ ha => Heap.get_free_of_ne _ ha) (setFd_fds_self ..) (fun _ hne => setFd_fds_of_ne _ hne)
    rfl

theorem Closing.nodeFree (h : s.Closing) (rounds : Nat) (hrounds : s.list.length ≤ rounds) :
    ∃ s', nodeFree rounds s = .ok s' ∧ s'.Closing ∧ s'.list = [] := by
  induction rounds generalizing s with
  | zero =>
      exact ⟨s, rfl, h, List.length_eq_zero_iff.mp (Nat.le_zero.mp hrounds)⟩
  | succ rounds ih =>
      cases hlist : s.list with
      | nil =>
          exact ⟨s, by rw [Torrentkino.nodeFree, hlist], h, hlist⟩
      | cons item list =>
          obtain ⟨s₁, hclose, hclosing, hrest⟩ := h.nodeClose hlist
          rw [hlist, List.length_cons] at hrounds
          obtain ⟨s', hfree, hs'⟩ := ih hclosing (by rw [hrest]; omega)
          refine ⟨s', ?_, hs'⟩
          rw [Torrentkino.nodeFree, hlist]
          dsimp only
          rw [hclose]
          exact hfree

/-- When all threads have ended, `node_free` closes what is left: no connection is there
any more, and every descriptor has been closed as often as it was accepted. -/
theorem nodeFree_allClosed {threads : Nat} {actions : List TcpAction}
    (hrun : run tcpStep (tcpInit threads) actions = .ok s) (hended : s.Ended) :
    ∃ s', nodeFree s.list.length s = .ok s' ∧ s'.list = [] ∧ (∀ a, s'.items.get a = none) ∧
      (∀ fd, s'.fds fd = none) ∧
      ∀ fd, s'.log.count (.opened fd) = s'.log.count (.closed fd) := by
  rcases goes_run (safe_tcpInit threads) (waiting_tcpInit threads) actions with
    ⟨s₁, hrun₁, hsafe, -⟩ | ⟨f, hrun₁, -⟩
  · cases hrun.symm.trans hrun₁
    obtain ⟨s', hfree, hclosing, hnil⟩ := (hsafe.closing hended).nodeFree _ (Nat.le_refl _)
    have hitems : ∀ a, s'.items.get a = none := by
      intro a
      have hnot := mt (hclosing.mem_list a).mpr (by rw [hnil]; exact List.not_mem_nil)
      exact Option.not_isSome_iff_eq_none.mp hnot
    have hfds : ∀ fd, s'.fds fd = none := by
      intro fd
      refine Option.not_isSome_iff_eq_none.mp fun hsome => ?_
      obtain ⟨a, n, hn, -⟩ := hclosing.fd_item fd hsome
      rw [hitems] at hn
      cases hn
    refine ⟨s', hfree, hnil, hitems, hfds, fun fd => ?_⟩
    rw [hclosing.log, hfds]
    rfl
  · rw [hrun] at hrun₁
    cases hrun₁

/-- A world in which nothing happens. -/
def quietEnv : Env where
  ready := []
  accept := .again
  recv := .again
  host := { home := [], file := [], files := fun _ => none, magic := fun _ => none, now := 0 }
  socket := acceptAll
  fuel := 0
  srv := { mime := hashInit 1 Nat.one_pos, random := ⟨fun _ => 0, fun _ => 0⟩ }

/-- A thread accepts a connection, then both threads end. -/
def acceptOne : List TcpAction :=
  [.work 0 { quietEnv with ready := [.listener] }, .work 0 quietEnv,
    .work 0 { quietEnv with accept := .conn 7 }, .work 0 quietEnv, .work 0 quietEnv,
    .work 0 quietEnv, .work 0 quietEnv, .signal, .work 1 quietEnv, .work 0 quietEnv]

theorem nodeFree_allClosed_acceptOne :
    ∃ s s', run tcpStep (tcpInit 2) acceptOne = .ok s ∧ s.list = [0] ∧
      nodeFree s.list.length s = .ok s' ∧ s'.list = [] ∧ (∀ a, s'.items.get a = none) ∧
        (∀ fd, s'.fds fd = none) ∧
          ∀ fd, s'.log.count (.opened fd) = s'.log.count (.closed fd) := by
  obtain ⟨s', hs'⟩ := @nodeFree_allClosed _ 2 acceptOne rfl (by decide)
  exact ⟨_, s', rfl, rfl, hs'⟩

end TcpMain
end Torrentkino
