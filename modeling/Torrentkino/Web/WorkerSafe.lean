import Mathlib.Data.Fintype.Card
import Torrentkino.Lib.Shares
import Torrentkino.Web.Worker

/-!
# The worker threads do not get in each other's way

Whatever the threads do in between, a connection is either armed in `epoll` or
with exactly one thread.  This is an invariant of single steps: `epoll_wait` takes
a connection out of the kernel, `tcp_rearm` gives it back, `node_shutdown` is the
end of it.  The other invariants follow the descriptors from `accept` to `close`.
-/

namespace Torrentkino

open Memory CString Decimal Shares Simulation

/-! ## What a thread holds -/

/-- The connection that the thread is at. -/
def TcpTask.item? : TcpTask → Option Ref
  | .add item _ | .serve item _ | .gate item | .shutdown item | .disconnect item => some item
  | _ => none

/-- The connection of an event. -/
def TcpEvent.item? : TcpEvent → Option Ref
  | .listener => none
  | .client item _ => some item

/-- The connection of an event that leads to `tcp_input`. -/
def TcpEvent.input? : TcpEvent → Option Ref
  | .client item ⟨true, _⟩ => some item
  | _ => none

/-- The thread is in no section of `tcp_newconn` or `node_shutdown`. -/
def TcpTask.passive : TcpTask → Bool
  | .accepted _ | .add _ _ | .disconnect _ | .unlink _ => false
  | _ => true

namespace TcpWorker

/-- How often the thread will use the connection. -/
def uses (a : Ref) (w : TcpWorker) : Nat :=
  (w.task.item? :: w.batch.map TcpEvent.item?).count (some a)

/-- How often the thread will call `tcp_input` for the connection. -/
def reads (a : Ref) (w : TcpWorker) : Nat :=
  (if w.task = .serve a .input then 1 else 0) + (w.batch.map TcpEvent.input?).count (some a)

/-- The thread has got the descriptor from `accept`, and `epoll` does not know
it yet. -/
def pends (fd : Fd) (w : TcpWorker) : Nat :=
  match w.task with
  | .accepted connfd | .add _ connfd => if connfd = fd then 1 else 0
  | _ => 0

/-- The thread will register the connection. -/
def adds (a : Ref) (fd : Fd) (w : TcpWorker) : Nat :=
  if w.task = .add a fd then 1 else 0

/-- The thread will take the connection out of the list. -/
def unlinks (a : Ref) (w : TcpWorker) : Nat :=
  if w.task = .unlink a then 1 else 0

/-- The thread is behind the mutex. -/
def locks (w : TcpWorker) : Nat :=
  match w.task with
  | .disconnect _ | .unlink _ => 1
  | _ => 0

/-- The thread has ended. -/
def ended (w : TcpWorker) : Nat :=
  if w.task = .exit then 1 else 0

theorem uses_eq (a : Ref) (w : TcpWorker) :
    uses a w = uses a ⟨.loop, w.batch⟩ + if w.task.item? = some a then 1 else 0 := by
  have hloop : TcpTask.loop.item? = none := rfl
  simp only [uses, List.count_cons, beq_iff_eq, hloop, reduceCtorEq, if_false, Nat.add_zero]

theorem uses_of_item_ne {a item : Ref} {task : TcpTask} (batch : List TcpEvent)
    (h : task.item? = some item) (ha : a ≠ item) :
    uses a ⟨task, batch⟩ = uses a ⟨.loop, batch⟩ := by
  rw [uses_eq, if_neg]
  · rfl
  · rw [h]
    exact fun heq => ha (Option.some.inj heq).symm

theorem uses_pos {a : Ref} {w : TcpWorker} (h : w.task.item? = some a) : 0 < uses a w := by
  rw [uses_eq, if_pos h]
  omega

theorem uses_append (a : Ref) (task : TcpTask) (batch : List TcpEvent) (e : TcpEvent) :
    uses a ⟨task, batch ++ [e]⟩ = uses a ⟨task, batch⟩ + if e.item? = some a then 1 else 0 := by
  simp only [uses, List.count_cons, List.map_append, List.count_append, List.map_cons, List.map_nil,
    List.count_nil, beq_iff_eq]
  omega

theorem reads_append (a : Ref) (task : TcpTask) (batch : List TcpEvent) (e : TcpEvent) :
    reads a ⟨task, batch ++ [e]⟩ = reads a ⟨task, batch⟩ + if e.input? = some a then 1 else 0 := by
  simp only [reads, List.count_cons, List.map_append, List.count_append, List.map_cons,
    List.map_nil, List.count_nil, beq_iff_eq]
  omega

theorem reads_le_uses (a : Ref) (w : TcpWorker) : reads a w ≤ uses a w := by
  have hbatch : ∀ batch : List TcpEvent, (batch.map TcpEvent.input?).count (some a) ≤
      (batch.map TcpEvent.item?).count (some a) := by
    intro batch
    induction batch with
    | nil =>
        exact Nat.le_refl _
    | cons e batch ih =>
        have he : e.input? = some a → e.item? = some a := by
          intro h
          cases e with
          | listener =>
              cases h
          | client item bits =>
              obtain ⟨input, output⟩ := bits
              cases input with
              | true => exact h
              | false => cases h
        simp only [List.map_cons, List.count_cons, beq_iff_eq]
        by_cases h : e.input? = some a
        · rw [if_pos h, if_pos (he h)]
          omega
        · rw [if_neg h]
          omega
  have htask : w.task = .serve a .input → w.task.item? = some a := by
    intro h
    rw [h]
    rfl
  have hle := hbatch w.batch
  simp only [reads, uses, List.count_cons, beq_iff_eq]
  by_cases h : w.task = .serve a .input
  · rw [if_pos h, if_pos (htask h)]
    omega
  · rw [if_neg h]
    omega

theorem task_of_adds_pos {a : Ref} {fd : Fd} {w : TcpWorker} (h : 0 < adds a fd w) :
    w.task = .add a fd := by
  by_contra hne
  rw [adds, if_neg hne] at h
  exact absurd h (Nat.lt_irrefl 0)

theorem task_of_unlinks_pos {a : Ref} {w : TcpWorker} (h : 0 < unlinks a w) :
    w.task = .unlink a := by
  by_contra hne
  rw [unlinks, if_neg hne] at h
  exact absurd h (Nat.lt_irrefl 0)

/-- The thread does not come to another section of `tcp_newconn` or
`node_shutdown`. -/
structure Keeps (w w' : TcpWorker) : Prop where
  pends : ∀ fd, pends fd w' = pends fd w
  adds : ∀ a fd, adds a fd w' = adds a fd w
  unlinks : ∀ a, unlinks a w' = unlinks a w
  locks : w'.locks = w.locks

theorem keeps_of_passive {task task' : TcpTask} {batch batch' : List TcpEvent}
    (h : task.passive = true) (h' : task'.passive = true) :
    Keeps ⟨task, batch⟩ ⟨task', batch'⟩ := by
  have hzero : ∀ {t : TcpTask} {b : List TcpEvent}, t.passive = true →
      (∀ fd, pends fd ⟨t, b⟩ = 0) ∧ (∀ a fd, adds a fd ⟨t, b⟩ = 0) ∧
        (∀ a, unlinks a ⟨t, b⟩ = 0) ∧ locks ⟨t, b⟩ = 0 := by
    intro t b ht
    cases t <;> first | exact ⟨fun _ => rfl, fun _ _ => rfl, fun _ => rfl, rfl⟩ | cases ht
  obtain ⟨hpends, hadds, hunlinks, hlocks⟩ := @hzero task batch h
  obtain ⟨hpends', hadds', hunlinks', hlocks'⟩ := @hzero task' batch' h'
  exact ⟨fun fd => by rw [hpends, hpends'], fun a fd => by rw [hadds, hadds'],
    fun a => by rw [hunlinks, hunlinks'], by rw [hlocks, hlocks']⟩

end TcpWorker

/-- The descriptor is armed for the connection. -/
def FdState.arms (a : Ref) : Option FdState → Nat
  | some (.watched item (some _)) => if item = a then 1 else 0
  | _ => 0

namespace TcpMain

/-- Whether the connection is there. -/
def live (s : TcpMain) (a : Ref) : Nat :=
  if (s.items.get a).isSome then 1 else 0

/-- Whether `epoll` may report the connection. -/
def armed (s : TcpMain) (a : Ref) : Nat :=
  match s.items.get a with
  | none => 0
  | some n => FdState.arms a (s.fds n.connfd)

/-- How many times the connection is in the hands of `epoll` or a thread. -/
def held (s : TcpMain) (a : Ref) : Nat :=
  s.armed a + total (TcpWorker.uses a) s.workers

/-- Who will come to a connection next. -/
structure Owned (s : TcpMain) : Prop where
  held_le : ∀ a, s.held a ≤ s.live a
  held_eq : s.running = true → ∀ a, s.held a = s.live a
  /-- Data is read from connections only that wait for a request. -/
  ready : ∀ a n, s.items.get a = some n →
    s.fds n.connfd = some (.watched a (some .input)) ∨ 0 < total (TcpWorker.reads a) s.workers →
      n.node.pipeline = .ready

/-- The descriptors of the connections. -/
structure Registered (s : TcpMain) : Prop where
  fd_item : ∀ fd a armed, s.fds fd = some (.watched a armed) →
    ∃ n, s.items.get a = some n ∧ n.connfd = fd
  item_fd : ∀ a n, s.items.get a = some n →
    (∃ armed, s.fds n.connfd = some (.watched a armed)) ∨
      s.fds n.connfd = some .plain ∧ 0 < total (TcpWorker.adds a n.connfd) s.workers
  adding : ∀ a fd, 0 < total (TcpWorker.adds a fd) s.workers →
    ∃ n, s.items.get a = some n ∧ n.connfd = fd ∧ n.node.pipeline = .ready
  pending : ∀ fd, total (TcpWorker.pends fd) s.workers = if s.fds fd = some .plain then 1 else 0
  log : ∀ fd, s.log.count (.opened fd) =
    s.log.count (.closed fd) + if (s.fds fd).isSome then 1 else 0

/-- The list of the connections and its mutex. -/
structure Listed (s : TcpMain) : Prop where
  listed : ∀ a, s.list.count a = s.live a + total (TcpWorker.unlinks a) s.workers
  listed_le : ∀ a, s.list.count a ≤ 1
  listed_lt : ∀ a, 0 < s.list.count a → a < s.items.fresh
  mutex : total TcpWorker.locks s.workers = if s.mutex.isSome then 1 else 0

/-- The invariant of the process. -/
structure Safe (s : TcpMain) : Prop extends Owned s, Registered s, Listed s where
  ended : 0 < total TcpWorker.ended s.workers → s.running = false

/-- The step of thread `i`. -/
structure Moves (s s' : TcpMain) (i : Nat) (w w' : TcpWorker) : Prop where
  before : s.workers[i]? = some w
  after : s'.workers = s.workers.set i w'
  running : s'.running = s.running

variable {s s' : TcpMain} {i : Nat} {w w' : TcpWorker} {item : Ref} {n : TcpClient}

theorem safe_tcpInit (threads : Nat) : (tcpInit threads).Safe := by
  have hzero : ∀ f : TcpWorker → Nat, f ⟨.wait, []⟩ = 0 →
      total f (tcpInit threads).workers = 0 := by
    intro f hf
    refine total_eq_zero fun w hw => ?_
    rw [List.eq_of_mem_replicate hw, hf]
  have hheld : ∀ a, (tcpInit threads).held a = 0 := by
    intro a
    rw [held, hzero _ rfl]
    rfl
  have hnone : ∀ {f : TcpWorker → Nat}, f ⟨.wait, []⟩ = 0 →
      ¬ 0 < total f (tcpInit threads).workers := by
    intro f hf hpos
    rw [hzero f hf] at hpos
    exact Nat.lt_irrefl 0 hpos
  refine ⟨⟨fun a => ?_, fun _ a => ?_, fun a n hn => ?_⟩,
    ⟨fun fd a armed hfd => ?_, fun a n hn => ?_, fun a fd hadds => ?_, fun fd => hzero _ rfl,
      fun fd => rfl⟩,
    ⟨fun a => ?_, fun a => ?_, fun a hpos => ?_, hzero _ rfl⟩,
    fun hended => absurd hended (hnone rfl)⟩
  · rw [hheld]
    exact Nat.zero_le _
  · rw [hheld]
    rfl
  · cases hn
  · cases hfd
  · cases hn
  · exact absurd hadds (hnone rfl)
  · rw [hzero _ rfl]
    rfl
  · exact Nat.zero_le _
  · exact absurd hpos (Nat.lt_irrefl 0)

/-! ## What a step leaves as it was -/

theorem armed_of_get {a : Ref} (hn : s.items.get a = some n) :
    s.armed a = FdState.arms a (s.fds n.connfd) := by
  rw [armed, hn]

theorem armed_of_none {a : Ref} (hn : s.items.get a = none) : s.armed a = 0 := by
  rw [armed, hn]

theorem armed_congr {a : Ref} (hitems : s'.items.get a = s.items.get a)
    (hfds : ∀ n, s.items.get a = some n → s'.fds n.connfd = s.fds n.connfd) :
    s'.armed a = s.armed a := by
  cases hn : s.items.get a with
  | none =>
      rw [armed_of_none hn, armed_of_none (hitems.trans hn)]
  | some n =>
      rw [armed_of_get hn, armed_of_get (hitems.trans hn), hfds n hn]

theorem live_congr {a : Ref} (hitems : s'.items.get a = s.items.get a) : s'.live a = s.live a := by
  rw [live, live, hitems]

theorem count_opened_opened (log : List FdEvent) (fd fd' : Fd) :
    (log ++ [FdEvent.opened fd]).count (.opened fd') =
      log.count (.opened fd') + if fd' = fd then 1 else 0 := by
  rw [List.count_append, List.count_singleton]
  by_cases h : fd' = fd
  · simp [h]
  · simp [h, Ne.symm h]

theorem count_closed_opened (log : List FdEvent) (fd fd' : Fd) :
    (log ++ [FdEvent.opened fd]).count (.closed fd') = log.count (.closed fd') := by
  simp [List.count_append]

theorem count_closed_closed (log : List FdEvent) (fd fd' : Fd) :
    (log ++ [FdEvent.closed fd]).count (.closed fd') =
      log.count (.closed fd') + if fd' = fd then 1 else 0 := by
  rw [List.count_append, List.count_singleton]
  by_cases h : fd' = fd
  · simp [h]
  · simp [h, Ne.symm h]

theorem count_opened_closed (log : List FdEvent) (fd fd' : Fd) :
    (log ++ [FdEvent.closed fd]).count (.opened fd') = log.count (.opened fd') := by
  simp [List.count_append]

namespace Moves

theorem goto (hi : s.workers[i]? = some w) (task : TcpTask) (batch : List TcpEvent) :
    Moves s (s.goto i task batch) i w ⟨task, batch⟩ :=
  ⟨hi, rfl, rfl⟩

/-- What the threads hold when thread `i` goes on. -/
theorem sum (hmoves : Moves s s' i w w') (f : TcpWorker → Nat) :
    total f s'.workers + f w = total f s.workers + f w' := by
  rw [hmoves.after]
  exact total_set f hmoves.before w'

theorem same {f : TcpWorker → Nat} (hmoves : Moves s s' i w w') (hf : f w' = f w) :
    total f s'.workers = total f s.workers := by
  have := hmoves.sum f
  omega

theorem sum_le {f : TcpWorker → Nat} (hmoves : Moves s s' i w w') (hf : f w' ≤ f w) :
    total f s'.workers ≤ total f s.workers := by
  have := hmoves.sum f
  omega

theorem owned (hmoves : Moves s s' i w w') (h : s.Owned) (hheld : ∀ a, s'.held a = s.held a)
    (hlive : ∀ a, s'.live a = s.live a)
    (hready : ∀ a n, s'.items.get a = some n →
      s'.fds n.connfd = some (.watched a (some .input)) ∨ 0 < total (TcpWorker.reads a) s'.workers →
        n.node.pipeline = .ready) : s'.Owned where
  held_le := by
    intro a
    rw [hheld, hlive]
    exact h.held_le a
  held_eq := by
    intro hrunning a
    rw [hmoves.running] at hrunning
    rw [hheld, hlive]
    exact h.held_eq hrunning a
  ready := hready

theorem ready (hmoves : Moves s s' i w w') (h : s.Owned) (hfds : s'.fds = s.fds)
    (hitems : s'.items = s.items) (hreads : ∀ a, TcpWorker.reads a w' ≤ TcpWorker.reads a w) :
    ∀ a n, s'.items.get a = some n →
      s'.fds n.connfd = some (.watched a (some .input)) ∨ 0 < total (TcpWorker.reads a) s'.workers →
        n.node.pipeline = .ready := by
  intro a n hn hpos
  rw [hitems] at hn
  rw [hfds] at hpos
  exact h.ready a n hn (hpos.imp id fun hpos => Nat.lt_of_lt_of_le hpos (hmoves.sum_le (hreads a)))

theorem registered (hmoves : Moves s s' i w w') (h : s.Registered) (hfds : s'.fds = s.fds)
    (hitems : s'.items = s.items) (hlog : s'.log = s.log)
    (hadds : ∀ a fd, TcpWorker.adds a fd w' = TcpWorker.adds a fd w)
    (hpends : ∀ fd, TcpWorker.pends fd w' = TcpWorker.pends fd w) : s'.Registered where
  fd_item := by
    rw [hfds, hitems]
    exact h.fd_item
  item_fd := by
    intro a n hn
    rw [hitems] at hn
    rw [hfds, hmoves.same (hadds a n.connfd)]
    exact h.item_fd a n hn
  adding := by
    intro a fd hpos
    rw [hmoves.same (hadds a fd)] at hpos
    rw [hitems]
    exact h.adding a fd hpos
  pending := by
    intro fd
    rw [hmoves.same (hpends fd), hfds]
    exact h.pending fd
  log := by
    rw [hfds, hlog]
    exact h.log

/-- No descriptor is accepted, and none is registered. -/
theorem pending (hmoves : Moves s s' i w w') (h : s.Registered)
    (hpends : ∀ fd, TcpWorker.pends fd w' = TcpWorker.pends fd w)
    (hplain : ∀ fd, s'.fds fd = some .plain ↔ s.fds fd = some .plain) (fd : Fd) :
    total (TcpWorker.pends fd) s'.workers = if s'.fds fd = some .plain then 1 else 0 := by
  rw [hmoves.same (hpends fd), h.pending fd]
  simp only [hplain]

theorem listed (hmoves : Moves s s' i w w') (h : s.Listed) (hlist : s'.list = s.list)
    (hlive : ∀ a, s'.live a = s.live a) (hfresh : s'.items.fresh = s.items.fresh)
    (hmutex : s'.mutex = s.mutex) (hunlinks : ∀ a, TcpWorker.unlinks a w' = TcpWorker.unlinks a w)
    (hlocks : w'.locks = w.locks) : s'.Listed where
  listed := by
    intro a
    rw [hlist, hlive, hmoves.same (hunlinks a)]
    exact h.listed a
  listed_le := by
    rw [hlist]
    exact h.listed_le
  listed_lt := by
    rw [hlist, hfresh]
    exact h.listed_lt
  mutex := by
    rw [hmoves.same hlocks, hmutex]
    exact h.mutex

/-- Threads end only when the server does. -/
theorem ended (hmoves : Moves s s' i w w') (h : s.Safe)
    (hexit : s.running = true → w'.task ≠ .exit) (hpos : 0 < total TcpWorker.ended s'.workers) :
    s'.running = false := by
  rw [hmoves.running]
  by_contra hrunning
  rw [Bool.not_eq_false] at hrunning
  have hsum := hmoves.sum TcpWorker.ended
  have hzero : w'.ended = 0 := if_neg (hexit hrunning)
  have := h.ended (by omega)
  rw [hrunning] at this
  cases this

end Moves

/-! ## Steps at one connection -/

/-- The step of thread `i` is about one connection: what the others keep. -/
structure MovesAt (s s' : TcpMain) (i : Nat) (w w' : TcpWorker) (item : Ref) : Prop extends
    Moves s s' i w w' where
  get_of_ne : ∀ a ≠ item, s'.items.get a = s.items.get a
  fds_of_ne : ∀ a ≠ item, ∀ n, s.items.get a = some n → s'.fds n.connfd = s.fds n.connfd
  /-- No descriptor is registered for another connection. -/
  watched_of_ne : ∀ a ≠ item, ∀ fd armed, s'.fds fd = some (.watched a armed) →
    s.fds fd = some (.watched a armed)
  uses_of_ne : ∀ a ≠ item, TcpWorker.uses a w' = TcpWorker.uses a w
  reads_of_ne : ∀ a ≠ item, TcpWorker.reads a w' ≤ TcpWorker.reads a w
  adds_of_ne : ∀ a ≠ item, ∀ fd, TcpWorker.adds a fd w' = TcpWorker.adds a fd w

namespace MovesAt

theorem live_of_ne {a : Ref} (hat : MovesAt s s' i w w' item) (ha : a ≠ item) :
    s'.live a = s.live a :=
  live_congr (hat.get_of_ne a ha)

theorem held_of_ne {a : Ref} (hat : MovesAt s s' i w w' item) (ha : a ≠ item) :
    s'.held a = s.held a := by
  rw [held, held, armed_congr (hat.get_of_ne a ha) (hat.fds_of_ne a ha),
    hat.same (hat.uses_of_ne a ha)]

/-- The connection comes and goes together with the one that holds it. -/
theorem owned (hat : MovesAt s s' i w w' item) (h : s.Owned)
    (hitem : s'.held item + s.live item = s.held item + s'.live item)
    (hready : ∀ n, s'.items.get item = some n →
      s'.fds n.connfd = some (.watched item (some .input)) ∨
        0 < total (TcpWorker.reads item) s'.workers → n.node.pipeline = .ready) : s'.Owned where
  held_le := by
    intro a
    have hle := h.held_le a
    by_cases ha : a = item
    · subst ha
      omega
    · rw [hat.held_of_ne ha, hat.live_of_ne ha]
      exact hle
  held_eq := by
    intro hrunning a
    rw [hat.running] at hrunning
    have heq := h.held_eq hrunning a
    by_cases ha : a = item
    · subst ha
      omega
    · rw [hat.held_of_ne ha, hat.live_of_ne ha]
      exact heq
  ready := by
    intro a n hn hpos
    by_cases ha : a = item
    · subst ha
      exact hready n hn hpos
    · rw [hat.get_of_ne a ha] at hn
      rw [hat.fds_of_ne a ha n hn] at hpos
      exact h.ready a n hn (hpos.imp id fun hpos =>
        Nat.lt_of_lt_of_le hpos (hat.sum_le (hat.reads_of_ne a ha)))

theorem registered (hat : MovesAt s s' i w w' item) (h : s.Registered)
    (hfd : ∀ fd armed, s'.fds fd = some (.watched item armed) →
      ∃ n, s'.items.get item = some n ∧ n.connfd = fd)
    (hitem : ∀ n, s'.items.get item = some n →
      (∃ armed, s'.fds n.connfd = some (.watched item armed)) ∨
        s'.fds n.connfd = some .plain ∧ 0 < total (TcpWorker.adds item n.connfd) s'.workers)
    (hadding : ∀ fd, 0 < total (TcpWorker.adds item fd) s'.workers →
      ∃ n, s'.items.get item = some n ∧ n.connfd = fd ∧ n.node.pipeline = .ready)
    (hpending : ∀ fd,
      total (TcpWorker.pends fd) s'.workers = if s'.fds fd = some .plain then 1 else 0)
    (hlog : ∀ fd, s'.log.count (.opened fd) =
      s'.log.count (.closed fd) + if (s'.fds fd).isSome then 1 else 0) : s'.Registered where
  fd_item := by
    intro fd a armed hwatched
    by_cases ha : a = item
    · subst ha
      exact hfd fd armed hwatched
    · rw [hat.get_of_ne a ha]
      exact h.fd_item fd a armed (hat.watched_of_ne a ha fd armed hwatched)
  item_fd := by
    intro a n hn
    by_cases ha : a = item
    · subst ha
      exact hitem n hn
    · rw [hat.get_of_ne a ha] at hn
      rw [hat.fds_of_ne a ha n hn, hat.same (hat.adds_of_ne a ha n.connfd)]
      exact h.item_fd a n hn
  adding := by
    intro a fd hpos
    by_cases ha : a = item
    · subst ha
      exact hadding fd hpos
    · rw [hat.same (hat.adds_of_ne a ha fd)] at hpos
      rw [hat.get_of_ne a ha]
      exact h.adding a fd hpos
  pending := hpending
  log := hlog

end MovesAt

/-! ## Steps of a thread alone -/

/-- Thread `i` goes on, and nothing else happens. -/
theorem Safe.goto (h : s.Safe) (hi : s.workers[i]? = some w) (task : TcpTask)
    (batch : List TcpEvent) (hkeeps : TcpWorker.Keeps w ⟨task, batch⟩)
    (hreads : ∀ a, TcpWorker.reads a ⟨task, batch⟩ ≤ TcpWorker.reads a w)
    (huses : ∀ a, TcpWorker.uses a ⟨task, batch⟩ ≤ TcpWorker.uses a w)
    (hruns : s.running = true →
      (∀ a, TcpWorker.uses a ⟨task, batch⟩ = TcpWorker.uses a w) ∧ task ≠ .exit) :
    (s.goto i task batch).Safe := by
  have hmoves := Moves.goto hi task batch
  refine ⟨⟨fun a => ?_, fun hrunning a => ?_, hmoves.ready h.toOwned rfl rfl hreads⟩,
    hmoves.registered h.toRegistered rfl rfl rfl hkeeps.adds hkeeps.pends,
    hmoves.listed h.toListed rfl (fun _ => rfl) rfl rfl hkeeps.unlinks hkeeps.locks,
    hmoves.ended h fun hrunning => (hruns hrunning).2⟩
  · exact Nat.le_trans (Nat.add_le_add_left (hmoves.sum_le (huses a)) _) (h.held_le a)
  · exact (congrArg (s.armed a + ·) (hmoves.same ((hruns hrunning).1 a))).trans
      (h.held_eq hrunning a)

/-- The thread goes on among the tasks that concern nobody else. -/
theorem Safe.pass {task task' : TcpTask} {batch batch' : List TcpEvent} (h : s.Safe)
    (hi : s.workers[i]? = some ⟨task, batch⟩) (hpassive : task.passive = true)
    (hpassive' : task'.passive = true)
    (hreads : ∀ a, TcpWorker.reads a ⟨task', batch'⟩ ≤ TcpWorker.reads a ⟨task, batch⟩)
    (huses : ∀ a, TcpWorker.uses a ⟨task', batch'⟩ = TcpWorker.uses a ⟨task, batch⟩)
    (hexit : task' ≠ .exit) : (s.goto i task' batch').Safe :=
  h.goto hi task' batch' (TcpWorker.keeps_of_passive hpassive hpassive') hreads
    (fun a => Nat.le_of_eq (huses a)) fun _ => ⟨huses, hexit⟩

/-! ## Steps on the descriptor of a connection -/

/-- Two connections have two descriptors. -/
theorem Registered.connfd_inj {a b : Ref} {n m : TcpClient} (h : s.Registered)
    (ha : s.items.get a = some n) (hb : s.items.get b = some m) (hfd : n.connfd = m.connfd) :
    a = b := by
  rcases h.item_fd a n ha with ⟨arm, hn⟩ | ⟨hn, haddn⟩
  · rcases h.item_fd b m hb with ⟨arm', hm⟩ | ⟨hm, -⟩
    · rw [hfd, hm] at hn
      cases hn
      rfl
    · rw [hfd, hm] at hn
      cases hn
  · rcases h.item_fd b m hb with ⟨arm', hm⟩ | ⟨hm, haddm⟩
    · rw [hfd, hm] at hn
      cases hn
    · -- Both would be registered by the one thread that has got the descriptor.
      obtain ⟨i, w, hi, hw⟩ := exists_of_total_pos haddn
      obtain ⟨j, w', hj, hw'⟩ := exists_of_total_pos haddm
      have htask := TcpWorker.task_of_adds_pos hw
      have htask' := TcpWorker.task_of_adds_pos hw'
      have hone := h.pending n.connfd
      rw [if_pos hn] at hone
      have hij := index_unique (Nat.le_of_eq hone) hi hj
        (by simp [TcpWorker.pends, htask]) (by simp [TcpWorker.pends, htask', hfd])
      subst hij
      cases hi.symm.trans hj
      injection htask.symm.trans htask'

/-- The descriptor of a connection is in use. -/
theorem Registered.isSome_connfd (h : s.Registered) (hn : s.items.get item = some n) :
    (s.fds n.connfd).isSome = true := by
  rcases h.item_fd item n hn with ⟨armed, hfd⟩ | ⟨hfd, -⟩
  · rw [hfd]
    rfl
  · rw [hfd]
    rfl

/-- No connection has a descriptor that is not in use. -/
theorem Registered.connfd_ne {fd : Fd} (h : s.Registered) (hfree : s.fds fd = none)
    (hn : s.items.get item = some n) : n.connfd ≠ fd := by
  rintro rfl
  have hopen := h.isSome_connfd hn
  rw [hfree] at hopen
  cases hopen

theorem setFd_fds_self (s : TcpMain) (fd : Fd) (state : Option FdState) :
    (s.setFd fd state).fds fd = state :=
  Function.update_self ..

theorem setFd_fds_of_ne {fd fd' : Fd} (state : Option FdState) (h : fd' ≠ fd) :
    (s.setFd fd state).fds fd' = s.fds fd' :=
  Function.update_of_ne h ..

/-- Another connection has another descriptor. -/
theorem Registered.setFd_fds {a : Ref} {m : TcpClient} (h : s.Registered)
    (hn : s.items.get item = some n) (ha : a ≠ item) (hm : s.items.get a = some m)
    (state : Option FdState) : (s.setFd n.connfd state).fds m.connfd = s.fds m.connfd :=
  setFd_fds_of_ne state fun hfd => ha (h.connfd_inj hm hn hfd)

theorem watched_of_setFd {a : Ref} {fd fd' : Fd} {state : Option FdState} {armed : Option TcpMode}
    (hstate : state ≠ some (.watched a armed))
    (hwatched : (s.setFd fd state).fds fd' = some (.watched a armed)) :
    s.fds fd' = some (.watched a armed) := by
  by_cases hne : fd' = fd
  · rw [hne, setFd_fds_self] at hwatched
    exact absurd hwatched hstate
  · rwa [setFd_fds_of_ne state hne] at hwatched

/-- The descriptor that the thread has got from `accept` is no longer plain. -/
theorem Registered.pending_of_watched {armed' : Option TcpMode} (h : s.Registered)
    (hmoves : Moves s s' i w w') (hself : s'.fds n.connfd = some (.watched item armed'))
    (hother : ∀ fd ≠ n.connfd, s'.fds fd = s.fds fd)
    (hpends : ∀ fd, TcpWorker.pends fd w' +
      (if fd = n.connfd ∧ s.fds fd = some .plain then 1 else 0) = TcpWorker.pends fd w) (fd : Fd) :
    total (TcpWorker.pends fd) s'.workers = if s'.fds fd = some .plain then 1 else 0 := by
  have hsum := hmoves.sum (TcpWorker.pends fd)
  have hone := hpends fd
  have hpending := h.pending fd
  by_cases hne : fd = n.connfd
  · rw [hne, hself, if_neg (by simp), ← hne]
    simp only [hne, true_and] at hone hpending hsum ⊢
    omega
  · rw [if_neg fun hboth => hne hboth.1] at hone
    rw [hother fd hne]
    omega

/-- The descriptor is registered with `epoll`, where it may have been before. -/
theorem Registered.watch {armed' : Option TcpMode} (h : s.Registered)
    (hat : MovesAt s s' i w w' item) (hn : s.items.get item = some n)
    (hitems : s'.items = s.items) (hlog : s'.log = s.log)
    (hself : s'.fds n.connfd = some (.watched item armed'))
    (hother : ∀ fd ≠ n.connfd, s'.fds fd = s.fds fd)
    (hadds : ∀ fd, TcpWorker.adds item fd w' ≤ TcpWorker.adds item fd w)
    (hpends : ∀ fd, TcpWorker.pends fd w' +
      (if fd = n.connfd ∧ s.fds fd = some .plain then 1 else 0) = TcpWorker.pends fd w) :
    s'.Registered := by
  have hget : s'.items.get item = some n := by rw [hitems, hn]
  refine hat.registered h (fun fd armed hwatched => ?_) (fun m hm => ?_) (fun fd hpos => ?_)
    (h.pending_of_watched hat.toMoves hself hother hpends) (fun fd => ?_)
  · by_cases hne : fd = n.connfd
    · exact ⟨n, hget, hne.symm⟩
    · rw [hother fd hne] at hwatched
      rw [hitems]
      exact h.fd_item fd item armed hwatched
  · cases hget.symm.trans hm
    exact .inl ⟨armed', hself⟩
  · rw [hitems]
    exact h.adding item fd (Nat.lt_of_lt_of_le hpos (hat.sum_le (hadds fd)))
  · have hopen : (s'.fds fd).isSome = (s.fds fd).isSome := by
      by_cases hne : fd = n.connfd
      · rw [hne, hself, h.isSome_connfd hn]
        rfl
      · rw [hother fd hne]
    rw [hlog, hopen]
    exact h.log fd

/-- The descriptor of a connection is registered or armed, or reported: it goes from thread `i`
to `epoll` or back. -/
theorem Safe.watch (armed' : Option TcpMode) (task : TcpTask) (batch : List TcpEvent) (h : s.Safe)
    (hi : s.workers[i]? = some w) (hn : s.items.get item = some n)
    (huses : FdState.arms item (some (.watched item armed')) + TcpWorker.uses item ⟨task, batch⟩ =
      FdState.arms item (s.fds n.connfd) + TcpWorker.uses item w)
    (hothers : ∀ a ≠ item, TcpWorker.uses a ⟨task, batch⟩ = TcpWorker.uses a w ∧
      TcpWorker.reads a ⟨task, batch⟩ ≤ TcpWorker.reads a w ∧
        ∀ fd, TcpWorker.adds a fd ⟨task, batch⟩ = TcpWorker.adds a fd w)
    (hadds : ∀ fd, TcpWorker.adds item fd ⟨task, batch⟩ ≤ TcpWorker.adds item fd w)
    (hpends : ∀ fd, TcpWorker.pends fd ⟨task, batch⟩ +
      (if fd = n.connfd ∧ s.fds fd = some .plain then 1 else 0) = TcpWorker.pends fd w)
    (hunlinks : ∀ a, TcpWorker.unlinks a ⟨task, batch⟩ = TcpWorker.unlinks a w)
    (hlocks : TcpWorker.locks ⟨task, batch⟩ = w.locks)
    (hready : armed' = some .input ∨
      0 < total (TcpWorker.reads item) (s.workers.set i ⟨task, batch⟩) → n.node.pipeline = .ready)
    (hexit : task ≠ .exit) :
    ((s.setFd n.connfd (some (.watched item armed'))).goto i task batch).Safe := by
  generalize hs' : (s.setFd n.connfd (some (.watched item armed'))).goto i task batch = s'
  have hitems : s'.items = s.items := by
    rw [← hs']
    rfl
  have hself : s'.fds n.connfd = some (.watched item armed') := by
    rw [← hs']
    exact setFd_fds_self ..
  have hother : ∀ fd ≠ n.connfd, s'.fds fd = s.fds fd := by
    intro fd hne
    rw [← hs']
    exact setFd_fds_of_ne _ hne
  have hget : s'.items.get item = some n := by rw [hitems, hn]
  have hat : MovesAt s s' i w ⟨task, batch⟩ item := by
    rw [← hs']
    exact ⟨⟨hi, rfl, rfl⟩, fun _ _ => rfl, fun a ha m hm => h.setFd_fds hn ha hm _,
      fun a ha fd armed => watched_of_setFd fun heq => ha (by cases heq; rfl),
      fun a ha => (hothers a ha).1, fun a ha => (hothers a ha).2.1, fun a ha => (hothers a ha).2.2⟩
  have hlive : ∀ a, s'.live a = s.live a := fun a => live_congr (by rw [hitems])
  have hheld : s'.held item = s.held item := by
    have hsum := hat.sum (TcpWorker.uses item)
    rw [held, held, armed_of_get hget, armed_of_get hn, hself]
    omega
  refine ⟨hat.owned h.toOwned (by rw [hheld, hlive]) fun m hm hpos => ?_,
    h.toRegistered.watch hat hn hitems (by rw [← hs']; rfl) hself hother hadds hpends,
    hat.listed h.toListed (by rw [← hs']; rfl) hlive (by rw [hitems]) (by rw [← hs']; rfl)
      hunlinks hlocks, hat.ended h fun _ => hexit⟩
  cases hget.symm.trans hm
  rw [hself, hat.after] at hpos
  refine hready (hpos.imp (fun hinput => ?_) id)
  cases hinput
  rfl

/-- `epoll_wait` reports a connection to thread `i`. -/
theorem Safe.deliver {batch : List TcpEvent} {fd : Fd} {mode : TcpMode} (bits : Bits) (h : s.Safe)
    (hi : s.workers[i]? = some ⟨.wait, batch⟩)
    (hfd : s.fds fd = some (.watched item (some mode)))
    (hbits : bits.input = true → mode = .input) :
    ((s.setFd fd (some (.watched item none))).goto i .wait
      (batch ++ [.client item bits])).Safe := by
  obtain ⟨n, hn, rfl⟩ := h.fd_item fd item _ hfd
  have hinput : (TcpEvent.client item bits).input? =
      if bits.input = true then some item else none := by
    obtain ⟨input, output⟩ := bits
    cases input <;> rfl
  have hitem : (TcpEvent.client item bits).item? = some item := rfl
  refine h.watch none .wait (batch ++ [.client item bits]) hi hn ?_
    (fun a ha => ⟨?_, ?_, fun _ => rfl⟩) (fun _ => Nat.le_refl _) (fun fd => ?_) (fun _ => rfl)
    rfl ?_ fun heq => TcpTask.noConfusion heq
  · rw [TcpWorker.uses_append, hitem, if_pos rfl, hfd]
    simp only [FdState.arms, if_true]
    omega
  · rw [TcpWorker.uses_append, hitem, if_neg fun heq => ha (Option.some.inj heq).symm]
    rfl
  · rw [TcpWorker.reads_append, if_neg]
    · exact Nat.le_refl _
    · rw [hinput]
      split
      · exact fun heq => ha (Option.some.inj heq).symm
      · intro heq
        cases heq
  · rw [if_neg]
    · rfl
    · rintro ⟨rfl, hplain⟩
      rw [hfd] at hplain
      cases hplain
  · rintro (hinput' | hpos)
    · cases hinput'
    · have hmoves := Moves.goto hi .wait (batch ++ [.client item bits])
      have hsum := hmoves.sum (TcpWorker.reads item)
      rw [TcpWorker.reads_append, hinput] at hsum
      refine h.ready item n hn ?_
      by_cases hset : bits.input = true
      · exact .inl (by rw [hfd, hbits hset])
      · rw [if_neg hset, if_neg (by simp), Nat.add_zero] at hsum
        refine .inr ?_
        rw [← hmoves.after] at hpos
        omega

/-! ## A thread at a connection -/

/-- A thread at a connection: the connection is there, and nobody else will come
to it, nor the thread itself for another event. -/
structure Alone (s : TcpMain) (i : Nat) (w : TcpWorker) (item : Ref) (n : TcpClient) : Prop where
  mem : s.workers[i]? = some w
  task : w.task.item? = some item
  get : s.items.get item = some n
  armed : FdState.arms item (s.fds n.connfd) = 0
  batch : TcpWorker.uses item ⟨.loop, w.batch⟩ = 0
  total : total (TcpWorker.uses item) s.workers = 1

theorem Safe.alone (h : s.Safe) (hi : s.workers[i]? = some w) (htask : w.task.item? = some item) :
    ∃ n, s.Alone i w item n := by
  have huses := TcpWorker.uses_eq item w
  rw [if_pos htask] at huses
  have hle := le_total (TcpWorker.uses item) hi
  have hheld := h.held_le item
  rw [held] at hheld
  cases hn : s.items.get item with
  | none =>
      rw [live, hn, if_neg (by simp)] at hheld
      omega
  | some n =>
      rw [live, hn, if_pos Option.isSome_some, armed_of_get hn] at hheld
      exact ⟨n, hi, htask, hn, by omega, by omega, by omega⟩

namespace Alone

theorem uses (hn : s.Alone i w item n) : TcpWorker.uses item w = 1 := by
  rw [TcpWorker.uses_eq, if_pos hn.task, hn.batch]

/-- The other threads are somewhere else. -/
theorem eq_of_item {j : Nat} {v : TcpWorker} (hn : s.Alone i w item n) (hj : s.workers[j]? = some v)
    (hv : v.task.item? = some item) : v = w := by
  have hij := index_unique (Nat.le_of_eq hn.total) hn.mem hj (TcpWorker.uses_pos hn.task)
    (TcpWorker.uses_pos hv)
  subst hij
  cases hn.mem.symm.trans hj
  rfl

theorem adds (hn : s.Alone i w item n) (hadd : ∀ fd, w.task ≠ .add item fd) (fd : Fd) :
    ¬ 0 < Shares.total (TcpWorker.adds item fd) s.workers := by
  intro hpos
  obtain ⟨j, v, hj, hv⟩ := exists_of_total_pos hpos
  have htask := TcpWorker.task_of_adds_pos hv
  have heq := hn.eq_of_item hj (by rw [htask]; rfl)
  rw [heq] at htask
  exact hadd fd htask

/-- The descriptor is registered, unless the thread is about to do that. -/
theorem watched (hn : s.Alone i w item n) (h : s.Safe) (hadd : ∀ fd, w.task ≠ .add item fd) :
    s.fds n.connfd = some (.watched item none) := by
  obtain ⟨armed, hfd⟩ := (h.item_fd item n hn.get).resolve_right fun hplain =>
    hn.adds hadd n.connfd hplain.2
  have harms := hn.armed
  rw [hfd] at harms ⊢
  cases armed with
  | none =>
      rfl
  | some mode =>
      exact absurd harms (by simp [FdState.arms])

theorem reads_batch {task : TcpTask} (hn : s.Alone i w item n) (h : task ≠ .serve item .input) :
    TcpWorker.reads item ⟨task, w.batch⟩ = 0 := by
  have hle := TcpWorker.reads_le_uses item ⟨.loop, w.batch⟩
  rw [hn.batch] at hle
  simp only [TcpWorker.reads, reduceCtorEq, if_false] at hle ⊢
  rw [if_neg h]
  exact Nat.le_zero.mp hle

/-- When the thread does not read from the connection next, nobody does. -/
theorem reads {task : TcpTask} (hn : s.Alone i w item n) (h : task ≠ .serve item .input) :
    ¬ 0 < Shares.total (TcpWorker.reads item) (s.workers.set i ⟨task, w.batch⟩) := by
  intro hpos
  obtain ⟨j, v, hj, hv⟩ := exists_of_total_pos hpos
  by_cases hij : i = j
  · subst hij
    rw [List.getElem?_set_self', hn.mem] at hj
    obtain rfl : ⟨task, w.batch⟩ = v := Option.some.inj hj
    rw [hn.reads_batch h] at hv
    exact Nat.lt_irrefl 0 hv
  · rw [List.getElem?_set_ne hij] at hj
    have hsum := add_le_total (TcpWorker.uses item) hij hn.mem hj
    have := hn.total
    have := hn.uses
    have := TcpWorker.reads_le_uses item v
    omega

end Alone

/-- `tcp_rearm` gives the connection back to `epoll`. -/
theorem Safe.rearm {mode : TcpMode} (h : s.Safe) (hn : s.Alone i w item n)
    (htask : w.task = .gate item) (hmode : mode = .input → n.node.pipeline = .ready) :
    ((s.setFd n.connfd (some (.watched item (some mode)))).goto i .loop w.batch).Safe := by
  have hfd := hn.watched h (by rw [htask]; intro fd heq; cases heq)
  have hnone := @Alone.reads s i w item n .loop hn fun heq => TcpTask.noConfusion heq
  have hone := hn.uses
  have hbatch := hn.batch
  have hi := hn.mem
  obtain ⟨task, batch⟩ := w
  subst htask
  refine h.watch (some mode) .loop batch hi hn.get ?_
    (fun a ha => ⟨?_, Nat.le_refl _, fun _ => rfl⟩) (fun _ => Nat.le_refl _) (fun fd => ?_)
    (fun _ => rfl) rfl ?_ fun heq => TcpTask.noConfusion heq
  · rw [hone, hbatch, hfd]
    exact if_pos rfl
  · exact (TcpWorker.uses_of_item_ne batch rfl ha).symm
  · rw [if_neg]
    · rfl
    · rintro ⟨rfl, hplain⟩
      rw [hfd] at hplain
      cases hplain
  · rintro (hinput | hpos)
    · cases hinput
      exact hmode rfl
    · exact absurd hpos hnone

/-- A connection that nobody registers keeps its descriptor. -/
theorem Registered.serve {m : TcpClient} (h : s.Registered) (hat : MovesAt s s' i w w' item)
    (hn : s.items.get item = some n) (hfd : s.fds n.connfd = some (.watched item none))
    (hself : s'.items.get item = some m) (hconnfd : m.connfd = n.connfd) (hfds : s'.fds = s.fds)
    (hlog : s'.log = s.log)
    (hadds : ∀ fd, ¬ 0 < total (TcpWorker.adds item fd) s.workers)
    (hsame : ∀ fd, TcpWorker.adds item fd w' = TcpWorker.adds item fd w)
    (hpends : ∀ fd, TcpWorker.pends fd w' = TcpWorker.pends fd w) : s'.Registered := by
  refine hat.registered h (fun fd armed hwatched => ?_) (fun m' hget => ?_) (fun fd hpos => ?_)
    (hat.pending h hpends fun _ => by rw [hfds]) ?_
  · rw [hfds] at hwatched
    obtain ⟨n', hget, hnfd⟩ := h.fd_item fd item armed hwatched
    cases hn.symm.trans hget
    exact ⟨m, hself, hconnfd.trans hnfd⟩
  · cases hself.symm.trans hget
    rw [hfds, hconnfd]
    exact .inl ⟨none, hfd⟩
  · rw [hat.same (hsame fd)] at hpos
    exact absurd hpos (hadds fd)
  · rw [hfds, hlog]
    exact h.log

/-- `tcp_input` or `tcp_output` -/
theorem Safe.serve {mode : TcpMode} (h : s.Safe) (hn : s.Alone i w item n)
    (htask : w.task = .serve item mode) (node : TcpNode) :
    ({ s with items := s.items.modify item fun n => { n with node := node } }.goto i
      (.gate item) w.batch).Safe := by
  have hadd : ∀ fd, w.task ≠ .add item fd := by
    rw [htask]
    intro fd heq
    cases heq
  have hfd := hn.watched h hadd
  have hnone := @Alone.reads s i w item n (.gate item) hn fun heq => TcpTask.noConfusion heq
  have hadds := hn.adds hadd
  have hm := hn.get
  have hi := hn.mem
  obtain ⟨task, batch⟩ := w
  subst htask
  dsimp only at hnone ⊢
  generalize hs' : { s with items := s.items.modify item fun n => { n with node := node } }.goto i
    (.gate item) batch = s'
  have hself : s'.items.get item = some { n with node := node } := by
    rw [← hs']
    change (s.items.modify item _).get item = _
    rw [Heap.get_modify_self, hm]
    rfl
  have hfds : s'.fds = s.fds := by
    rw [← hs']
    rfl
  have hreads : ∀ a, TcpWorker.reads a ⟨.gate item, batch⟩ ≤
      TcpWorker.reads a ⟨.serve item mode, batch⟩ := by
    intro a
    simp only [TcpWorker.reads, reduceCtorEq, if_false]
    omega
  have hat : MovesAt s s' i ⟨.serve item mode, batch⟩ ⟨.gate item, batch⟩ item := by
    rw [← hs']
    exact ⟨⟨hi, rfl, rfl⟩, fun _ ha => Heap.get_modify_of_ne _ _ ha, fun _ _ _ _ => rfl,
      fun _ _ _ _ hwatched => hwatched, fun _ _ => rfl, fun a _ => hreads a, fun _ _ _ => rfl⟩
  have hlive : s'.live item = s.live item := by
    rw [live, live, hself, hm]
    rfl
  have hheld : s'.held item = s.held item := by
    rw [held, held, armed_of_get hself, armed_of_get hm, hfds,
      hat.same (f := TcpWorker.uses item) rfl]
  refine ⟨hat.owned h.toOwned (by rw [hheld, hlive]) fun m hget hpos => ?_,
    h.toRegistered.serve hat hm hfd hself rfl hfds (by rw [← hs']; rfl) hadds (fun _ => rfl)
      fun _ => rfl,
    hat.listed h.toListed (by rw [← hs']; rfl) (fun a => ?_) (by rw [← hs']; rfl)
      (by rw [← hs']; rfl) (fun _ => rfl) rfl,
    hat.ended h fun _ heq => TcpTask.noConfusion heq⟩
  · -- Nobody reads from this connection next.
    cases hself.symm.trans hget
    rw [hat.after, hfds, hfd] at hpos
    rcases hpos with hinput | hpos
    · cases hinput
    · exact absurd hpos hnone
  · by_cases ha : a = item
    · rw [ha, hlive]
    · exact hat.live_of_ne ha

/-! ## A new connection -/

/-- A descriptor that was not in use is opened. -/
theorem Registered.accept {fd : Fd} (h : s.Registered) (hmoves : Moves s s' i w w')
    (hfree : s.fds fd = none) (hitems : s'.items = s.items) (hself : s'.fds fd = some .plain)
    (hother : ∀ fd' ≠ fd, s'.fds fd' = s.fds fd') (hlog : s'.log = s.log ++ [.opened fd])
    (hadds : ∀ a fd, TcpWorker.adds a fd w' = TcpWorker.adds a fd w)
    (hpends : ∀ fd', TcpWorker.pends fd' w' =
      TcpWorker.pends fd' w + if fd' = fd then 1 else 0) : s'.Registered where
  fd_item := by
    intro fd' a armed hwatched
    rw [hitems]
    by_cases hne : fd' = fd
    · rw [hne, hself] at hwatched
      cases hwatched
    · rw [hother _ hne] at hwatched
      exact h.fd_item fd' a armed hwatched
  item_fd := by
    intro a m hm
    rw [hitems] at hm
    rw [hother _ (h.connfd_ne hfree hm), hmoves.same (hadds a m.connfd)]
    exact h.item_fd a m hm
  adding := by
    intro a fd' hpos
    rw [hmoves.same (hadds a fd')] at hpos
    rw [hitems]
    exact h.adding a fd' hpos
  pending := by
    intro fd'
    have hsum := hmoves.sum (TcpWorker.pends fd')
    rw [hpends] at hsum
    have hpending := h.pending fd'
    by_cases hne : fd' = fd
    · rw [hne, hfree, if_neg (by simp), ← hne] at hpending
      rw [if_pos hne] at hsum
      rw [hne, hself, if_pos rfl, ← hne]
      omega
    · rw [if_neg hne] at hsum
      rw [hother _ hne, ← hpending]
      omega
  log := by
    intro fd'
    rw [hlog, count_opened_opened, count_closed_opened, h.log fd']
    by_cases hne : fd' = fd
    · rw [hne, hfree, hself, if_pos rfl]
      rfl
    · rw [hother _ hne, if_neg hne]
      rfl

/-- `accept` returns a descriptor that was not in use. -/
theorem Safe.accept {fd : Fd} {batch : List TcpEvent} (h : s.Safe)
    (hi : s.workers[i]? = some ⟨.accept, batch⟩) (hfree : s.fds fd = none) :
    (((s.setFd fd (some .plain)).note (.opened fd)).goto i (.accepted fd) batch).Safe := by
  generalize hs' : ((s.setFd fd (some .plain)).note (.opened fd)).goto i (.accepted fd) batch = s'
  have hmoves : Moves s s' i ⟨.accept, batch⟩ ⟨.accepted fd, batch⟩ := by
    rw [← hs']
    exact ⟨hi, rfl, rfl⟩
  have hitems : s'.items = s.items := by
    rw [← hs']
    rfl
  have hself : s'.fds fd = some .plain := by
    rw [← hs']
    exact setFd_fds_self ..
  have hother : ∀ fd' ≠ fd, s'.fds fd' = s.fds fd' := by
    intro fd' hne
    rw [← hs']
    exact setFd_fds_of_ne _ hne
  have hconnfd : ∀ {a n}, s.items.get a = some n → s'.fds n.connfd = s.fds n.connfd :=
    fun hn => hother _ (h.connfd_ne hfree hn)
  have hget : ∀ a, s'.items.get a = s.items.get a := by
    intro a
    rw [hitems]
  have hlive : ∀ a, s'.live a = s.live a := fun a => live_congr (hget a)
  have hheld : ∀ a, s'.held a = s.held a := by
    intro a
    rw [held, held, hmoves.same (f := TcpWorker.uses a) rfl,
      armed_congr (hget a) fun n hn => hconnfd hn]
  refine ⟨hmoves.owned h.toOwned hheld hlive fun a m hm hpos => ?_,
    h.toRegistered.accept hmoves hfree hitems hself hother (by rw [← hs']; rfl) (fun _ _ => rfl)
      fun fd' => ?_,
    hmoves.listed h.toListed (by rw [← hs']; rfl) hlive (by rw [hitems]) (by rw [← hs']; rfl)
      (fun _ => rfl) rfl, hmoves.ended h fun _ heq => TcpTask.noConfusion heq⟩
  · rw [hitems] at hm
    rw [hconnfd hm, hmoves.same (f := TcpWorker.reads a) rfl] at hpos
    exact h.ready a m hm hpos
  · simp only [TcpWorker.pends, eq_comm (a := fd), Nat.zero_add]

/-- A new connection at the end of the list. -/
theorem Listed.put (h : s.Listed) (hmoves : Moves s s' i w w')
    (hlist : s'.list = s.list ++ [s.items.fresh])
    (hlive : ∀ a, s'.live a = s.live a + if a = s.items.fresh then 1 else 0)
    (hfresh : s'.items.fresh = s.items.fresh + 1) (hmutex : s'.mutex = s.mutex)
    (hunlinks : ∀ a, TcpWorker.unlinks a w' = TcpWorker.unlinks a w)
    (hlocks : w'.locks = w.locks) : s'.Listed := by
  have hcount : ∀ a, s'.list.count a = s.list.count a + if a = s.items.fresh then 1 else 0 := by
    intro a
    rw [hlist, List.count_append, List.count_singleton]
    simp only [beq_iff_eq, eq_comm (a := s.items.fresh)]
  refine ⟨fun a => ?_, fun a => ?_, fun a hpos => ?_, ?_⟩
  · have hlisted := h.listed a
    rw [hmoves.same (hunlinks a), hlive, hcount]
    omega
  · have hle := h.listed_le a
    rw [hcount]
    by_cases ha : a = s.items.fresh
    · -- A new connection is in no list yet.
      have hnew : ¬ 0 < s.list.count a := fun hpos =>
        absurd (h.listed_lt a hpos) (by rw [ha]; exact Nat.lt_irrefl _)
      split <;> omega
    · rw [if_neg ha]
      exact hle
  · rw [hcount] at hpos
    rw [hfresh]
    by_cases ha : a = s.items.fresh
    · rw [ha]
      exact Nat.lt_succ_self _
    · rw [if_neg ha] at hpos
      exact Nat.lt_succ_of_lt (h.listed_lt a hpos)
  · rw [hmoves.same hlocks, hmutex]
    exact h.mutex

/-- A descriptor that a thread has got from `accept` is not registered. -/
theorem Registered.plain_of_pends {fd : Fd} (h : s.Registered) (hi : s.workers[i]? = some w)
    (hpends : TcpWorker.pends fd w = 1) : s.fds fd = some .plain := by
  have hle := le_total (TcpWorker.pends fd) hi
  have hpending := h.pending fd
  by_contra hne
  rw [if_neg hne] at hpending
  omega

/-- The new connection has the descriptor from `accept`. -/
theorem Registered.put {connfd : Fd} (h : s.Registered) (hat : MovesAt s s' i w w' item)
    (hfree : s.items.get item = none) (hself : s'.items.get item = some ⟨connfd, nodePut⟩)
    (hplain : s.fds connfd = some .plain) (hfds : s'.fds = s.fds) (hlog : s'.log = s.log)
    (hadds : ∀ fd, TcpWorker.adds item fd w' =
      TcpWorker.adds item fd w + if fd = connfd then 1 else 0)
    (hpends : ∀ fd, TcpWorker.pends fd w' = TcpWorker.pends fd w) : s'.Registered := by
  refine hat.registered h (fun fd armed hwatched => ?_) (fun m hm => ?_) (fun fd hpos => ?_)
    (hat.pending h hpends fun _ => by rw [hfds]) ?_
  · rw [hfds] at hwatched
    obtain ⟨m, hm, -⟩ := h.fd_item fd _ armed hwatched
    cases hfree.symm.trans hm
  · cases hself.symm.trans hm
    have hsum := hat.sum (TcpWorker.adds item connfd)
    rw [hadds, if_pos rfl] at hsum
    have hpos : 0 < total (TcpWorker.adds item connfd) s'.workers := by omega
    rw [hfds]
    exact .inr ⟨hplain, hpos⟩
  · by_cases hne : fd = connfd
    · exact ⟨_, hself, hne.symm, rfl⟩
    · rw [hat.same ((hadds fd).trans (by rw [if_neg hne]; rfl))] at hpos
      obtain ⟨m, hm, -⟩ := h.adding _ fd hpos
      cases hfree.symm.trans hm
  · rw [hfds, hlog]
    exact h.log

/-- `node_put` -/
theorem Safe.put {connfd : Fd} {batch : List TcpEvent} (h : s.Safe)
    (hi : s.workers[i]? = some ⟨.accepted connfd, batch⟩) :
    ({ s with
      items := s.items.alloc ⟨connfd, nodePut⟩
      list := s.list ++ [s.items.fresh] }.goto i (.add s.items.fresh connfd) batch).Safe := by
  generalize hs' : { s with
    items := s.items.alloc ⟨connfd, nodePut⟩
    list := s.list ++ [s.items.fresh] }.goto i (.add s.items.fresh connfd) batch = s'
  have hitems : s'.items = s.items.alloc ⟨connfd, nodePut⟩ := by
    rw [← hs']
    rfl
  have hself : s'.items.get s.items.fresh = some ⟨connfd, nodePut⟩ := by
    rw [hitems, Heap.get_alloc_self]
  have hfresh : s.items.get s.items.fresh = none := s.items.unused _ (Nat.le_refl _)
  have hfds : s'.fds = s.fds := by
    rw [← hs']
    rfl
  have hplain : s.fds connfd = some .plain := h.plain_of_pends hi (if_pos rfl)
  have hadds : ∀ a fd, TcpWorker.adds a fd ⟨.add s.items.fresh connfd, batch⟩ =
      if a = s.items.fresh ∧ fd = connfd then 1 else 0 := by
    intro a fd
    simp only [TcpWorker.adds, TcpTask.add.injEq, eq_comm (a := s.items.fresh),
      eq_comm (a := connfd)]
  have hat : MovesAt s s' i ⟨.accepted connfd, batch⟩ ⟨.add s.items.fresh connfd, batch⟩
      s.items.fresh := by
    rw [← hs']
    exact ⟨⟨hi, rfl, rfl⟩, fun _ ha => Heap.get_alloc_of_ne _ _ ha, fun _ _ _ _ => rfl,
      fun _ _ _ _ hwatched => hwatched, fun _ ha => TcpWorker.uses_of_item_ne batch rfl ha,
      fun _ _ => Nat.le_refl _, fun a ha fd => (hadds a fd).trans (if_neg fun hnew => ha hnew.1)⟩
  have hlive : ∀ a, s'.live a = s.live a + if a = s.items.fresh then 1 else 0 := by
    intro a
    by_cases ha : a = s.items.fresh
    · rw [live, live, ha, hself, hfresh, if_pos rfl]
      rfl
    · rw [hat.live_of_ne ha, if_neg ha]
      rfl
  have hheld : s'.held s.items.fresh = s.held s.items.fresh + 1 := by
    have hsum := hat.sum (TcpWorker.uses s.items.fresh)
    have hone : TcpWorker.uses s.items.fresh ⟨.add s.items.fresh connfd, batch⟩ =
        TcpWorker.uses s.items.fresh ⟨.accepted connfd, batch⟩ + 1 := by
      rw [TcpWorker.uses_eq]
      exact congrArg _ (if_pos rfl)
    rw [held, held, armed_of_get hself, armed_of_none hfresh, hfds, hplain,
      show FdState.arms s.items.fresh (some .plain) = 0 from rfl]
    omega
  refine ⟨hat.owned h.toOwned ?_ fun m hm _ => ?_,
    h.toRegistered.put hat hfresh hself hplain hfds (by rw [← hs']; rfl) (fun fd => ?_)
      fun _ => rfl,
    h.toListed.put hat.toMoves (by rw [← hs']; rfl) hlive (by rw [hitems, Heap.fresh_alloc])
      (by rw [← hs']; rfl) (fun _ => rfl) rfl,
    hat.ended h fun _ heq => TcpTask.noConfusion heq⟩
  · rw [hheld, hlive, if_pos rfl]
    omega
  · cases hself.symm.trans hm
    rfl
  · rw [hadds]
    simp only [true_and]
    exact (Nat.zero_add _).symm

/-- The descriptor of a thread that is about to register a connection. -/
theorem Safe.adding_of_task {fd : Fd} (h : s.Safe) (hi : s.workers[i]? = some w)
    (htask : w.task = .add item fd) :
    ∃ n, s.items.get item = some n ∧ n.connfd = fd ∧ n.node.pipeline = .ready ∧
      s.fds fd = some .plain := by
  have hadds := le_total (TcpWorker.adds item fd) hi
  rw [show TcpWorker.adds item fd w = 1 from if_pos htask] at hadds
  obtain ⟨n, hn, hnfd, hready⟩ := h.adding item fd hadds
  refine ⟨n, hn, hnfd, hready, h.plain_of_pends hi ?_⟩
  rw [TcpWorker.pends, htask]
  exact if_pos rfl

/-- `EPOLL_CTL_ADD`: from now on any thread may get the connection. -/
theorem Safe.add {fd : Fd} (h : s.Safe) (hn : s.Alone i w item n) (htask : w.task = .add item fd) :
    ((s.setFd n.connfd (some (.watched item (some .input)))).goto i .accept w.batch).Safe := by
  obtain ⟨m, hm, hmfd, hready, hplain⟩ := h.adding_of_task hn.mem htask
  obtain rfl : n = m := Option.some.inj (hn.get.symm.trans hm)
  subst hmfd
  have hone := hn.uses
  have hbatch := hn.batch
  have hi := hn.mem
  obtain ⟨task, batch⟩ := w
  subst htask
  refine h.watch (some .input) .accept batch hi hm ?_
    (fun a ha => ⟨?_, Nat.le_refl _, fun fd => ?_⟩) (fun _ => Nat.zero_le _) (fun fd => ?_)
    (fun _ => rfl) rfl (fun _ => hready) fun heq => TcpTask.noConfusion heq
  · rw [hone, hplain]
    change _ + TcpWorker.uses item ⟨.loop, batch⟩ = _
    rw [hbatch]
    exact if_pos rfl
  · exact (TcpWorker.uses_of_item_ne batch rfl ha).symm
  · refine (if_neg fun heq => ha ?_).symm
    injection heq with hitem
    exact hitem.symm
  · by_cases hne : fd = n.connfd
    · rw [if_pos ⟨hne, hne ▸ hplain⟩]
      exact (if_pos hne.symm).symm
    · rw [if_neg fun hboth => hne hboth.1]
      exact (if_neg (Ne.symm hne)).symm

/-! ## `node_shutdown` -/

/-- The thread has got the mutex. -/
theorem Safe.lock {batch : List TcpEvent} (h : s.Safe)
    (hi : s.workers[i]? = some ⟨.shutdown item, batch⟩) (hmutex : s.mutex.isSome = false) :
    ({ s with mutex := some i }.goto i (.disconnect item) batch).Safe := by
  have hmoves : Moves s ({ s with mutex := some i }.goto i (.disconnect item) batch) i
      ⟨.shutdown item, batch⟩ ⟨.disconnect item, batch⟩ := ⟨hi, rfl, rfl⟩
  refine ⟨hmoves.owned h.toOwned (fun a => ?_) (fun _ => rfl)
      (hmoves.ready h.toOwned rfl rfl fun _ => Nat.le_refl _),
    hmoves.registered h.toRegistered rfl rfl rfl (fun _ _ => rfl) fun _ => rfl,
    ⟨fun a => ?_, h.listed_le, h.listed_lt, ?_⟩,
    hmoves.ended h fun _ heq => TcpTask.noConfusion heq⟩
  · exact congrArg (s.armed a + ·) (hmoves.same (f := TcpWorker.uses a) rfl)
  · rw [hmoves.same (f := TcpWorker.unlinks a) rfl]
    exact h.listed a
  · have hsum := hmoves.sum TcpWorker.locks
    have hbefore := h.mutex
    rw [hmutex, if_neg Bool.false_ne_true] at hbefore
    rw [hbefore] at hsum
    exact hsum

/-- The connection is gone, and its thread will take it out of the list. -/
theorem Listed.close (h : s.Listed) (hmoves : Moves s s' i w w') (hlist : s'.list = s.list)
    (hlive : ∀ a, s'.live a + (if a = item then 1 else 0) = s.live a)
    (hfresh : s'.items.fresh = s.items.fresh) (hmutex : s'.mutex = s.mutex)
    (hunlinks : ∀ a, TcpWorker.unlinks a w' = TcpWorker.unlinks a w + if a = item then 1 else 0)
    (hlocks : w'.locks = w.locks) : s'.Listed := by
  refine ⟨fun a => ?_, ?_, ?_, ?_⟩
  · have hsum := hmoves.sum (TcpWorker.unlinks a)
    rw [hunlinks] at hsum
    have hlisted := h.listed a
    have := hlive a
    rw [hlist]
    omega
  · rw [hlist]
    exact h.listed_le
  · rw [hlist, hfresh]
    exact h.listed_lt
  · rw [hmoves.same hlocks, hmutex]
    exact h.mutex

/-- The log when an open descriptor is closed. -/
theorem log_closed {fd : Fd}
    (hlog : ∀ fd, s.log.count (.opened fd) =
      s.log.count (.closed fd) + if (s.fds fd).isSome then 1 else 0)
    (hopen : (s.fds fd).isSome = true) (hself : s'.fds fd = none)
    (hother : ∀ fd' ≠ fd, s'.fds fd' = s.fds fd') (hclosed : s'.log = s.log ++ [.closed fd])
    (fd' : Fd) :
    s'.log.count (.opened fd') =
      s'.log.count (.closed fd') + if (s'.fds fd').isSome then 1 else 0 := by
  rw [hclosed, count_opened_closed, count_closed_closed, hlog]
  by_cases hne : fd' = fd
  · rw [hne, if_pos hopen, hself, if_pos rfl]
    rfl
  · rw [hother fd' hne, if_neg hne]
    rfl

/-- The descriptor of the connection is closed. -/
theorem Registered.close {armed : Option TcpMode} (h : s.Registered)
    (hat : MovesAt s s' i w w' item) (hn : s.items.get item = some n)
    (hfd : s.fds n.connfd = some (.watched item armed)) (hget : s'.items.get item = none)
    (hself : s'.fds n.connfd = none) (hother : ∀ fd ≠ n.connfd, s'.fds fd = s.fds fd)
    (hlog : s'.log = s.log ++ [.closed n.connfd])
    (hadds : ∀ fd, ¬ 0 < total (TcpWorker.adds item fd) s.workers)
    (hsame : ∀ fd, TcpWorker.adds item fd w' = TcpWorker.adds item fd w)
    (hpends : ∀ fd, TcpWorker.pends fd w' = TcpWorker.pends fd w) : s'.Registered := by
  refine hat.registered h (fun fd armed hwatched => ?_) (fun m hm => ?_) (fun fd hpos => ?_)
    (hat.pending h hpends fun fd => ?_) (log_closed h.log (h.isSome_connfd hn) hself hother hlog)
  · have hne : fd ≠ n.connfd := by
      rintro rfl
      rw [hself] at hwatched
      cases hwatched
    rw [hother fd hne] at hwatched
    obtain ⟨m, hm, rfl⟩ := h.fd_item fd item armed hwatched
    cases hn.symm.trans hm
    exact absurd rfl hne
  · cases hget.symm.trans hm
  · rw [hat.same (hsame fd)] at hpos
    exact absurd hpos (hadds fd)
  · by_cases hne : fd = n.connfd
    · rw [hne, hself, hfd]
      simp
    · rw [hother fd hne]

/-- The connection is closed and freed. -/
theorem Safe.close (h : s.Safe) (hn : s.Alone i w item n) (htask : w.task = .disconnect item) :
    ({ (s.setFd n.connfd none).note (.closed n.connfd) with items := s.items.free item }.goto i
      (.unlink item) w.batch).Safe := by
  have hadd : ∀ fd, w.task ≠ .add item fd := by
    rw [htask]
    intro fd heq
    cases heq
  have hfd := hn.watched h hadd
  have hadds := hn.adds hadd
  have hm := hn.get
  have hone := hn.uses
  have hbatch := hn.batch
  have hi := hn.mem
  obtain ⟨task, batch⟩ := w
  subst htask
  dsimp only at hbatch ⊢
  generalize hs' : { (s.setFd n.connfd none).note (.closed n.connfd) with
    items := s.items.free item }.goto i (.unlink item) batch = s'
  have hget : s'.items.get item = none := by
    rw [← hs']
    exact Heap.get_free_self ..
  have hself : s'.fds n.connfd = none := by
    rw [← hs']
    exact setFd_fds_self ..
  have hother : ∀ fd ≠ n.connfd, s'.fds fd = s.fds fd := by
    intro fd hne
    rw [← hs']
    exact setFd_fds_of_ne _ hne
  have hat : MovesAt s s' i ⟨.disconnect item, batch⟩ ⟨.unlink item, batch⟩ item := by
    rw [← hs']
    exact ⟨⟨hi, rfl, rfl⟩, fun _ ha => Heap.get_free_of_ne _ ha,
      fun a ha m hm' => h.setFd_fds hm ha hm' _,
      fun a _ fd armed => watched_of_setFd (by simp),
      fun a ha => (TcpWorker.uses_of_item_ne batch rfl ha).symm, fun _ _ => Nat.le_refl _,
      fun _ _ _ => rfl⟩
  have hlive : ∀ a, s'.live a + (if a = item then 1 else 0) = s.live a := by
    intro a
    by_cases ha : a = item
    · rw [live, live, ha, hget, hm, if_pos rfl]
      rfl
    · rw [hat.live_of_ne ha, if_neg ha]
      rfl
  have hheld : s'.held item + 1 = s.held item := by
    have hsum := hat.sum (TcpWorker.uses item)
    rw [hone, show TcpWorker.uses item ⟨.unlink item, batch⟩ = 0 from hbatch] at hsum
    rw [held, held, armed_of_none hget, armed_of_get hm, hfd,
      show FdState.arms item (some (.watched item none)) = 0 from rfl]
    omega
  refine ⟨hat.owned h.toOwned ?_ fun m hm' => ?_,
    h.toRegistered.close hat hm hfd hget hself hother (by rw [← hs']; rfl) hadds (fun _ => rfl)
      fun _ => rfl,
    h.toListed.close hat.toMoves (by rw [← hs']; rfl) hlive (by rw [← hs']; rfl)
      (by rw [← hs']; rfl) (fun a => ?_) rfl, hat.ended h fun _ heq => TcpTask.noConfusion heq⟩
  · have := hlive item
    rw [if_pos rfl] at this
    omega
  · cases hget.symm.trans hm'
  · have hzero : TcpWorker.unlinks a ⟨.disconnect item, batch⟩ = 0 := rfl
    rw [hzero, Nat.zero_add]
    simp only [TcpWorker.unlinks, TcpTask.unlink.injEq, eq_comm (a := item)]

/-- The connection is taken out of the list, and the mutex is given back. -/
theorem Safe.unlink {batch : List TcpEvent} (h : s.Safe)
    (hi : s.workers[i]? = some ⟨.unlink item, batch⟩) :
    ({ s.nodeUnlink item with mutex := none }.goto i .loop batch).Safe := by
  have hmoves : Moves s ({ s.nodeUnlink item with mutex := none }.goto i .loop batch) i
      ⟨.unlink item, batch⟩ ⟨.loop, batch⟩ := ⟨hi, rfl, rfl⟩
  have hcount : ∀ a,
      (s.list.erase item).count a + (if a = item then 1 else 0) = s.list.count a := by
    intro a
    by_cases ha : a = item
    · subst ha
      have hunlinks := le_total (TcpWorker.unlinks a) hi
      rw [show TcpWorker.unlinks a ⟨.unlink a, batch⟩ = 1 from if_pos rfl] at hunlinks
      have := h.listed a
      rw [List.count_erase_self, if_pos rfl]
      omega
    · rw [List.count_erase_of_ne ha, if_neg ha]
      rfl
  refine ⟨hmoves.owned h.toOwned (fun a => ?_) (fun _ => rfl)
      (hmoves.ready h.toOwned rfl rfl fun _ => Nat.le_refl _),
    hmoves.registered h.toRegistered rfl rfl rfl (fun _ _ => rfl) fun _ => rfl,
    ⟨fun a => ?_, fun a => ?_, fun a hpos => ?_, ?_⟩,
    hmoves.ended h fun _ heq => TcpTask.noConfusion heq⟩
  · exact congrArg (s.armed a + ·) (hmoves.same (f := TcpWorker.uses a) rfl)
  · change (s.list.erase item).count a = s.live a + _
    have hsum := hmoves.sum (TcpWorker.unlinks a)
    have hlisted := h.listed a
    have := hcount a
    have hzero : TcpWorker.unlinks a ⟨.loop, batch⟩ = 0 := rfl
    have hold : TcpWorker.unlinks a ⟨.unlink item, batch⟩ = if a = item then 1 else 0 := by
      simp only [TcpWorker.unlinks, TcpTask.unlink.injEq, eq_comm (a := item)]
    omega
  · change (s.list.erase item).count a ≤ 1
    have := h.listed_le a
    have := hcount a
    omega
  · change 0 < (s.list.erase item).count a at hpos
    have := hcount a
    exact h.listed_lt a (by omega)
  · have hsum := hmoves.sum TcpWorker.locks
    have hbefore := h.mutex
    have hle := le_total TcpWorker.locks hi
    have hone : TcpWorker.locks ⟨.unlink item, batch⟩ = 1 := rfl
    have hzero : TcpWorker.locks ⟨.loop, batch⟩ = 0 := rfl
    change _ = 0
    split at hbefore <;> omega

end TcpMain
end Torrentkino
