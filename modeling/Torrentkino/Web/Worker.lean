import Mathlib.Logic.Function.Basic
import Torrentkino.Lib.Decimal
import Torrentkino.Lib.Heap
import Torrentkino.Web.Tcp
import Torrentkino.Web.Transfer

/-!
# The worker threads of `web/tcp.c`

Several threads wait for events on one `epoll` descriptor.  A connection is
registered with `EPOLLONESHOT`: an event that is handed to a thread disarms it,
and `tcp_gate` arms it again or closes it.  Connections are put into one list and
taken out of it under a mutex.

A step is what one thread does between two points at which another thread could
notice it: a system call, or a section under the mutex.  What the kernel, the
peer and the files do at a step is given by an `Env`.
-/

namespace Torrentkino

open Memory CString Decimal

/-- A file descriptor, that is a non-negative `int`. -/
abbrev Fd := Fin 2147483648

/-- `TCP_INPUT` and `TCP_OUTPUT` -/
inductive TcpMode where
  | input
  | output
deriving DecidableEq, Repr

/-- An open descriptor of a connection.  `watched` is one that `epoll` knows, with the
pointer and the event it is armed for, if it is. -/
inductive FdState where
  | plain
  | watched (item : Ref) (armed : Option TcpMode)
deriving DecidableEq, Repr

/-- `EPOLLIN` and `EPOLLOUT` in the events of a descriptor.  None of them is set
when the peer has hung up. -/
structure Bits where
  input : Bool
  output : Bool
deriving DecidableEq, Repr

/-- `struct epoll_event`, as `tcp_worker` looks at it. -/
inductive TcpEvent where
  | listener
  | client (item : Ref) (bits : Bits)
deriving DecidableEq, Repr

/-- Where a thread is. -/
inductive TcpTask where
  /-- Before `epoll_wait`. -/
  | wait
  /-- In the loop of `tcp_worker`, before the next event. -/
  | loop
  /-- In the loop of `tcp_newconn`, before `accept`. -/
  | accept
  /-- Before `node_put`. -/
  | accepted (connfd : Fd)
  /-- Before `EPOLL_CTL_ADD`. -/
  | add (item : Ref) (connfd : Fd)
  /-- Before `tcp_input` or `tcp_output`. -/
  | serve (item : Ref) (mode : TcpMode)
  /-- Before `tcp_gate`. -/
  | gate (item : Ref)
  /-- In `node_shutdown`, before the mutex. -/
  | shutdown (item : Ref)
  /-- In `node_shutdown`, behind the mutex. -/
  | disconnect (item : Ref)
  /-- In `node_shutdown`, before `list_del`. -/
  | unlink (item : Ref)
  /-- Behind `pthread_exit`. -/
  | exit
deriving DecidableEq, Repr

/-- A thread, with the events that `epoll_wait` has returned and that it has not
come to. -/
structure TcpWorker where
  task : TcpTask
  batch : List TcpEvent
deriving DecidableEq, Repr

/-- `TCP_NODE` with its descriptor. -/
structure TcpClient where
  connfd : Fd
  node : TcpNode

/-- What happened to the descriptors of connections. -/
inductive FdEvent where
  | opened (fd : Fd)
  | closed (fd : Fd)
deriving DecidableEq, Repr

/-- The process: `status`, the descriptors, the connections and their list, the
thread that is in `node_shutdown`, and the threads. -/
structure TcpMain where
  running : Bool
  fds : Fd → Option FdState
  items : Heap TcpClient
  list : List Ref
  mutex : Option Nat
  workers : List TcpWorker
  log : List FdEvent

/-- Ways in which the server stops, or works with what is not there any more. -/
inductive TcpFault where
  /-- A connection that was freed is used. -/
  | freed
  /-- A descriptor that was closed is used. -/
  | badFd
  /-- `epoll_ctl() failed` -/
  | epoll
  /-- `accept` fails. -/
  | accept
  /-- The faults of the functions that serve a connection. -/
  | web (f : WebFault)
deriving DecidableEq, Repr

/-- What `epoll_wait` may report. -/
inductive Ready where
  | listener
  | fd (fd : Fd) (bits : Bits)

/-- What `accept` returns. -/
inductive Accept where
  | conn (fd : Fd)
  | again
  | error

/-- What `recv` returns. -/
inductive Recv where
  | data (b : Bytes)
  | again
  | reset
  | error
  | closed

/-- The world around a step. -/
structure Env where
  ready : List Ready
  accept : Accept
  recv : Recv
  host : Host
  socket : Socket
  fuel : Nat
  srv : Server

/-! ## One connection -/

/-- `tcp_input`, with the result of its `recv`. -/
def tcpInputRecv (env : Env) (running : Bool) (c : Conn) : Except WebFault Conn :=
  if running then
    match env.recv with
    | .again => .ok c
    | .reset => .ok (c.status .shutdown)
    | .error => .ok c
    | .closed => .ok (c.status .shutdown)
    | .data b => tcpBuffer env.host env.socket env.fuel c (b.take bufOff1)
  else .ok c

/-- `tcp_input` or `tcp_output` on a connection.  The loops of `send_data`, `send_mem` and
`send_file` would also end when the server is stopped in the middle of them; here they do
not look at `status`. -/
def tcpServe (env : Env) (running : Bool) (mode : TcpMode) (n : TcpNode) :
    Except WebFault TcpNode :=
  let c : Conn := { srv := env.srv, node := n, calls := 0, sent := [] }
  match mode with
  | .input => (tcpInputRecv env running c).map Conn.node
  | .output => (tcpOutput env.host env.socket env.fuel c).map Conn.node

/-! ## The kernel -/

/-- `epoll_wait`: an armed descriptor may be reported, with events it is armed for, and is
disarmed then. -/
def epollWait : (Fd → Option FdState) → List Ready → (Fd → Option FdState) × List TcpEvent
  | fds, [] => (fds, [])
  | fds, .listener :: ready =>
      let rest := epollWait fds ready
      (rest.1, .listener :: rest.2)
  | fds, .fd fd bits :: ready =>
      match fds fd with
      | some (.watched item (some mode)) =>
          let rest := epollWait (Function.update fds fd (some (.watched item none))) ready
          (rest.1, .client item ⟨bits.input && mode = .input, bits.output && mode = .output⟩ ::
            rest.2)
      | _ => epollWait fds ready

namespace TcpMain

variable (s : TcpMain)

/-- Thread `i` goes on. -/
def goto (i : Nat) (task : TcpTask) (batch : List TcpEvent) : TcpMain :=
  { s with workers := s.workers.set i ⟨task, batch⟩ }

def setFd (fd : Fd) (state : Option FdState) : TcpMain :=
  { s with fds := Function.update s.fds fd state }

def note (e : FdEvent) : TcpMain :=
  { s with log := s.log ++ [e] }

/-! ## The functions of the server -/

/-- `node_disconnect`.  Here it is a fault if the descriptor is not open. -/
def nodeDisconnect (connfd : Fd) : Except TcpFault TcpMain :=
  match s.fds connfd with
  | none => .error .badFd
  | some .plain =>
      if s.running then .error .epoll else .ok ((s.setFd connfd none).note (.closed connfd))
  | some (.watched _ _) => .ok ((s.setFd connfd none).note (.closed connfd))

/-- `tcp_rearm` -/
def tcpRearm (item : Ref) (n : TcpClient) (mode : TcpMode) : Except TcpFault TcpMain :=
  match s.fds n.connfd with
  | some (.watched _ _) => .ok (s.setFd n.connfd (some (.watched item (some mode))))
  | _ => .error .epoll

/-- `accept` in `tcp_newconn`.  The kernel returns a descriptor that is not in use. -/
def tcpAccept (env : Env) (i : Nat) (batch : List TcpEvent) : Except TcpFault TcpMain :=
  match env.accept with
  | .again => .ok (s.goto i .loop batch)
  | .error => .error .accept
  | .conn fd =>
      if (s.fds fd).isSome then .ok s
      else .ok (((s.setFd fd (some .plain)).note (.opened fd)).goto i (.accepted fd) batch)

/-- `node_put` in `tcp_newconn`, and what follows when the list is full. -/
def tcpPut (i : Nat) (connfd : Fd) (batch : List TcpEvent) : Except TcpFault TcpMain :=
  if s.mutex.isSome then .ok s
  else if (s.list.length : Int) = longMax then
    (s.nodeDisconnect connfd).map fun s => s.goto i .loop batch
  else
    let item := s.items.fresh
    .ok ({ s with
      items := s.items.alloc ⟨connfd, nodePut⟩
      list := s.list ++ [item] }.goto i (.add item connfd) batch)

/-- `EPOLL_CTL_ADD` in `tcp_newconn` -/
def tcpAdd (i : Nat) (item : Ref) (batch : List TcpEvent) : Except TcpFault TcpMain :=
  match s.items.get item with
  | none => .error .freed
  | some n =>
      match s.fds n.connfd with
      | some .plain =>
          .ok ((s.setFd n.connfd (some (.watched item (some .input)))).goto i .accept batch)
      | _ => .error .epoll

/-- `tcp_input` or `tcp_output` -/
def tcpTransfer (env : Env) (i : Nat) (item : Ref) (mode : TcpMode) (batch : List TcpEvent) :
    Except TcpFault TcpMain :=
  match s.items.get item with
  | none => .error .freed
  | some n =>
      if (s.fds n.connfd).isNone then .error .badFd
      else
        match tcpServe env s.running mode n.node with
        | .error f => .error (.web f)
        | .ok node =>
            .ok ({ s with items := s.items.modify item fun n => { n with node := node } }.goto i
              (.gate item) batch)

/-- `tcp_gate` -/
def tcpGateItem (i : Nat) (item : Ref) (batch : List TcpEvent) : Except TcpFault TcpMain :=
  match s.items.get item with
  | none => .error .freed
  | some n =>
      match tcpGate n.node with
      | .close => .ok (s.goto i (.shutdown item) batch)
      | .input => (s.tcpRearm item n .input).map fun s => s.goto i .loop batch
      | .output => (s.tcpRearm item n .output).map fun s => s.goto i .loop batch

/-- `node_disconnect`, `resp_free` and `myfree` in `node_shutdown`. -/
def nodeClose (item : Ref) : Except TcpFault TcpMain :=
  match s.items.get item with
  | none => .error .freed
  | some n => (s.nodeDisconnect n.connfd).map fun s => { s with items := s.items.free item }

/-- `list_del` in `node_shutdown`. -/
def nodeUnlink (item : Ref) : TcpMain :=
  { s with list := s.list.erase item }

/-- The next step of thread `i`. -/
def workStep (env : Env) (i : Nat) (w : TcpWorker) : Except TcpFault TcpMain :=
  match w.task with
  | .wait =>
      let (fds, events) := epollWait s.fds env.ready
      let s := { s with fds := fds }
      if s.running then
        .ok (if events = [] then s.goto i .wait [] else s.goto i .loop events)
      else .ok (s.goto i .exit [])
  | .loop =>
      match w.batch with
      | [] => .ok (s.goto i .wait [])
      | .listener :: batch => .ok (s.goto i .accept batch)
      | .client item bits :: batch =>
          if bits.input then .ok (s.goto i (.serve item .input) batch)
          else if bits.output then .ok (s.goto i (.serve item .output) batch)
          else .ok (s.goto i (.gate item) batch)
  | .accept => s.tcpAccept env i w.batch
  | .accepted connfd => s.tcpPut i connfd w.batch
  | .add item _ => s.tcpAdd i item w.batch
  | .serve item mode => s.tcpTransfer env i item mode w.batch
  | .gate item => s.tcpGateItem i item w.batch
  | .shutdown item =>
      if s.mutex.isSome then .ok s
      else .ok ({ s with mutex := some i }.goto i (.disconnect item) w.batch)
  | .disconnect item => (s.nodeClose item).map fun s => s.goto i (.unlink item) w.batch
  | .unlink item => .ok ({ s.nodeUnlink item with mutex := none }.goto i .loop w.batch)
  | .exit => .ok s

end TcpMain

/-- A step of a thread, or the signal that sets `status` to `GAMEOVER`. -/
inductive TcpAction where
  | work (i : Nat) (env : Env)
  | signal

/-- One step of the process. -/
def tcpStep (s : TcpMain) : TcpAction → Except TcpFault TcpMain
  | .signal => .ok { s with running := false }
  | .work i env =>
      match s.workers[i]? with
      | none => .ok s
      | some w => s.workStep env i w

/-- The process behind `work_start`. -/
def tcpInit (threads : Nat) : TcpMain where
  running := true
  fds := fun _ => none
  items := .empty
  list := []
  mutex := none
  workers := List.replicate threads ⟨.wait, []⟩
  log := []

/-- The loop of `node_free`, which runs behind `work_stop` and `tcp_stop`, with a bound
for its rounds: it closes the first connection of the list until there is none. -/
def nodeFree : Nat → TcpMain → Except TcpFault TcpMain
  | 0, s => .ok s
  | rounds + 1, s =>
      match s.list with
      | [] => .ok s
      | item :: _ => do
          let s ← s.nodeClose item
          nodeFree rounds (s.nodeUnlink item)

end Torrentkino
