import Makar.Machine
import Makar.Paths

/-!
# Processes: the pool, the run list, signals and messages

The process side of the kernel: `proc/task.c` (the pool, the circular run
list, `schedule` and the ways a task ends), `proc/signal.c` (pending signals
and the handler table) and `proc/ipc.c` (synchronous messages), with the
parts of `proc/syscall.c` that create, replace and reap tasks. A task is a
slot of the pool, and pointers between tasks are slot numbers, null being
`none`; the links of the run list and of the sender queues are kept as the
source keeps them, one link per task.

The kernel is on one processor, and each of these operations runs with
interrupts off. An event is one of them, taken by the task that runs; a run
is any sequence of events. A call that blocks stops in the middle: the slot
remembers where (`IpcCall`), and the call goes on with the event `resume`.

The loops of the source that follow links have no bound. Here they are given
one turn per slot; if that did not suffice the state would be marked `hung`,
and that it never is has to be proved.
-/

namespace Makar

/-! ## The state -/

/-- `task_state_t`. -/
inductive ProcState where
  /-- `TASK_READY`. -/
  | ready
  /-- `TASK_RUNNING`. -/
  | running
  /-- `TASK_DEAD`. -/
  | dead
  /-- `TASK_ZOMBIE`. -/
  | zombie
  /-- `TASK_BLOCKED`. -/
  | blocked
  deriving DecidableEq, Repr

/-- The values of `ipc_state`. -/
inductive IpcState where
  /-- `IPC_STATE_IDLE`. -/
  | idle
  /-- `IPC_STATE_SENDING`. -/
  | sending
  /-- `IPC_STATE_RECVING`. -/
  | recving
  deriving DecidableEq, Repr

/-- `IPC_MSG_DATA_WORDS`. -/
def ipcMsgDataWords : ℕ := 6

/-- `ipc_msg_t`. -/
structure IpcMsg where
  /-- The pid of the sender. -/
  src : ℤ
  /-- The opcode. -/
  type : ℤ
  /-- The words of the message. -/
  data : Fin ipcMsgDataWords → UInt32
  deriving DecidableEq

/-- A message of zeros. -/
def IpcMsg.zero : IpcMsg := ⟨0, 0, fun _ => 0⟩

/-- `IPC_ANY`. -/
def ipcAny : ℤ := -1

/-- `IPC_ESRCH`. -/
def ipcEsrch : ℤ := -3

/-- `IPC_EAGAIN`. -/
def ipcEagain : ℤ := -11

/-- `IPC_EFAULT`. -/
def ipcEfault : ℤ := -14

/-- `IPC_EINVAL`. -/
def ipcEinval : ℤ := -22

/-- The call a task is parked in, at `ipc_block`. -/
inductive IpcCall where
  /-- No call. -/
  | none
  /-- `ipc_send`. -/
  | send
  /-- `ipc_send`, called by `ipc_sendrec`. -/
  | sendrec (dst : ℤ)
  /-- `ipc_recv`. -/
  | recv
  deriving DecidableEq, Repr

/-- A slot of the task pool (`task_t`), as far as processes go. -/
structure Proc where
  /-- `state`. -/
  state : ProcState
  /-- `next`, the link of the run list. -/
  next : Option ℕ
  /-- `pid`. -/
  pid : ℕ
  /-- `parent_pid`. -/
  parentPid : ℕ
  /-- `page_dir` is not the kernel's. -/
  userPd : Bool
  /-- `exit_status`. -/
  exitStatus : ℤ
  /-- `unkillable`. -/
  unkillable : Bool
  /-- `sig_pending`. -/
  sigPending : UInt32
  /-- `sig_mask`. -/
  sigMask : UInt32
  /-- `ipc_buf`. -/
  ipcBuf : IpcMsg
  /-- `ipc_state`. -/
  ipcState : IpcState
  /-- `ipc_partner`. -/
  ipcPartner : ℤ
  /-- `ipc_rc`. -/
  ipcRc : ℤ
  /-- `ipc_sender_q`. -/
  ipcSenderQ : Option ℕ
  /-- `ipc_sq_next`. -/
  ipcSqNext : Option ℕ
  /-- Where the task is parked. -/
  call : IpcCall

/-- A slot of zeros. -/
def Proc.zero : Proc where
  state := .ready
  next := none
  pid := 0
  parentPid := 0
  userPd := false
  exitStatus := 0
  unkillable := false
  sigPending := 0
  sigMask := 0
  ipcBuf := IpcMsg.zero
  ipcState := .idle
  ipcPartner := 0
  ipcRc := 0
  ipcSenderQ := none
  ipcSqNext := none
  call := .none

/-- A blocked task is made ready. -/
def Proc.wake (p : Proc) : Proc :=
  { p with state := if p.state = .blocked then .ready else p.state }

/-- What `ipc_task_cleanup` makes of a sender queued on the dying task. -/
def Proc.refused (p : Proc) : Proc :=
  Proc.wake { p with ipcSqNext := none, ipcRc := ipcEsrch, ipcState := .idle }

/-- The state of the processes. -/
structure Procs where
  /-- `task_pool`. -/
  pool : ℕ → Proc
  /-- `task_pool_count`. -/
  count : ℕ
  /-- `next_pid`. -/
  nextPid : ℕ
  /-- `current_task`. -/
  current : ℕ
  /-- The memory from `s_handlers` on, word by word. -/
  handlers : ℕ → UInt32
  /-- A loop of the kernel does not end. -/
  hung : Bool

namespace Procs

/-- Change a slot. -/
def upd (i : ℕ) (f : Proc → Proc) (k : Procs) : Procs :=
  { k with pool := Function.update k.pool i (f (k.pool i)) }

/-- The link of the run list. -/
def next (k : Procs) (i : ℕ) : Option ℕ := (k.pool i).next

/-- The link of the sender queues. -/
def sqNext (k : Procs) (i : ℕ) : Option ℕ := (k.pool i).ipcSqNext

/-- The task is neither dead nor a zombie. -/
def Live (k : Procs) (i : ℕ) : Prop :=
  i < k.count ∧ (k.pool i).state ≠ .dead ∧ (k.pool i).state ≠ .zombie

instance (k : Procs) (i : ℕ) : Decidable (k.Live i) := inferInstanceAs (Decidable (_ ∧ _))

/-- What holds of the live tasks of the pool holds of all. -/
theorem forall_live {k : Procs} {P : ℕ → Prop} (h : ∀ i < k.count, k.Live i → P i) (i : ℕ)
    (hi : k.Live i) : P i :=
  h i hi.1 hi

/-- `task_by_pid`. -/
def taskByPid (pid : ℤ) (k : Procs) : Option ℕ :=
  (List.range k.count).find? (fun i => (k.pool i).pid = pid ∧ (k.pool i).state ≠ .dead)

/-! ## Messages -/

/-- `ipc_task_init`. -/
def ipcTaskInit (t : ℕ) : Procs → Procs :=
  upd t fun p =>
    { p with ipcState := .idle, ipcPartner := 0, ipcRc := 0, ipcSenderQ := none, ipcSqNext := none }

/-- The first loop of `ipc_task_cleanup`. -/
def wakeSenders : ℕ → Option ℕ → Procs → Procs
  | _, none, k => k
  | 0, some _, k => { k with hung := true }
  | n + 1, some s, k => wakeSenders n (k.sqNext s) (k.upd s Proc.refused)

/-- Take `s`, which comes after `prev`, out of the sender queue of `d`. -/
def unqueue (d : ℕ) (prev : Option ℕ) (s : ℕ) (k : Procs) : Procs :=
  match prev with
  | some q => k.upd q fun p => { p with ipcSqNext := k.sqNext s }
  | none => k.upd d fun p => { p with ipcSenderQ := k.sqNext s }

/-- The second loop of `ipc_task_cleanup`: the dying task leaves the queue it
waits in. -/
def leaveQueue (t : ℕ) (k : Procs) : Procs :=
  match k.taskByPid (k.pool t).ipcPartner with
  | none => k
  | some d =>
    match scan k.sqNext (fun s => s = t) k.count none (k.pool d).ipcSenderQ with
    | none => { k with hung := true }
    | some none => k
    | some (some (prev, s)) => k.unqueue d prev s

/-- `ipc_task_cleanup`. -/
def ipcTaskCleanup (t : ℕ) (k : Procs) : Procs :=
  let k := wakeSenders k.count (k.pool t).ipcSenderQ k
  let k := k.upd t fun p => { p with ipcSenderQ := none }
  let k := if (k.pool t).ipcState = .sending then k.leaveQueue t else k
  k.upd t fun p => { p with ipcState := .idle, ipcSqNext := none }

/-- The task `t` hands its message to the task `d`, which waits for it. -/
def deliver (t d : ℕ) (k : Procs) : Procs :=
  k.upd d fun p => Proc.wake
    { p with ipcBuf := (k.pool t).ipcBuf, ipcState := .idle, ipcPartner := 0, ipcRc := 0 }

/-- `ipc_block`, in the given call. The scheduler runs next. -/
def ipcBlock (t : ℕ) (call : IpcCall) : Procs → Procs :=
  upd t fun p => { p with state := .blocked, call := call }

/-- The walk to the end of the queue of `d`, where `t` is linked in. -/
def appendSender (t d : ℕ) (k : Procs) : Procs :=
  match (k.pool d).ipcSenderQ with
  | none => k.upd d fun p => { p with ipcSenderQ := some t }
  | some head =>
    match tailOf k.sqNext k.count head with
    | none => { k with hung := true }
    | some tail => k.upd tail fun p => { p with ipcSqNext := some t }

/-- The slow path of `ipc_send`: the task goes to the end of the queue. -/
def enqueue (t d : ℕ) (dst : ℤ) (k : Procs) : Procs :=
  (k.upd t fun p =>
    { p with ipcState := .sending, ipcPartner := dst, ipcRc := 0, ipcSqNext := none }).appendSender
    t d

/-- `ipc_send` after the message is staged: what it returns, none when it
blocks. -/
def rendezvous (t : ℕ) (dst : ℤ) (k : Procs) : Option ℤ × Procs :=
  match k.taskByPid dst with
  | none => (some ipcEsrch, k)
  | some d =>
    if (k.pool d).state = .dead ∨ (k.pool d).state = .zombie then (some ipcEsrch, k)
    else if (k.pool d).ipcState = .recving
        ∧ ((k.pool d).ipcPartner = ipcAny ∨ (k.pool d).ipcPartner = (k.pool t).pid) then
      (some 0, k.deliver t d)
    else (none, (k.enqueue t d dst).ipcBlock t .send)

/-- `ipc_send`: what it returns, none when it blocks. A message pointer that is
null is `none`. -/
def ipcSend (t : ℕ) (dst : ℤ) (msg : Option IpcMsg) (k : Procs) : Option ℤ × Procs :=
  match msg with
  | none => (some ipcEfault, k)
  | some msg =>
    if dst = (k.pool t).pid then (some ipcEinval, k)
    else (k.upd t fun p => { p with ipcBuf := { msg with src := p.pid } }).rendezvous t dst

/-- The test of the scan of `ipc_recv`: the sender is one the task receives
from. -/
def fromMatch (src : ℤ) (k : Procs) (s : ℕ) : Bool := src = ipcAny ∨ ((k.pool s).pid : ℤ) = src

/-- The message of the queued sender `s` is taken, and its send completed. -/
def collect (t : ℕ) (prev : Option ℕ) (s : ℕ) (k : Procs) : Procs :=
  let k := k.unqueue t prev s
  let k := k.upd s fun p => { p with ipcSqNext := none }
  let k := k.upd t fun p => { p with ipcBuf := (k.pool s).ipcBuf }
  k.upd s fun p => Proc.wake { p with ipcRc := 0, ipcState := .idle, ipcPartner := 0 }

/-- The scan that `ipc_recv` and `ipc_nbrecv` begin with, and what they do with
the sender it finds: true when there is one. -/
def takeQueued (t : ℕ) (src : ℤ) (k : Procs) : Bool × Procs :=
  match scan k.sqNext (k.fromMatch src) k.count none (k.pool t).ipcSenderQ with
  | none => (false, { k with hung := true })
  | some none => (false, k)
  | some (some (prev, s)) => (true, k.collect t prev s)

/-- `ipc_recv`: what it returns, none when it blocks. The pointer for the message
may be null. -/
def ipcRecv (t : ℕ) (src : ℤ) (out : Bool) (k : Procs) : Option ℤ × Procs :=
  if !out then (some ipcEfault, k)
  else
    match k.takeQueued t src with
    | (true, k) => (some 0, k)
    | (false, k) =>
      if k.hung then (none, k)
      else
        (none, (k.upd t fun p =>
          { p with ipcState := .recving, ipcPartner := src, ipcRc := 0 }).ipcBlock t .recv)

/-- `ipc_sendrec`: what it returns, none when it blocks in one of its halves. -/
def ipcSendrec (t : ℕ) (dst : ℤ) (msg : Option IpcMsg) (k : Procs) : Option ℤ × Procs :=
  match k.ipcSend t dst msg with
  | (none, k) => (none, k.ipcBlock t (.sendrec dst))
  | (some rc, k) => if rc ≠ 0 then (some rc, k) else k.ipcRecv t dst true

/-- `ipc_nbrecv`. -/
def ipcNbrecv (t : ℕ) (src : ℤ) (out : Bool) (k : Procs) : ℤ × Procs :=
  if !out then (ipcEfault, k)
  else
    match k.takeQueued t src with
    | (true, k) => (0, k)
    | (false, k) => (ipcEagain, k)

/-- What a blocked call does when the task runs again, the code after
`ipc_block`: what the call returns, none when it blocks once more. -/
def resume (t : ℕ) (k : Procs) : Option ℤ × Procs :=
  let rc := (k.pool t).ipcRc
  let woken := k.upd t fun p => { p with ipcState := .idle, call := .none }
  match (k.pool t).call with
  | .none => (none, k)
  | .recv => (some rc, woken)
  | .send => (some rc, woken)
  | .sendrec dst => if rc ≠ 0 then (some rc, woken) else woken.ipcRecv t dst true

/-! ## The end of a task -/

/-- The decision of `task_terminate`: the task leaves a zombie when its parent
may wait for it. -/
def leavesZombie (t : ℕ) (k : Procs) : Bool :=
  0 < (k.pool t).parentPid &&
    match k.taskByPid (k.pool t).parentPid with
    | some p => (k.pool p).userPd
    | none => false

/-- `task_terminate`. -/
def taskTerminate (t : ℕ) (status : ℤ) (k : Procs) : Procs :=
  let k := k.ipcTaskCleanup t
  k.upd t fun p =>
    { p with
      exitStatus := status
      state := if k.leavesZombie t then .zombie else .dead }

/-! ## Signals -/

/-- `SIG_MAX`. -/
def sigMax : ℕ := 31

/-- `NSIG`. -/
def nsig : ℕ := sigMax + 1

/-- `SIG_TABLE_MAX_TASKS`. -/
def sigTableMaxTasks : ℕ := 8

/-- `SIG_DFL`. -/
def sigDfl : UInt32 := 0

/-- `SIG_IGN`. -/
def sigIgn : UInt32 := 1

/-- `SIGINT`. -/
def sigint : ℕ := 2

/-- `SIGKILL`. -/
def sigkill : ℕ := 9

/-- `SIGTERM`. -/
def sigterm : ℕ := 15

/-- `SIGSTOP`. -/
def sigstop : ℕ := 19

/-- `SIG_BIT`. -/
def sigBit (n : ℕ) : UInt32 := 1 <<< (UInt32.ofNat (n - 1))

/-- `sig_default_terminates`: `SIGHUP` to `SIGABRT`, `SIGFPE` to `SIGTERM`. -/
def sigDefaultTerminates (signo : ℕ) : Bool :=
  signo ∈ [1, 2, 3, 4, 5, 6, 8, 9, 10, 11, 12, 13, 14, 15]

/-- `slot_of`. -/
def slotOf (t : ℕ) (k : Procs) : Option ℕ := (List.range k.count).find? (fun i => i = t)

/-- The word of the handler table for a signal in a row. -/
def handlerAt (slot signo : ℕ) : ℕ := slot * nsig + signo

/-- `sig_task_init`. -/
def sigTaskInit (t : ℕ) (k : Procs) : Procs :=
  let k := k.upd t fun p => { p with sigPending := 0, sigMask := 0 }
  match k.slotOf t with
  | none => k
  | some slot =>
    { k with
      handlers := fun j =>
        if handlerAt slot 0 ≤ j ∧ j < handlerAt slot nsig then sigDfl else k.handlers j }

/-- `sig_send`. -/
def sigSend (t : ℕ) (signo : ℤ) (k : Procs) : Procs :=
  if signo < 1 ∨ sigMax < signo then k
  else if (k.pool t).state = .dead then k
  else k.upd t fun p => { p with sigPending := p.sigPending ||| sigBit signo.toNat }

/-- `sig_send_pid`. -/
def sigSendPid (pid signo : ℤ) (k : Procs) : Procs :=
  match k.taskByPid pid with
  | none => k
  | some t => k.sigSend t signo

/-- `sig_set_handler`. -/
def sigSetHandler (t : ℕ) (signo : ℤ) (handler : UInt32) (k : Procs) : ℤ × Procs :=
  if signo < 1 ∨ sigMax < signo then (-1, k)
  else if signo = sigkill ∨ signo = sigstop then (-1, k)
  else
    match k.slotOf t with
    | none => (-1, k)
    | some slot =>
      (0, { k with
        handlers := Function.update k.handlers (handlerAt slot signo.toNat) handler })

/-- `handler_for`. -/
def handlerFor (t signo : ℕ) (k : Procs) : UInt32 :=
  match k.slotOf t with
  | none => sigDfl
  | some slot => k.handlers (handlerAt slot signo)

/-- A pending signal is taken back. -/
def sigClear (t signo : ℕ) : Procs → Procs :=
  upd t fun p => { p with sigPending := p.sigPending &&& ~~~sigBit signo }

/-- The signals that are pending and not masked. -/
def deliverable (t : ℕ) (k : Procs) : UInt32 := (k.pool t).sigPending &&& ~~~(k.pool t).sigMask

/-- The loop of `sig_deliver`. -/
def sigDeliverLoop (t : ℕ) (deliverable : UInt32) : List ℕ → Procs → Procs
  | [], k => k
  | sig :: sigs, k =>
    if deliverable &&& sigBit sig = 0 then sigDeliverLoop t deliverable sigs k
    else if sig = sigkill then
      if (k.pool t).unkillable then sigDeliverLoop t deliverable sigs (k.sigClear t sig)
      else (k.sigClear t sig).taskTerminate t (128 + sigkill)
    else if k.handlerFor t sig = sigIgn then sigDeliverLoop t deliverable sigs (k.sigClear t sig)
    else if k.handlerFor t sig = sigDfl then
      if sigDefaultTerminates sig && !(k.pool t).unkillable then
        (k.sigClear t sig).taskTerminate t (128 + sig)
      else sigDeliverLoop t deliverable sigs (k.sigClear t sig)
    else k

/-- `sig_deliver`. -/
def sigDeliver (t : ℕ) (k : Procs) : Procs :=
  if (k.pool t).state = .dead then k
  else if k.deliverable t = 0 then k
  else sigDeliverLoop t (k.deliverable t) (List.range' 1 sigMax) k

/-- The test of the loop of `signal_check_user`: the signal goes to a handler of
the program. -/
def caughtBy (t : ℕ) (k : Procs) (sig : ℕ) : Bool :=
  k.deliverable t &&& sigBit sig ≠ 0 ∧ k.handlerFor t sig ≠ sigDfl ∧ k.handlerFor t sig ≠ sigIgn
    ∧ sig ≠ sigkill

/-- `signal_check_user`: the handler the task goes to, if any. The frame it
builds on the stack of the program is not part of the model. -/
def signalCheckUser (t : ℕ) (k : Procs) : Option UInt32 × Procs :=
  match (List.range' 1 sigMax).find? (k.caughtBy t) with
  | none => (none, k)
  | some sig => (some (k.handlerFor t sig), k.sigClear t sig)

/-! ## The scheduler -/

/-- The signals of a task are delivered, if it is in the given state. -/
def serve (state : ProcState) (t : ℕ) (k : Procs) : Procs :=
  if (k.pool t).state = state then k.sigDeliver t else k

/-- The search of `schedule`, for a number of turns from a candidate on. -/
def pick : ℕ → ℕ → Procs → ℕ × Procs
  | 0, cand, k => (cand, k)
  | n + 1, cand, k =>
    let served := k.serve .ready cand
    if (k.pool cand).state = .ready ∧ (served.pool cand).state = .ready then (cand, served)
    else
      match served.next cand with
      | none => (cand, { served with hung := true })
      | some cand => pick n cand served

/-- The switch of `schedule`. -/
def switchTo (t : ℕ) (k : Procs) : Procs :=
  let k := if (k.pool k.current).state = .running
    then k.upd k.current fun p => { p with state := .ready } else k
  ({ k with current := t }).upd t fun p => { p with state := .running }

/-- `schedule`. -/
def schedule (k : Procs) : Procs :=
  if k.count < 2 then k
  else
    let k := k.serve .running k.current
    match k.next k.current with
    | none => { k with hung := true }
    | some cand =>
      let r := pick k.count cand k
      if r.1 = k.current ∨ (r.2.pool r.1).state ≠ .ready then r.2 else r.2.switchTo r.1

/-! ## Creating tasks -/

/-- The first dead slot, which `task_create` and `task_fork` reclaim. -/
def deadSlot (k : Procs) : Option ℕ :=
  (List.range k.count).find? (fun i => 0 < i ∧ (k.pool i).state = .dead)

/-- A reclaimed slot is taken out of the run list. -/
def unlinkTask (t : ℕ) (k : Procs) : Procs :=
  match prevOf k.next t k.count k.current with
  | none => { k with hung := true }
  | some prev => k.upd prev fun p => { p with next := k.next t }

/-- A slot for a new task, none when there is none. `stack` is whether the heap
has room for a kernel stack. -/
def claimSlot (stack : Bool) (k : Procs) : Option ℕ × Procs :=
  match k.deadSlot with
  | some t => (some t, k.unlinkTask t)
  | none =>
    if maxTasks ≤ k.count then (none, k)
    else if !stack then (none, k)
    else (some k.count, ({ k with count := k.count + 1 }).upd k.count fun _ => Proc.zero)

/-- The new task is linked into the run list after the current one. -/
def linkTask (t : ℕ) (k : Procs) : Procs :=
  let k := k.upd t fun p => { p with next := k.next k.current }
  k.upd k.current fun p => { p with next := some t }

/-- What `task_create` and `task_fork` write to the slot alike. -/
def newTask (t : ℕ) (userPd : Bool) (k : Procs) : Procs :=
  ({ k with nextPid := k.nextPid + 1 }).upd t fun p =>
    { p with
      userPd := userPd
      state := .ready
      pid := k.nextPid
      parentPid := (k.pool k.current).pid
      exitStatus := 0
      unkillable := false
      call := .none }

/-- `task_create`. `fds` is whether the heap has room for a descriptor table. -/
def taskCreate (fds stack : Bool) (k : Procs) : Procs :=
  if !fds then k
  else
    match k.claimSlot stack with
    | (none, k) => k
    | (some t, k) => (((k.newTask t false).ipcTaskInit t).sigTaskInit t).linkTask t

/-- `task_fork`. `clones` is whether the descriptor table and the page directory
could be cloned. The message fields of the slot stay as they are. -/
def taskFork (clones stack : Bool) (k : Procs) : Procs :=
  if !clones then k
  else
    match k.claimSlot stack with
    | (none, k) => k
    | (some t, k) => ((k.newTask t true).sigTaskInit t).linkTask t

/-- `SYS_EXECVE`: the handlers are reset before the image is loaded, which may
fail. -/
def execve (ok : Bool) (k : Procs) : Procs :=
  let k := k.sigTaskInit k.current
  if ok then k.upd k.current fun p => { p with userPd := true } else k

/-- The loop of `task_exit` over the zombies of the task. -/
def reapChildren (t : ℕ) (k : Procs) : Procs :=
  { k with
    pool := fun i =>
      if 0 < i ∧ i < k.count ∧ (k.pool i).state = .zombie ∧ (k.pool i).parentPid = (k.pool t).pid
      then { k.pool i with state := .dead } else k.pool i }

/-- `task_exit`, to the point where another task runs. -/
def taskExit (status : ℤ) (k : Procs) : Procs :=
  ((k.reapChildren k.current).taskTerminate k.current status).schedule

/-- A pass of `SYS_WAIT4` over the children: the first zombie asked for is
reaped. -/
def sysWait4 (want : ℤ) (k : Procs) : Procs :=
  match (List.range k.count).find? (fun i =>
      (k.pool i).parentPid = (k.pool k.current).pid ∧ (k.pool i).state = .zombie
        ∧ (want < 0 ∨ (k.pool i).pid = want)) with
  | none => k
  | some c => k.upd c fun p => { p with state := .dead }

/-! ## Events -/

/-- One operation of the kernel. Those without a task in them are taken by the
task that runs. -/
inductive Event where
  /-- `task_create`. -/
  | taskCreate (fds stack : Bool)
  /-- `task_fork`. -/
  | taskFork (clones stack : Bool)
  /-- `SYS_EXECVE`. -/
  | execve (ok : Bool)
  /-- `SYS_EXIT` and `task_exit`. -/
  | taskExit (status : ℤ)
  /-- `SYS_SIGRETURN` from a frame that is not one. -/
  | sigreturn
  /-- `vtty_logout_root_session`, called by another task than the one it ends. -/
  | logout (t : ℕ)
  /-- `SYS_WAIT4`. -/
  | wait4 (want : ℤ)
  /-- `task_yield`, also by the timer. -/
  | schedule
  /-- Some other ready task runs, whatever the order of the run list. -/
  | dispatch (t : ℕ)
  /-- `SYS_KILL`. -/
  | kill (pid signo : ℤ)
  /-- A signal from the keyboard. -/
  | interrupt (t : ℕ)
  /-- `SYS_SIGNAL`. -/
  | signal (signo : ℤ) (handler : UInt32)
  /-- `signal_check_user`, on the way back to the program. -/
  | checkUser
  /-- The kernel writes to a variable of its own that lies behind the handler
  table. -/
  | store (word : ℕ) (value : UInt32)
  /-- `SYS_IPC_SEND`. -/
  | ipcSend (dst : ℤ) (msg : Option IpcMsg)
  /-- `SYS_IPC_RECV`. -/
  | ipcRecv (src : ℤ) (out : Bool)
  /-- `SYS_IPC_SENDREC`; with a switch between its halves it is an `ipcSend` and an `ipcRecv`. -/
  | ipcSendrec (dst : ℤ) (msg : Option IpcMsg)
  /-- `SYS_IPC_NBRECV`. -/
  | ipcNbrecv (src : ℤ) (out : Bool)
  /-- The call the task was parked in goes on. -/
  | resume

/-- After a call: the scheduler runs when it has blocked. -/
def afterCall (r : Option ℤ × Procs) : Procs :=
  match r.1 with
  | none => r.2.schedule
  | some _ => r.2

/-- What the running task does in an event that is its own. -/
def act (k : Procs) : Event → Procs
  | .taskCreate fds stack => k.taskCreate fds stack
  | .taskFork clones stack => k.taskFork clones stack
  | .execve ok => k.execve ok
  | .taskExit status => k.taskExit status
  | .sigreturn => (k.upd k.current fun p => { p with state := .dead }).schedule
  | .logout t => if k.Live t ∧ t ≠ k.current then k.taskTerminate t 0 else k
  | .wait4 want => k.sysWait4 want
  | .kill pid signo => k.sigSendPid pid signo
  | .signal signo handler => (k.sigSetHandler k.current signo handler).2
  | .checkUser => (k.signalCheckUser k.current).2
  | .ipcSend dst msg => afterCall (k.ipcSend k.current dst msg)
  | .ipcRecv src out => afterCall (k.ipcRecv k.current src out)
  | .ipcSendrec dst msg => afterCall (k.ipcSendrec k.current dst msg)
  | .ipcNbrecv src out => (k.ipcNbrecv k.current src out).2
  | _ => k

/-- One event. The timer, the keyboard and the rest of the kernel act at any
time; a call goes on when its task runs again; everything else is done by a
running task that is not inside a call. -/
def step (k : Procs) (e : Event) : Procs :=
  if k.hung then k
  else
    match e with
    | .schedule => k.schedule
    | .dispatch t => if t < k.count ∧ (k.pool t).state = .ready then k.switchTo t else k
    | .interrupt t => if t < k.count then k.sigSend t sigint else k
    | .store word value =>
      if sigTableMaxTasks * nsig ≤ word
      then { k with handlers := Function.update k.handlers word value } else k
    | .resume =>
      if (k.pool k.current).state = .running ∧ (k.pool k.current).call ≠ .none
      then afterCall (k.resume k.current) else k
    | e =>
      if (k.pool k.current).state = .running ∧ (k.pool k.current).call = .none
      then k.act e else k

/-- The state after a run. -/
def run (k : Procs) (es : List Event) : Procs := es.foldl step k

/-- `tasking_init`: the idle task runs, and there is no other. -/
def taskingInit : Procs where
  pool := Function.update (fun _ => Proc.zero) 0
    { Proc.zero with state := .running, next := some 0, pid := 1, unkillable := true }
  count := 1
  nextPid := 2
  current := 0
  handlers := fun _ => sigDfl
  hung := false

end Procs

end Makar
