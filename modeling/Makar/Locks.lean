import Makar.ProcTurn
import Makar.RecLock
import Makar.Vfs

/-!
# The lock of the file systems and the lock of `SYS_EXECVE`

System calls can be preempted, and two locks keep tasks apart inside them. The
drivers of ext2, FAT32 and ISO 9660 work in static buffers; the dispatchers of
`fs/vfs.c` hold the recursive lock of `vfs_fs_lock` around them. `SYS_EXECVE` copies
its arguments to a static buffer and holds `execve_lock` meanwhile. Both locks
record the pid of their owner.

The model puts the two locks beside the tasks. `frames` says which calls a task is
in, innermost first. Pids are never given out twice, so that the frames of a task
that has ended say nothing about its successor. A task inside a call does nothing
of its own, but it can be preempted, and signals are delivered to it then.

Two things go wrong. A task that is ended by a signal keeps its locks
(`owner_killed`), because `task_terminate` releases none: the owner is alive as long
as no signal is due for it when the scheduler runs (`owners_live`). And
`vfs_rename`, `vfs_stat` and `vfs_statfs` call the drivers without the lock
(`two_inside`): at most one task is inside a driver as long as such a call finds
nobody inside and nobody enters next to it (`one_inside`).
-/

namespace Makar

open Function List

/-! ## Calls -/

/-- The calls of `fs/vfs.c` that reach drivers. -/
inductive VfsCall where
  | ls | cd | readFile | readAt | writeFile | mkdir | deleteFile | deleteDir | fileExists | complete
  | rename | stat | statfs
  deriving DecidableEq

namespace VfsCall

/-- The call takes the lock: the dispatchers (`backend_ls` and so on) do for a disk, and
`vfs_mkdir` and `vfs_cd` answer ISO 9660 without them. -/
def locks (b : VfsBackend) : VfsCall → Bool
  | .ls | .readFile | .readAt | .writeFile | .deleteFile | .deleteDir | .fileExists
  | .complete => fsBackendDisk b
  | .cd | .mkdir => b = .ext2 ∨ b = .fat32
  | .rename | .stat | .statfs => false

/-- The call runs a driver for disks. -/
def reaches (b : VfsBackend) : VfsCall → Bool
  | .ls | .readFile | .readAt | .fileExists | .complete | .stat => fsBackendDisk b
  | .cd | .writeFile | .mkdir | .deleteFile | .deleteDir | .rename => b = .ext2 ∨ b = .fat32
  | .statfs => b = .ext2

end VfsCall

/-- A call that a task is in. -/
inductive CallFrame where
  /-- A call of `fs/vfs.c`, for a backend. -/
  | vfs (call : VfsCall) (b : VfsBackend)
  /-- `SYS_EXECVE`. -/
  | execve
  deriving DecidableEq

/-- The lock is held for the call. -/
def CallFrame.locks : CallFrame → Bool
  | .vfs call b => call.locks b
  | .execve => false

/-- The call is inside a driver. -/
def CallFrame.reaches : CallFrame → Bool
  | .vfs call b => call.reaches b
  | .execve => false

/-- The tasks and the two locks. -/
structure LockState where
  /-- The tasks. -/
  procs : Procs
  /-- `s_fs_owner` and `s_fs_depth`. -/
  fsLock : RecLock
  /-- `s_execve_owner`. -/
  execveOwner : Option ℕ
  /-- The calls that the task of a pid is in. -/
  frames : ℕ → List CallFrame

/-- What happens to the tasks and the locks. -/
inductive LockEvent where
  /-- An event of the process model. -/
  | proc (e : Procs.Event)
  /-- The running task makes a call of `fs/vfs.c`. -/
  | vfsCall (call : VfsCall) (b : VfsBackend)
  /-- The innermost call of `fs/vfs.c` returns. -/
  | vfsReturn
  /-- `SYS_EXECVE` begins, with `execve_lock`. -/
  | execveLock
  /-- `execve_unlock`: `elf_exec` enters the new program, or has failed. -/
  | execveUnlock (ok : Bool)

/-- The event comes from outside of the running task. -/
def Procs.Event.outside : Procs.Event → Bool
  | .schedule | .dispatch _ | .interrupt _ | .store _ _ => true
  | _ => false

namespace LockState

/-- The pid of the running task. -/
def me (l : LockState) : ℕ := (l.procs.pool l.procs.current).pid

/-- A task runs, and is not parked in a message call. -/
def Runs (l : LockState) : Prop :=
  l.procs.hung = false ∧ (l.procs.pool l.procs.current).state = .running
    ∧ (l.procs.pool l.procs.current).call = .none

instance (l : LockState) : Decidable l.Runs := inferInstanceAs (Decidable (_ ∧ _ ∧ _))

/-- The running task is in the given calls. -/
def inCalls (fs : List CallFrame) (l : LockState) : LockState :=
  { l with frames := Function.update l.frames l.me fs }

/-- `task_yield`. -/
def taskYield (l : LockState) : LockState := { l with procs := l.procs.step .schedule }

/-- `vfs_fs_lock`, where it is needed, and the call. A task that does not get the lock yields, and
tries again when it runs. -/
def vfsCall (call : VfsCall) (b : VfsBackend) (l : LockState) : LockState :=
  if call.locks b then
    match l.fsLock.lock l.me with
    | some lock => { l.inCalls (.vfs call b :: l.frames l.me) with fsLock := lock }
    | none => l.taskYield
  else l.inCalls (.vfs call b :: l.frames l.me)

/-- The end of the innermost call, with `vfs_fs_unlock` if it has taken the lock. -/
def vfsReturn (l : LockState) : LockState :=
  match l.frames l.me with
  | .vfs call b :: fs =>
    { l.inCalls fs with fsLock := if call.locks b then l.fsLock.unlock else l.fsLock }
  | _ => l

/-- `execve_lock`, and `sig_task_init`. -/
def execveLock (l : LockState) : LockState :=
  if l.frames l.me = [] then
    if l.execveOwner = none then
      { l.inCalls [.execve] with
        execveOwner := some l.me, procs := l.procs.execve false }
    else l.taskYield
  else l

/-- `execve_unlock`. -/
def execveUnlock (ok : Bool) (l : LockState) : LockState :=
  if l.frames l.me = [.execve] then
    { l.inCalls [] with
      execveOwner := if l.execveOwner = some l.me then none else l.execveOwner
      procs :=
        if ok then l.procs.upd l.procs.current fun p => { p with userPd := true } else l.procs }
  else l

/-- One event. A task inside a call does nothing of its own. -/
def step (l : LockState) : LockEvent → LockState
  | .proc e => if e.outside ∨ l.frames l.me = [] then { l with procs := l.procs.step e } else l
  | .vfsCall call b => if l.Runs then l.vfsCall call b else l
  | .vfsReturn => if l.Runs then l.vfsReturn else l
  | .execveLock => if l.Runs then l.execveLock else l
  | .execveUnlock ok => if l.Runs then l.execveUnlock ok else l

/-- The state after a run. -/
def run (l : LockState) (evs : List LockEvent) : LockState := evs.foldl step l

/-- The idle task, and nobody has a lock. -/
def boot : LockState := ⟨Procs.taskingInit, .free, none, fun _ => []⟩

end LockState

/-! ## Tasks -/

namespace Procs

/-- What an event does to the tasks, as far as locks are concerned; `E` are those that may end. -/
structure Evolves (E : ℕ → Prop) (k k' : Procs) : Prop where
  /-- The others stay alive. -/
  live : ∀ i, k.Live i → ¬ E i → k'.Live i
  /-- Tasks keep their pids. -/
  pid : ∀ i, k.Live i → (k'.pool i).pid = (k.pool i).pid
  /-- A task was there, or has the next pid. -/
  back : ∀ i, k'.Live i → k.Live i ∨ (k'.pool i).pid = k.nextPid
  /-- Pids are given out in order. -/
  nextPid : k.nextPid ≤ k'.nextPid
  /-- The run list stays a ring. -/
  ring : k'.Ring
  /-- The pids stay apart. -/
  pids : Pids k'

variable {k k' : Procs} {E E' : ℕ → Prop}

theorem Evolves.refl (hr : k.Ring) (hp : Pids k) : Evolves E k k :=
  ⟨fun _ h _ => h, fun _ _ => rfl, fun _ => .inl, le_refl _, hr, hp⟩

theorem Evolves.mono (h : Evolves E k k') (hE : ∀ i, E i → E' i) : Evolves E' k k' :=
  ⟨fun i hl hi => h.live i hl fun he => hi (hE i he), h.pid, h.back, h.nextPid, h.ring, h.pids⟩

/-- A task that is alive after a turn was alive. -/
theorem Turn.live_back {W : ℕ → ℤ → Prop} {i : ℕ} (h : Turn W E k k') (hl : k'.Live i) :
    k.Live i := by
  have hcalm : ∀ {k₁ : Procs}, Calm W E k k₁ → k₁.Live i → k.Live i := by
    intro k₁ hk₁ hl₁
    refine ⟨hk₁.count ▸ hl₁.1, fun hd => hl₁.2.1 ((hk₁.slot i).dead hd), fun hz => ?_⟩
    exact ((hk₁.slot i).zombie hz).elim hl₁.2.2 hl₁.2.1
  obtain ⟨k₁, hk₁, rfl | ⟨t, -, hready, rfl⟩⟩ := h
  · exact hcalm hk₁ hl
  · exact hcalm hk₁ ((switchTo_live_iff hready).1 hl)

theorem Same.evolves (h : Same k k') (hr : k'.Ring) (hp : Pids k) : Evolves E k k' :=
  ⟨fun _ hl _ => h.live_iff.2 hl, fun i _ => h.pid i, fun _ hl => .inl (h.live_iff.1 hl),
    h.nextPid.ge, hr, hp.congr h.count h.nextPid h.pid⟩

/-- **What an event does to the tasks.** -/
theorem Ring.evolves (hr : k.Ring) (hp : Pids k) (e : Event) :
    Evolves (k.Ends e) k (k.step e) := by
  have hmoved := hr.moved e
  have hring := hr.step e
  have hpids := hp.moved hmoved hr
  rcases hmoved.cases with hturn | ⟨t, userPd, hborn, -⟩ | hsame
  · exact ⟨fun i hl hi => hturn.live hi hl, fun i _ => hturn.pid i,
      fun i hl => .inl (hturn.live_back hl), hturn.nextPid.ge, hring, hpids⟩
  · refine ⟨fun i hl _ => hborn.live hl, fun i hl => ?_, fun i hl => ?_, ?_, hring, hpids⟩
    · exact hborn.pid_of_ne fun heq => hborn.not_live (heq ▸ hl)
    · by_cases hit : i = t
      · exact .inr (hit ▸ hborn.pid)
      · refine .inl ⟨(hborn.slot.lt_iff.1 hl.1).resolve_right hit, ?_⟩
        rw [← hborn.state_of_ne hit]
        exact hl.2
    · rw [hborn.nextPid]
      exact Nat.le_succ _
  · exact hsame.evolves hring hp

/-- The new program of a task has an address space of its own. -/
theorem Ring.evolves_userPd (hr : k.Ring) (hp : Pids k) :
    Evolves E k (k.upd k.current fun p => { p with userPd := true }) := by
  have hsame : Same k (k.upd k.current fun p => { p with userPd := true }) :=
    ⟨rfl, rfl, rfl, fun i => upd_field Proc.face (by intro p; rfl) k k.current i⟩
  obtain ⟨l, hl⟩ := hr
  exact hsame.evolves ⟨l, hl.congr (fun i _ => upd_field Proc.next (by intro p; rfl) _ _ i) rfl⟩ hp

instance (k : Procs) (i : ℕ) : Decidable (k.Awaiting i) := inferInstanceAs (Decidable (_ ∧ _))

instance (k : Procs) (e : Event) (i : ℕ) : Decidable (k.Ends e i) := by
  cases e <;> dsimp only [Ends] <;> infer_instance

/-- The running task is alive. -/
theorem Ring.live_current (hr : k.Ring) (hrun : (k.pool k.current).state = .running) :
    k.Live k.current := by
  refine ⟨hr.current_lt, ?_, ?_⟩ <;> rw [hrun] <;> decide

end Procs

namespace LockState

/-! ## What an event comes to -/

/-- The tasks that may end in an event: those of the process model, and those for which a signal is
due where a task finds a lock taken and yields. -/
def Ends (l : LockState) : LockEvent → ℕ → Prop
  | .proc e, i => l.procs.Ends e i
  | .vfsCall call b, i =>
    call.locks b = true ∧ l.fsLock.lock l.me = none ∧ l.procs.deliverable i ≠ 0
  | .execveLock, i => l.execveOwner ≠ none ∧ l.procs.deliverable i ≠ 0
  | .vfsReturn, _ => False
  | .execveUnlock _, _ => False

instance (l : LockState) (ev : LockEvent) (i : ℕ) : Decidable (l.Ends ev i) := by
  cases ev <;> dsimp only [Ends] <;> infer_instance

/-- **What an event comes to.** -/
inductive Moved (l : LockState) (ev : LockEvent) : LockState → Prop
  /-- Nothing. -/
  | stays : Moved l ev l
  /-- Something happens to the tasks. -/
  | tasks (e : Procs.Event) (ends_alike : ∀ i, l.procs.Ends e i → l.Ends ev i) :
      Moved l ev { l with procs := l.procs.step e }
  /-- A call begins, with the lock. -/
  | locked (call : VfsCall) (b : VfsBackend) (lock : RecLock) (is_call : ev = .vfsCall call b)
      (is_running : l.Runs) (takes_lock : call.locks b = true)
      (gets_lock : l.fsLock.lock l.me = some lock) :
      Moved l ev { l.inCalls (.vfs call b :: l.frames l.me) with fsLock := lock }
  /-- A call begins, without the lock. -/
  | unlocked (call : VfsCall) (b : VfsBackend) (is_call : ev = .vfsCall call b)
      (is_running : l.Runs) (no_lock : call.locks b = false) :
      Moved l ev (l.inCalls (.vfs call b :: l.frames l.me))
  /-- A call returns. -/
  | returned (call : VfsCall) (b : VfsBackend) (fs : List CallFrame)
      (is_innermost : l.frames l.me = .vfs call b :: fs) :
      Moved l ev { l.inCalls fs with
        fsLock := if call.locks b then l.fsLock.unlock else l.fsLock }
  /-- `SYS_EXECVE` begins. -/
  | execve (is_event : ev = .execveLock) (is_running : l.Runs) (is_outside : l.frames l.me = []) :
      Moved l ev { l.inCalls [.execve] with
        execveOwner := some l.me, procs := l.procs.execve false }
  /-- `SYS_EXECVE` gives the lock back. -/
  | execved (ok : Bool) (is_inside : l.frames l.me = [.execve]) :
      Moved l ev { l.inCalls [] with
        execveOwner := if l.execveOwner = some l.me then none else l.execveOwner
        procs :=
          if ok then l.procs.upd l.procs.current fun p => { p with userPd := true } else l.procs }

theorem moved (l : LockState) (ev : LockEvent) : Moved l ev (l.step ev) := by
  cases ev with
  | proc e =>
    show Moved l _ (if e.outside ∨ l.frames l.me = [] then _ else l)
    split_ifs
    · exact .tasks e fun _ => id
    · exact .stays
  | vfsCall call b =>
    show Moved l _ (if l.Runs then l.vfsCall call b else l)
    split_ifs with hruns
    · unfold vfsCall
      split_ifs with hlocks
      · split
        · next lock hlock => exact .locked call b lock rfl hruns hlocks hlock
        · next hlock => exact .tasks .schedule fun _ hdue => ⟨hlocks, hlock, hdue⟩
      · exact .unlocked call b rfl hruns (by simpa using hlocks)
    · exact .stays
  | vfsReturn =>
    show Moved l _ (if l.Runs then l.vfsReturn else l)
    split_ifs
    · unfold vfsReturn
      split
      · next call b fs hfs => exact .returned call b fs hfs
      · exact .stays
    · exact .stays
  | execveLock =>
    show Moved l _ (if l.Runs then l.execveLock else l)
    split_ifs with hruns
    · unfold execveLock
      split_ifs with hout hfree
      · exact .execve rfl hruns hout
      · exact .tasks .schedule fun _ hdue => ⟨hfree, hdue⟩
      · exact .stays
    · exact .stays
  | execveUnlock ok =>
    show Moved l _ (if l.Runs then l.execveUnlock ok else l)
    split_ifs
    · unfold execveUnlock
      by_cases hin : l.frames l.me = [.execve]
      · rw [if_pos hin]
        exact .execved ok hin
      · rw [if_neg hin]
        exact .stays
    · exact .stays

variable {l l' : LockState} {ev : LockEvent}

/-- What an event does to the tasks, with the locks beside them. -/
theorem Moved.evolves (h : Moved l ev l') (hr : l.procs.Ring) (hp : Procs.Pids l.procs) :
    Procs.Evolves (l.Ends ev) l.procs l'.procs := by
  cases h with
  | stays => exact .refl hr hp
  | tasks e hends => exact (hr.evolves hp e).mono hends
  | locked call b lock _ _ _ _ => exact .refl hr hp
  | unlocked call b _ _ _ => exact .refl hr hp
  | returned call b fs _ => exact .refl hr hp
  | execve _ _ _ => exact (Procs.same_execve false l.procs).evolves (hr.execve false) hp
  | execved ok _ =>
    cases ok with
    | false => exact .refl hr hp
    | true => exact hr.evolves_userPd hp

/-! ## The owners of the locks -/

/-- The pid is that of an owner of a lock. -/
def Owner (l : LockState) (p : ℕ) : Prop := l.fsLock.owner = some p ∨ l.execveOwner = some p

instance (l : LockState) (p : ℕ) : Decidable (l.Owner p) := inferInstanceAs (Decidable (_ ∨ _))

/-- **The condition.** No task that owns a lock may end: no signal is due for it where the scheduler
runs, and no other task ends it. -/
def OwnersSpared (l : LockState) (ev : LockEvent) : Prop :=
  ∀ i < l.procs.count, l.procs.Live i → l.Owner (l.procs.pool i).pid → ¬ l.Ends ev i

instance (l : LockState) (ev : LockEvent) : Decidable (l.OwnersSpared ev) :=
  inferInstanceAs (Decidable (∀ _ < _, _ → _ → ¬ _))

/-- **Every owner of a lock is a task that is alive.** -/
def OwnersLive (l : LockState) : Prop :=
  ∀ p, l.Owner p → ∃ i, l.procs.Live i ∧ (l.procs.pool i).pid = p

/-- An owner after an event was one before, or is the running task, which is not ended. -/
theorem Moved.owner (h : Moved l ev l') {p : ℕ} (hp : l'.Owner p) :
    l.Owner p ∨ p = l.me ∧ l.Runs ∧ ∀ k, l'.procs.Live k ↔ l.procs.Live k := by
  cases h with
  | stays => exact .inl hp
  | tasks e _ => exact .inl hp
  | locked call b lock _ hruns _ hlock =>
    rcases hp with hp | hp
    · have hown : lock.owner = some p := hp
      rw [RecLock.lock_owner hlock] at hown
      exact .inr ⟨(Option.some.inj hown).symm, hruns, fun _ => Iff.rfl⟩
    · exact .inl (.inr hp)
  | unlocked call b _ _ _ => exact .inl hp
  | returned call b fs _ =>
    rcases hp with hp | hp
    · refine .inl (.inl ?_)
      dsimp only at hp
      split_ifs at hp
      · exact RecLock.unlock_owner hp
      · exact hp
    · exact .inl (.inr hp)
  | execve _ hruns _ =>
    rcases hp with hp | hp
    · exact .inl (.inl hp)
    · exact .inr ⟨(Option.some.inj hp).symm, hruns, fun _ => (Procs.same_execve false l.procs).live_iff⟩
  | execved ok _ =>
    rcases hp with hp | hp
    · exact .inl (.inl hp)
    · dsimp only at hp
      split_ifs at hp
      exact .inl (.inr hp)

/-- **A step keeps the owners alive** that meets the condition. -/
theorem OwnersLive.step (h : l.OwnersLive) (hr : l.procs.Ring) (hp : Procs.Pids l.procs)
    (hok : l.OwnersSpared ev) : (l.step ev).OwnersLive := by
  have hmoved := l.moved ev
  have hevolves := hmoved.evolves hr hp
  intro p hown
  rcases hmoved.owner hown with hold | ⟨rfl, hruns, hsame⟩
  · obtain ⟨i, hlive, rfl⟩ := h p hold
    exact ⟨i, hevolves.live i hlive (hok i hlive.1 hlive hold), hevolves.pid i hlive⟩
  · have hlive := hr.live_current hruns.2.1
    exact ⟨l.procs.current, (hsame _).2 hlive, hevolves.pid _ hlive⟩

/-- How often the task of a pid has the lock. -/
def lockCount (l : LockState) (p : ℕ) : ℕ := (l.frames p).countP CallFrame.locks

/-- The task of a pid is inside a driver. -/
def Inside (l : LockState) (p : ℕ) : Prop := ∃ f ∈ l.frames p, f.reaches = true

/-- The task of a pid is inside a driver without the lock. -/
def InsideUnlocked (l : LockState) (p : ℕ) : Prop :=
  ∃ f ∈ l.frames p, f.reaches = true ∧ f.locks = false

instance (l : LockState) (p : ℕ) : Decidable (l.Inside p) :=
  inferInstanceAs (Decidable (∃ _ ∈ _, _))

instance (l : LockState) (p : ℕ) : Decidable (l.InsideUnlocked p) :=
  inferInstanceAs (Decidable (∃ _ ∈ _, _))

/-- **The condition.** A call that enters a driver without the lock finds no other task inside one,
and no call enters a driver while another task is inside one without the lock. -/
def EntersAlone (l : LockState) : LockEvent → Prop
  | .vfsCall call b => l.Runs → call.reaches b = true → ∀ i < l.procs.count, l.procs.Live i →
      i ≠ l.procs.current →
      if call.locks b then ¬ l.InsideUnlocked (l.procs.pool i).pid
      else ¬ l.Inside (l.procs.pool i).pid
  | _ => True

instance (l : LockState) (ev : LockEvent) : Decidable (l.EntersAlone ev) := by
  cases ev <;> dsimp only [EntersAlone] <;> infer_instance

/-- **At most one task is inside a driver.** -/
def OneInside (l : LockState) : Prop :=
  ∀ i j, l.procs.Live i → l.procs.Live j → l.Inside (l.procs.pool i).pid →
    l.Inside (l.procs.pool j).pid → i = j

/-- The lock, the calls and the pids in order. -/
structure Orderly (l : LockState) : Prop where
  /-- The run list is a ring. -/
  ring : l.procs.Ring
  /-- The pids are apart. -/
  pids : Procs.Pids l.procs
  /-- The lock counts the calls that have taken it. -/
  counts : l.fsLock.Counts l.lockCount
  /-- Only tasks are in calls. -/
  handed : ∀ p, l.frames p ≠ [] → p < l.procs.nextPid

theorem Orderly.me_lt (h : l.Orderly) : l.me < l.procs.nextPid :=
  (h.pids.range _ h.ring.current_lt).2

theorem lockCount_inCalls (l : LockState) (fs : List CallFrame) :
    (l.inCalls fs).lockCount = Function.update l.lockCount l.me (fs.countP CallFrame.locks) := by
  funext p
  unfold lockCount inCalls
  dsimp only
  by_cases hp : p = l.me
  · rw [hp, update_self, update_self]
  · rw [update_of_ne hp, update_of_ne hp]

/-- Calls of the running task come and go without the lock. -/
theorem Orderly.counts_inCalls (h : l.Orderly) {fs : List CallFrame}
    (hfs : fs.countP CallFrame.locks = l.lockCount l.me) :
    l.fsLock.Counts (l.inCalls fs).lockCount := by
  rw [lockCount_inCalls, hfs, update_eq_self]
  exact h.counts

theorem Orderly.handed_inCalls (h : l.Orderly) (fs : List CallFrame) (p : ℕ)
    (hp : (l.inCalls fs).frames p ≠ []) : p < l.procs.nextPid := by
  by_cases hme : p = l.me
  · rw [hme]
    exact h.me_lt
  · have hframes : (l.inCalls fs).frames p = l.frames p := update_of_ne hme _ _
    exact h.handed p (hframes ▸ hp)

/-- Every event keeps the lock, the calls and the pids in order. -/
theorem Orderly.moved (h : l.Orderly) (hm : Moved l ev l') : l'.Orderly := by
  have hevolves := hm.evolves h.ring h.pids
  have hrest : l'.fsLock.Counts l'.lockCount ∧ ∀ p, l'.frames p ≠ [] → p < l.procs.nextPid := by
    cases hm with
    | stays => exact ⟨h.counts, h.handed⟩
    | tasks e _ => exact ⟨h.counts, h.handed⟩
    | locked call b lock _ _ hlocks hlock =>
      refine ⟨?_, h.handed_inCalls _⟩
      have hcount := lockCount_inCalls l (.vfs call b :: l.frames l.me)
      rw [countP_cons_of_pos (show CallFrame.locks (.vfs call b) = true from hlocks)] at hcount
      show lock.Counts (l.inCalls _).lockCount
      rw [hcount]
      exact h.counts.lock hlock
    | unlocked call b _ _ hno =>
      refine ⟨h.counts_inCalls (countP_cons_of_neg ?_), h.handed_inCalls _⟩
      rw [show CallFrame.locks (.vfs call b) = false from hno]
      exact Bool.false_ne_true
    | returned call b fs hfs =>
      refine ⟨?_, h.handed_inCalls _⟩
      show (if call.locks b then l.fsLock.unlock else l.fsLock).Counts (l.inCalls fs).lockCount
      have hbefore : l.lockCount l.me = (CallFrame.vfs call b :: fs).countP CallFrame.locks := by
        unfold lockCount
        rw [hfs]
      split_ifs with hlocks
      · rw [countP_cons_of_pos (show CallFrame.locks (.vfs call b) = true from hlocks)]
          at hbefore
        have hunlocked := h.counts.unlock (show l.lockCount l.me ≠ 0 by omega)
        rw [lockCount_inCalls, show fs.countP CallFrame.locks = l.lockCount l.me - 1 by omega]
        exact hunlocked
      · rw [countP_cons_of_neg (show ¬ CallFrame.locks (.vfs call b) = true from hlocks)]
          at hbefore
        exact h.counts_inCalls hbefore.symm
    | execve _ _ hout =>
      refine ⟨h.counts_inCalls ?_, h.handed_inCalls _⟩
      unfold lockCount
      rw [hout]
      rfl
    | execved ok hin =>
      refine ⟨h.counts_inCalls ?_, h.handed_inCalls _⟩
      unfold lockCount
      rw [hin]
      rfl
  exact ⟨hevolves.ring, hevolves.pids, hrest.1, fun p hp => (hrest.2 p hp).trans_le hevolves.nextPid⟩

/-- Who is inside a driver after an event was inside, or enters. -/
theorem Moved.inside (hm : Moved l ev l') {p : ℕ} (hp : l'.Inside p) :
    l.Inside p ∨ p = l.me ∧ ∃ call b, ev = .vfsCall call b ∧ l.Runs ∧ call.reaches b = true
      ∧ (call.locks b = true → ∃ lock, l.fsLock.lock l.me = some lock) := by
  have hcalls : ∀ fs, (l.inCalls fs).Inside p →
      l.Inside p ∨ p = l.me ∧ ∃ f ∈ fs, f.reaches = true := by
    rintro fs ⟨f, hf, hreach⟩
    by_cases hme : p = l.me
    · subst hme
      refine .inr ⟨rfl, f, ?_, hreach⟩
      rwa [show (l.inCalls fs).frames l.me = fs from update_self _ _ _] at hf
    · refine .inl ⟨f, ?_, hreach⟩
      rwa [show (l.inCalls fs).frames p = l.frames p from update_of_ne hme _ _] at hf
  have henters : ∀ call b, l.Runs → ev = .vfsCall call b →
      (call.locks b = true → ∃ lock, l.fsLock.lock l.me = some lock) →
      (l.inCalls (.vfs call b :: l.frames l.me)).Inside p → l.Inside p ∨ p = l.me
        ∧ ∃ call b, ev = .vfsCall call b ∧ l.Runs ∧ call.reaches b = true
          ∧ (call.locks b = true → ∃ lock, l.fsLock.lock l.me = some lock) := by
    intro call b hruns hev hlock hin
    rcases hcalls _ hin with hold | ⟨rfl, f, hf, hreach⟩
    · exact .inl hold
    · rcases mem_cons.1 hf with rfl | hf
      · exact .inr ⟨rfl, call, b, hev, hruns, hreach, hlock⟩
      · exact .inl ⟨f, hf, hreach⟩
  cases hm with
  | stays => exact .inl hp
  | tasks e _ => exact .inl hp
  | locked call b lock hev hruns _ hlock =>
    exact henters call b hruns hev (fun _ => ⟨lock, hlock⟩) hp
  | unlocked call b hev hruns hno =>
    exact henters call b hruns hev (fun hlocks => absurd (hno.symm.trans hlocks) (by decide)) hp
  | returned call b fs hfs =>
    rcases hcalls fs hp with hold | ⟨rfl, f, hf, hreach⟩
    · exact .inl hold
    · exact .inl ⟨f, hfs ▸ mem_cons_of_mem _ hf, hreach⟩
  | execve _ _ hout =>
    rcases hcalls _ hp with hold | ⟨-, f, hf, hreach⟩
    · exact .inl hold
    · rw [mem_singleton.1 hf] at hreach
      cases hreach
  | execved ok hin =>
    rcases hcalls _ hp with hold | ⟨-, f, hf, -⟩
    · exact .inl hold
    · cases hf

/-- A task that enters a driver is alone, if it meets the condition. -/
theorem Orderly.alone (h : l.Orderly) {call : VfsCall} {b : VfsBackend} {j : ℕ}
    (hok : l.EntersAlone (.vfsCall call b)) (hruns : l.Runs) (hreach : call.reaches b = true)
    (hlock : call.locks b = true → ∃ lock, l.fsLock.lock l.me = some lock)
    (hj : l.procs.Live j) (hin : l.Inside (l.procs.pool j).pid) : j = l.procs.current := by
  by_contra hne
  have hcond := hok hruns hreach j hj.1 hj hne
  split_ifs at hcond with hlocks
  · -- The other is inside with the lock, and so it is the one that has it.
    obtain ⟨lock, hlock⟩ := hlock hlocks
    obtain ⟨f, hf, hfreach⟩ := hin
    have hflocks : f.locks = true := by
      by_contra hno
      exact hcond ⟨f, hf, hfreach, by simpa using hno⟩
    have hcount : l.lockCount (l.procs.pool j).pid ≠ 0 :=
      (countP_pos_iff.2 ⟨f, hf, hflocks⟩).ne'
    have hpid := h.counts.only hlock hcount
    exact hne (h.pids.apart j _ hj.1 h.ring.current_lt hpid)
  · exact hcond hin

/-- **A step keeps all but one task out of the drivers**, if it meets the condition. -/
theorem OneInside.step (h : l.OneInside) (ho : l.Orderly) (hok : l.EntersAlone ev) :
    (l.step ev).OneInside := by
  have hmoved := l.moved ev
  have hevolves := hmoved.evolves ho.ring ho.pids
  -- A task that is inside after the event is no new one.
  have hback : ∀ i, (l.step ev).procs.Live i → (l.step ev).Inside ((l.step ev).procs.pool i).pid →
      l.procs.Live i ∧ (l.step ev).Inside (l.procs.pool i).pid := by
    intro i hi hin
    rcases hevolves.back i hi with hold | hnew
    · exact ⟨hold, hevolves.pid i hold ▸ hin⟩
    · exfalso
      rw [hnew] at hin
      rcases hmoved.inside hin with ⟨f, hf, -⟩ | ⟨hme, -⟩
      · exact absurd (ho.handed _ (ne_nil_of_mem hf)) (lt_irrefl _)
      · exact absurd ho.me_lt (by rw [← hme]; exact lt_irrefl _)
  -- One that enters is alone with all that were inside.
  have henter : ∀ i j, l.procs.Live i → l.procs.Live j → (l.procs.pool i).pid = l.me →
      (∃ call b, ev = .vfsCall call b ∧ l.Runs ∧ call.reaches b = true
        ∧ (call.locks b = true → ∃ lock, l.fsLock.lock l.me = some lock)) →
      l.Inside (l.procs.pool j).pid → i = j := by
    rintro i j hi hj hpid ⟨call, b, rfl, hruns, hreach, hlock⟩ hin
    rw [ho.alone hok hruns hreach hlock hj hin]
    exact ho.pids.apart i _ hi.1 ho.ring.current_lt hpid
  intro i j hi hj hini hinj
  obtain ⟨hi, hini⟩ := hback i hi hini
  obtain ⟨hj, hinj⟩ := hback j hj hinj
  rcases hmoved.inside hini with hini | ⟨hpi, hei⟩ <;>
    rcases hmoved.inside hinj with hinj | ⟨hpj, hej⟩
  · exact h i j hi hj hini hinj
  · exact (henter j i hj hi hpj hej hini).symm
  · exact henter i j hi hj hpi hei hinj
  · exact ho.pids.apart i j hi.1 hj.1 (hpi.trans hpj.symm)

/-- Nobody is in a call at the boot. -/
theorem orderly_boot : boot.Orderly :=
  ⟨Procs.ring_taskingInit, Procs.pids_taskingInit, RecLock.counts_free, fun _ hp => absurd rfl hp⟩

/-- **At most one task is inside a driver**, after every run in which calls without the lock enter
drivers that nobody is in, and nobody enters one while they are inside. -/
theorem one_inside (evs : List LockEvent) (hok : Meets EntersAlone step boot evs) :
    (boot.run evs).OneInside :=
  (Meets.invariant (P := fun l : LockState => l.Orderly ∧ l.OneInside)
    (fun l ev hl hev => ⟨hl.1.moved (l.moved ev), hl.2.step hl.1 hev⟩)
    ⟨orderly_boot, fun _ _ _ _ ⟨_, hf, _⟩ => absurd hf not_mem_nil⟩ hok).2

/-- The theorem at a read that is preempted, while another task waits for the lock. -/
theorem one_inside_preempted :
    Meets EntersAlone step boot
        [.proc (.taskCreate true true), .vfsCall .stat .ext2, .vfsReturn, .vfsCall .readFile .ext2,
          .proc (.dispatch 1), .vfsCall .writeFile .ext2, .vfsReturn, .vfsCall .writeFile .ext2]
      ∧ (boot.run [.proc (.taskCreate true true), .vfsCall .stat .ext2, .vfsReturn,
        .vfsCall .readFile .ext2, .proc (.dispatch 1), .vfsCall .writeFile .ext2, .vfsReturn,
        .vfsCall .writeFile .ext2]).OneInside := by
  refine ⟨?ok, one_inside _ ?ok⟩
  decide +kernel

/-- **Two tasks in one driver**: one is preempted in a read, and the other asks for the size of a
file. -/
theorem two_inside :
    ¬ (boot.run [.proc (.taskCreate true true), .vfsCall .readFile .ext2, .proc (.dispatch 1),
      .vfsCall .stat .ext2]).OneInside := by
  intro h
  have hsame := h 0 1 (by decide +kernel) (by decide +kernel) (by decide +kernel) (by decide +kernel)
  cases hsame

end LockState

end Makar
