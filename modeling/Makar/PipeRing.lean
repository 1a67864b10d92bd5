import Makar.RingBuffer
import Makar.Runs

/-!
# Pipes

A pipe is a ring of 4096 bytes that programs read and write through descriptors.
Four pieces of code work on it: `SYS_READ` and `stdin_pipe_getchar` take bytes out,
`syscall_fd_write` and `ansi_pipe_write` put bytes in. Each of them is a loop that
gives up the processor when it cannot go on, so that any number of calls are in
progress at once and what happens to the ring is an interleaving of their turns.
Ends of the pipe come and go at the same time.

A turn is described by one law, `PipeRing.Law`: the bytes in the ring and then the bytes
the turn puts in are the bytes it takes out and then the bytes in the ring after it.
The law of the pipe follows by induction (`pipe_fifo`): what has been read is an
initial part of what has been accepted, at most a ringful is in flight, and the end
of the file is reported only of an empty ring that nobody can write to. The cursors
are 32-bit words and may wrap at any time.
-/

namespace Makar

open List

/-- `PIPE_RING_CAP`. -/
def pipeRingCap : ℕ := 4096

instance : NeZero pipeRingCap := ⟨by decide⟩

/-- `pipe_ring_t`, but for the size of the window. -/
structure PipeRing where
  /-- The bytes. -/
  buf : Fin pipeRingCap → Byte
  /-- The cursor of the writers. -/
  head : Word
  /-- The cursor of the readers. -/
  tail : Word
  /-- How many descriptors read. -/
  refcountR : ℤ
  /-- How many descriptors write. -/
  refcountW : ℤ

/-- What a descriptor of a pipe says. -/
structure PipeEnd where
  /-- `pipe_is_writer`. -/
  writer : Bool
  /-- `FD_FLAG_NONBLOCK`. -/
  nonblock : Bool

/-- A call on the pipe, and how far it has come. -/
inductive PipeCall where
  /-- `SYS_READ` of at most `len` bytes; `null` is whether there is no buffer for them. -/
  | read (e : PipeEnd) (null : Bool) (len : ℕ)
  /-- `stdin_pipe_getchar`. -/
  | getchar (e : PipeEnd)
  /-- `syscall_fd_write`, with the number of bytes written so far. -/
  | write (e : PipeEnd) (buf : List Byte) (written : ℕ)
  /-- `ansi_pipe_write`, with the number of bytes written so far and how often it has waited. -/
  | ansi (s : List Byte) (w spins : ℕ)

/-- What a turn of a call comes to. -/
inductive PipeOutcome where
  /-- The call returns. -/
  | returns (rc : ℤ)
  /-- The call goes on, at once or when it runs again. -/
  | goesOn (call : PipeCall)

/-- A turn of a call: its outcome, the ring after it, and the bytes it took out of the ring and
put into it. -/
structure PipeTurn where
  /-- What it comes to. -/
  outcome : PipeOutcome
  /-- The ring after it. -/
  ring : PipeRing
  /-- The bytes that were read. -/
  taken : List Byte
  /-- The bytes that were accepted. -/
  given : List Byte

namespace PipeRing

variable {r : PipeRing}

/-- The turn leaves the ring alone. -/
def idle (outcome : PipeOutcome) (r : PipeRing) : PipeTurn := ⟨outcome, r, [], []⟩

/-- The bytes in flight, as the code counts them. -/
def inflight (r : PipeRing) : Word := r.head - r.tail

/-- The room in the ring, as the code counts it. -/
def space (r : PipeRing) : Word := BitVec.ofNat 32 pipeRingCap - r.inflight

/-- Bytes are taken out. -/
def takeOut (n : ℕ) (r : PipeRing) : PipeRing := { r with tail := r.tail + BitVec.ofNat 32 n }

/-- Bytes are put in. -/
def putIn (bytes : List Byte) (r : PipeRing) : PipeRing :=
  { r with
    buf := RingBuffer.put r.buf r.head bytes
    head := r.head + BitVec.ofNat 32 bytes.length }

/-- The pipe branch of `SYS_READ`, with the check of the arguments before it. -/
def sysRead (e : PipeEnd) (null : Bool) (len : ℕ) (r : PipeRing) : PipeTurn :=
  if null ∨ len = 0 then r.idle (.returns 0)
  else if e.writer then r.idle (.returns (-1))
  else if 0 < r.inflight then
    let avail := min r.inflight.toNat len
    ⟨.returns avail, r.takeOut avail, RingBuffer.take r.buf r.tail avail, []⟩
  else if r.refcountW = 0 then r.idle (.returns 0)
  else if e.nonblock then r.idle (.returns (-11))
  else r.idle (.goesOn (.read e null len))

/-- `stdin_pipe_getchar`. -/
def stdinPipeGetchar (e : PipeEnd) (r : PipeRing) : PipeTurn :=
  if e.writer then r.idle (.returns (-1))
  else if r.head ≠ r.tail then
    let c := r.buf (RingBuffer.slot pipeRingCap r.tail)
    ⟨.returns c.toNat, r.takeOut 1, [c], []⟩
  else if r.refcountW = 0 then r.idle (.returns (-1))
  else if e.nonblock then r.idle (.returns (-11))
  else r.idle (.goesOn (.getchar e))

/-- What both writers do with the room there is. -/
def writeChunk (buf : List Byte) (written : ℕ) (next : ℕ → PipeCall) (r : PipeRing) : PipeTurn :=
  let chunk := min (buf.length - written) r.space.toNat
  let bytes := (buf.drop written).take chunk
  ⟨.goesOn (next (written + chunk)), r.putIn bytes, [], bytes⟩

/-- The pipe branch of `syscall_fd_write`. -/
def syscallFdWrite (e : PipeEnd) (buf : List Byte) (written : ℕ) (r : PipeRing) : PipeTurn :=
  if !e.writer then r.idle (.returns (-1))
  else if ¬ written < buf.length then r.idle (.returns written)
  else if r.refcountR = 0 then r.idle (.returns (if written = 0 then -32 else written))
  else if r.space = 0 then
    if e.nonblock then r.idle (.returns (if written = 0 then -11 else written))
    else r.idle (.goesOn (.write e buf written))
  else r.writeChunk buf written (.write e buf)

/-- `ansi_pipe_write`; it returns nothing. -/
def ansiPipeWrite (s : List Byte) (w spins : ℕ) (r : PipeRing) : PipeTurn :=
  if ¬ w < s.length then r.idle (.returns 0)
  else if r.refcountR = 0 then r.idle (.returns 0)
  else if r.space = 0 then
    if 200000 < spins + 1 then r.idle (.returns 0) else r.idle (.goesOn (.ansi s w (spins + 1)))
  else r.writeChunk s w (.ansi s · 0)

/-- A turn of a call. -/
def turn (call : PipeCall) (r : PipeRing) : PipeTurn :=
  match call with
  | .read e null len => r.sysRead e null len
  | .getchar e => r.stdinPipeGetchar e
  | .write e buf written => r.syscallFdWrite e buf written
  | .ansi s w spins => r.ansiPipeWrite s w spins

/-! ## The law of a turn -/

/-- The bytes in the ring, first to be read first. -/
def contents (r : PipeRing) : List Byte := RingBuffer.take r.buf r.tail r.inflight.toNat

/-- At most a ringful is in flight. -/
def Fits (r : PipeRing) : Prop := r.inflight.toNat ≤ pipeRingCap

/-- **The law of a turn.** -/
structure Law (r : PipeRing) (t : PipeTurn) : Prop where
  /-- No more than a ringful is in flight after it. -/
  fits : t.ring.Fits
  /-- What is put in comes behind the bytes in the ring, what is taken out comes off their
  front. -/
  order : r.contents ++ t.given = t.taken ++ t.ring.contents

theorem Law.idle (h : r.Fits) (outcome : PipeOutcome) : r.Law (r.idle outcome) :=
  ⟨h, append_nil _⟩

theorem pipeRingCap_dvd : pipeRingCap ∣ 2 ^ 32 := ⟨2 ^ 20, by decide⟩

theorem space_toNat (h : r.Fits) : r.space.toNat = pipeRingCap - r.inflight.toNat := by
  unfold Fits at h
  unfold space
  unfold pipeRingCap at *
  bv_omega

/-- Bytes are taken off the front of the contents. -/
theorem contents_takeOut {n : ℕ} (hn : n ≤ r.inflight.toNat) :
    (r.takeOut n).inflight.toNat = r.inflight.toNat - n
      ∧ r.contents = RingBuffer.take r.buf r.tail n ++ (r.takeOut n).contents := by
  have hleft : (r.takeOut n).inflight.toNat = r.inflight.toNat - n := by
    unfold inflight takeOut at *
    dsimp only
    bv_omega
  refine ⟨hleft, ?_⟩
  unfold contents
  rw [hleft]
  have hsum : r.inflight.toNat = n + (r.inflight.toNat - n) := by omega
  conv_lhs => rw [hsum]
  exact RingBuffer.take_add r.buf r.tail n _

/-- Bytes for which there is room are put behind the contents. -/
theorem contents_putIn (bytes : List Byte) (hn : r.inflight.toNat + bytes.length ≤ pipeRingCap) :
    (r.putIn bytes).inflight.toNat = r.inflight.toNat + bytes.length
      ∧ (r.putIn bytes).contents = r.contents ++ bytes := by
  have hmore : (r.putIn bytes).inflight.toNat = r.inflight.toNat + bytes.length := by
    unfold inflight putIn pipeRingCap at *
    dsimp only
    bv_omega
  have hhead : r.head = r.tail + BitVec.ofNat 32 r.inflight.toNat := by
    rw [BitVec.ofNat_toNat, BitVec.setWidth_eq, inflight]
    bv_omega
  refine ⟨hmore, ?_⟩
  unfold contents
  rw [hmore]
  unfold putIn
  dsimp only
  rw [hhead]
  exact RingBuffer.take_put pipeRingCap_dvd hn

section

variable (h : r.Fits)
include h

theorem law_takeOut {n : ℕ} (hn : n ≤ r.inflight.toNat) (outcome : PipeOutcome) :
    r.Law ⟨outcome, r.takeOut n, RingBuffer.take r.buf r.tail n, []⟩ := by
  obtain ⟨hleft, hcontents⟩ := contents_takeOut hn
  refine ⟨?_, ?_⟩
  · unfold Fits at h ⊢
    dsimp only
    omega
  · rw [append_nil]
    exact hcontents

theorem law_writeChunk (buf : List Byte) (written : ℕ) (next : ℕ → PipeCall) :
    r.Law (r.writeChunk buf written next) := by
  have hroom := space_toNat h
  have hlen : ((buf.drop written).take (min (buf.length - written) r.space.toNat)).length
      ≤ r.space.toNat := (length_take_le _ _).trans (min_le_right _ _)
  unfold Fits at h
  obtain ⟨hmore, hcontents⟩ := contents_putIn (r := r)
    ((buf.drop written).take (min (buf.length - written) r.space.toNat)) (by omega)
  refine ⟨?_, hcontents.symm⟩
  show (r.putIn _).inflight.toNat ≤ _
  omega

theorem law_sysRead (e : PipeEnd) (null : Bool) (len : ℕ) : r.Law (r.sysRead e null len) := by
  unfold sysRead
  split_ifs
  · exact .idle h _
  · exact .idle h _
  · exact law_takeOut h (min_le_left _ _) _
  · exact .idle h _
  · exact .idle h _
  · exact .idle h _

theorem law_stdinPipeGetchar (e : PipeEnd) : r.Law (r.stdinPipeGetchar e) := by
  unfold stdinPipeGetchar
  split_ifs with _ hne
  · exact .idle h _
  · refine law_takeOut (n := 1) h ?_ _
    unfold inflight
    bv_omega
  · exact .idle h _
  · exact .idle h _
  · exact .idle h _

theorem law_syscallFdWrite (e : PipeEnd) (buf : List Byte) (written : ℕ) :
    r.Law (r.syscallFdWrite e buf written) := by
  unfold syscallFdWrite
  split_ifs
  all_goals first
    | exact .idle h _
    | exact law_writeChunk h ..

theorem law_ansiPipeWrite (s : List Byte) (w spins : ℕ) : r.Law (r.ansiPipeWrite s w spins) := by
  unfold ansiPipeWrite
  split_ifs
  all_goals first
    | exact .idle h _
    | exact law_writeChunk h ..

/-- **Every turn obeys the law.** -/
theorem law_turn (call : PipeCall) : r.Law (r.turn call) := by
  cases call with
  | read e null len => exact law_sysRead h e null len
  | getchar e => exact law_stdinPipeGetchar h e
  | write e buf written => exact law_syscallFdWrite h e buf written
  | ansi s w spins => exact law_ansiPipeWrite h s w spins

end

/-! ## What a call returns -/

/-- **A write counts the bytes it has put in**: a turn puts in the next bytes of the buffer and
counts them, and the call returns the count. -/
theorem syscallFdWrite_counts (e : PipeEnd) (buf : List Byte) (written : ℕ) (r : PipeRing) :
    (∃ w, (r.syscallFdWrite e buf written).outcome = .goesOn (.write e buf w)
        ∧ buf.take w = buf.take written ++ (r.syscallFdWrite e buf written).given)
      ∨ ∃ rc : ℤ, r.syscallFdWrite e buf written = r.idle (.returns rc)
        ∧ (0 ≤ rc → rc = written) := by
  unfold syscallFdWrite
  split_ifs
  all_goals first
    | exact .inl ⟨_, rfl, take_add⟩
    | exact .inl ⟨_, rfl, (append_nil _).symm⟩
    | exact .inr ⟨_, rfl, by omega⟩

/-- **A read returns the number of the bytes it takes out.** -/
theorem sysRead_counts (e : PipeEnd) (null : Bool) (len : ℕ) (r : PipeRing) :
    (r.sysRead e null len).outcome = .goesOn (.read e null len) ∧ (r.sysRead e null len).taken = []
      ∨ ∃ rc : ℤ, (r.sysRead e null len).outcome = .returns rc
        ∧ (r.sysRead e null len).taken.length = rc.toNat := by
  unfold sysRead
  split_ifs
  all_goals first
    | exact .inl ⟨rfl, rfl⟩
    | exact .inr ⟨_, rfl, rfl⟩
    | exact .inr ⟨_, rfl, RingBuffer.length_take ..⟩

/-! ## The end of the file -/

/-- A value with which a call reports the end of the file: a read for something returns 0 bytes,
`stdin_pipe_getchar` on the read end returns -1. -/
def Eof : PipeCall → ℤ → Prop
  | .read _ null len, rc => null = false ∧ 0 < len ∧ rc = 0
  | .getchar e, rc => e.writer = false ∧ rc = -1
  | _, _ => False

/-- **The end of the file is reported of an empty ring without writers.** -/
theorem eof_turn {call : PipeCall} {rc : ℤ} (h : (r.turn call).outcome = .returns rc)
    (heof : Eof call rc) : r.head = r.tail ∧ r.refcountW = 0 := by
  cases call with
  | read e null len =>
    obtain ⟨hnull, hlen, hrc⟩ := heof
    simp only [turn, sysRead] at h
    split_ifs at h with hargs hw hin hcount hnon
    · simp only [hnull, Bool.false_eq_true, false_or] at hargs
      omega
    · simp only [idle, PipeOutcome.returns.injEq] at h
      omega
    · -- There are bytes, so the read returns at least one.
      simp only [PipeOutcome.returns.injEq] at h
      have hpos : 0 < r.inflight.toNat := by bv_omega
      omega
    · refine ⟨?_, hcount⟩
      unfold inflight at hin
      bv_omega
    · simp only [idle, PipeOutcome.returns.injEq] at h
      omega
    · cases h
  | getchar e =>
    obtain ⟨hend, hrc⟩ := heof
    simp only [turn, stdinPipeGetchar] at h
    split_ifs at h with hw hne hcount hnon
    · exact absurd (hend.symm.trans hw) (by decide)
    · simp only [PipeOutcome.returns.injEq] at h
      omega
    · exact ⟨not_not.1 hne, hcount⟩
    · simp only [idle, PipeOutcome.returns.injEq] at h
      omega
    · cases h
  | write e buf written => exact heof.elim
  | ansi s w spins => exact heof.elim

end PipeRing

/-! ## The pipe in use -/

/-- A pipe, the calls in progress on it, and what has gone through it. -/
structure Pipe where
  /-- The ring. -/
  ring : PipeRing
  /-- The call each task is in. -/
  calls : ℕ → Option PipeCall
  /-- The bytes writers have put in so far. -/
  accepted : List Byte
  /-- The bytes readers have taken out so far. -/
  delivered : List Byte

/-- What happens to a pipe. -/
inductive PipeEvent where
  /-- A task calls `SYS_READ`. -/
  | read (c : ℕ) (e : PipeEnd) (null : Bool) (len : ℕ)
  /-- A task calls `stdin_pipe_getchar`. -/
  | getchar (c : ℕ) (e : PipeEnd)
  /-- A task calls `syscall_fd_write`. -/
  | write (c : ℕ) (e : PipeEnd) (buf : List Byte)
  /-- A task calls `ansi_pipe_write`. -/
  | ansi (c : ℕ) (s : List Byte)
  /-- The call of a task takes a turn. -/
  | turn (c : ℕ)
  /-- Ends are opened and closed. -/
  | counts (r w : ℤ)

namespace Pipe

/-- A task enters a call. -/
def enter (c : ℕ) (call : PipeCall) (p : Pipe) : Pipe :=
  if (p.calls c).isSome then p else { p with calls := Function.update p.calls c (some call) }

/-- A turn of the call a task is in. -/
def takeTurn (c : ℕ) (call : PipeCall) (p : Pipe) : Pipe :=
  let t := p.ring.turn call
  { ring := t.ring
    calls := Function.update p.calls c
      (match t.outcome with
      | .returns _ => none
      | .goesOn call => some call)
    accepted := p.accepted ++ t.given
    delivered := p.delivered ++ t.taken }

/-- One event. -/
def step (p : Pipe) : PipeEvent → Pipe
  | .read c e null len => p.enter c (.read e null len)
  | .getchar c e => p.enter c (.getchar e)
  | .write c e buf => p.enter c (.write e buf 0)
  | .ansi c s => p.enter c (.ansi s 0 0)
  | .turn c =>
    match p.calls c with
    | none => p
    | some call => p.takeTurn c call
  | .counts r w => { p with ring := { p.ring with refcountR := r, refcountW := w } }

/-- The state after a run. -/
def run (p : Pipe) (es : List PipeEvent) : Pipe := es.foldl step p

/-- A pipe nothing has gone through yet, with its cursors at any place. -/
def fresh (buf : Fin pipeRingCap → Byte) (cursor : Word) (r w : ℤ) : Pipe where
  ring := ⟨buf, cursor, cursor, r, w⟩
  calls := fun _ => none
  accepted := []
  delivered := []

variable {p : Pipe}

/-- **The law of the pipe**: what was accepted is what was delivered and then what is in the ring,
and that is at most a ringful. -/
structure Law (p : Pipe) : Prop where
  /-- At most a ringful is in flight. -/
  fits : p.ring.Fits
  /-- Bytes keep their order. -/
  order : p.accepted = p.delivered ++ p.ring.contents

theorem Law.enter (h : p.Law) (c : ℕ) (call : PipeCall) : (p.enter c call).Law := by
  unfold Pipe.enter
  split_ifs
  · exact h
  · exact ⟨h.fits, h.order⟩

theorem Law.takeTurn (h : p.Law) (c : ℕ) (call : PipeCall) : (p.takeTurn c call).Law := by
  have ht := PipeRing.law_turn h.fits call
  refine ⟨ht.fits, ?_⟩
  show p.accepted ++ (p.ring.turn call).given
    = p.delivered ++ (p.ring.turn call).taken ++ (p.ring.turn call).ring.contents
  rw [h.order, append_assoc, append_assoc, ht.order]

theorem Law.step (h : p.Law) (e : PipeEvent) : (p.step e).Law := by
  cases e with
  | read c e null len => exact h.enter c _
  | getchar c e => exact h.enter c _
  | write c e buf => exact h.enter c _
  | ansi c s => exact h.enter c _
  | turn c =>
    unfold Pipe.step
    dsimp only
    split
    · exact h
    · exact h.takeTurn c _
  | counts r w => exact ⟨h.fits, h.order⟩

theorem law_fresh (buf : Fin pipeRingCap → Byte) (cursor : Word) (r w : ℤ) :
    (fresh buf cursor r w).Law := by
  have hzero : (fresh buf cursor r w).ring.inflight = 0 := by
    unfold PipeRing.inflight fresh
    exact BitVec.sub_self cursor
  refine ⟨?_, ?_⟩
  · unfold PipeRing.Fits
    rw [hzero]
    decide
  · unfold PipeRing.contents
    rw [hzero]
    rfl

theorem Law.run (h : p.Law) (es : List PipeEvent) : (p.run es).Law :=
  foldl_invariant (fun _ e hp => hp.step e) es h

/-- **A pipe is a queue of bytes.** After any interleaving of turns of any calls, with ends that
come and go and cursors that start anywhere and may wrap: what was delivered is an initial part of
what was accepted, at most a ringful is in flight, and a call whose next turn reports the end of
the file finds the ring empty, with everything accepted delivered, and no writers. -/
theorem pipe_fifo (buf : Fin pipeRingCap → Byte) (cursor : Word) (r w : ℤ)
    (es : List PipeEvent) :
    ((fresh buf cursor r w).run es).delivered <+: ((fresh buf cursor r w).run es).accepted
      ∧ ((fresh buf cursor r w).run es).accepted.length
        ≤ ((fresh buf cursor r w).run es).delivered.length + pipeRingCap
      ∧ ∀ c call rc, ((fresh buf cursor r w).run es).calls c = some call →
        (((fresh buf cursor r w).run es).ring.turn call).outcome = .returns rc →
        PipeRing.Eof call rc →
        ((fresh buf cursor r w).run es).delivered = ((fresh buf cursor r w).run es).accepted
          ∧ ((fresh buf cursor r w).run es).ring.head = ((fresh buf cursor r w).run es).ring.tail
          ∧ ((fresh buf cursor r w).run es).ring.refcountW = 0 := by
  obtain ⟨p, hp⟩ : ∃ p, p = (fresh buf cursor r w).run es := ⟨_, rfl⟩
  have hlaw : p.Law := hp ▸ (law_fresh buf cursor r w).run es
  rw [← hp]
  have hlen : p.ring.contents.length = p.ring.inflight.toNat := RingBuffer.length_take ..
  refine ⟨⟨p.ring.contents, hlaw.order.symm⟩, ?_, fun c call rc _ hturn heof => ?_⟩
  · have hfits : p.ring.inflight.toNat ≤ pipeRingCap := hlaw.fits
    rw [hlaw.order, length_append]
    omega
  · obtain ⟨hempty, hcount⟩ := PipeRing.eof_turn hturn heof
    have hnone : p.ring.contents = [] := by
      rw [← length_eq_zero_iff, hlen, PipeRing.inflight, hempty, BitVec.sub_self]
      rfl
    refine ⟨?_, hempty, hcount⟩
    rw [hlaw.order, hnone, append_nil]

end Pipe

end Makar
