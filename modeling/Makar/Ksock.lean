import Makar.Runs

/-!
# The receive side of a kernel socket

lwIP hands the payload of a connection, in order, to `ksock_recv_cb` as chains of
packet buffers; the callback appends each to the socket's buffer, and `ksock_recv`
takes bytes off its front. A piece is dropped when the buffer would pass its limit or
cannot be grown. The callback does not look at that result: it goes on with the next
piece of the chain, and later calls do the same.

So what is returned is a prefix of the payload along every run in which nothing is
handed over after a piece was dropped (`returned_prefix`), and not in general
(`returned_gap`).
-/

namespace Makar

open List

namespace Ksock

/-- `KSOCK_RX_CAP_MAX`. -/
def rxCapMax : ℕ := 4 * 1024 * 1024

/-- A packet buffer. Its length is a 16-bit field. `granted` is what `krealloc` answers
if it is asked for room for this piece. -/
structure Pbuf where
  payload : List UInt8
  granted : Bool
  fits : payload.length < 2 ^ 16

/-- The fields of `ksock_t` that receiving reads and writes, with the bytes up to
`rxlen` as a list. -/
structure Sock where
  rx : List UInt8
  rxcap : ℕ
  rxrd : ℕ
  closedRemote : Bool
  err : Bool
  aborted : Bool
  /-- What lwIP handed over so far. -/
  payload : List UInt8
  /-- What `ksock_recv` returned so far. -/
  returned : List UInt8

/-- A new connection. -/
def Sock.fresh : Sock := ⟨[], 0, 0, false, false, false, [], []⟩

/-- Double the capacity until it suffices. The bound on the turns is never met. -/
def grow (need : ℕ) : ℕ → ℕ → ℕ
  | 0, cap => cap
  | turns + 1, cap => if cap < need then grow need turns (cap * 2) else cap

namespace Sock

variable (s : Sock)

/-- Take the consumed bytes off the front. -/
def compact : Sock :=
  if 0 < s.rxrd then { s with rx := s.rx.drop s.rxrd, rxrd := 0 } else s

/-- Find room for the new bytes, or set the error flag. -/
def reserve (n : ℕ) (granted : Bool) : Bool × Sock :=
  if s.rxcap < s.rx.length + n then
    let ncap := grow (s.rx.length + n) 32 (if s.rxcap = 0 then 8192 else s.rxcap)
    if rxCapMax < ncap then (false, { s with err := true })
    else if granted then (true, { s with rxcap := ncap })
    else (false, { s with err := true })
  else (true, s)

/-- `ksock_rx_push`. -/
def rxPush (p : Pbuf) : Bool × Sock :=
  match s.compact.reserve p.payload.length p.granted with
  | (false, s) => (false, s)
  | (true, s) => (true, { s with rx := s.rx ++ p.payload })

/-- One turn of the loop in `ksock_recv_cb`, with the piece entered in the record. -/
def recvPiece (p : Pbuf) : Sock :=
  { (s.rxPush p).2 with payload := s.payload ++ p.payload }

/-- `ksock_recv_cb` with data: the result of each push is ignored. -/
def recvCb (chain : List Pbuf) : Sock := chain.foldl recvPiece s

/-- `ksock_recv` when something is buffered; otherwise it waits, or reports the end or
an error, and takes nothing. -/
def recv (len : ℕ) : Sock :=
  if s.rx.length ≤ s.rxrd then s
  else
    let n := min len (s.rx.length - s.rxrd)
    let s := { s with
      returned := s.returned ++ (s.rx.drop s.rxrd).take n
      rxrd := s.rxrd + n }
    if s.rx.length ≤ s.rxrd then { s with rx := [], rxrd := 0 } else s

end Sock

/-- What happens to a connection. -/
inductive Event
  /-- Data from lwIP. -/
  | data (chain : List Pbuf)
  /-- The callback is given an error. -/
  | error
  /-- The callback is given no buffer: the peer closed. -/
  | fin
  /-- `tcp_err`: the connection is gone. -/
  | abort
  /-- A call of `ksock_recv`. -/
  | recv (len : ℕ)

/-- One step. -/
def step (s : Sock) : Event → Sock
  | .data chain => s.recvCb chain
  | .error => { s with err := true }
  | .fin => { s with closedRemote := true }
  | .abort => { s with aborted := true, err := true }
  | .recv len => s.recv len

/-! ## Nothing is handed over after a drop -/

/-- A piece that comes after the error flag was set is empty. -/
def PieceOk (s : Sock) (p : Pbuf) : Prop := s.err = true → p.payload = []

/-- The pieces of a chain, each read where it is pushed. -/
def DataOk (s : Sock) : Event → Prop
  | .data chain => Meets PieceOk Sock.recvPiece s chain
  | _ => True

instance (s : Sock) (p : Pbuf) : Decidable (PieceOk s p) :=
  inferInstanceAs (Decidable (_ → _))

instance (s : Sock) (e : Event) : Decidable (DataOk s e) := by
  cases e <;> unfold DataOk <;> infer_instance

/-- The bytes not yet returned. -/
def Sock.unread (s : Sock) : List UInt8 := s.rx.drop s.rxrd

/-- **What holds along such a run.** What was returned and what is unread are a prefix
of the payload, and all of it while the error flag is not set. The buffer stays inside
its capacity, so no sum of lengths wraps. -/
structure Inv (s : Sock) : Prop where
  pre : s.returned ++ s.unread <+: s.payload
  all : s.err = false → s.returned ++ s.unread = s.payload
  room : s.rx.length ≤ s.rxcap
  cap : s.rxcap ≤ rxCapMax

section Steps

variable {s : Sock} {n : ℕ}

theorem le_grow {need turns cap : ℕ} (h : need ≤ cap * 2 ^ turns) : need ≤ grow need turns cap := by
  induction turns generalizing cap with
  | zero => simpa [grow] using h
  | succ turns ih =>
    rw [grow]
    split
    next => exact ih (by rw [pow_succ'] at h; rwa [mul_assoc])
    next hge => omega

/-- Compacting keeps what is unread. -/
theorem Inv.compact (h : Inv s) : Inv s.compact ∧ s.compact.rxrd = 0 ∧
    s.compact.payload = s.payload := by
  rw [Sock.compact]
  split
  next hrd =>
    have hun : (s.rx.drop s.rxrd).drop 0 = s.rx.drop s.rxrd := rfl
    exact ⟨⟨hun ▸ h.pre, fun he => hun ▸ h.all he,
      (length_drop ▸ Nat.sub_le ..).trans h.room, h.cap⟩, rfl, rfl⟩
  next hrd => exact ⟨h, by omega, rfl⟩

/-- **What reserving does**: there is room and the bytes are as they were, or the error
flag is set. -/
theorem reserve_cases (h : Inv s) (hn : n < 2 ^ 16) (granted : Bool) :
    (∃ cap, s.reserve n granted = (true, { s with rxcap := cap })
      ∧ s.rx.length + n ≤ cap ∧ cap ≤ rxCapMax)
    ∨ s.reserve n granted = (false, { s with err := true }) := by
  have hroom := h.room
  have hcap := h.cap
  rw [Sock.reserve]
  split
  next =>
    dsimp only
    -- The capacity starts at one byte at least, so thirty-two doublings reach any sum.
    have hneed : s.rx.length + n ≤ (if s.rxcap = 0 then 8192 else s.rxcap) * 2 ^ 32 := by
      rw [rxCapMax] at hcap
      split <;> omega
    have hle := le_grow hneed
    generalize grow (s.rx.length + n) 32 _ = ncap at hle ⊢
    split
    next => exact .inr rfl
    next hmax =>
      cases granted with
      | true => exact .inl ⟨_, rfl, hle, by omega⟩
      | false => exact .inr rfl
  next => exact .inl ⟨s.rxcap, rfl, by omega, hcap⟩

/-- Pushing one piece. -/
theorem Inv.recvPiece (h : Inv s) {p : Pbuf} (hok : PieceOk s p) : Inv (s.recvPiece p) := by
  obtain ⟨hc, hrd, hpay⟩ := h.compact
  have herr : s.compact.err = s.err := by
    rw [Sock.compact]
    split <;> rfl
  have hok' : s.compact.err = true → p.payload = [] := fun he => hok (herr ▸ he)
  rw [Sock.recvPiece, Sock.rxPush, ← hpay]
  clear h hok herr hpay
  generalize s.compact = s at *
  have hun : s.unread = s.rx := by rw [Sock.unread, hrd, drop_zero]
  obtain ⟨cap, heq, hfit, hmax⟩ | heq := reserve_cases hc p.fits p.granted <;> rw [heq]
  · -- The piece is stored behind what is unread.
    have hun' : (s.rx ++ p.payload).drop s.rxrd = s.unread ++ p.payload := by
      rw [hrd, drop_zero, hun]
    refine ⟨?_, fun he => ?_, by simpa using hfit, hmax⟩
    · show s.returned ++ (s.rx ++ p.payload).drop s.rxrd <+: s.payload ++ p.payload
      rw [hun', ← append_assoc]
      cases he : s.err with
      | true =>
        rw [hok' he, append_nil, append_nil]
        exact hc.pre
      | false => rw [hc.all he]
    · show s.returned ++ (s.rx ++ p.payload).drop s.rxrd = s.payload ++ p.payload
      rw [hun', ← append_assoc, hc.all he]
  · -- The piece is dropped, and the flag is set.
    exact ⟨hc.pre.trans (prefix_append ..), (fun he => by cases he), hc.room, hc.cap⟩

/-- Taking bytes off the front. -/
theorem Inv.recv (h : Inv s) (len : ℕ) : Inv (s.recv len) := by
  rw [Sock.recv]
  split
  next => exact h
  next hlt =>
    dsimp only
    set n := min len (s.rx.length - s.rxrd) with hn
    have hsplit : (s.returned ++ s.unread.take n) ++ s.rx.drop (s.rxrd + n)
        = s.returned ++ s.unread := by
      rw [append_assoc, Sock.unread, ← drop_drop, take_append_drop]
    have htake : ∀ rx : List UInt8, ∀ rd, rx.drop rd = s.rx.drop (s.rxrd + n) → rx.length ≤ s.rxcap →
        Inv { s with returned := s.returned ++ s.unread.take n, rx := rx, rxrd := rd } := by
      intro rx rd hrx hroom
      have hboth : (s.returned ++ s.unread.take n) ++ rx.drop rd = s.returned ++ s.unread := by
        rw [hrx, hsplit]
      refine ⟨?_, fun he => hboth.trans (h.all he), hroom, h.cap⟩
      show (s.returned ++ s.unread.take n) ++ rx.drop rd <+: s.payload
      rw [hboth]
      exact h.pre
    split
    next hend => exact htake [] 0 (by rw [drop_nil, drop_of_length_le hend]) (Nat.zero_le _)
    next => exact htake s.rx (s.rxrd + n) rfl h.room

/-- **One step of a run keeps it.** -/
theorem Inv.step (h : Inv s) {e : Event} (hok : DataOk s e) : Inv (step s e) := by
  cases e with
  | data chain => exact Meets.invariant (fun _ _ hs => hs.recvPiece) h hok
  | error => exact ⟨h.pre, (fun he => by cases he), h.room, h.cap⟩
  | fin => exact ⟨h.pre, h.all, h.room, h.cap⟩
  | abort => exact ⟨h.pre, (fun he => by cases he), h.room, h.cap⟩
  | recv len => exact h.recv len

end Steps

theorem Inv.fresh : Inv .fresh :=
  ⟨prefix_refl _, fun _ => rfl, le_rfl, Nat.zero_le _⟩

/-- **What is returned is a prefix of the payload**, in every state of a connection in
which no data is handed over after a piece was dropped. -/
theorem returned_prefix (es : List Event) (h : Meets DataOk step .fresh es) :
    (es.foldl step .fresh).returned <+: (es.foldl step .fresh).payload :=
  (prefix_append ..).trans
    (Meets.invariant (P := Inv) (fun _ _ hs => hs.step) Inv.fresh h).pre

/-- The buffer cannot be grown for the second of two pieces. -/
def oneDropped : List Event :=
  [.data [⟨[65, 66], true, by decide⟩], .recv 1,
    .data [⟨List.replicate 9000 67, false, by rw [length_replicate]; decide⟩], .recv 8]

theorem returned_prefix_dropped :
    (oneDropped.foldl step .fresh).returned <+: (oneDropped.foldl step .fresh).payload :=
  returned_prefix oneDropped (by decide +kernel)

/-- A chain of two pieces. There is no memory for the first, and some for the second. -/
def gap : List Event := [.data [⟨[65], false, by decide⟩, ⟨[66], true, by decide⟩], .recv 1]

/-- **The byte after the one that was dropped is returned.** -/
theorem returned_gap : (gap.foldl step .fresh).payload = [65, 66]
    ∧ (gap.foldl step .fresh).returned = [66]
    ∧ ¬ (gap.foldl step .fresh).returned <+: (gap.foldl step .fresh).payload := by
  decide

end Ksock

end Makar
