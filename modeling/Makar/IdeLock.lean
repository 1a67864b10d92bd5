import Makar.Ide
import Makar.Runs

/-!
# One command at a time on the IDE controller

Tasks call the public functions of the driver and are preempted anywhere. A call is the
sequence of what it does that concerns the others: taking and releasing `s_ide_busy`, and
beginning and ending commands. Which commands there are depends on the drive, on the
arguments and on what fails; a lock that is taken makes a task yield and try again.

Reading and writing hold the lock over all their commands and release it on every path.
`ide_atapi_capacity` and `ide_eject_atapi` send a packet without it. So there is at most
one task inside a command along every run in which those two have the driver for
themselves (`one_command`), and not in general (`two_commands`).
-/

namespace Makar

open Function List

namespace IdeLock

open Ide

/-- What a task does that concerns the others. -/
inductive Act
  | lock
  | unlock
  | start
  | stop
  deriving DecidableEq

/-- One command, from its first register write to its end, whether it succeeds or not. -/
def command : List Act := [.start, .stop]

/-- A drive of either kind. -/
structure Dev extends Drive where
  atapi : Bool

/-- `DMA_ATAPI_CHUNK_SECS` -/
def atapiChunkSecs : ℕ := 16

/-- A loop of commands that ends with the one that fails: `n` are left, the next has the
number `k`. -/
def commands (fails : Option ℕ) : ℕ → ℕ → Bool × List Act
  | 0, _ => (true, [])
  | n + 1, k =>
    if fails = some k then (false, command)
    else ((commands fails n (k + 1)).1, command ++ (commands fails n (k + 1)).2)

/-- The number of pieces of a request. -/
def pieces (count chunk : ℕ) : ℕ := (count + chunk - 1) / chunk

/-- `ide_dma_ata`, with the cache flush after a write. -/
def dmaAtaActs (d : Dev) (dir : Direction) (fails : Option ℕ) (count : ℕ) : ℤ × List Act :=
  if d.dmaUsable = false then (-3, [])
  else if count = 0 then (0, [])
  else
    let r := commands fails (pieces count chunkSecs) 0
    if r.1 then (0, r.2 ++ if dir = .write then command else []) else (1, r.2)

/-- `ide_access`: one command, and the cache flush if it was a write and succeeded. -/
def accessActs (d : Dev) (dir : Direction) (ok : Bool) (count : ℕ) : List Act :=
  if d.present = false ∨ d.ata = false ∨ count = 0 then []
  else command ++ if ok ∧ dir = .write then command else []

/-- `ide_read_sectors` and `ide_write_sectors`. A reset comes before the second attempt if
the first one failed. -/
def sectorsActs (d : Dev) (dir : Direction) (fails : Option ℕ) (ok : Bool) (count : ℕ) : List Act :=
  let r := dmaAtaActs d dir fails count
  .lock :: (r.2 ++ (if r.1 ≠ 0 then
      (if r.1 ≠ -3 then command else []) ++ accessActs d dir ok count else []) ++ [.unlock])

/-- `ide_read_atapi_sectors`: the early returns come before the lock. -/
def readAtapiActs (d : Dev) (fails bad : Option ℕ) (count : ℕ) : List Act :=
  if d.present = false ∨ d.atapi = false ∨ count = 0 then []
  else
    let r := if d.dma then commands fails (pieces count atapiChunkSecs) 0 else (false, [])
    .lock :: (r.2 ++ (if r.1 then []
      else (if d.dma then command else []) ++ (commands bad count 0).2) ++ [.unlock])

/-- A packet that is sent without the lock. -/
def packetActs (d : Dev) : List Act := if d.present = false ∨ d.atapi = false then [] else command

/-- The public functions, with their arguments and what fails: a DMA transfer, by its number;
whether the polled command of an ATA drive succeeds; a polled sector of an ATAPI drive. -/
inductive Call
  | readSectors (d : Dev) (fails : Option ℕ) (ok : Bool) (count : ℕ)
  | writeSectors (d : Dev) (fails : Option ℕ) (ok : Bool) (count : ℕ)
  | readAtapiSectors (d : Dev) (fails bad : Option ℕ) (count : ℕ)
  | atapiCapacity (d : Dev)
  | ejectAtapi (d : Dev)

/-- What a call does. -/
def Call.acts : Call → List Act
  | .readSectors d fails ok count => sectorsActs d .read fails ok count
  | .writeSectors d fails ok count => sectorsActs d .write fails ok count
  | .readAtapiSectors d fails bad count => readAtapiActs d fails bad count
  | .atapiCapacity d => packetActs d
  | .ejectAtapi d => packetActs d

/-- The functions that do not take the lock. -/
def Call.bare : Call → Bool
  | .atapiCapacity _ | .ejectAtapi _ => true
  | _ => false

/-! ## Interleavings -/

section

variable {T : Type} [DecidableEq T]

/-- `s_ide_busy`; and of every task what is left of its call, whether the call is one without
the lock, and whether the task is inside a command. -/
structure State (T : Type) where
  busy : Bool
  rest : T → List Act
  bare : T → Bool
  inside : T → Bool

/-- Nobody is in the driver. -/
def State.idle : State T := ⟨false, fun _ => [], fun _ => false, fun _ => false⟩

/-- A task calls a function, or goes on with its call. -/
inductive Move (T : Type)
  | call (t : T) (c : Call)
  | go (t : T)

/-- One step of one task. A task that finds the lock taken yields. -/
def step (s : State T) : Move T → State T
  | .call t c =>
    if s.rest t = [] then
      { s with rest := update s.rest t c.acts, bare := update s.bare t c.bare }
    else s
  | .go t =>
    match s.rest t with
    | [] => s
    | .lock :: l =>
      if s.busy then s else { s with busy := true, rest := update s.rest t l }
    | .unlock :: l => { s with busy := false, rest := update s.rest t l }
    | .start :: l =>
      { s with rest := update s.rest t l, inside := update s.inside t true }
    | .stop :: l =>
      { s with rest := update s.rest t l, inside := update s.inside t false }

/-- **At most one task is inside a command.** -/
def Exclusive (s : State T) : Prop := ∀ t u, s.inside t = true → s.inside u = true → t = u

/-- A function without the lock is called while nobody else is in the driver, and nobody
else calls one while it goes on. -/
def Alone (s : State T) : Move T → Prop
  | .call t c =>
    (c.bare = true → ∀ u, u ≠ t → s.rest u = []) ∧ ∀ u, u ≠ t → s.bare u = true → s.rest u = []
  | .go _ => True

instance [Fintype T] (s : State T) (i : Move T) : Decidable (Alone s i) := by
  cases i <;> unfold Alone <;> infer_instance

instance [Fintype T] (s : State T) : Decidable (Exclusive s) :=
  inferInstanceAs (Decidable (∀ _ _, _ → _ → _))

/-! ## What is left of a call -/

/-- Commands and then the given end. The flag says whether one is under way. -/
inductive Body (tail : List Act) : Bool → List Act → Prop
  | tail : Body tail false tail
  | start {l : List Act} : Body tail true l → Body tail false (.start :: l)
  | stop {l : List Act} : Body tail false l → Body tail true (.stop :: l)

section

variable {tail l : List Act} (h : Body tail false l)
include h

theorem Body.command :
    Body tail false (IdeLock.command ++ l) := .start (.stop h)

theorem Body.commands (fails : Option ℕ) (n k : ℕ) :
    Body tail false ((IdeLock.commands fails n k).2 ++ l) := by
  induction n generalizing k with
  | zero => exact h
  | succ n ih =>
    rw [IdeLock.commands]
    split
    · exact h.command
    · rw [append_assoc]
      exact (ih (k + 1)).command

/-- A command, or none. -/
theorem Body.commandIf (p : Prop) [Decidable p] :
    Body tail false ((if p then IdeLock.command else []) ++ l) := by
  split
  · exact h.command
  · exact h

theorem body_accessActs (d : Dev) (dir : Direction) (ok : Bool) (count : ℕ) :
    Body tail false (accessActs d dir ok count ++ l) := by
  rw [accessActs]
  split
  · exact h
  · rw [append_assoc]
    exact (h.commandIf _).command

theorem body_dmaAtaActs (d : Dev) (dir : Direction) (fails : Option ℕ) (count : ℕ) :
    Body tail false ((dmaAtaActs d dir fails count).2 ++ l) := by
  rw [dmaAtaActs]
  split
  · exact h
  · split
    · exact h
    · dsimp only
      split
      · rw [append_assoc]
        exact (h.commandIf _).commands _ _ _
      · exact h.commands _ _ _

end

/-- **The calls with the lock** have their commands between taking and releasing it, if they
take it; the others take nothing. -/
theorem acts_cases (c : Call) :
    (c.bare = true → Body [] false c.acts) ∧
    (c.bare = false → c.acts = [] ∨ ∃ l, c.acts = .lock :: l ∧ Body [.unlock] false l) := by
  have hunlock : Body [.unlock] false [.unlock] := .tail
  have hsectors : ∀ d dir fails ok count, ∃ l, sectorsActs d dir fails ok count = .lock :: l
      ∧ Body [.unlock] false l := by
    intro d dir fails ok count
    refine ⟨_, rfl, ?_⟩
    rw [append_assoc]
    refine body_dmaAtaActs ?_ d dir fails count
    split
    · rw [append_assoc]
      exact (body_accessActs hunlock d dir ok count).commandIf _
    · exact hunlock
  have hpacket : ∀ d, Body [] false (packetActs d) := by
    intro d
    rw [packetActs]
    split
    · exact .tail
    · exact .start (.stop .tail)
  cases c with
  | readSectors d fails ok count => exact ⟨(fun h => by cases h), fun _ => .inr (hsectors ..)⟩
  | writeSectors d fails ok count => exact ⟨(fun h => by cases h), fun _ => .inr (hsectors ..)⟩
  | readAtapiSectors d fails bad count =>
    refine ⟨(fun h => by cases h), fun _ => ?_⟩
    change readAtapiActs d fails bad count = [] ∨ ∃ l, readAtapiActs d fails bad count = .lock :: l ∧ _
    rw [readAtapiActs]
    split
    · exact .inl rfl
    · refine .inr ⟨_, rfl, ?_⟩
      rw [append_assoc]
      have htail : ∀ b : Bool, Body [.unlock] false ((if b = true then []
          else (if d.dma then command else []) ++ (commands bad count 0).2) ++ [.unlock]) := by
        intro b
        split
        · exact hunlock
        · rw [append_assoc]
          exact (hunlock.commands bad count 0).commandIf _
      by_cases hd : d.dma = true
      · rw [if_pos hd]
        exact (htail _).commands ..
      · rw [if_neg hd]
        exact htail false
  | atapiCapacity d => exact ⟨fun _ => hpacket d, fun h => by cases h⟩
  | ejectAtapi d => exact ⟨fun _ => hpacket d, fun h => by cases h⟩

/-! ## The invariant -/

/-- Where a task is: in a function without the lock, before the lock, or holding it. -/
inductive Phase (s : State T) (t : T) : Prop
  | bare (h : s.bare t = true) (hb : Body [] (s.inside t) (s.rest t))
  | before (h : s.bare t = false) (hi : s.inside t = false)
      (hr : s.rest t = [] ∨ ∃ l, s.rest t = .lock :: l ∧ Body [.unlock] false l)
  | holds (h : s.bare t = false) (hb : Body [.unlock] (s.inside t) (s.rest t))

/-- The task holds the lock. -/
def Holds (s : State T) (t : T) : Prop :=
  s.bare t = false ∧ Body [.unlock] (s.inside t) (s.rest t)

/-- **What holds along such a run.** -/
structure Inv (s : State T) : Prop where
  phase : ∀ t, Phase s t
  busy : ∀ t, Holds s t → s.busy = true
  one : ∀ t u, Holds s t → Holds s u → t = u
  alone : ∀ t, s.bare t = true → s.rest t ≠ [] → ∀ u, u ≠ t → s.rest u = []

variable {s : State T} {t : T}

variable {tail l : List Act}

theorem Body.ne_nil {b : Bool} (h : Body tail b l) (hb : b = true ∨ tail ≠ []) :
    l ≠ [] := by
  cases h with
  | tail => simpa using hb
  | start => simp
  | stop => simp

omit [DecidableEq T] in
theorem not_holds_of_nil (h : s.rest t = []) : ¬Holds s t :=
  fun hh => hh.2.ne_nil (.inr (by simp)) h

/-- The lock is not among what is left after it. -/
theorem not_body_lock {b : Bool} (htail : tail ≠ .lock :: l) :
    ¬Body tail b (.lock :: l) := by
  intro h
  cases h
  exact htail rfl

omit [DecidableEq T] in
/-- A task without a rest is not inside a command. -/
theorem Inv.inside_of_nil (h : Inv s) (hr : s.rest t = []) : s.inside t = false := by
  cases h.phase t with
  | bare _ hb =>
    cases hi : s.inside t with
    | false => rfl
    | true => exact absurd hr (hb.ne_nil (.inl hi))
  | before _ hi => exact hi
  | holds _ hb => exact absurd hr (hb.ne_nil (.inr (by simp)))

variable {l : List Act}

section

variable (h : Inv s)
include h

/-- **One task goes on.** Where the others are does not change. Of the lock it is to be said
who holds it then, and of the calls without it that they stay alone. -/
theorem Inv.advance {b q i : Bool} {s' : State T}
    (hs' : s' = ⟨b, update s.rest t l, update s.bare t q,
      update s.inside t i⟩) (hphase : Phase s' t) (hbusy : Holds s' t → b = true)
    (hother : ∀ u, u ≠ t → Holds s u → b = true ∧ ¬Holds s' t)
    (hself : q = true → ∀ u, u ≠ t → s.rest u = [])
    (halone : ∀ u, u ≠ t → s.bare u = true → s.rest u = []) : Inv s' := by
  have hrest : ∀ u, u ≠ t → s'.rest u = s.rest u := fun u hu => by
    rw [hs']
    exact update_of_ne hu ..
  have hinside : ∀ u, u ≠ t → s'.inside u = s.inside u := fun u hu => by
    rw [hs']
    exact update_of_ne hu ..
  have hbare : ∀ u, u ≠ t → s'.bare u = s.bare u := fun u hu => by
    rw [hs']
    exact update_of_ne hu ..
  have hbusy' : s'.busy = b := by rw [hs']
  have hq : s'.bare t = q := by
    rw [hs']
    exact update_self ..
  have hholds : ∀ u, u ≠ t → Holds s' u → Holds s u := by
    intro u hu hh
    rwa [Holds, hbare u hu, hrest u hu, hinside u hu] at hh
  refine ⟨fun u => ?_, fun u hu => ?_, fun u v hu hv => ?_, fun u hu hru v hv => ?_⟩
  · by_cases hut : u = t
    · exact hut ▸ hphase
    · cases h.phase u with
      | bare h1 h2 => exact .bare (by rwa [hbare u hut]) (by rwa [hrest u hut, hinside u hut])
      | before h1 h2 h3 =>
        exact .before (by rwa [hbare u hut]) (by rwa [hinside u hut]) (by rwa [hrest u hut])
      | holds h1 h2 => exact .holds (by rwa [hbare u hut]) (by rwa [hrest u hut, hinside u hut])
  · rw [hbusy']
    by_cases hut : u = t
    · exact hbusy (hut ▸ hu)
    · exact (hother u hut (hholds u hut hu)).1
  · by_cases hut : u = t <;> by_cases hvt : v = t
    · rw [hut, hvt]
    · exact absurd (hut ▸ hu) (hother v hvt (hholds v hvt hv)).2
    · exact absurd (hvt ▸ hv) (hother u hut (hholds u hut hu)).2
    · exact h.one u v (hholds u hut hu) (hholds v hvt hv)
  · by_cases hut : u = t
    · rw [hut] at hu hv
      rw [hrest v hv]
      exact hself (hq.symm.trans hu) v hv
    · rw [hbare u hut] at hu
      rw [hrest u hut] at hru
      exact absurd (halone u hut hu) hru

/-- A task goes on with its call. -/
theorem Inv.proceed (hne : s.rest t ≠ []) {b i : Bool} {s' : State T}
    (hs' : s' = ⟨b, update s.rest t l, s.bare, update s.inside t i⟩)
    (hphase : Phase s' t) (hbusy : Holds s' t → b = true)
    (hother : ∀ u, u ≠ t → Holds s u → b = true ∧ ¬Holds s' t) : Inv s' := by
  refine h.advance (t := t) (l := l) (i := i) (q := s.bare t)
    (by rw [hs', update_eq_self t s.bare]) hphase hbusy hother
    (fun hb => h.alone t hb hne) fun u hut hu => ?_
  by_contra hru
  exact hne (h.alone u hu hru t (Ne.symm hut))

/-- A task begins or ends a command. -/
theorem Inv.inCommand {x : Act} (hr : s.rest t = x :: l) (hx : x ≠ .lock) {i : Bool}
    (hbody : ∀ tail, tail = [] ∨ tail = [.unlock] → Body tail (s.inside t) (x :: l) →
      Body tail i l) : Inv { s with rest := update s.rest t l, inside := update s.inside t i } := by
  have hback : s.bare t = false → Holds s t := by
    intro hb
    cases h.phase t with
    | bare hb' => rw [hb] at hb'; cases hb'
    | before _ _ h3 =>
      obtain h3 | ⟨l', h3, -⟩ := h3 <;> rw [hr] at h3 <;> cases h3
      exact absurd rfl hx
    | holds h1 h2 => exact ⟨h1, h2⟩
  refine h.proceed (t := t) (l := l) (b := s.busy) (i := i) (by simp [hr]) rfl ?_
    (fun hh => h.busy t (hback hh.1)) fun u hu hhu => ⟨h.busy u hhu, fun hh => ?_⟩
  · cases hb : s.bare t with
    | true =>
      cases h.phase t with
      | bare _ h2 =>
        rw [hr] at h2
        exact .bare hb (by simpa using hbody [] (.inl rfl) h2)
      | before hb' => rw [hb] at hb'; cases hb'
      | holds hb' => rw [hb] at hb'; cases hb'
    | false =>
      have h2 := (hback hb).2
      rw [hr] at h2
      exact .holds hb (by simpa using hbody [.unlock] (.inr rfl) h2)
  · exact hu (h.one u t hhu (hback hh.1))

/-- A call. -/
theorem Inv.call (hr : s.rest t = []) {c : Call} (hok : Alone s (.call t c)) :
    Inv { s with rest := update s.rest t c.acts, bare := update s.bare t c.bare } := by
  have hinside := h.inside_of_nil hr
  obtain ⟨hbare, hlocked⟩ := acts_cases c
  have hnot : ¬Holds { s with
      rest := update s.rest t c.acts, bare := update s.bare t c.bare } t := by
    rintro ⟨h1, h2⟩
    simp only [update_self] at h1 h2
    obtain hnil | ⟨l, hl, -⟩ := hlocked h1
    · rw [hnil] at h2
      exact h2.ne_nil (.inr (by simp)) rfl
    · rw [hl] at h2
      exact not_body_lock (by simp) h2
  refine h.advance (t := t) (l := c.acts) (q := c.bare) (i := s.inside t) (b := s.busy)
    (by rw [update_eq_self t s.inside]) ?_ (fun hh => absurd hh hnot) (fun u _ hu => ⟨h.busy u hu, hnot⟩) hok.1 hok.2
  cases hc : c.bare with
  | true => exact .bare (by simp) (by simpa [hinside] using hbare hc)
  | false => exact .before (by simp) hinside (by simpa using hlocked hc)

/-- The lock is taken when it is free, so that nobody holds it. -/
theorem Inv.acquire (hr : s.rest t = .lock :: l) (hfree : s.busy = false) :
    Inv { s with busy := true, rest := update s.rest t l } := by
  have hbody : s.bare t = false ∧ s.inside t = false ∧ Body [.unlock] false l := by
    cases h.phase t with
    | bare _ hb => rw [hr] at hb; exact absurd hb (not_body_lock (by simp))
    | before h1 h2 h3 =>
      obtain h3 | ⟨l', h3, h4⟩ := h3 <;> rw [hr] at h3 <;> cases h3
      exact ⟨h1, h2, h4⟩
    | holds _ hb => rw [hr] at hb; exact absurd hb (not_body_lock (by simp))
  obtain ⟨h1, h2, h3⟩ := hbody
  refine h.proceed (t := t) (l := l) (b := true) (i := s.inside t) (by simp [hr])
    (by rw [update_eq_self t s.inside]) (.holds h1 (by simpa [h2] using h3)) (fun _ => rfl)
    fun u _ hu => ?_
  rw [h.busy u hu] at hfree
  cases hfree

/-- The lock is released by the one that holds it. -/
theorem Inv.release (hr : s.rest t = .unlock :: l) :
    Inv { s with busy := false, rest := update s.rest t l } := by
  have hbody : Holds s t ∧ s.inside t = false ∧ l = [] := by
    cases h.phase t with
    | bare _ hb =>
      rw [hr] at hb
      generalize s.inside t = b at hb
      cases hb
    | before _ _ h3 => obtain h3 | ⟨l', h3, -⟩ := h3 <;> rw [hr] at h3 <;> cases h3
    | holds h1 hb =>
      refine ⟨⟨h1, hb⟩, ?_⟩
      rw [hr] at hb
      generalize s.inside t = b at hb
      cases hb
      exact ⟨rfl, rfl⟩
  obtain ⟨hh, hi, rfl⟩ := hbody
  refine h.proceed (t := t) (l := []) (b := false) (i := s.inside t) (by simp [hr])
    (by rw [update_eq_self t s.inside]) (.before hh.1 hi (.inl (by simp))) (fun hc => ?_)
    fun u hu hhu => ?_
  · exact absurd hc (not_holds_of_nil (by simp))
  · exact absurd (h.one u t hhu hh) hu

/-- **One step of a run keeps it.** -/
theorem Inv.step {i : Move T} (hok : Alone s i) : Inv (step s i) := by
  cases i with
  | call t c =>
    rw [IdeLock.step]
    split
    next hr => exact h.call hr hok
    next => exact h
  | go t =>
    rw [IdeLock.step]
    split
    next => exact h
    next l hr =>
      split
      next => exact h
      next hfree => exact h.acquire hr (by simpa using hfree)
    next l hr => exact h.release hr
    next l hr =>
      refine h.inCommand hr (by decide) fun tail htail hb => ?_
      generalize s.inside t = b at hb
      cases hb with
      | tail => simp at htail
      | start hl => exact hl
    next l hr =>
      refine h.inCommand hr (by decide) fun tail htail hb => ?_
      generalize s.inside t = b at hb
      cases hb with
      | tail => simp at htail
      | stop hl => exact hl

end

omit [DecidableEq T] in
/-- Two tasks inside a command would both hold the lock. -/
theorem Inv.exclusive (h : Inv s) : Exclusive s := by
  intro t u ht hu
  by_contra hne
  have hrest : ∀ v, s.inside v = true → s.rest v ≠ [] := by
    intro v hv
    cases h.phase v with
    | bare _ hb => exact hb.ne_nil (.inl hv)
    | before _ hi => rw [hv] at hi; cases hi
    | holds _ hb => exact hb.ne_nil (.inl hv)
  have hbare : ∀ v w, s.inside v = true → s.inside w = true → v ≠ w → s.bare v = false := by
    intro v w hv hw hvw
    cases hb : s.bare v with
    | false => rfl
    | true => exact absurd (h.alone v hb (hrest v hv) w hvw.symm) (hrest w hw)
  have hholds : ∀ v, s.inside v = true → s.bare v = false → Holds s v := by
    intro v hv hb
    cases h.phase v with
    | bare hb' => rw [hb] at hb'; cases hb'
    | before _ hi => rw [hv] at hi; cases hi
    | holds _ hb' => exact ⟨hb, hb'⟩
  exact hne (h.one t u (hholds t ht (hbare t u ht hu hne))
    (hholds u hu (hbare u t hu ht (Ne.symm hne))))

omit [DecidableEq T] in
theorem Inv.idle : Inv (.idle : State T) where
  phase _ := .before rfl rfl (.inl rfl)
  busy _ h := absurd h (not_holds_of_nil rfl)
  one _ _ h := absurd h (not_holds_of_nil rfl)
  alone _ h := by cases h

/-- **At most one task is inside a command** in every state of a run in which the functions
without the lock have the driver for themselves. -/
theorem one_command (is : List (Move T)) (h : Meets Alone step .idle is) :
    Exclusive (is.foldl step .idle) :=
  (Meets.invariant (P := Inv) (fun _ _ hs => hs.step) Inv.idle h).exclusive

end

/-- An ATA disk and a CD-ROM drive that can do DMA. -/
def disk : Dev := ⟨⟨true, true, true⟩, false⟩

@[inherit_doc disk] def cdrom : Dev := ⟨⟨true, false, true⟩, true⟩

/-- A task reads the disk while another one writes to it and waits for the lock. -/
def contended : List (Move (Fin 2)) :=
  [.call 0 (.readSectors disk (some 1) true 200), .call 1 (.writeSectors disk none true 8), .go 0, .go 1,
    .go 0, .go 1]

theorem one_command_contended : (contended.foldl step .idle).inside 0 = true
    ∧ Exclusive (contended.foldl step .idle) :=
  ⟨by decide +kernel, one_command contended (by decide +kernel)⟩

/-- **Two tasks are inside a command**: one reads the disk with the lock held, the other asks
the CD-ROM drive for its capacity. -/
theorem two_commands :
    ¬Exclusive ([.call 0 (.readSectors disk none true 1), .call 1 (.atapiCapacity cdrom), .go 0, .go 0,
      .go 1].foldl step (.idle : State (Fin 2))) := by
  decide +kernel

end IdeLock

end Makar
