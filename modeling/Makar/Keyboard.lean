import Makar.ByteRing
import Makar.Runs

/-!
# The keyboard's slots

Key bytes arrive in the interrupt handler and are routed to the task that has the
focus. A task that reads the keyboard owns a slot with a ring of its own and a copy
of its modes. Slots are claimed lazily, at the first read, from a table of eight;
a task without one reads the global ring, and a byte for a task without one is put
there. The raw and scancode flags the decoder reads are global: setting one writes it
and saves both in the caller's slot, and giving a task the focus restores them from
its slot.

`keyboard_getchar` waits with the slot it has resolved at its entry, so it is two
steps here, and anything may happen in between. A task that is released has ended
(every caller releases a task on its way out or after it), so it waits no longer.

For the statements a byte carries who had the focus when it was routed and a serial
number, and the state keeps a record of the bytes routed, returned, and dropped with
the reason, and of the modes each task asked for. No decision reads these.
-/

namespace Makar

open Function (update update_apply update_self update_of_ne)

namespace Keyboard

/-- `KB_TASK_SLOTS`. -/
def kbTaskSlots : ℕ := 8

/-- `KB_SLOT_BUF`. -/
abbrev kbSlotBuf : ℕ := 64

/-- `KB_BUF_SIZE`. -/
abbrev kbBufSize : ℕ := 256

/-- A task, by its number. Nothing here depends on how many there are. -/
abbrev Task := ℕ

/-- The index of a slot. -/
abbrev SlotId := Fin kbTaskSlots

/-- A routed byte, with who had the focus and the number of bytes routed before. -/
structure Key where
  byte : UInt8
  focus : Option Task
  serial : ℕ
  deriving DecidableEq

/-- The two mode flags. -/
structure Modes where
  raw : Bool
  scancode : Bool
  deriving DecidableEq

/-- Neither flag. -/
def Modes.cooked : Modes := ⟨false, false⟩

/-- `kb_slot_t`. -/
structure Slot where
  owner : Option Task
  ring : ByteRing kbSlotBuf Key
  modes : Modes

/-- The driver's tables, and the record. -/
structure State where
  slots : SlotId → Slot
  focused : Option Task
  buf : ByteRing kbBufSize Key
  modes : Modes
  /-- The slot, or the global ring, that a task in `keyboard_getchar` waits on. -/
  waiting : Task → Option (Option SlotId)
  routed : List Key
  returned : List (Task × Key)
  /-- Dropped because the focused task's ring was full. -/
  full : List Key
  /-- In the ring of a task that was released. -/
  released : List Key
  /-- The modes a task asked for since it was created or released. -/
  asked : Task → Modes

/-- The driver after boot. -/
def State.init : State where
  slots _ := ⟨none, ⟨fun _ => ⟨0, none, 0⟩, 0, 0⟩, .cooked⟩
  focused := none
  buf := ⟨fun _ => ⟨0, none, 0⟩, 0, 0⟩
  modes := .cooked
  waiting _ := none
  routed := []
  returned := []
  full := []
  released := []
  asked _ := .cooked

/-! ## The slot table -/

namespace State

variable (s : State)

/-- `slot_lookup`: the first slot with this owner. -/
def slotLookup (t : Option Task) : Option SlotId :=
  (List.finRange kbTaskSlots).find? fun i => (s.slots i).owner = t

/-- Replace a slot. -/
def setSlot (i : SlotId) (x : Slot) : State := { s with slots := update s.slots i x }

/-- `slot_register`: the task's slot, or the first free one. The task gets the focus
if nobody has it. -/
def slotRegister (t : Task) : Option SlotId × State :=
  match s.slotLookup (some t) with
  | some i => (some i, s)
  | none =>
    match s.slotLookup none with
    | none => (none, s)
    | some i =>
      let s := s.setSlot i ⟨some t, (s.slots i).ring.clear, .cooked⟩
      (some i, if s.focused = none then { s with focused := some t } else s)

/-! ## Modes -/

/-- `kb_save_mode_for_task`. -/
def kbSaveModeForTask (t : Task) : State :=
  match s.slotLookup (some t) with
  | none => s
  | some i => s.setSlot i { s.slots i with modes := s.modes }

/-- `kb_restore_mode_for_task`. Without a task the lookup finds a free slot. -/
def kbRestoreModeForTask (t : Option Task) : State :=
  match s.slotLookup t with
  | none => { s with modes := .cooked }
  | some i => { s with modes := (s.slots i).modes }

/-- Store the flags and save them for the caller. -/
def storeModes (caller : Task) (m : Modes) : State :=
  { s with modes := m }.kbSaveModeForTask caller

/-- `keyboard_set_scancode`, by the calling task. -/
def keyboardSetScancode (caller : Task) (on : Bool) : State :=
  s.storeModes caller ⟨s.modes.raw, on⟩

/-- `keyboard_set_raw`, by the calling task. -/
def keyboardSetRaw (caller : Task) (on : Bool) : State :=
  s.storeModes caller ⟨on, s.modes.scancode⟩

/-- `keyboard_set_focus`. -/
def keyboardSetFocus (t : Option Task) : State :=
  { s with focused := t }.kbRestoreModeForTask t

/-- The first part of `keyboard_release_task`, under the lock: the focus, then the
slot. -/
def freeSlot (t : Task) : State :=
  let s := { s with focused := if s.focused = some t then none else s.focused }
  match s.slotLookup (some t) with
  | none => s
  | some i =>
    { s.setSlot i ⟨none, (s.slots i).ring.clear, .cooked⟩ with
      released := s.released ++ (s.slots i).ring.contents }

/-- The slot of a task is freed, it waits no longer, and its modes are forgotten. -/
def dropTask (t : Task) : State :=
  { s.freeSlot t with
    waiting := update s.waiting t none
    asked := update s.asked t .cooked }

/-- `keyboard_release_task`, by the calling task. If the released task had the focus
the flags go back to cooked, through the two calls that also save them for the
caller. -/
def keyboardReleaseTask (caller t : Task) : State :=
  if s.focused = some t then
    ((s.dropTask t).keyboardSetScancode caller false).keyboardSetRaw caller false
  else s.dropTask t

/-! ## Keys -/

/-- The slot `kb_route` puts a byte in: the focused task's. -/
def routeSlot : Option SlotId :=
  match s.focused with
  | none => none
  | some f => s.slotLookup (some f)

/-- `kb_route`, with the test mode off. -/
def kbRoute (c : UInt8) : State :=
  let k : Key := ⟨c, s.focused, s.routed.length⟩
  let s := { s with routed := s.routed ++ [k] }
  match s.routeSlot with
  | some i =>
    let s := if (s.slots i).ring.full then { s with full := s.full ++ [k] } else s
    s.setSlot i { s.slots i with ring := (s.slots i).ring.push k }
  | none => { s with buf := s.buf.push k }

/-- Take a byte for a task from its slot or from the global ring. Without one the
state stays as it is. -/
def take (t : Task) : Option SlotId → Option Key × State
  | some i =>
    match (s.slots i).ring.pop with
    | none => (none, s)
    | some (k, r) =>
      (some k, { s.setSlot i { s.slots i with ring := r } with returned := s.returned ++ [(t, k)] })
  | none =>
    match s.buf.pop with
    | none => (none, s)
    | some (k, r) => (some k, { s with buf := r, returned := s.returned ++ [(t, k)] })

/-- `keyboard_poll`, by the calling task. None is the source's 0. -/
def keyboardPoll (t : Task) : Option Key × State :=
  let (slot, s) := s.slotRegister t
  s.take t slot

/-- `keyboard_getchar` up to its loop: resolve the slot. -/
def getcharEnter (t : Task) : State :=
  let (slot, s) := s.slotRegister t
  { s with waiting := update s.waiting t (some slot) }

/-- One turn of the loop of `keyboard_getchar`: return if there is a byte. -/
def getcharTurn (t : Task) : Option Key × State :=
  match s.waiting t with
  | none => (none, s)
  | some slot =>
    match s.take t slot with
    | (none, s) => (none, s)
    | (some k, s) => (some k, { s with waiting := update s.waiting t none })

end State

/-! ## Runs -/

/-- What happens to the driver. -/
inductive Op
  | setFocus (t : Option Task)
  | setRaw (caller : Task) (on : Bool)
  | setScancode (caller : Task) (on : Bool)
  | release (caller t : Task)
  | route (c : UInt8)
  | poll (t : Task)
  | getcharEnter (t : Task)
  | getcharTurn (t : Task)

/-- One step. A mode call is also entered in the record. -/
def step (s : State) : Op → State
  | .setFocus t => s.keyboardSetFocus t
  | .setRaw c on =>
    { s.keyboardSetRaw c on with
      asked := update s.asked c ⟨on, (s.asked c).scancode⟩ }
  | .setScancode c on =>
    { s.keyboardSetScancode c on with
      asked := update s.asked c ⟨(s.asked c).raw, on⟩ }
  | .release c t => s.keyboardReleaseTask c t
  | .route c => s.kbRoute c
  | .poll t => (s.keyboardPoll t).2
  | .getcharEnter t => s.getcharEnter t
  | .getcharTurn t => (s.getcharTurn t).2

/-- The state after a run from boot. -/
def run (ops : List Op) : State := ops.foldl step .init

/-! ## The table keeps one slot per task -/

/-- **No task owns two slots.** -/
def Owned (s : State) : Prop :=
  ∀ i j t, (s.slots i).owner = some t → (s.slots j).owner = some t → i = j

section Table

variable {s : State} {i j : SlotId} {t u : Task} {x : Slot}

@[simp] theorem setSlot_slots (s : State) (i : SlotId) (x : Slot) :
    (s.setSlot i x).slots = update s.slots i x := rfl

theorem slotLookup_owner {t : Option Task} (h : s.slotLookup t = some i) :
    (s.slots i).owner = t := by
  simpa using List.find?_some h

theorem slotLookup_focused (f t : Option Task) :
    ({ s with focused := f } : State).slotLookup t = s.slotLookup t := rfl

theorem slotLookup_eq_none {t : Option Task} :
    s.slotLookup t = none ↔ ∀ i, (s.slots i).owner ≠ t := by
  simp [State.slotLookup]

/-- The lookup finds the slot of its owner. -/
theorem Owned.slotLookup (hs : Owned s) (h : (s.slots i).owner = some t) :
    s.slotLookup (some t) = some i := by
  cases hl : s.slotLookup (some t) with
  | none => exact absurd h (slotLookup_eq_none.1 hl i)
  | some j => rw [hs i j t h (slotLookup_owner hl)]

/-- A slot may be rewritten for its owner, freed, or claimed for a task without one. -/
theorem Owned.setSlot (hs : Owned s)
    (hx : ∀ t, x.owner = some t → (s.slots i).owner = some t ∨ ∀ j, (s.slots j).owner ≠ some t) :
    Owned (s.setSlot i x) := by
  intro a b t ha hb
  simp only [setSlot_slots, update_apply] at ha hb
  split at ha <;> split at hb
  · next h1 h2 => rw [h1, h2]
  · next h1 h2 =>
    rcases hx t ha with h | h
    · rw [h1, hs i b t h hb]
    · exact absurd hb (h b)
  · next h1 h2 =>
    rcases hx t hb with h | h
    · rw [h2, hs i a t h ha]
    · exact absurd ha (h a)
  · exact hs a b t ha hb

/-- The bytes a task can still read from its slot. -/
def pending (s : State) (t : Task) : List Key :=
  match s.slotLookup (some t) with
  | none => []
  | some i => (s.slots i).ring.contents

theorem pending_of_owner (hs : Owned s) (h : (s.slots i).owner = some t) :
    pending s t = (s.slots i).ring.contents := by
  rw [pending, hs.slotLookup h]

theorem pending_of_slotless (h : ∀ i, (s.slots i).owner ≠ some t) : pending s t = [] := by
  rw [pending, slotLookup_eq_none.2 h]

/-- What a task can read after a slot was replaced. -/
theorem pending_setSlot (hs : Owned s) (hs' : Owned (s.setSlot i x)) (u : Task) :
    pending (s.setSlot i x) u =
      if x.owner = some u then x.ring.contents
      else if (s.slots i).owner = some u then [] else pending s u := by
  split
  next h =>
    rw [pending_of_owner hs' (i := i) (by simpa using h), setSlot_slots, update_self]
  next h =>
    -- Unless it owned the slot that was replaced, its slot is where it was.
    have hkeep : ∀ j, j ≠ i → ((s.setSlot i x).slots j) = s.slots j := fun j hj => by
      rw [setSlot_slots, update_of_ne hj]
    split
    next ho =>
      refine pending_of_slotless fun j hj => ?_
      by_cases hji : j = i
      · exact h (by simpa [hji] using hj)
      · exact hji (hs j i u (by rwa [hkeep j hji] at hj) ho)
    next ho =>
      cases hl : s.slotLookup (some u) with
      | none =>
        rw [pending_of_slotless (slotLookup_eq_none.1 hl), pending_of_slotless fun j hj => ?_]
        by_cases hji : j = i
        · exact h (by simpa [hji] using hj)
        · exact slotLookup_eq_none.1 hl j (by rwa [hkeep j hji] at hj)
      | some j =>
        have hj := slotLookup_owner hl
        have hji : j ≠ i := fun e => ho (e ▸ hj)
        rw [pending_of_owner hs hj, pending_of_owner hs' (i := j) (by rwa [hkeep j hji]),
          hkeep j hji]

/-- Storing the flags changes them and the modes in the caller's slot. -/
structure Stored (s : State) (c : Task) (m : Modes) (s' : State) : Prop where
  owner : ∀ i, (s'.slots i).owner = (s.slots i).owner
  ring : ∀ i, (s'.slots i).ring = (s.slots i).ring
  slot : ∀ i, (s'.slots i).modes = if (s.slots i).owner = some c then m else (s.slots i).modes
  rest : s' = { s with slots := s'.slots, modes := m }

theorem storeModes_spec (hs : Owned s) (c : Task) (m : Modes) : Stored s c m (s.storeModes c m) := by
  have hlook : ({ s with modes := m } : State).slotLookup (some c) = s.slotLookup (some c) := rfl
  rw [State.storeModes, State.kbSaveModeForTask, hlook]
  split
  next hnone =>
    exact ⟨fun _ => rfl, fun _ => rfl, fun i => (if_neg (slotLookup_eq_none.1 hnone i)).symm, rfl⟩
  next i hsome =>
    have hi := slotLookup_owner hsome
    refine ⟨fun j => ?_, fun j => ?_, fun j => ?_, rfl⟩ <;> by_cases hj : j = i
    · simp [hj]
    · simp [hj]
    · simp [hj]
    · simp [hj]
    · simp [hj, hi]
    · have : (s.slots j).owner ≠ some c := fun h => hj (hs j i c h hi)
      simp [hj, this]

theorem Stored.owned {c : Task} {m : Modes} {s' : State} (h : Stored s c m s') (hs : Owned s) :
    Owned s' :=
  fun i j t hi hj => hs i j t (by rwa [← h.owner]) (by rwa [← h.owner])

/-- **What registering does**: nothing, or a free slot is claimed for a task that has
none. -/
theorem slotRegister_cases (s : State) (t : Task) :
    (∃ i, (s.slots i).owner = some t ∧ s.slotRegister t = (some i, s))
    ∨ ((∀ i, (s.slots i).owner ≠ some t) ∧ s.slotRegister t = (none, s))
    ∨ ∃ i, (∀ j, (s.slots j).owner ≠ some t) ∧ (s.slots i).owner = none
      ∧ s.slotRegister t = (some i,
          { s.setSlot i ⟨some t, (s.slots i).ring.clear, .cooked⟩ with
            focused := if s.focused = none then some t else s.focused }) := by
  rw [State.slotRegister]
  split
  next i h => exact .inl ⟨i, slotLookup_owner h, rfl⟩
  next h =>
    split
    next => exact .inr (.inl ⟨slotLookup_eq_none.1 h, rfl⟩)
    next i hi =>
      refine .inr (.inr ⟨i, slotLookup_eq_none.1 h, slotLookup_owner hi, ?_⟩)
      by_cases hf : s.focused = none
      · simp [State.setSlot, hf]
      · simp [State.setSlot, hf]

end Table

end Keyboard

end Makar
