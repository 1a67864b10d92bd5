import Makar.Keyboard

/-!
# Keyboard modes follow the focus

The flags the decoder reads ought to be the modes the focused task last asked for.
Setting a flag writes it whoever calls, and saves it for the caller; so the relation
holds along a run in which tasks set modes only while they have the focus and a slot
to keep them in (`modes_of_focused`). A task without the focus changes the flags under
the task that has it, and one without a slot loses its modes when the focus comes back.

Releasing the focused task goes through the same two calls, which then write over the
modes saved for the caller. The caller must be the released task itself, whose slot is
gone by then, or have none to lose.
-/

namespace Makar

open Function (update update_self update_of_ne)

namespace Keyboard

/-- **The flags are those the focused task asked for.** -/
def ModesFollowFocus (s : State) : Prop := ∀ f, s.focused = some f → s.modes = s.asked f

instance (s : State) : Decidable (ModesFollowFocus s) :=
  match h : s.focused with
  | none => .isTrue fun f hf => by rw [h] at hf; cases hf
  | some f =>
    decidable_of_iff (s.modes = s.asked f)
      ⟨fun he g hg => by rw [h] at hg; cases hg; exact he, fun hall => hall f h⟩

/-- Modes are set by the focused task, which has a slot; and whoever releases the
focused task is that task, or has no modes of its own saved. -/
def ModeOk (s : State) : Op → Prop
  | .setRaw c _ | .setScancode c _ => s.focused = some c ∧ ∃ i, (s.slots i).owner = some c
  | .release c t =>
    s.focused = some t → c = t ∨ ∀ i, (s.slots i).owner = some c → (s.slots i).modes = .cooked
  | _ => True

instance (s : State) (o : Op) : Decidable (ModeOk s o) :=
  match o with
  | .setRaw .. | .setScancode .. | .release .. => by unfold ModeOk; infer_instance
  | .setFocus _ | .route _ | .poll _ | .getcharEnter _ | .getcharTurn _ => .isTrue trivial

/-- **What holds along such a run.** The slot of a task keeps what it asked for, a
task without one asked for nothing, and the flags are cooked while nobody has the
focus. -/
structure ModeInv (s : State) : Prop where
  owned : Owned s
  free : ∀ i, (s.slots i).owner = none → (s.slots i).modes = .cooked
  saved : ∀ i t, (s.slots i).owner = some t → (s.slots i).modes = s.asked t
  slotless : ∀ t, (∀ i, (s.slots i).owner ≠ some t) → s.asked t = .cooked
  follow : ModesFollowFocus s
  idle : s.focused = none → s.modes = .cooked

/-- Two states that agree on everything about modes. -/
structure SameModes (s s' : State) : Prop where
  owner : ∀ i, (s'.slots i).owner = (s.slots i).owner
  slot : ∀ i, (s'.slots i).modes = (s.slots i).modes
  focused : s'.focused = s.focused
  modes : s'.modes = s.modes
  asked : s'.asked = s.asked

section Steps

variable {s s' : State} {i : SlotId} {t c : Task}

theorem ModeInv.congr (h : ModeInv s) (e : SameModes s s') : ModeInv s' where
  owned a b t ha hb := h.owned a b t (by rwa [← e.owner]) (by rwa [← e.owner])
  free i hi := by rw [e.slot]; exact h.free i (by rwa [← e.owner])
  saved i t hi := by rw [e.slot, e.asked]; exact h.saved i t (by rwa [← e.owner])
  slotless t ht := by rw [e.asked]; exact h.slotless t fun i => by rw [← e.owner]; exact ht i
  follow f hf := by rw [e.modes, e.asked]; exact h.follow f (by rwa [← e.focused])
  idle hf := by rw [e.modes]; exact h.idle (by rwa [← e.focused])

/-- Rings change without the modes. -/
theorem SameModes.setRing (s : State) (i : SlotId) (r : ByteRing kbSlotBuf Key) :
    SameModes s (s.setSlot i { s.slots i with ring := r }) := by
  refine ⟨fun j => ?_, fun j => ?_, rfl, rfl, rfl⟩ <;>
  · by_cases hj : j = i
    · simp [hj]
    · simp [hj]

theorem SameModes.kbRoute (s : State) (k : UInt8) : SameModes s (s.kbRoute k) := by
  rw [State.kbRoute]
  dsimp only
  split
  next i hi =>
    obtain ⟨h1, h2, h3, h4, h5⟩ := SameModes.setRing s i ((s.slots i).ring.push
      ⟨k, s.focused, s.routed.length⟩)
    split <;> exact ⟨h1, h2, h3, h4, h5⟩
  next => exact ⟨fun _ => rfl, fun _ => rfl, rfl, rfl, rfl⟩

theorem SameModes.take (s : State) (t : Task) (slot : Option SlotId) :
    SameModes s (s.take t slot).2 := by
  cases slot with
  | none =>
    rw [State.take]
    split <;> exact ⟨fun _ => rfl, fun _ => rfl, rfl, rfl, rfl⟩
  | some i =>
    rw [State.take]
    split
    next => exact ⟨fun _ => rfl, fun _ => rfl, rfl, rfl, rfl⟩
    next k r _ =>
      obtain ⟨h1, h2, h3, h4, h5⟩ := SameModes.setRing s i r
      exact ⟨h1, h2, h3, h4, h5⟩

/-- A task that claims a slot asked for nothing before; if it gets the focus with it,
nobody had it and the flags are cooked. -/
theorem ModeInv.slotRegister (h : ModeInv s) (t : Task) : ModeInv (s.slotRegister t).2 := by
  obtain ⟨i, -, heq⟩ | ⟨-, heq⟩ | ⟨i, hnone, hfree, heq⟩ := slotRegister_cases s t <;> rw [heq]
  · exact h
  · exact h
  · have hasked := h.slotless t hnone
    refine ⟨h.owned.setSlot fun u hu => ?_, fun j hj => ?_, fun j u hj => ?_, fun u hu => ?_,
      fun f hf => ?_, fun hf => ?_⟩
    · cases hu
      exact .inr hnone
    · by_cases hji : j = i
      · simp [hji]
      · simp only [setSlot_slots, update_of_ne hji] at hj ⊢
        exact h.free j hj
    · by_cases hji : j = i
      · subst hji
        simp only [setSlot_slots, update_self, Option.some.injEq] at hj ⊢
        rw [← hj]
        exact hasked.symm
      · simp only [setSlot_slots, update_of_ne hji] at hj ⊢
        exact h.saved j u hj
    · refine h.slotless u fun j hj => ?_
      have hji : j ≠ i := fun e => by rw [e, hfree] at hj; cases hj
      exact hu j (by simpa [hji] using hj)
    · by_cases hn : s.focused = none
      · simp only [hn, if_true, Option.some.injEq] at hf
        rw [← hf]
        exact (h.idle hn).trans hasked.symm
      · exact h.follow f (by simpa only [hn, if_false] using hf)
    · by_cases hn : s.focused = none
      · simp [hn] at hf
      · simp only [hn, if_false] at hf

/-- The focus is given with the modes the task's slot keeps. -/
theorem ModeInv.keyboardSetFocus (h : ModeInv s) (t : Option Task) :
    ModeInv (s.keyboardSetFocus t) := by
  rw [State.keyboardSetFocus, State.kbRestoreModeForTask]
  rw [slotLookup_focused]
  split
  next hnone =>
    have hn := slotLookup_eq_none.1 hnone
    refine ⟨h.owned, h.free, h.saved, h.slotless, fun f hf => ?_, fun _ => rfl⟩
    exact (h.slotless f fun i hi => hn i (hi.trans (Eq.symm hf))).symm
  next i hi =>
    have ho := slotLookup_owner hi
    refine ⟨h.owned, h.free, h.saved, h.slotless, fun f hf => ?_, fun hf => ?_⟩
    · exact h.saved i f (ho.trans hf)
    · exact h.free i (ho.trans hf)

/-- The focused task sets its modes: the flags, what its slot keeps, and what it asked
for. -/
theorem ModeInv.setModes (h : ModeInv s) (hf : s.focused = some c)
    (hi : (s.slots i).owner = some c) (m : Modes) :
    ModeInv { s.storeModes c m with asked := update s.asked c m } := by
  have e := storeModes_spec h.owned c m
  generalize s.storeModes c m = s' at e ⊢
  have hm : s'.modes = m := by rw [e.rest]
  have hfoc : s'.focused = some c := by rw [e.rest]; exact hf
  have hself : update s.asked c m c = m := update_self ..
  have hasked : ∀ u, u ≠ c → update s.asked c m u = s.asked u :=
    fun u hu => update_of_ne hu _ _
  refine ⟨e.owned h.owned, fun j hj => ?_, fun j u hj => ?_, fun u hu => ?_,
    fun f hff => ?_, fun hff => ?_⟩
  · have hj' := (e.owner j).symm.trans hj
    exact (e.slot j).trans ((if_neg (by rw [hj']; simp)).trans (h.free j hj'))
  · have hj' := (e.owner j).symm.trans hj
    refine (e.slot j).trans ?_
    by_cases huc : u = c
    · rw [huc] at hj' ⊢
      rw [if_pos hj']
      exact hself.symm
    · rw [if_neg (by rw [hj']; simpa using huc), h.saved j u hj']
      exact (hasked u huc).symm
  · have hn : ∀ j, (s.slots j).owner ≠ some u := fun j hj => hu j ((e.owner j).trans hj)
    exact (hasked u fun huc => hn i (huc ▸ hi)).trans (h.slotless u hn)
  · cases hfoc.symm.trans hff
    exact hm.trans hself.symm
  · cases hfoc.symm.trans hff

/-- The released task's slot is free and what it asked for forgotten. -/
theorem ModeInv.dropTask (h : ModeInv s) (t : Task) :
    (∀ i, ((s.dropTask t).slots i).owner ≠ some t) ∧
    ModeInv { s.dropTask t with modes := if s.focused = some t then .cooked else s.modes } := by
  have hfocus : ∀ f, (if s.focused = some t then none else s.focused) = some f →
      f ≠ t ∧ s.focused = some f := by
    intro f hf
    split at hf
    next => cases hf
    next hne => exact ⟨fun e => hne (e ▸ hf), hf⟩
  have hfollow : ∀ f, (if s.focused = some t then none else s.focused) = some f →
      (if s.focused = some t then Modes.cooked else s.modes)
        = update s.asked t .cooked f := by
    intro f hf
    obtain ⟨hft, hff⟩ := hfocus f hf
    rw [update_of_ne hft, if_neg (by rw [hff]; simpa using hft)]
    exact h.follow f hff
  have hidle : (if s.focused = some t then none else s.focused) = none →
      (if s.focused = some t then Modes.cooked else s.modes) = .cooked := by
    intro hf
    split
    next => rfl
    next hne => exact h.idle (by simpa [hne] using hf)
  have hasked : ∀ u, (u ≠ t → s.asked u = .cooked) →
      update s.asked t .cooked u = Modes.cooked := by
    intro u hu
    by_cases hut : u = t
    · rw [hut, update_self]
    · rw [update_of_ne hut, hu hut]
  rw [State.dropTask, State.freeSlot]
  dsimp only
  rw [slotLookup_focused]
  split
  next hnone =>
    have hn := slotLookup_eq_none.1 hnone
    refine ⟨hn, h.owned, h.free, fun i u hi => ?_, fun u hu => ?_, hfollow, hidle⟩
    · have hut : u ≠ t := fun e => hn i (e ▸ hi)
      show _ = update s.asked t .cooked u
      rw [update_of_ne hut]
      exact h.saved i u hi
    · exact hasked u fun _ => h.slotless u hu
  next i hsome =>
    have hi := slotLookup_owner hsome
    have hne : ∀ j u, (if j = i then none else (s.slots j).owner) = some u →
        j ≠ i ∧ u ≠ t ∧ (s.slots j).owner = some u := by
      intro j u hj
      split at hj
      next => cases hj
      next hji => exact ⟨hji, fun e => hji (h.owned j i t (e ▸ hj) hi), hj⟩
    have howner : ∀ j, ((update s.slots i
        ⟨none, (s.slots i).ring.clear, .cooked⟩) j).owner
          = if j = i then none else (s.slots j).owner := by
      intro j
      rw [Function.update_apply]
      split <;> rfl
    refine ⟨fun j hj => ?_, h.owned.setSlot (fun u hu => by cases hu), fun j hj => ?_,
      fun j u hj => ?_, fun u hu => ?_, hfollow, hidle⟩
    · exact (hne j t ((howner j).symm.trans hj)).2.1 rfl
    · by_cases hji : j = i
      · simp [hji]
      · simp only [setSlot_slots, update_of_ne hji] at hj ⊢
        exact h.free j hj
    · obtain ⟨hji, hut, hju⟩ := hne j u ((howner j).symm.trans hj)
      show (update s.slots i _ j).modes = update s.asked t .cooked u
      rw [update_of_ne hji, update_of_ne hut]
      exact h.saved j u hju
    · refine hasked u fun hut => h.slotless u fun j hj => hu j ?_
      have hji : j ≠ i := fun e => hut (Option.some.inj ((e ▸ hj).symm.trans hi))
      show (update s.slots i _ j).owner = some u
      rw [update_of_ne hji, hj]

/-- The two calls at the end of a release leave cooked flags, and cooked modes in the
caller's slot. -/
theorem SameModes.cookFor (hs : Owned s)
    (hc : ∀ i, (s.slots i).owner = some c → (s.slots i).modes = .cooked) :
    SameModes { s with modes := .cooked }
      ((s.keyboardSetScancode c false).keyboardSetRaw c false) := by
  rw [State.keyboardSetScancode, State.keyboardSetRaw]
  have e := storeModes_spec hs c ⟨s.modes.raw, false⟩
  generalize s.storeModes c ⟨s.modes.raw, false⟩ = s' at e
  have e' := storeModes_spec (e.owned hs) c ⟨false, s'.modes.scancode⟩
  have hm : s'.modes = ⟨s.modes.raw, false⟩ := by rw [e.rest]
  rw [hm] at e' ⊢
  generalize s'.storeModes c ⟨false, false⟩ = s'' at e'
  refine ⟨fun j => ?_, fun j => ?_, ?_, ?_, ?_⟩
  · rw [e'.owner, e.owner]
  · rw [e'.slot, e.owner, e.slot]
    split
    next h => exact (hc j h).symm
    next => rfl
  · rw [e'.rest, e.rest]
  · rw [e'.rest]
    rfl
  · rw [e'.rest, e.rest]

/-- Releasing a task. -/
theorem ModeInv.keyboardReleaseTask (h : ModeInv s) (hok : ModeOk s (.release c t)) :
    ModeInv (s.keyboardReleaseTask c t) := by
  obtain ⟨hnone, hinv⟩ := h.dropTask t
  have hmodes : (s.dropTask t).modes = s.modes := by
    rw [State.dropTask, State.freeSlot]
    dsimp only
    split <;> rfl
  rw [State.keyboardReleaseTask]
  split
  next hf =>
    rw [if_pos hf] at hinv
    refine hinv.congr (SameModes.cookFor (s := s.dropTask t) hinv.owned fun i hi => ?_)
    -- The caller is the released task, which has no slot now, or its slot was cooked.
    rcases hok hf with rfl | hcooked
    · exact absurd hi (hnone i)
    · have hct : c ≠ t := fun e => hnone i (e ▸ hi)
      have hcook : s.asked c = .cooked := by
        cases hl : s.slotLookup (some c) with
        | none => exact h.slotless c (slotLookup_eq_none.1 hl)
        | some j =>
          have hj := slotLookup_owner hl
          exact (h.saved j c hj).symm.trans (hcooked j hj)
      exact (hinv.saved i c hi).trans ((update_of_ne hct _ _).trans hcook)
  next hf =>
    rw [if_neg hf, ← hmodes] at hinv
    exact hinv

/-- **One step of a run keeps it.** -/
theorem ModeInv.step (h : ModeInv s) {o : Op} (hok : ModeOk s o) : ModeInv (step s o) := by
  cases o with
  | setFocus t => exact h.keyboardSetFocus t
  | setRaw c on =>
    obtain ⟨hf, i, hi⟩ := hok
    have hset := h.setModes hf hi ⟨on, s.modes.scancode⟩
    rwa [Keyboard.step, State.keyboardSetRaw, ← h.follow c hf]
  | setScancode c on =>
    obtain ⟨hf, i, hi⟩ := hok
    have hset := h.setModes hf hi ⟨s.modes.raw, on⟩
    rwa [Keyboard.step, State.keyboardSetScancode, ← h.follow c hf]
  | release c t => exact h.keyboardReleaseTask hok
  | route k => exact h.congr (.kbRoute s k)
  | poll t => exact (h.slotRegister t).congr (.take _ t _)
  | getcharEnter t => exact (h.slotRegister t).congr ⟨fun _ => rfl, fun _ => rfl, rfl, rfl, rfl⟩
  | getcharTurn t =>
    show ModeInv (s.getcharTurn t).2
    rw [State.getcharTurn]
    split
    next => exact h
    next slot _ =>
      have htake := h.congr (.take s t slot)
      split
      next he => rwa [he] at htake
      next he =>
        rw [he] at htake
        exact htake.congr ⟨fun _ => rfl, fun _ => rfl, rfl, rfl, rfl⟩

end Steps

theorem ModeInv.init : ModeInv .init where
  owned _ _ _ h := nomatch h
  free _ _ := rfl
  saved _ _ h := nomatch h
  slotless _ _ := rfl
  follow _ h := nomatch h
  idle _ := rfl

/-- **Modes follow the focus.** In every state reached by steps that meet the
condition, the flags are those the focused task asked for. -/
theorem modes_of_focused (ops : List Op) (h : Meets ModeOk step .init ops) :
    ModesFollowFocus (run ops) :=
  (Meets.invariant (fun _ _ hs => hs.step) ModeInv.init h).follow

/-- Two tasks register, the one with the focus asks for raw keys, and the focus goes to
the other and back. -/
def sessionSwitch : List Op :=
  [.poll 1, .poll 2, .setRaw 1 true, .setFocus (some 2), .setFocus (some 1)]

theorem modes_of_focused_switch :
    Meets ModeOk step .init sessionSwitch ∧ ModesFollowFocus (run sessionSwitch)
      ∧ (run sessionSwitch).modes.raw = true :=
  ⟨by decide, modes_of_focused _ (by decide), by decide⟩

/-- **A task without the focus changes the flags under the one that has it.** The first
task has the focus and asked for nothing; the second sets raw mode. -/
theorem modes_of_background :
    (run [.poll 1, .poll 2, .setRaw 2 true]).focused = some 1
      ∧ ¬ ModesFollowFocus (run [.poll 1, .poll 2, .setRaw 2 true]) := by
  decide

end Keyboard

end Makar
