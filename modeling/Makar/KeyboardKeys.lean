import Makar.Keyboard

/-!
# Keys reach the task they were typed at

A byte that is routed while a task has the focus is for that task alone: only it may
read it, in the order of routing and once, and the byte is lost only when the task's
ring is full or the task is released. This holds along every run in which the focused
task has a slot whenever a byte is routed (`keys_isolated`).

A focused task without one is a matter of the table's size, which is smaller than the
number of tasks, or of a task that has the focus before its first read. Its bytes go
to the global ring, where any other task without a slot reads them, and where it does
not look itself once it has a slot (`key_read_by_other`).
-/

namespace Makar

open List
open Function (update update_self update_of_ne)

namespace Keyboard

/-- The bytes routed while the task had the focus. -/
def routedTo (s : State) (t : Task) : List Key := s.routed.filter fun k => k.focus = some t

/-- Those of them that were returned to the task, in the order of its reads. -/
def returnedTo (s : State) (t : Task) : List Key :=
  s.returned.filterMap fun r => if r.1 = t ∧ r.2.focus = some t then some r.2 else none

/-- **Every byte is for the task that had the focus.** -/
structure Isolated (s : State) : Prop where
  /-- It is returned to no other task. -/
  only : ∀ r ∈ s.returned, ∀ f, r.2.focus = some f → r.1 = f
  /-- What the task read and can still read are bytes routed to it, in that order. -/
  order : ∀ f, (returnedTo s f ++ pending s f).Sublist (routedTo s f)
  /-- Routed bytes are told apart by their numbers, so none is read twice. -/
  once : (s.routed.map Key.serial).Nodup
  /-- A byte that is not there any more was dropped at a full ring or by a release. -/
  kept : ∀ f, ∀ k ∈ routedTo s f,
    k ∈ returnedTo s f ∨ k ∈ pending s f ∨ k ∈ s.full ∨ k ∈ s.released

/-- If a task has the focus when a byte is routed, it owns a slot. -/
def RouteOk (s : State) : Op → Prop
  | .route _ => ∀ f ∈ s.focused, ∃ i, (s.slots i).owner = some f
  | _ => True

instance (s : State) (o : Op) : Decidable (RouteOk s o) := by
  cases o <;> unfold RouteOk <;> infer_instance

/-- **What holds along such a run.** A slot's ring holds bytes for its owner, the global
ring bytes for nobody, and a task that waits on a slot owns it. -/
structure KeyInv (s : State) : Prop extends Isolated s where
  owned : Owned s
  ring : ∀ i t, (s.slots i).owner = some t → ∀ k ∈ (s.slots i).ring.contents, k.focus = some t
  buf : ∀ k ∈ s.buf.contents, k.focus = none
  wait : ∀ t i, s.waiting t = some (some i) → (s.slots i).owner = some t
  serial : ∀ k ∈ s.routed, k.serial < s.routed.length

section Steps

variable {s s' : State} {i j : SlotId} {t u c : Task} {k : Key} {x : Slot}

section

variable (h : KeyInv s)
include h

/-- Modes and focus are of no concern. -/
theorem KeyInv.congr (howner : ∀ i, (s'.slots i).owner = (s.slots i).owner)
    (hring : ∀ i, (s'.slots i).ring = (s.slots i).ring) {m : Modes} {f : Option Task}
    {a : Task → Modes}
    (hrest : s' = { s with slots := s'.slots, modes := m, focused := f, asked := a }) :
    KeyInv s' := by
  have hown : Owned s' := fun i j t hi hj =>
    h.owned i j t (by rwa [← howner]) (by rwa [← howner])
  have hpend : ∀ t, pending s' t = pending s t := by
    intro t
    cases hl : s.slotLookup (some t) with
    | none =>
      have hn := slotLookup_eq_none.1 hl
      rw [pending_of_slotless hn, pending_of_slotless fun i => by rw [howner]; exact hn i]
    | some i =>
      have hi := slotLookup_owner hl
      rw [pending_of_owner h.owned hi, pending_of_owner hown (by rwa [howner]), hring]
  have hrouted : s'.routed = s.routed := by rw [hrest]
  have hreturned : s'.returned = s.returned := by rw [hrest]
  have hfull : s'.full = s.full := by rw [hrest]
  have hreleased : s'.released = s.released := by rw [hrest]
  have hbuf : s'.buf = s.buf := by rw [hrest]
  have hwait : s'.waiting = s.waiting := by rw [hrest]
  refine ⟨⟨?_, fun f => ?_, ?_, fun f => ?_⟩, hown, fun i t hi => ?_, ?_, fun t i hw => ?_, ?_⟩
  · rw [hreturned]; exact h.only
  · rw [hpend, returnedTo, routedTo, hreturned, hrouted]; exact h.order f
  · rw [hrouted]; exact h.once
  · rw [hpend, returnedTo, routedTo, hreturned, hrouted, hfull, hreleased]; exact h.kept f
  · rw [hring]; exact h.ring i t (by rwa [← howner])
  · rw [hbuf]; exact h.buf
  · rw [howner]; exact h.wait t i (by rwa [← hwait])
  · rw [hrouted]; exact h.serial

theorem KeyInv.storeModes (c : Task) (m : Modes) : KeyInv (s.storeModes c m) :=
  have e := storeModes_spec h.owned c m
  h.congr e.owner e.ring e.rest

theorem KeyInv.keyboardSetFocus (t : Option Task) : KeyInv (s.keyboardSetFocus t) := by
  rw [State.keyboardSetFocus, State.kbRestoreModeForTask]
  split <;> exact h.congr (fun _ => rfl) (fun _ => rfl) rfl

/-- A task turns to what it may wait on. -/
theorem KeyInv.setWaiting {w : Option (Option SlotId)}
    (hw : ∀ i, w = some (some i) → (s.slots i).owner = some t) :
    KeyInv { s with waiting := update s.waiting t w } := by
  refine ⟨⟨h.only, h.order, h.once, h.kept⟩, h.owned, h.ring, h.buf, fun u j hu => ?_, h.serial⟩
  change update s.waiting t w u = _ at hu
  rcases eq_or_ne u t with rfl | hut
  · exact hw j (by rwa [update_self] at hu)
  · exact h.wait u j (by rwa [update_of_ne hut] at hu)

theorem KeyInv.ring_setSlot
    (hx : ∀ u, x.owner = some u → ∀ k ∈ x.ring.contents, k.focus = some u)
    (hj : (update s.slots i x j).owner = some u) :
    ∀ k ∈ (update s.slots i x j).ring.contents, k.focus = some u := by
  rcases eq_or_ne j i with rfl | hji
  · rw [update_self] at hj ⊢
    exact hx u hj
  · rw [update_of_ne hji] at hj ⊢
    exact h.ring j u hj

theorem KeyInv.wait_setSlot (hw : s.waiting u = some (some j))
    (hx : (s.slots i).owner = some u → x.owner = some u) :
    (update s.slots i x j).owner = some u := by
  have hj := h.wait u j hw
  rcases eq_or_ne j i with rfl | hji
  · rw [update_self]
    exact hx hj
  · rwa [update_of_ne hji]

/-- A claimed slot starts with an empty ring, as the task had none before. -/
theorem KeyInv.slotRegister (t : Task) :
    KeyInv (s.slotRegister t).2 ∧
    ∀ i, (s.slotRegister t).1 = some i → ((s.slotRegister t).2.slots i).owner = some t := by
  obtain ⟨i, hi, heq⟩ | ⟨-, heq⟩ | ⟨i, hnone, hfree, heq⟩ := slotRegister_cases s t <;> rw [heq]
  · exact ⟨h, fun j hj => by cases hj; exact hi⟩
  · exact ⟨h, fun j hj => by cases hj⟩
  · have hown : Owned (s.setSlot i ⟨some t, (s.slots i).ring.clear, .cooked⟩) :=
      h.owned.setSlot fun u hu => by cases hu; exact .inr hnone
    have hpend : ∀ u, pending (s.setSlot i ⟨some t, (s.slots i).ring.clear, .cooked⟩) u
        = pending s u := by
      intro u
      rw [pending_setSlot h.owned hown, hfree]
      split
      next hu => cases hu; rw [pending_of_slotless hnone, ByteRing.contents_clear]
      next => rw [if_neg (by simp)]
    have hinv : KeyInv (s.setSlot i ⟨some t, (s.slots i).ring.clear, .cooked⟩) := by
      refine ⟨⟨h.only, fun f => ?_, h.once, fun f => ?_⟩, hown,
        fun j u => h.ring_setSlot (by simp), h.buf,
        fun u j hw => h.wait_setSlot hw (by simp [hfree]), h.serial⟩
      · rw [hpend]; exact h.order f
      · rw [hpend]; exact h.kept f
    exact ⟨hinv.congr (fun _ => rfl) (fun _ => rfl) rfl, fun j hj => by cases hj; simp⟩

/-- Releasing a task drops what its ring holds. -/
theorem KeyInv.dropTask (t : Task) : KeyInv (s.dropTask t) := by
  rw [State.dropTask, State.freeSlot]
  dsimp only
  rw [slotLookup_focused]
  have hno := h.setWaiting (t := t) (w := none) nofun
  split
  next => exact hno.congr (fun _ => rfl) (fun _ => rfl) rfl
  next i hsome =>
    have hi := slotLookup_owner hsome
    have hown : Owned (s.setSlot i ⟨none, (s.slots i).ring.clear, .cooked⟩) :=
      h.owned.setSlot fun u hu => by cases hu
    have hpend : ∀ u, pending (s.setSlot i ⟨none, (s.slots i).ring.clear, .cooked⟩) u
        = if u = t then [] else pending s u := by
      intro u
      rw [pending_setSlot h.owned hown, if_neg (by simp), hi]
      simp only [Option.some.injEq, eq_comm]
    refine ⟨⟨h.only, fun f => ?_, h.once, fun f k hk => ?_⟩, hown,
      fun j u => h.ring_setSlot nofun, h.buf, fun u j hu => hno.wait_setSlot hu fun hut => ?_,
      h.serial⟩
    · refine List.Sublist.trans (List.Sublist.append (List.Sublist.refl _) ?_) (h.order f)
      show (pending (s.setSlot i _) f).Sublist _
      rw [hpend]
      split
      · exact nil_sublist _
      · exact List.Sublist.refl _
    · show _ ∨ k ∈ pending (s.setSlot i _) f ∨ k ∈ s.full
        ∨ k ∈ s.released ++ (s.slots i).ring.contents
      rw [hpend, mem_append]
      rcases h.kept f k hk with hk | hk | hk | hk
      · exact .inl hk
      · by_cases hft : f = t
        · rw [hft, pending_of_owner h.owned hi] at hk
          exact .inr (.inr (.inr (.inr hk)))
        · rw [if_neg hft]
          exact .inr (.inl hk)
      · exact .inr (.inr (.inl hk))
      · exact .inr (.inr (.inr (.inl hk)))
    · -- The owner of the slot waits no more.
      cases hi.symm.trans hut
      change update s.waiting t none t = _ at hu
      rw [update_self] at hu
      cases hu

end

/-- The record of a byte routed for a focus. -/
theorem routedTo_append (s : State) (k : Key) (t : Task) :
    routedTo { s with routed := s.routed ++ [k] } t
      = routedTo s t ++ if k.focus = some t then [k] else [] := by
  rw [routedTo, filter_append, routedTo]
  congr 1
  by_cases hk : k.focus = some t <;> simp [hk]

/-- The record of a byte returned. -/
theorem returnedTo_append (s : State) (u : Task) (k : Key) (t : Task) :
    returnedTo { s with returned := s.returned ++ [(u, k)] } t
      = returnedTo s t ++ if u = t ∧ k.focus = some t then [k] else [] := by
  rw [returnedTo, filterMap_append, returnedTo]
  congr 1
  by_cases hk : u = t ∧ k.focus = some t <;> simp [hk]

section

variable (h : KeyInv s) (hk : k.serial = s.routed.length)
include h hk

/-- A byte that is routed has a number of its own. -/
theorem KeyInv.serials :
    ((s.routed ++ [k]).map Key.serial).Nodup ∧
    ∀ x ∈ s.routed ++ [k], x.serial < (s.routed ++ [k]).length := by
  constructor
  · rw [map_append, nodup_append]
    refine ⟨h.once, nodup_singleton _, fun a ha b hb => ?_⟩
    obtain ⟨x, hx, rfl⟩ := mem_map.1 ha
    have hlt := h.serial x hx
    simp only [map_cons, map_nil, mem_singleton] at hb
    omega
  · intro x hx
    rw [length_append, length_singleton]
    rcases mem_append.1 hx with hx | hx
    · have := h.serial x hx
      omega
    · rw [mem_singleton.1 hx, hk]
      omega

/-- A byte that nobody has the focus for goes to the global ring. -/
theorem KeyInv.pushBuf (hf : k.focus = none) :
    KeyInv { s with routed := s.routed ++ [k], buf := s.buf.push k } := by
  obtain ⟨honce, hserial⟩ := h.serials hk
  have hrouted : ∀ f, routedTo { s with routed := s.routed ++ [k] } f = routedTo s f := by
    intro f
    rw [routedTo_append, hf, if_neg (by simp), append_nil]
  refine ⟨⟨h.only, fun f => ?_, honce, fun f x hx => ?_⟩, h.owned, h.ring, fun x hx => ?_, h.wait,
    hserial⟩
  · show List.Sublist _ (routedTo { s with routed := s.routed ++ [k] } f)
    rw [hrouted]
    exact h.order f
  · exact h.kept f x (hrouted f ▸ hx)
  · by_cases hfull : s.buf.full
    · rw [ByteRing.push_of_full hfull] at hx
      exact h.buf x hx
    · rw [ByteRing.contents_push (by decide) (by simpa using hfull), mem_append,
        mem_singleton] at hx
      rcases hx with hx | rfl
      · exact h.buf x hx
      · exact hf

/-- A byte for the owner of a slot goes to the slot's ring. -/
theorem KeyInv.pushSlot (hf : k.focus = some t) (hi : (s.slots i).owner = some t) :
    KeyInv ({ s with
      routed := s.routed ++ [k]
      full := if (s.slots i).ring.full then s.full ++ [k] else s.full }.setSlot i
        { s.slots i with ring := (s.slots i).ring.push k }) := by
  obtain ⟨honce, hserial⟩ := h.serials hk
  set x : Slot := { s.slots i with ring := (s.slots i).ring.push k } with hx
  have hown : Owned (s.setSlot i x) := h.owned.setSlot fun u hu => .inl hu
  have hpend : ∀ u, pending (s.setSlot i x) u
      = pending s u ++ if u = t ∧ (s.slots i).ring.full = false then [k] else [] := by
    intro u
    rw [pending_setSlot h.owned hown, hx, hi]
    by_cases hu : u = t
    · subst hu
      rw [if_pos rfl, pending_of_owner h.owned hi]
      cases hfull : (s.slots i).ring.full with
      | true => simp [ByteRing.push_of_full hfull]
      | false => simp [ByteRing.contents_push (by decide) hfull]
    · have : some t ≠ some u := fun e => hu (Option.some.inj e).symm
      simp [hu, this]
  have hrouted : ∀ u, routedTo { s with routed := s.routed ++ [k] } u
      = routedTo s u ++ if u = t then [k] else [] := by
    intro u
    rw [routedTo_append, hf]
    simp only [Option.some.injEq, eq_comm]
  refine ⟨⟨h.only, fun f => ?_, honce, fun f y hy => ?_⟩, hown,
    fun j u => h.ring_setSlot fun u hu y hy => ?_, h.buf, fun u j hw => h.wait_setSlot hw id,
    hserial⟩
  · show List.Sublist (returnedTo s f ++ pending (s.setSlot i x) f)
      (routedTo { s with routed := s.routed ++ [k] } f)
    rw [hpend, hrouted, ← append_assoc]
    refine (h.order f).append ?_
    by_cases hft : f = t
    · split
      · simp
      · exact nil_sublist _
    · simp [hft]
  · show _ ∨ y ∈ pending (s.setSlot i x) f ∨ _
    change y ∈ routedTo { s with routed := s.routed ++ [k] } f at hy
    rw [hrouted, mem_append] at hy
    rw [hpend]
    have hfull : ∀ y ∈ s.full, y ∈ if (s.slots i).ring.full then s.full ++ [k] else s.full := by
      intro y hy
      split
      · exact mem_append_left _ hy
      · exact hy
    rcases hy with hy | hy
    · rcases h.kept f y hy with hy | hy | hy | hy
      · exact .inl hy
      · exact .inr (.inl (mem_append_left _ hy))
      · exact .inr (.inr (.inl (hfull y hy)))
      · exact .inr (.inr (.inr hy))
    · -- The new byte is in the ring, unless that is full.
      split at hy
      next hft =>
        rw [mem_singleton] at hy
        cases hr : (s.slots i).ring.full with
        | true => exact .inr (.inr (.inl (by simp [State.setSlot, hy])))
        | false => exact .inr (.inl (by simp [hft, hy]))
      next => cases hy
  · cases hi.symm.trans hu
    have hy' : y ∈ (s.slots i).ring.contents ∨ y = k := by
      change y ∈ ((s.slots i).ring.push k).contents at hy
      cases hr : (s.slots i).ring.full with
      | true => exact .inl (by rwa [ByteRing.push_of_full hr] at hy)
      | false =>
        rw [ByteRing.contents_push (by decide) hr] at hy
        simpa using hy
    rcases hy' with hy | rfl
    · exact h.ring i t hi y hy
    · exact hf

end

/-- Routing a byte, with a slot for the focused task. -/
theorem KeyInv.kbRoute (h : KeyInv s) {c : UInt8} (hok : RouteOk s (.route c)) :
    KeyInv (s.kbRoute c) := by
  have hslot : ∀ r, ({ s with routed := r } : State).routeSlot = s.routeSlot := fun _ => rfl
  rw [State.kbRoute]
  dsimp only
  rw [hslot]
  cases hf : s.routeSlot with
  | none =>
    refine h.pushBuf rfl ?_
    cases hfoc : s.focused with
    | none => rfl
    | some f =>
      obtain ⟨i, hi⟩ := hok f hfoc
      rw [State.routeSlot, hfoc] at hf
      exact absurd hi (slotLookup_eq_none.1 hf i)
  | some i =>
    obtain ⟨f, hfoc, hi⟩ : ∃ f, s.focused = some f ∧ (s.slots i).owner = some f := by
      rw [State.routeSlot] at hf
      split at hf
      next => cases hf
      next f hfoc => exact ⟨f, hfoc, slotLookup_owner hf⟩
    have hpush := h.pushSlot (k := ⟨c, s.focused, s.routed.length⟩) rfl hfoc hi
    dsimp only
    split
    next hr => rwa [if_pos hr] at hpush
    next hr => rwa [if_neg hr] at hpush

/-- Taking a byte for a task from the slot it owns, or from the global ring. -/
theorem KeyInv.take (h : KeyInv s) {slot : Option SlotId}
    (hslot : ∀ i, slot = some i → (s.slots i).owner = some t) : KeyInv (s.take t slot).2 := by
  cases slot with
  | none =>
    rw [State.take]
    split
    next => exact h
    next k r hpop =>
      have hc := ByteRing.contents_pop hpop
      have hk : k.focus = none := h.buf k (by rw [hc]; exact mem_cons_self)
      have hret : ∀ f, returnedTo { s with returned := s.returned ++ [(t, k)] } f
          = returnedTo s f := by
        intro f
        rw [returnedTo_append, hk, if_neg (by simp), append_nil]
      refine ⟨⟨fun p hp f hpf => ?_, fun f => ?_, h.once, fun f y hy => ?_⟩, h.owned, h.ring,
        fun y hy => h.buf y (by rw [hc]; exact mem_cons_of_mem _ hy), h.wait, h.serial⟩
      · rcases mem_append.1 hp with hp | hp
        · exact h.only p hp f hpf
        · rw [mem_singleton.1 hp, hk] at hpf
          cases hpf
      · exact (hret f).symm ▸ h.order f
      · exact (hret f).symm ▸ h.kept f y hy
  | some i =>
    have hi := hslot i rfl
    rw [State.take]
    split
    next => exact h
    next k r hpop =>
      have hc := ByteRing.contents_pop hpop
      have hk : k.focus = some t := h.ring i t hi k (by rw [hc]; exact mem_cons_self)
      set x : Slot := { s.slots i with ring := r } with hx
      have hown : Owned (s.setSlot i x) := h.owned.setSlot fun u hu => .inl hu
      -- What was read and what can be read are together the same as before.
      have hboth : ∀ f, returnedTo { s with returned := s.returned ++ [(t, k)] } f
            ++ pending (s.setSlot i x) f = returnedTo s f ++ pending s f := by
        intro f
        rw [returnedTo_append, pending_setSlot h.owned hown, hx, hi, hk]
        by_cases hft : f = t
        · subst hft
          rw [pending_of_owner h.owned hi, hc]
          simp
        · have : t ≠ f := fun e => hft e.symm
          simp [this]
      refine ⟨⟨fun p hp f hpf => ?_, fun f => ?_, h.once, fun f y hy => ?_⟩, hown,
        fun j u => h.ring_setSlot fun u hu y hy => h.ring i u hu y ?_, h.buf,
        fun u j hw => h.wait_setSlot hw id, h.serial⟩
      · rcases mem_append.1 hp with hp | hp
        · exact h.only p hp f hpf
        · rw [mem_singleton.1 hp] at hpf ⊢
          exact Option.some.inj (hk.symm.trans hpf)
      · exact (hboth f).symm ▸ h.order f
      · have hmem : y ∈ returnedTo s f ++ pending s f ∨ y ∈ s.full ∨ y ∈ s.released := by
          rcases h.kept f y hy with hy | hy | hy
          · exact .inl (mem_append_left _ hy)
          · exact .inl (mem_append_right _ hy)
          · exact .inr hy
        rw [← hboth, mem_append, or_assoc] at hmem
        exact hmem
      · rw [hc]
        exact mem_cons_of_mem _ hy

/-- **One step of a run keeps it.** -/
theorem KeyInv.step (h : KeyInv s) {o : Op} (hok : RouteOk s o) : KeyInv (step s o) := by
  cases o with
  | setFocus t => exact h.keyboardSetFocus t
  | setRaw c on => exact (h.storeModes c _).congr (fun _ => rfl) (fun _ => rfl) rfl
  | setScancode c on => exact (h.storeModes c _).congr (fun _ => rfl) (fun _ => rfl) rfl
  | release c t =>
    show KeyInv (s.keyboardReleaseTask c t)
    rw [State.keyboardReleaseTask]
    split
    · exact ((h.dropTask t).storeModes c _).storeModes c _
    · exact h.dropTask t
  | route c => exact h.kbRoute hok
  | poll t =>
    obtain ⟨hreg, hown⟩ := h.slotRegister t
    exact hreg.take hown
  | getcharEnter t =>
    obtain ⟨hreg, hown⟩ := h.slotRegister t
    exact hreg.setWaiting fun i hi => hown i (Option.some.inj hi)
  | getcharTurn t =>
    show KeyInv (s.getcharTurn t).2
    rw [State.getcharTurn]
    split
    next => exact h
    next slot hw =>
      have htake : KeyInv (s.take t slot).2 := h.take fun i hi => h.wait t i (hi ▸ hw)
      split
      next he => rwa [he] at htake
      next k s' he =>
        rw [he] at htake
        exact htake.setWaiting nofun

end Steps

theorem KeyInv.init : KeyInv .init where
  only _ h := nomatch h
  order _ := List.Sublist.refl _
  once := nodup_nil
  kept _ _ h := nomatch h
  owned _ _ _ h := nomatch h
  ring _ _ h := nomatch h
  buf _ h := nomatch h
  wait _ _ h := nomatch h
  serial _ h := nomatch h

/-- **Keys reach the task they were typed at.** In every state reached by a run in
which the focused task has a slot whenever a byte is routed. -/
theorem keys_isolated (ops : List Op) (h : Meets RouteOk step .init ops) : Isolated (run ops) :=
  (Meets.invariant (fun _ _ hs => hs.step) KeyInv.init h).toIsolated

/-- Two tasks take a slot, each gets a byte while it has the focus and one of them reads. -/
def twoReaders : List Op :=
  [.poll 1, .poll 2, .route 97, .setFocus (some 2), .route 98, .poll 1]

theorem keys_isolated_two_readers :
    Meets RouteOk step .init twoReaders ∧ Isolated (run twoReaders)
      ∧ returnedTo (run twoReaders) 1 = [⟨97, some 1, 0⟩] :=
  ⟨by decide, keys_isolated _ (by decide), by decide⟩

/-- Eight tasks take the slots. The focus goes to a ninth, a byte is routed, and a
tenth reads. -/
def tenTasks : List Op :=
  [.poll 0, .poll 1, .poll 2, .poll 3, .poll 4, .poll 5, .poll 6, .poll 7,
    .setFocus (some 8), .route 97, .poll 9]

/-- **A task without a slot is returned a byte typed at another.** -/
theorem key_read_by_other : ¬ Isolated (run tenTasks) := by
  intro h
  have hread : ((9, ⟨97, some 8, 0⟩) : Task × Key) ∈ (run tenTasks).returned := by decide
  exact absurd (h.only _ hread 8 rfl) (by decide)

end Keyboard

end Makar
