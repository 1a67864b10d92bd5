import Makar.MachineRun
import Mathlib

/-!
# The layout of a program

Three calls hand out addresses of a program. `SYS_BRK` moves the break up, and
`SYS_MMAP2` and `surface_map` take ranges one after the other from the window
between `USER_MMAP_BASE` and the stack. The window has a cursor, so the ranges are
disjoint as long as the cursor moves over each of them, and disjoint from the heap
as long as that stays below the window.

Neither is checked. `SYS_BRK` compares the new break only with the old one, and the
number of pages and the end of a range are computed in 32 bits: a length close to
`2 ^ 32` is no pages at all, so that the next call gets the same address, and a range
that wraps takes the cursor back (`layout_broken`). `layout_kept` is the law for the
calls that do neither.
-/

namespace Makar

open List Option

/-- The arguments, without `MAP_FIXED`. -/
def MmapArgs.floating (a : MmapArgs) : MmapArgs := { a with fixed := false }

/-- A call that hands out addresses. -/
inductive LayoutCall where
  /-- `SYS_BRK`. -/
  | brk (newBrk : UInt32)
  /-- `SYS_MMAP2`, without `MAP_FIXED`. -/
  | mmap2 (a : MmapArgs)
  /-- `surface_map`. -/
  | surfaceMap (k : ℕ)

/-- The machine, and the ranges that were handed out to one of its tasks: the first
address and the number of bytes, in the order of the calls. -/
structure Layout where
  /-- The machine. -/
  machine : Machine
  /-- The ranges. -/
  ranges : List (ℕ × ℕ)

/-- The addresses of a range. -/
def addresses (r : ℕ × ℕ) : Set ℕ := Set.Ico r.1 (r.1 + r.2)

/-! ## What the calls do to the layout -/

namespace Machine

/-- What a call leaves that takes a range of `pages` pages from the window of task `t`: it
returns that range or nothing, and the surfaces keep their frames. -/
structure Takes (t pages : ℕ) (m : Machine) (r : Option ℕ × Machine) : Prop where
  /-- The surfaces. -/
  phys : ∀ k, (r.2.surf k).phys = (m.surf k).phys
  /-- The task. -/
  task : r.1 = none ∧ r.2.tasks t = m.tasks t
    ∨ r.2.tasks t = ((m.tasks t).reserve pages).2
      ∧ ∀ base, r.1 = some base → ((m.tasks t).reserve pages).1 = some base

/-- A call that returns nothing and does nothing. -/
theorem Takes.nothing (t pages : ℕ) (m : Machine) : Takes t pages m (none, m) :=
  ⟨fun _ => rfl, .inl ⟨rfl, rfl⟩⟩

/-- **`SYS_MMAP2` without `MAP_FIXED`.** -/
theorem sysMmap2_takes (t : ℕ) (a : MmapArgs) (m : Machine) :
    Takes t a.pages m (m.sysMmap2 t a.floating) := by
  unfold sysMmap2
  cases (m.tasks t).pageDir with
  | none => exact Takes.nothing t a.pages m
  | some pd =>
    simp only
    by_cases hlen : a.floating.len.toNat = 0
    · rw [if_pos hlen]
      exact Takes.nothing t a.pages m
    · have hbase : m.mmapBase t a.floating
          = (((m.tasks t).reserve a.pages).1, m.setTask t ((m.tasks t).reserve a.pages).2) := rfl
      rw [if_neg hlen, hbase]
      rcases hreserve : (m.tasks t).reserve a.pages with ⟨_ | base, x⟩
      · exact ⟨fun _ => rfl, .inr ⟨by rw [hreserve]; exact setTask_self, fun _ h => nomatch h⟩⟩
      · -- the pages are mapped after the range has been taken
        have htakes : ∀ r : Option ℕ × Machine, SameTables (m.setTask t x) r.2 →
            (r.1 = none ∨ r.1 = some base) → Takes t a.pages m r := by
          intro r hsame hr
          refine ⟨fun k => by rw [hsame.surf]; rfl, .inr ⟨?_, fun b hb => ?_⟩⟩
          · rw [hsame.tasks, setTask_self, hreserve]
          · rcases hr with hr | hr
            · rw [hr] at hb
              cases hb
            · rw [hreserve, ← hb, hr]
        simp only
        split_ifs
        · exact htakes _ (SameTables.refl _) (.inr rfl)
        · exact htakes _ (SameTables.refl _) (.inl rfl)
        · have hloop := loop_invariant (P := SameTables (m.setTask t x))
            (List.range a.floating.pages)
            (fun m' i _ hm' => hm'.trans (mmapPage_same pd base a.floating m' i))
            (SameTables.refl (m.setTask t x))
          generalize loop (mmapPage pd base a.floating) (List.range a.floating.pages)
            (m.setTask t x) = r at hloop
          obtain ⟨_ | _, m'⟩ := r
          · exact htakes _ hloop (.inl rfl)
          · exact htakes _ hloop (.inr rfl)

/-- **`surface_map`.** -/
theorem surfaceMap_takes (k t : ℕ) (m : Machine) :
    Takes t (m.surf k).phys.length m (m.surfaceMap k t) := by
  unfold surfaceMap
  cases (m.tasks t).pageDir with
  | none => exact Takes.nothing t _ m
  | some pd =>
    simp only
    split_ifs
    · exact Takes.nothing t _ m
    · exact Takes.nothing t _ m
    · rcases hreserve : (m.tasks t).reserve (m.surf k).phys.length with ⟨_ | base, x⟩
      · exact ⟨fun _ => rfl, .inr ⟨by rw [hreserve]; exact setTask_self, fun _ h => nomatch h⟩⟩
      · simp only
        cases fillSlot ⟨t, base⟩ (m.surf k).map with
        | none => exact Takes.nothing t _ m
        | some map =>
          refine ⟨fun k' => setSurf_phys (s := { m.surf k with map := map }) rfl k', .inr ⟨?_, fun b hb => ?_⟩⟩
          · rw [hreserve]
            exact setTask_self
          · rw [hreserve]
            exact hb

end Machine

/-- The cursor of the window of a task: the start of the window until it is used. -/
def Task.cursor (x : Task) : ℕ := if x.mmapNext = 0 then userMmapBase else x.mmapNext

/-- The cursor that is stored is never ahead of the one that is used. -/
theorem Task.mmapNext_le_cursor (x : Task) : x.mmapNext ≤ x.cursor := by
  unfold cursor
  split_ifs with h
  · omega
  · exact le_rfl

/-- **A range that does not wrap** is taken at the cursor, which moves behind it; there is
no range when it would reach the stack, and the cursor stays. -/
theorem Task.reserve_spec {x : Task} {pages : ℕ}
    (hfit : x.cursor + pages * pmmFrameSize < 2 ^ 32) :
    (x.reserve pages).2.userBrk = x.userBrk
      ∧ (x.reserve pages).2.mmapNext = (x.reserve pages).2.cursor
      ∧ ((x.reserve pages).1 = none ∧ (x.reserve pages).2.cursor = x.cursor
        ∨ (x.reserve pages).1 = some x.cursor
          ∧ (x.reserve pages).2.cursor = x.cursor + pages * pmmFrameSize
          ∧ x.cursor + pages * pmmFrameSize < userStackLimit) := by
  have hnext : (if x.mmapNext = 0 then { x with mmapNext := userMmapBase } else x)
      = { x with mmapNext := x.cursor } := by
    unfold cursor
    split_ifs <;> rfl
  have hpos : x.cursor ≠ 0 := by
    unfold cursor
    split_ifs with h
    · decide
    · exact h
  have hcursor : ∀ n, n ≠ 0 → ({ x with mmapNext := n } : Task).cursor = n :=
    fun n hn => if_neg hn
  unfold reserve
  simp only [hnext, Nat.mod_eq_of_lt hfit]
  split_ifs with htop
  · exact ⟨rfl, (hcursor _ hpos).symm, .inl ⟨rfl, hcursor _ hpos⟩⟩
  · have hne : x.cursor + pages * pmmFrameSize ≠ 0 := by omega
    exact ⟨rfl, (hcursor _ hne).symm, .inr ⟨rfl, hcursor _ hne, by omega⟩⟩

namespace Layout

/-- The task. -/
def task (t : ℕ) (s : Layout) : Task := s.machine.tasks t

/-- A call by task `t`. A call that fails hands out nothing. -/
def step (t : ℕ) (s : Layout) : LayoutCall → Layout
  | .brk newBrk => { s with machine := s.machine.setTask t ((s.task t).sysBrk newBrk).2 }
  | .mmap2 a =>
    let r := s.machine.sysMmap2 t a.floating
    ⟨r.2, s.ranges ++ (r.1.map fun base => (base, a.len.toNat)).toList⟩
  | .surfaceMap k =>
    let r := s.machine.surfaceMap k t
    ⟨r.2, s.ranges
      ++ (r.1.map fun base => (base, (s.machine.surf k).phys.length * pmmFrameSize)).toList⟩

/-- The state after a sequence of calls. -/
def run (t : ℕ) (s : Layout) (cs : List LayoutCall) : Layout := cs.foldl (step t) s

/-- The cursor of the window. -/
def cursor (t : ℕ) (s : Layout) : ℕ := (s.task t).cursor

/-- **The condition**: a break stays below the window, and the number of pages and the
end of a range are those that are meant. -/
def Fits (t : ℕ) (s : Layout) : LayoutCall → Prop
  | .brk newBrk => newBrk.toNat ≤ userMmapBase
  | .mmap2 a => a.len.toNat + 0xFFF < 2 ^ 32 ∧ s.cursor t + a.pages * pmmFrameSize < 2 ^ 32
  | .surfaceMap _ => True

instance Fits.decidable (t : ℕ) (s : Layout) (c : LayoutCall) : Decidable (s.Fits t c) := by
  cases c <;> unfold Fits <;> infer_instance

/-- A program that has been handed out nothing: the break is below the window, which has
not been used. -/
structure Fresh (t : ℕ) (s : Layout) : Prop where
  /-- The break. -/
  brk : (s.task t).userBrk ≤ userMmapBase
  /-- The window. -/
  unused : (s.task t).mmapNext = 0
  /-- The ranges. -/
  ranges : s.ranges = []
  /-- A surface has at most `SURFACE_MAX_PAGES` pages. -/
  sized : ∀ k, (s.machine.surf k).phys.length ≤ surfaceMaxPages

/-- **The layout is in order.** -/
structure InOrder (t : ℕ) (s : Layout) : Prop where
  /-- The break is below the window. -/
  brk : (s.task t).userBrk ≤ userMmapBase
  /-- The cursor is inside the window. -/
  window : userMmapBase ≤ s.cursor t ∧ s.cursor t ≤ userStackLimit
  /-- The ranges are between the start of the window and the cursor. -/
  inside : ∀ r ∈ s.ranges, userMmapBase ≤ r.1 ∧ r.1 + r.2 ≤ s.cursor t
  /-- They lie one behind the other. -/
  behind : s.ranges.Pairwise fun r r' => r.1 + r.2 ≤ r'.1
  /-- A surface has at most `SURFACE_MAX_PAGES` pages. -/
  sized : ∀ k, (s.machine.surf k).phys.length ≤ surfaceMaxPages

variable {s : Layout}

variable {t : ℕ}

/-- A program that has been handed out nothing has a layout in order. -/
theorem Fresh.inOrder (h : s.Fresh t) : s.InOrder t := by
  have hcursor : s.cursor t = userMmapBase := if_pos h.unused
  refine ⟨h.brk, ?_, ?_, ?_, h.sized⟩
  · rw [hcursor]
    decide
  · rw [h.ranges]
    exact fun r hr => nomatch hr
  · rw [h.ranges]
    exact List.Pairwise.nil

/-- A call that takes a range keeps the layout in order, when the range does not wrap and is
as long as its pages at most. -/
theorem InOrder.takes {t pages len : ℕ} {r : Option ℕ × Machine} (h : s.InOrder t)
    (htakes : Machine.Takes t pages s.machine r) (hfit : s.cursor t + pages * pmmFrameSize < 2 ^ 32)
    (hlen : len ≤ pages * pmmFrameSize) :
    let s' : Layout := ⟨r.2, s.ranges ++ (r.1.map fun base => (base, len)).toList⟩
    s'.InOrder t ∧ (s.task t).mmapNext ≤ (s'.task t).mmapNext := by
  have hsized : ∀ k, (r.2.surf k).phys.length ≤ surfaceMaxPages := fun k => by
    rw [htakes.phys]
    exact h.sized k
  have hraw := (s.task t).mmapNext_le_cursor
  rcases htakes.task with ⟨hnone, htask⟩ | ⟨htask, hbase⟩
  · rw [hnone]
    have hcursor : (⟨r.2, s.ranges⟩ : Layout).cursor t = s.cursor t := congrArg Task.cursor htask
    simp only [map_none, toList_none, append_nil]
    refine ⟨⟨?_, hcursor ▸ h.window, hcursor ▸ h.inside, h.behind, hsized⟩, ?_⟩
    · exact (congrArg Task.userBrk htask).trans_le h.brk
    · exact (congrArg Task.mmapNext htask).ge
  · change r.2.tasks t = ((s.task t).reserve pages).2 at htask
    obtain ⟨hbrk, hnext, hres⟩ := Task.reserve_spec hfit
    have hbrk' : (r.2.tasks t).userBrk ≤ userMmapBase := by
      rw [htask, hbrk]
      exact h.brk
    have hnext' : (r.2.tasks t).mmapNext = (r.2.tasks t).cursor := by rw [htask, hnext]
    have hup : s.cursor t ≤ (r.2.tasks t).cursor ∧ (r.2.tasks t).cursor ≤ userStackLimit := by
      rw [htask]
      rcases hres with ⟨-, hcursor⟩ | ⟨-, hcursor, hlt⟩
      · rw [hcursor]
        exact ⟨le_rfl, h.window.2⟩
      · rw [hcursor]
        exact ⟨Nat.le_add_right _ _, hlt.le⟩
    have hmono : (s.task t).mmapNext ≤ (r.2.tasks t).mmapNext :=
      hraw.trans (hup.1.trans hnext'.ge)
    have hwindow : userMmapBase ≤ (r.2.tasks t).cursor ∧ (r.2.tasks t).cursor ≤ userStackLimit :=
      ⟨h.window.1.trans hup.1, hup.2⟩
    have hinside : ∀ x ∈ s.ranges, userMmapBase ≤ x.1 ∧ x.1 + x.2 ≤ (r.2.tasks t).cursor :=
      fun x hx => ⟨(h.inside x hx).1, (h.inside x hx).2.trans hup.1⟩
    cases hr : r.1 with
    | none =>
      simp only [map_none, toList_none, append_nil]
      exact ⟨⟨hbrk', hwindow, hinside, h.behind, hsized⟩, hmono⟩
    | some base =>
      have hat : ((s.task t).reserve pages).1 = some base := hbase base hr
      rcases hres with ⟨hnone, -⟩ | ⟨hsome, hcursor, -⟩
      · rw [hat] at hnone
        cases hnone
      · obtain rfl : base = s.cursor t := some_injective _ (hat.symm.trans hsome)
        simp only [map_some, toList_some]
        refine ⟨⟨hbrk', hwindow, ?_, ?_, hsized⟩, hmono⟩
        · intro x hx
          rcases mem_append.1 hx with hx | hx
          · exact hinside x hx
          · obtain rfl := mem_singleton.1 hx
            refine ⟨h.window.1, ?_⟩
            show s.cursor t + len ≤ (r.2.tasks t).cursor
            rw [htask, hcursor]
            exact Nat.add_le_add_left hlen _
        · refine pairwise_append.2 ⟨h.behind, pairwise_singleton _ _, fun x hx y hy => ?_⟩
          obtain rfl := mem_singleton.1 hy
          exact (h.inside x hx).2

/-- **A call that fits keeps the layout in order**, and does not move the cursor back. -/
theorem InOrder.step {c : LayoutCall} (h : s.InOrder t) (hc : s.Fits t c) :
    (s.step t c).InOrder t ∧ (s.task t).mmapNext ≤ ((s.step t c).task t).mmapNext := by
  cases c with
  | brk newBrk =>
    have htask : (s.step t (.brk newBrk)).task t = ((s.task t).sysBrk newBrk).2 :=
      Machine.setTask_self
    have hnext : ((s.task t).sysBrk newBrk).2.mmapNext = (s.task t).mmapNext := by
      unfold Task.sysBrk
      split_ifs <;> rfl
    have hbrk : ((s.task t).sysBrk newBrk).2.userBrk ≤ userMmapBase := by
      unfold Task.sysBrk
      by_cases hle : newBrk.toNat = 0 ∨ newBrk.toNat ≤ (s.task t).userBrk
      · rw [if_pos hle]
        exact h.brk
      · rw [if_neg hle]
        exact hc
    have hcursor : (s.step t (.brk newBrk)).cursor t = s.cursor t := by
      unfold cursor Task.cursor
      rw [htask, hnext]
    refine ⟨⟨?_, hcursor ▸ h.window, hcursor ▸ h.inside, h.behind, h.sized⟩, ?_⟩
    · rw [htask]
      exact hbrk
    · rw [htask, hnext]
  | mmap2 a =>
    refine h.takes (Machine.sysMmap2_takes t a s.machine) hc.2 ?_
    have hpages : a.pages = (a.len.toNat + 0xFFF) / pmmFrameSize :=
      congrArg (· / pmmFrameSize) (Nat.mod_eq_of_lt hc.1)
    rw [hpages, pmmFrameSize]
    omega
  | surfaceMap k =>
    refine h.takes (Machine.surfaceMap_takes k t s.machine) ?_ le_rfl
    have hsized := h.sized k
    have hwindow := h.window.2
    simp only [surfaceMaxPages, userStackLimit, userStackTop, userStackPages, pmmFrameSize]
      at hsized hwindow ⊢
    omega

/-- A layout in order is one that hands out no address twice. -/
theorem InOrder.disjoint (h : s.InOrder t) :
    s.ranges.Pairwise (fun r r' => Disjoint (addresses r) (addresses r'))
      ∧ ∀ r ∈ s.ranges,
        Disjoint (addresses r) (Set.Ico (s.task t).userBrkBase (s.task t).userBrk) := by
  constructor
  · exact h.behind.imp fun hle => Set.Ico_disjoint_Ico.2 ((min_le_left _ _).trans
      (hle.trans (le_max_right _ _)))
  · intro r hr
    exact Set.Ico_disjoint_Ico.2 ((min_le_right _ _).trans
      ((h.brk.trans (h.inside r hr).1).trans (le_max_left _ _)))

/-- **The calls of a program that fit hand out no address twice.** In every state of a run
the break is below the window, the cursor is below the stack and has not moved back, and
the ranges are disjoint from each other and from the heap. -/
theorem layout_kept {t : ℕ} {s : Layout} (hs : s.Fresh t) {cs ds : List LayoutCall}
    (hok : Meets (Fits t) (step t) s (cs ++ ds)) :
    ((s.run t cs).task t).userBrk ≤ userMmapBase
      ∧ ((s.run t cs).task t).mmapNext ≤ ((s.run t (cs ++ ds)).task t).mmapNext
      ∧ ((s.run t cs).task t).mmapNext ≤ userStackLimit
      ∧ (s.run t cs).ranges.Pairwise (fun r r' => Disjoint (addresses r) (addresses r'))
      ∧ ∀ r ∈ (s.run t cs).ranges, Disjoint (addresses r)
        (Set.Ico ((s.run t cs).task t).userBrkBase ((s.run t cs).task t).userBrk) := by
  obtain ⟨hcs, hds⟩ := meets_append.1 hok
  have hin : (s.run t cs).InOrder t :=
    hcs.invariant (P := InOrder t) (fun _ _ h hc => (h.step hc).1) hs.inOrder
  have hmono : ((s.run t cs).task t).mmapNext ≤ ((s.run t (cs ++ ds)).task t).mmapNext := by
    have hrun : s.run t (cs ++ ds) = ds.foldl (step t) (s.run t cs) := foldl_append
    rw [hrun]
    refine (hds.invariant (P := fun u => u.InOrder t
      ∧ ((s.run t cs).task t).mmapNext ≤ (u.task t).mmapNext) ?_ ⟨hin, le_rfl⟩).2
    exact fun u c h hc => ⟨(h.1.step hc).1, h.2.trans (h.1.step hc).2⟩
  exact ⟨hin.brk, hmono, ((s.run t cs).task t).mmapNext_le_cursor.trans hin.window.2,
    hin.disjoint⟩

/-- The layout of a program that has made a surface of one page. -/
def small : Layout := ⟨Boot.small.machine.run surfaceRun, []⟩

theorem fresh_small : small.Fresh 1 where
  brk := by decide +kernel
  unused := by decide +kernel
  ranges := rfl
  sized := by
    have hinv := Boot.small.inv_run (W := True) meets_surfaceRun
    simp only [small]
    exact hinv.sized

/-- An anonymous mapping of some length. -/
def anonymous (len : UInt32) : LayoutCall :=
  .mmap2 ⟨0, len, true, false, true, none, 0, fun _ => zeroWords, fun _ => none⟩

theorem layout_kept_small :
    (small.run 1 [.brk 0x50000000, anonymous 0x1800, .surfaceMap 0]).ranges
        = [(0x90000000, 0x1800), (0x90002000, 0x1000)]
      ∧ (small.run 1 [.brk 0x50000000, anonymous 0x1800, .surfaceMap 0]).ranges.Pairwise
        (fun r r' => Disjoint (addresses r) (addresses r')) :=
  ⟨by decide +kernel, (@layout_kept 1 small fresh_small
    [.brk 0x50000000, anonymous 0x1800, .surfaceMap 0] [] (by decide +kernel)).2.2.2.1⟩

/-- **Nothing keeps the calls apart.** The break moves into the window and over a mapping
there; a length close to `2 ^ 32` is handed out without moving the cursor, so that the next
mapping has the same address; and a range that wraps takes the cursor below the window. -/
theorem layout_broken : small.Fresh 1
    ∧ userMmapBase < ((small.run 1 [.brk 0xA0000000]).task 1).userBrk
    ∧ (∃ r ∈ (small.run 1 [anonymous 0x1000, .brk 0xA0000000]).ranges,
      ¬ Disjoint (addresses r)
        (Set.Ico ((small.run 1 [anonymous 0x1000, .brk 0xA0000000]).task 1).userBrkBase
          ((small.run 1 [anonymous 0x1000, .brk 0xA0000000]).task 1).userBrk))
    ∧ ¬ (small.run 1 [anonymous 0xFFFFFFFF, anonymous 0x1000]).ranges.Pairwise
      (fun r r' => Disjoint (addresses r) (addresses r'))
    ∧ ((small.run 1 [anonymous 0x1000, anonymous 0x80000000]).task 1).mmapNext
      < ((small.run 1 [anonymous 0x1000]).task 1).mmapNext := by
  refine ⟨fresh_small, by decide +kernel, ⟨(0x90000000, 0x1000), by decide +kernel, ?_⟩, ?_,
    by decide +kernel⟩
  · have hheap : ((small.run 1 [anonymous 0x1000, .brk 0xA0000000]).task 1).userBrkBase ≤ 0x90000000
        ∧ 0x90000000 < ((small.run 1 [anonymous 0x1000, .brk 0xA0000000]).task 1).userBrk := by
      decide +kernel
    exact Set.not_disjoint_iff.2 ⟨0x90000000, by simp [addresses], hheap⟩
  · have hranges : (small.run 1 [anonymous 0xFFFFFFFF, anonymous 0x1000]).ranges
        = [(0x90000000, 0xFFFFFFFF), (0x90000000, 0x1000)] := by decide +kernel
    rw [hranges, pairwise_pair]
    exact Set.not_disjoint_iff.2 ⟨0x90000000, by simp [addresses], by simp [addresses]⟩

end Layout

end Makar
