import Makar.MachineTasks
import Makar.PmmInit

/-!
# Runs of the machine

`Guard` is what a step must meet for the invariant to be kept, event by event.
Its parameter `B` are the directory entries that no address of the event may
fall into, for the invariant those the kernel shares; under the flag `W` a page
that is made writable must not be shared.

What is left out by `Guard` is what the kernel does not check: a range of
`SYS_MPROTECT` or `SYS_MUNMAP` can be in the kernel's tables, `SYS_MUNMAP` and
`MAP_FIXED` can hit a page of a surface, `fork` and `exec` do not know surfaces,
and a bad frame in `SYS_SIGRETURN` ends the task without giving its surfaces up.

`Carries` is what a property of pages must allow of the pages an event makes.
-/

namespace Makar

open List Option Machine Set

namespace Machine

variable {K : Kernel} {B : ℕ → Prop} {W : Prop} {O : ℕ → ℕ → ℕ → Entry → Prop} {m : Machine}
  {ev : Event}

/-- The condition on `SYS_MPROTECT`. -/
def ProtectOk (B : ℕ → Prop) (W : Prop) (t : ℕ) (addr len : UInt32) (write : Bool) (m : Machine) :
    Prop :=
  ∀ pd, (m.tasks t).pageDir = some pd → ∀ i < protectCount addr.toNat len.toNat,
    ¬ B (pdIndex (pageAt (pageBase addr.toNat) i))
      ∧ (W → write = true → ∀ e,
        m.vm.Maps pd (pdIndex (pageAt (pageBase addr.toNat) i))
          (ptIndex (pageAt (pageBase addr.toNat) i)) e →
        e.frame ∉ m.surfFrames → m.vm.refs e.frame = 1)

/-- The condition on `SYS_MUNMAP`. -/
def UnmapOk (B : ℕ → Prop) (t : ℕ) (addr len : UInt32) (m : Machine) : Prop :=
  ∀ pd, (m.tasks t).pageDir = some pd → ∀ i < pageCount len.toNat,
    ¬ B (pdIndex (pageAt (pageBase addr.toNat) i))
      ∧ ∀ e, m.vm.Maps pd (pdIndex (pageAt (pageBase addr.toNat) i))
          (ptIndex (pageAt (pageBase addr.toNat) i)) e →
        e.frame ∉ m.surfFrames

/-- The condition on a page fault: a page of a reserved range that is missing is
not in a directory entry of `B`. -/
def FaultOk (B : ℕ → Prop) (t : ℕ) (addr : UInt32) (m : Machine) : Prop :=
  ∀ pd, (m.tasks t).pageDir = some pd → pagePresent pd addr.toNat m.vm = false →
    Reserved (m.tasks t) addr.toNat → ¬ B (pdIndex addr.toNat)

/-- **The condition on a step.** -/
def Guard (B : ℕ → Prop) (W : Prop) (m : Machine) : Event → Prop
  | .mmap2 t a => m.Mmap2Ok B t a
  | .mprotect t addr len write => m.ProtectOk B W t addr len write
  | .munmap t addr len => m.UnmapOk B t addr len
  | .fault t addr _ => m.FaultOk B t addr
  | .fork t _ _ => m.ForkOk t
  | .exec t x => m.ExecOk B t x
  | .sigreturn t => m.NoMaps t
  | .surfaceMap t k => m.SurfaceMapOk B k t
  | _ => True

/-- **What a property of pages must allow** of the pages the event makes. -/
def Carries (O : ℕ → ℕ → ℕ → Entry → Prop) (m : Machine) : Event → Prop
  | .mmap2 t a =>
    ∀ pd base, (m.tasks t).pageDir = some pd → (m.mmapBase t a).1 = some base →
      (a.anon && !a.fixed) = false → ∀ i < a.pages, ∀ f,
        O pd (pdIndex (pageAt base i)) (ptIndex (pageAt base i)) (Entry.leaf f a.write)
  | .mprotect t addr len write =>
    ∀ pd, (m.tasks t).pageDir = some pd → ∀ i < protectCount addr.toNat len.toNat, ∀ e,
      m.vm.Maps pd (pdIndex (pageAt (pageBase addr.toNat) i))
        (ptIndex (pageAt (pageBase addr.toNat) i)) e →
      O pd (pdIndex (pageAt (pageBase addr.toNat) i))
        (ptIndex (pageAt (pageBase addr.toNat) i)) (Entry.leaf e.frame write)
  | .fault t addr write =>
    ∀ pd, (m.tasks t).pageDir = some pd →
      (pagePresent pd addr.toNat m.vm = false → Reserved (m.tasks t) addr.toNat → ∀ f,
        O pd (pdIndex addr.toNat) (ptIndex addr.toNat) (Entry.leaf f true))
      ∧ (write = true → ∀ e f, m.vm.Maps pd (pdIndex addr.toNat) (ptIndex addr.toNat) e →
        e.cow = true → O pd (pdIndex addr.toNat) (ptIndex addr.toNat) (e.promote f))
  | .fork t _ _ =>
    ∀ pd, (m.tasks t).pageDir = some pd → ∀ i j e, O pd i j e →
      O pd i j e.share ∧ ∀ c, c ∉ m.pds → O c i j e.share
  | .exec _ x =>
    ∀ c, c ∉ m.pds → ∀ virt w, x.HasPage virt w → ∀ f,
      O c (pdIndex virt) (ptIndex virt) (Entry.leaf f w)
  | .surfaceMap t k =>
    ∀ pd base, (m.tasks t).pageDir = some pd →
      ((m.tasks t).reserve (m.surf k).phys.length).1 = some base →
        ∀ p < (m.surf k).phys.length, ∀ f,
          O pd (pdIndex (pageAt base p)) (ptIndex (pageAt base p)) (Entry.leaf f true)
  | _ => True

/-! ## One step -/

/-- `SYS_BRK` changes only the layout. -/
theorem sysBrk_same (x : Task) (newBrk : UInt32) :
    (x.sysBrk newBrk).2.pageDir = x.pageDir ∧ (x.sysBrk newBrk).2.state = x.state := by
  unfold Task.sysBrk
  split_ifs <;> exact ⟨rfl, rfl⟩

variable {t : ℕ} {addr len : UInt32}

theorem sysMprotect_same {write : Bool} : SameTables m (m.sysMprotect t addr len write) := by
  unfold Machine.sysMprotect
  split
  · exact .refl m
  · split_ifs <;> exact ⟨rfl, rfl, rfl⟩

theorem sysMunmap_same : SameTables m (m.sysMunmap t addr len) := by
  unfold Machine.sysMunmap
  split <;> exact ⟨rfl, rfl, rfl⟩

theorem userStore_same {word : Entry} : SameTables m (m.userStore t addr word) := by
  unfold Machine.userStore
  split
  · exact .refl m
  · split
    · exact .refl m
    · dsimp only
      split_ifs <;> exact ⟨rfl, rfl, rfl⟩

theorem Inv.sysMprotect {write : Bool} (h : m.Inv K W O)
    (hg : m.ProtectOk K.Shared W t addr len write)
    (hc : m.Carries O (.mprotect t addr len write)) :
    (m.sysMprotect t addr len write).Inv K W O := by
  unfold Machine.sysMprotect
  cases hd : (m.tasks t).pageDir with
  | none => exact h
  | some pd =>
    simp only []
    split_ifs with hlen
    · exact h
    · exact h.protectPages (mem_pds hd) _ write _
        (fun i hi => (hg pd hd i (mem_range.1 hi)).1)
        (fun hw hwr i hi => (hg pd hd i (mem_range.1 hi)).2 hw hwr)
        (fun i hi => hc pd hd i (mem_range.1 hi))

theorem Inv.sysMunmap (h : m.Inv K W O)
    (hg : m.UnmapOk K.Shared t addr len) : (m.sysMunmap t addr len).Inv K W O := by
  unfold Machine.sysMunmap
  cases hd : (m.tasks t).pageDir with
  | none => exact h
  | some pd =>
    exact h.unmapFreePages (mem_pds hd) _ _ (fun i hi => (hg pd hd i (mem_range.1 hi)).1)
      (fun i hi => (hg pd hd i (mem_range.1 hi)).2)

/-- **The page-fault handler.** -/
theorem Inv.pageFault {addr : UInt32} {write : Bool} (h : m.Inv K W O)
    (ht : t < m.taskCount) (hg : m.FaultOk K.Shared t addr)
    (hc : m.Carries O (.fault t addr write)) : (m.pageFault t addr write).Inv K W O := by
  unfold Machine.pageFault
  cases hd : (m.tasks t).pageDir with
  | none => exact h
  | some pd =>
    have hpd := mem_pds hd
    simp only []
    cases hanon : Machine.tryHandleAnonFault (m.tasks t) pd addr.toNat m.vm with
    | some v =>
      exact (h.tryHandleAnonFault hpd addr.toNat_lt (hg pd hd) hanon (hc pd hd).1).1
    | none =>
      simp only []
      cases hcow : Machine.tryHandleCowFault pd addr.toNat write m.vm with
      | some v => exact (h.tryHandleCowFault hpd addr.toNat_lt hcow (hc pd hd).2).1
      | none => exact h.taskExit ht

/-- **Every event keeps the invariant**, under its condition. -/
theorem Inv.act (h : m.Inv K W O) (hlive : (m.tasks ev.task).state = .live)
    (hg : m.Guard K.Shared W ev) (hc : m.Carries O ev) : (m.act ev).Inv K W O := by
  have hlt : ev.task < m.taskCount := h.lt_taskCount (by rw [hlive]; decide)
  cases ev with
  | brk t newBrk =>
    exact h.setLayout _ (sysBrk_same (m.tasks t) newBrk).1 (sysBrk_same (m.tasks t) newBrk).2
  | mmap2 t a => exact h.sysMmap2 hg hc
  | mprotect t addr len write => exact h.sysMprotect hg hc
  | munmap t addr len => exact h.sysMunmap hg
  | fault t addr write => exact h.pageFault hlt hg hc
  | store t addr word => exact h.userStore t addr word
  | fork t fdsOk stackOk => exact (h.taskFork hg fdsOk stackOk hc).1
  | exec t x => exact h.elfExec hlt x hg hc
  | exit t => exact h.taskExit hlt
  | kill t => exact h.taskTerminate hlt
  | wait4 t c => exact h.sysWait4 t c
  | sigreturn t => exact h.setState hg hlt .dead
  | create t fdsOk stackOk => exact h.taskCreate t fdsOk stackOk
  | surfaceCreate t w y => exact h.surfaceCreate t w y
  | surfaceMap t k => exact h.surfaceMap hlive hg hc
  | surfaceUnmap t k => exact h.surfaceUnmap k t
  | surfaceDestroy t k => exact h.surfaceDestroy k t
  | cacheRead t path pidx fill => exact h.pcGet path pidx fill
  | cacheInvalidate t path => exact h.pagecacheInvalidate path
  | cacheDropAll t => exact h.pagecacheDropAll

/-- **A step keeps the invariant**, under its condition. -/
theorem Inv.step (h : m.Inv K W O) (hg : m.Guard K.Shared W ev) (hc : m.Carries O ev) :
    (m.step ev).Inv K W O := by
  unfold Machine.step
  split_ifs with hno
  · exact h
  · push Not at hno
    exact h.act hno.2 hg hc

/-! ## Boot -/

/-- No property at all. -/
def anyPage : ℕ → ℕ → ℕ → Entry → Prop := fun _ _ _ _ => True

theorem carries_anyPage (m : Machine) (ev : Event) : m.Carries anyPage ev := by
  cases ev with
  | fault t addr write => exact fun pd _ => ⟨fun _ _ _ => trivial, fun _ _ _ _ _ => trivial⟩
  | fork t fdsOk stackOk => exact fun pd _ i j e _ => ⟨trivial, fun _ _ => trivial⟩
  | mmap2 t a => exact fun _ _ _ _ _ _ _ _ => trivial
  | mprotect t addr len write => exact fun _ _ _ _ _ _ => trivial
  | exec t x => exact fun _ _ _ _ _ _ => trivial
  | surfaceMap t k => exact fun _ _ _ _ _ _ _ => trivial
  | _ => trivial

end Machine

/-- A boot: the memory map the boot loader gives, and the directory and the
tables of the kernel. -/
structure Boot where
  /-- The end of the kernel image. -/
  kernelPhysEnd : ℕ
  /-- The magic number. -/
  magic : ℕ
  /-- The tags of the boot loader. -/
  tags : List MbTag
  /-- The kernel's directory. -/
  dir : ℕ → Entry
  /-- Memory, with the kernel's tables. -/
  mem : ℕ → ℕ → Entry
  /-- No frame is freed twice. -/
  nodup : (Pmm.freedFrames kernelPhysEnd magic tags).Nodup
  /-- An entry of the kernel is empty, a large page, or a table that is not
  managed. -/
  entry : ∀ i, dir i = Entry.zero ∨ (dir i).present = true
    ∧ ((dir i).large = true ∨ (dir i).frame ∉ Pmm.freedFrames kernelPhysEnd magic tags)
  /-- No page of the kernel's tables is open to user mode or copy-on-write. -/
  private_pages : ∀ i j, (dir i).present = true → (dir i).large = false →
    (mem (dir i).frame j).user = false ∧ (mem (dir i).frame j).cow = false

namespace Boot

/-- What the boot fixes. -/
def kernel (b : Boot) : Kernel where
  frames := {x | x ∈ Pmm.freedFrames b.kernelPhysEnd b.magic b.tags}
  dir := b.dir
  mem := b.mem
  zero_not_mem := fun h => (Pmm.window_of_mem_freedFrames h).2 rfl
  lt_idmapEnd := fun _ h => Pmm.lt_of_mem_freedFrames h
  entry := b.entry
  private_pages := b.private_pages

/-- The machine after boot. -/
def machine (b : Boot) : Machine :=
  Machine.boot ⟨Pmm.pmmInit b.kernelPhysEnd b.magic b.tags, b.mem, b.dir⟩

/-- **The invariant holds after boot.** -/
theorem inv (b : Boot) (W : Prop) (O : ℕ → ℕ → ℕ → Entry → Prop) :
    b.machine.Inv b.kernel W O := by
  have hnone : ∀ t, (b.machine.tasks t).pageDir = none := by
    intro t
    unfold machine boot
    by_cases ht : t = 0
    · subst ht
      rfl
    · simp only [Function.update_of_ne ht]
      rfl
  have hpds : b.machine.pds = ∅ := by
    ext pd
    constructor
    · rintro ⟨t, ht⟩
      rw [hnone t] at ht
      cases ht
    · exact fun h => absurd h (notMem_empty pd)
  have hfr : b.machine.surfFrames = ∅ := by
    ext f
    constructor
    · rintro ⟨k, hk⟩
      exact absurd hk not_mem_nil
    · exact fun h => absurd h (notMem_empty f)
  have hloose : b.machine.loose = 0 := by
    have hz : pcRefs (List.replicate pcNpages PcPage.empty) = 0 := pcRefs_replicate
    show pcRefs (List.replicate pcNpages PcPage.empty) + surfRefs (fun _ => Surface.empty) = 0
    rw [hz, zero_add]
    unfold surfRefs
    exact sum_eq_zero (fun N hN => by
      obtain ⟨k, -, rfl⟩ := mem_map.1 hN
      rfl)
  refine ⟨⟨fun t u pd ht => ?_, fun t ht => ⟨hnone t, ?_⟩, fun _ _ => rfl, fun _ _ => rfl,
    fun k x hx => ?_, fun p hp hv => ?_, fun _ => Nat.zero_le _⟩, ?_⟩
  · rw [hnone t] at ht
    cases ht
  · have hne : t ≠ 0 := by
      rintro rfl
      exact absurd ht (Nat.not_succ_le_zero 0)
    unfold machine boot
    simp only [Function.update_of_ne hne]
    rfl
  · cases eq_of_mem_replicate hx
  · rw [eq_of_mem_replicate hp] at hv
    cases hv
  · rw [hpds, hfr, hloose]
    refine ⟨(Pmm.inv_pmmInit b.nodup).1, fun f => ?_, rfl, fun _ _ => rfl, ?_, ?_, ?_, ?_, ?_, ?_⟩
    · have hempty : {o | b.machine.vm.Refers ∅ ∅ o f} = ∅ := by
        ext o
        constructor
        · intro ho
          cases o <;> exact absurd ho.1 (notMem_empty _)
        · exact fun h => absurd h (notMem_empty o)
      rw [hempty, encard_empty, Multiset.count_zero, Nat.cast_zero, zero_add]
      exact zero_le
    · exact fun pd hpd => absurd hpd (notMem_empty pd)
    · exact fun pd hpd => absurd hpd (notMem_empty pd)
    · exact fun pd hpd => absurd hpd (notMem_empty pd)
    · exact fun f hf => absurd hf (notMem_empty f)
    · exact fun pd hpd => absurd hpd (notMem_empty pd)
    · exact fun _ pd hpd => absurd hpd (notMem_empty pd)

/-- **The invariant of runs**: it holds after every run that meets the
condition. -/
theorem inv_run (b : Boot) {W : Prop} {es : List Event}
    (hok : Meets (Machine.Guard b.kernel.Shared W) Machine.step b.machine es) :
    (b.machine.run es).Inv b.kernel W Machine.anyPage :=
  Meets.invariant (P := fun m : Machine => m.Inv b.kernel W anyPage)
    (fun m ev hm hg => hm.step hg (carries_anyPage m ev)) (b.inv W anyPage) hok

/-- A small boot: thirty-two frames from `0x400000`, and no kernel tables. -/
def small : Boot where
  kernelPhysEnd := 0x200000
  magic := multiboot2BootloaderMagic
  tags := [.mmap [⟨0x400000, 0x20000, 1⟩]]
  dir := fun _ => Entry.zero
  mem := fun _ => zeroWords
  nodup := by decide +kernel
  entry := fun _ => Or.inl rfl
  private_pages := fun _ _ h => absurd h Bool.false_ne_true

theorem small_not_shared (i : ℕ) : ¬ small.kernel.Shared i := fun h => Bool.false_ne_true h.1

end Boot

/-- An image with one page of text at `0x40000000`. -/
def smallImage : Image :=
  ⟨false, [⟨0x40000000, 0x1000, false, true, fun _ => zeroWords⟩], .none, zeroWords⟩

/-- The entry of a task's page table for an address. -/
def Machine.entryAt (m : Machine) (t virt : ℕ) : Option Entry :=
  (m.tasks t).pageDir.bind
    (fun pd => (m.vm.tableOf pd virt).map (fun pt => m.vm.mem pt (ptIndex virt)))

namespace Machine

/-- What is mapped is what the entry says. -/
theorem entryAt_of_maps {m : Machine} {t pd virt : ℕ} {e : Entry}
    (hd : (m.tasks t).pageDir = some pd)
    (hm : m.vm.Maps pd (pdIndex virt) (ptIndex virt) e) : m.entryAt t virt = some e := by
  obtain ⟨pt, hT, -, he, -⟩ := hm
  unfold entryAt Vm.tableOf
  rw [hd, bind_some]
  simp only [hT.2.1.1, hT.2.1.2.1, hT.2.2, he, Bool.false_eq_true, not_false_eq_true, and_self,
    if_true, map_some]

/-- A user page is mapped by a table of the address space, since those of the kernel have
none. -/
theorem Inv.maps_of_entryAt {K : Kernel} {W : Prop} {O : ℕ → ℕ → ℕ → Entry → Prop}
    {m : Machine} {t pd virt : ℕ} {e : Entry} (h : m.Inv K W O) (hv : virt < 2 ^ 32)
    (hd : (m.tasks t).pageDir = some pd) (he : m.entryAt t virt = some e)
    (hp : e.present = true) (hu : e.user = true) :
    m.vm.Maps pd (pdIndex virt) (ptIndex virt) e := by
  unfold entryAt at he
  rw [hd, bind_some] at he
  obtain ⟨pt, ht, rfl⟩ := map_eq_some_iff.1 he
  have hK : ¬ K.Shared (pdIndex virt) := by
    intro hK
    rw [(h.vm.tableOf_shared (mem_pds hd) hv hK ht (ptIndex virt)).1] at hu
    cases hu
  obtain ⟨pt', ht', hT⟩ := (h.vm.tableOf (mem_pds hd) hv hK).resolve_left (fun hn => by
    rw [hn.1] at ht
    cases ht)
  obtain rfl : pt' = pt := some_injective _ (ht'.symm.trans ht)
  exact ⟨pt', hT, Vm.ptIndex_lt virt, rfl, hp⟩

end Machine

/-- A task starts a program on the small boot. -/
def startRun : List Event := [.create 0 true true, .exec 1 smallImage]

theorem meets_startRun {W : Prop} :
    Meets (Machine.Guard Boot.small.kernel.Shared W) Machine.step Boot.small.machine startRun := by
  refine ⟨trivial, ⟨fun k x hx => ?_, fun virt w _ => Boot.small_not_shared _⟩, trivial⟩
  have hsurf : (Boot.small.machine.step (.create 0 true true)).surf k = Surface.empty := rfl
  rw [hsurf] at hx
  cases eq_of_mem_replicate hx

set_option maxRecDepth 40000 in
theorem surf_startRun : (Boot.small.machine.run startRun).surf = fun _ => Surface.empty := rfl

theorem refs_startRun : ∀ f ∈ Pmm.freedFrames Boot.small.kernelPhysEnd Boot.small.magic
    Boot.small.tags, (Boot.small.machine.run startRun).vm.refs f ≤ 0x7F := by decide +kernel

/-- The program makes a surface of one page. -/
def surfaceRun : List Event := startRun ++ [.surfaceCreate 1 8 8]

theorem meets_surfaceRun {W : Prop} :
    Meets (Machine.Guard Boot.small.kernel.Shared W) Machine.step Boot.small.machine surfaceRun :=
  meets_append.2 ⟨meets_startRun, trivial, trivial⟩

end Makar
