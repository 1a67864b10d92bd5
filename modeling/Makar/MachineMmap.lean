import Makar.MachineCache

/-!
# `SYS_MMAP2`

Every page of an eager mapping is a frame in hand first: a frame of the page
cache with a reference more, or a new frame, with what the file has for it. Under
`MAP_FIXED` the page that was there is given up, and then the frame goes into the
table. `Framed` is the state in between. A page that is mapped writable is always
a new frame, so it has one reference, which is the table's.
-/

namespace Makar

open Multiset

namespace Machine

variable {K : Kernel} {W : Prop} {O : ℕ → ℕ → ℕ → Entry → Prop} {m m' : Machine}
  {t pd i j f phys base : ℕ} {e : Entry} {a : MmapArgs}

/-- A frame is in hand, and the machine is in order otherwise. -/
structure Framed (K : Kernel) (W : Prop) (O : ℕ → ℕ → ℕ → Entry → Prop) (write : Bool)
    (m : Machine) (phys : ℕ) (m' : Machine) : Prop where
  /-- The tables of the kernel are in order. -/
  shape : m'.Shape K
  /-- The address spaces are in order. -/
  vm : m'.vm.Inv K W m'.surfFrames (m'.Pages O) m'.pds (m'.loose + {phys})
  /-- The frame is not a surface's. -/
  plain : phys ∉ m'.surfFrames
  /-- A frame for a writable page is held once. -/
  one : write = true → m'.vm.refs phys = 1
  /-- The tasks and surfaces are what they were. -/
  same : SameTables m m'

/-- A frame in hand besides the loose references is not a surface's. -/
theorem not_mem_surfFrames (h : m.Shape K)
    (hv : m.vm.Inv K W m.surfFrames (m.Pages O) m.pds (m.loose + {phys})) :
    phys ∉ m.surfFrames := by
  rw [add_comm, singleton_add] at hv
  exact hv.not_mem_surface (fun f hf => mem_add.2 (.inr (h.mem_surfRefs hf)))

/-! ## Frames -/

/-- The count of the frame that is looked up is below its limit, where another
reference can still be counted. -/
def AcquireOk (path : String) (pidx : ℕ) (fill : Option Words) (m : Machine) : Prop :=
  ∀ f, (m.pcGet path pidx fill).1 = some f → (m.pcGet path pidx fill).2.vm.refs f < 0xFF

/-- **`pagecache_acquire`** gives a reference to a frame of the cache. -/
theorem pagecacheAcquire_spec (h : m.Inv K W O) (path : String) (size pidx : ℕ)
    (fill : Option Words) (hok : m.AcquireOk path pidx fill) :
    (∃ m', m.pagecacheAcquire path size pidx fill = (none, m') ∧ m'.Inv K W O ∧ SameTables m m')
      ∨ ∃ f m', m.pagecacheAcquire path size pidx fill = (some f, m')
        ∧ Framed K W O false m f m' := by
  unfold pagecacheAcquire
  split_ifs with hsize
  · exact .inl ⟨m, rfl, h, SameTables.refl m⟩
  have hv : m.vm.Inv K W m.surfFrames (m.Pages O) m.pds (m.loose + 0) := by
    rw [add_zero]
    exact h.vm
  have hlook := Inv.looked h.toShape hv path pidx fill
  obtain ⟨hs, hi⟩ := Looked.machine h.toShape hlook
  rw [add_zero] at hi
  unfold AcquireOk at hok
  generalize m.pcGet path pidx fill = r at hlook hs hi hok
  obtain ⟨o, m'⟩ := r
  cases o with
  | none => exact .inl ⟨m', rfl, ⟨hs, hi⟩, hlook.same⟩
  | some f =>
    right
    simp only [] at hi hs
    have hf : f ∈ pcRefs m'.cache := hlook.mem f rfl
    have hloose : f ∈ m'.loose := mem_add.2 (.inl hf)
    have hfS : f ∉ m'.surfFrames := by
      intro hc
      have h₁ := hi.covered.count_le f
      rw [(hi.surface f hc).2, loose, count_add] at h₁
      have h₂ := one_le_count_iff_mem.2 hf
      have h₃ := one_le_count_iff_mem.2 (hs.mem_surfRefs hc)
      omega
    have hinc := hi.incRef (hi.covered.pos_of_mem hloose) (hok f rfl) (hi.plain_of_mem hloose hfS)
    refine ⟨f, _, rfl, hs.setVm _, ?_, hfS,
      fun hw => (by cases hw), ⟨hlook.same.tasks, hlook.same.taskCount, hlook.same.surf⟩⟩
    rw [add_comm, singleton_add]
    exact hinc

/-- **A new frame** is in hand after an allocation, whatever is written to
it. -/
theorem framed_of_alloc {v : Vm} (h : m.Inv K W O) (ha : Vm.Inv.Alloc m.vm v phys)
    (hv : v.Inv K W m.surfFrames (m.Pages O) m.pds (phys ::ₘ m.loose)) (words : Words)
    (write : Bool) : Framed K W O write m phys { m with vm := v.setFrame phys words } := by
  have hmem := mem_cons_self phys m.loose
  have hfill := hv.setFrame (hv.mem_frames ha.one.ge) (hv.data_of_mem hmem) words
  refine ⟨h.toShape.setVm _, ?_, ?_, fun _ => ha.one,
    ⟨rfl, rfl, rfl⟩⟩
  · rw [add_comm, singleton_add]
    exact hfill
  · exact hv.not_mem_surface (fun f hf => (h.vm.surface f hf).1)

variable {write : Bool}

/-- The frame in hand may be filled. -/
theorem Framed.fill (h : Framed K W O write m phys m') (words : Words) :
    Framed K W O write m phys { m' with vm := m'.vm.setFrame phys words } := by
  have hmem : phys ∈ m'.loose + {phys} :=
    mem_add.2 (.inr (mem_singleton_self phys))
  have hfill := h.vm.setFrame (h.vm.mem_frames (h.vm.covered.pos_of_mem hmem))
    (h.vm.data_of_mem hmem) words
  exact ⟨h.shape.setVm _, hfill, h.plain, h.one,
    ⟨h.same.tasks, h.same.taskCount, h.same.surf⟩⟩

/-- **`syscall_file_pread`** into a new frame. -/
theorem Framed.filePread (h : Framed K W O true m phys m') (a : MmapArgs) (x : FileDesc) (i : ℕ) :
    Framed K W O true m phys (m'.filePread a x phys i) := by
  unfold Machine.filePread
  simp only []
  split_ifs with hsize hlazy
  · exact h
  · have hlook := Inv.looked h.shape h.vm x.path (a.pgoff.toNat + i) (a.fill i)
    obtain ⟨hs, hi⟩ := Looked.machine h.shape hlook
    have hmem : phys ∈ surfRefs m'.surf + {phys} :=
      mem_add.2 (.inr (mem_singleton_self phys))
    have hone := hlook.keeps phys hmem (h.one rfl)
    generalize m'.pcGet x.path (a.pgoff.toNat + i) (a.fill i) = r at hlook hs hi hone
    obtain ⟨o, m''⟩ := r
    have hf : Framed K W O true m phys m'' :=
      ⟨hs, hi, not_mem_surfFrames hs hi, fun _ => hone, h.same.trans hlook.same⟩
    cases o with
    | none => exact hf
    | some g => exact hf.fill (a.data i)
  · exact h.fill (a.data i)

/-- The condition on the page cache under which page `i` of a mapping can be
had. -/
def FrameOk (a : MmapArgs) (m : Machine) (i : ℕ) : Prop :=
  ∀ x, a.file = some x → a.sharedRo x = true →
    m.AcquireOk x.path ((a.pgoff.toNat + i) % 2 ^ 32) (a.fill i)

/-- A frame held once may be used for a page that is not writable too. -/
theorem Framed.weaken (h : Framed K W O true m phys m') (write : Bool) :
    Framed K W O write m phys m' :=
  { h with one := fun _ => h.one rfl }

/-- **A new frame of a mapping.** -/
theorem mmapFresh_spec (h : m.Inv K W O) (a : MmapArgs) (i : ℕ) :
    (∃ m', m.mmapFresh a i = (none, m') ∧ m'.Inv K W O ∧ SameTables m m')
      ∨ ∃ phys m', m.mmapFresh a i = (some phys, m') ∧ Framed K W O a.write m phys m' := by
  unfold mmapFresh
  rcases h.vm.allocFrame with heq | ⟨phys, v, heq, ha, hv⟩
  · rw [heq]
    exact .inl ⟨_, rfl, h.setVm h.vm, ⟨rfl, rfl, rfl⟩⟩
  · rw [heq]
    right
    have hf := framed_of_alloc h ha hv zeroWords true
    cases a.file with
    | none => exact ⟨phys, _, rfl, hf.weaken a.write⟩
    | some x =>
      simp only []
      split_ifs
      · exact ⟨phys, _, rfl, (hf.filePread a x i).weaken a.write⟩
      · exact ⟨phys, _, rfl, hf.weaken a.write⟩

/-- **A frame of the page cache** is for a page that is not writable. -/
theorem mmapShared_spec (h : m.Inv K W O) (hok : m.FrameOk a i) :
    (∃ m', m.mmapShared a i = (none, m') ∧ m'.Inv K W O ∧ SameTables m m')
      ∨ ∃ phys m', m.mmapShared a i = (some phys, m') ∧ Framed K W O a.write m phys m' := by
  unfold mmapShared
  cases hfile : a.file with
  | none => exact .inl ⟨m, rfl, h, SameTables.refl m⟩
  | some x =>
    simp only []
    split_ifs with hro
    · have hw : a.write = false := by
        unfold MmapArgs.sharedRo at hro
        simp only [Bool.and_eq_true, Bool.not_eq_true'] at hro
        tauto
      rw [hw]
      exact pagecacheAcquire_spec h x.path x.size _ (a.fill i) (hok x hfile hro)
    · exact .inl ⟨m, rfl, h, SameTables.refl m⟩

/-- **The frame of a page of a mapping.** -/
theorem mmapFrame_spec (h : m.Inv K W O) (hok : m.FrameOk a i) :
    (∃ m', m.mmapFrame a i = (none, m') ∧ m'.Inv K W O ∧ SameTables m m')
      ∨ ∃ phys m', m.mmapFrame a i = (some phys, m') ∧ Framed K W O a.write m phys m' := by
  unfold mmapFrame
  rcases mmapShared_spec h hok with ⟨m₁, heq, h₁, hs⟩ | ⟨f, m₁, heq, hf⟩
  · rw [heq]
    simp only []
    split_ifs with hp
    · exact .inl ⟨m₁, rfl, h₁, hs⟩
    · rcases mmapFresh_spec h₁ a i with ⟨m', hm', hi, hs'⟩ | ⟨phys, m', hm', hf⟩
      · exact .inl ⟨m', hm', hi, hs.trans hs'⟩
      · exact .inr ⟨phys, m', hm', { hf with same := hs.trans hf.same }⟩
  · rw [heq]
    exact .inr ⟨f, m₁, rfl, hf⟩

/-! ## Pages -/

/-- The condition on one page of a mapping: it is not in a directory entry of
`B`, the page it replaces is not a surface's, and its frame can be had. -/
def MmapOk (B : ℕ → Prop) (pd base : ℕ) (a : MmapArgs) (m : Machine) (i : ℕ) : Prop :=
  ¬ B (pdIndex (pageAt base i))
    ∧ (a.fixed = true → ∀ e,
      m.vm.Maps pd (pdIndex (pageAt base i)) (ptIndex (pageAt base i)) e →
        e.frame ∉ m.surfFrames)
    ∧ m.FrameOk a i

/-- What is mapped may be added to what is known of the pages. -/
theorem Inv.known (h : m.Inv K W O) :
    m.Inv K W (fun pd i j e => O pd i j e ∧ m.vm.Maps pd i j e) :=
  ⟨h.toShape, { h.vm with
    maps := fun pd hpd i j e hm =>
      ⟨(h.vm.maps pd hpd i j e hm).1, (h.vm.maps pd hpd i j e hm).2, hm⟩ }⟩

/-- **A frame in hand goes into the table**, after the page that was there. -/
theorem Framed.mapPage (h : Framed K W O write m phys m') (hpd : pd ∈ m'.pds) (b : Bool)
    (hK : ¬ K.Shared (pdIndex (pageAt base i)))
    (hS : b = true → ∀ e,
      m'.vm.Maps pd (pdIndex (pageAt base i)) (ptIndex (pageAt base i)) e →
        e.frame ∉ m'.surfFrames)
    (hO : O pd (pdIndex (pageAt base i)) (ptIndex (pageAt base i)) (Entry.leaf phys write)) :
    ({ m' with
      vm := (if b then m'.vm.vmmUnmapAndFree pd (pageAt base i) else m'.vm).vmmMapPage pd
        (pageAt base i) phys write } : Machine).Inv K W O := by
  have hloose : ∀ f ∈ m'.surfFrames, f ∈ m'.loose :=
    fun f hf => mem_add.2 (.inr (h.shape.mem_surfRefs hf))
  have hmem : phys ∈ m'.loose + {phys} :=
    mem_add.2 (.inr (mem_singleton_self phys))
  have hclear : (if b then m'.vm.vmmUnmapAndFree pd (pageAt base i) else m'.vm).Inv K W
      m'.surfFrames (m'.Pages O) m'.pds ({phys} + m'.loose)
      ∧ (write = true →
        (if b then m'.vm.vmmUnmapAndFree pd (pageAt base i) else m'.vm).refs phys = 1) := by
    rw [add_comm]
    split_ifs with hb
    · obtain ⟨hinv, hkeep, -⟩ := h.vm.vmmUnmapAndFree hpd (pageAt_lt base i) hK (hS hb)
      exact ⟨hinv, fun hw => hkeep phys hmem (h.one hw)⟩
    · exact ⟨h.vm, h.one⟩
  have hput := hclear.1.vmmMapPage hloose hpd (pageAt_lt base i) hK
    (fun _ => mem_singleton_self phys) ⟨pageOk_of_not_mem rfl h.plain, hO⟩
    (fun _ hw _ => hclear.2 hw)
  exact ⟨h.shape.setVm _, hput.1⟩

/-- What a property asks of the pages may be weakened while a frame is in
hand. -/
theorem Framed.imp {O' : ℕ → ℕ → ℕ → Entry → Prop} (h : Framed K W O write m phys m')
    (hO : ∀ pd ∈ m'.pds, ∀ i j e, O pd i j e → O' pd i j e) : Framed K W O' write m phys m' :=
  { h with vm := h.vm.imp (fun pd hpd i j e hp => ⟨hp.1, hO pd hpd i j e hp.2⟩) }

/-- **One turn of the page loop.** -/
theorem mmapPage_spec (h : m.Inv K W O) (hpd : pd ∈ m.pds) (hok : MmapOk K.Shared pd base a m i)
    (hO : ∀ f, O pd (pdIndex (pageAt base i)) (ptIndex (pageAt base i)) (Entry.leaf f a.write)) :
    (mmapPage pd base a m i).2.Inv K W O ∧ SameTables m (mmapPage pd base a m i).2 := by
  obtain ⟨hK, hfix, hframe⟩ := hok
  have hdrop : ∀ pd i j e, O pd i j e ∧ m.vm.Maps pd i j e → O pd i j e := fun _ _ _ _ => And.left
  unfold mmapPage
  -- getting the frame maps nothing, so the page that is replaced is the one there was
  rcases mmapFrame_spec h.known hframe with ⟨m', heq, hi, hs⟩ | ⟨phys, m', heq, hf⟩
  · rw [heq]
    exact ⟨hi.imp (fun pd _ => hdrop pd), hs⟩
  · rw [heq]
    simp only []
    have hpd' : pd ∈ m'.pds := by
      rw [hf.same.pds_eq]
      exact hpd
    by_cases hp : m'.panicked = true
    · rw [if_pos hp]
      exact ⟨⟨hf.shape, (hf.vm.imp (fun pd _ i j e hp => ⟨hp.1, hdrop pd i j e hp.2⟩)).forget
        (le_add_right _ _)
        (fun f hf' => mem_add.2 (.inr (hf.shape.mem_surfRefs hf')))⟩, hf.same⟩
    · rw [if_neg hp]
      refine ⟨(hf.imp (fun pd _ => hdrop pd)).mapPage hpd' a.fixed hK (fun hb e hm => ?_) (hO phys),
        ⟨hf.same.tasks, hf.same.taskCount, hf.same.surf⟩⟩
      rw [hf.same.surfFrames_eq]
      exact hfix hb e (hf.vm.maps pd hpd' _ _ e hm).2.2

/-! ## The call -/

/-- The condition on a mapping, for the pages that are mapped at once. -/
def Mmap2Ok (B : ℕ → Prop) (t : ℕ) (a : MmapArgs) (m : Machine) : Prop :=
  ∀ pd base, (m.tasks t).pageDir = some pd → (m.mmapBase t a).1 = some base →
    (a.anon && !a.fixed) = false →
      LoopMeets (MmapOk B pd base a) (mmapPage pd base a) (m.mmapBase t a).2 (List.range a.pages)

/-- Where `SYS_MMAP2` finds its range, only the layout changes. -/
theorem Inv.mmapBase (h : m.Inv K W O) (t : ℕ) (a : MmapArgs) :
    (m.mmapBase t a).2.Inv K W O ∧ (m.mmapBase t a).2.pds = m.pds := by
  unfold Machine.mmapBase
  split_ifs
  · exact ⟨h, rfl⟩
  · simp only []
    obtain ⟨hd, hs⟩ := (m.tasks t).reserve_same a.pages
    exact ⟨h.setLayout _ hd hs, setLayout_pds hd⟩

/-- **`SYS_MMAP2`** keeps the invariant. -/
theorem Inv.sysMmap2 (h : m.Inv K W O) (hok : m.Mmap2Ok K.Shared t a)
    (hO : ∀ pd base, (m.tasks t).pageDir = some pd → (m.mmapBase t a).1 = some base →
      (a.anon && !a.fixed) = false → ∀ i < a.pages, ∀ f,
        O pd (pdIndex (pageAt base i)) (ptIndex (pageAt base i)) (Entry.leaf f a.write)) :
    (m.sysMmap2 t a).2.Inv K W O := by
  unfold Machine.sysMmap2
  cases hd : (m.tasks t).pageDir with
  | none => exact h
  | some pd =>
    simp only []
    by_cases hlen : a.len.toNat = 0
    · rw [if_pos hlen]
      exact h
    rw [if_neg hlen]
    obtain ⟨hbase, hpds⟩ := h.mmapBase t a
    have hloop := hok pd
    have hpage := hO pd
    generalize m.mmapBase t a = r at hbase hpds hloop hpage
    obtain ⟨o, m₁⟩ := r
    cases o with
    | none => exact hbase
    | some base =>
      simp only []
      split_ifs with hlazy hfile
      · exact hbase
      · exact hbase
      · have hpd : pd ∈ m₁.pds := by
          rw [hpds]
          exact mem_pds hd
        have hfin := LoopMeets.invariant (P := fun m' => m'.Inv K W O ∧ SameTables m₁ m')
          (List.range a.pages) (fun m' i hi hm' hok' => by
            have hpd' : pd ∈ m'.pds := by
              rw [hm'.2.pds_eq]
              exact hpd
            have hstep := mmapPage_spec hm'.1 hpd' hok'
              (hpage base hd rfl (Bool.not_eq_true _ ▸ hlazy) i (List.mem_range.1 hi))
            exact ⟨hstep.1, hm'.2.trans hstep.2⟩) ⟨hbase, SameTables.refl m₁⟩
          (hloop base hd rfl (Bool.not_eq_true _ ▸ hlazy))
        generalize loop (mmapPage pd base a) (List.range a.pages) m₁ = q at hfin
        obtain ⟨b, m₂⟩ := q
        cases b with
        | true => exact hfin.1
        | false => exact hfin.1

/-! ## What the calls leave alone

`SYS_MMAP2` works on the page cache and on memory. The tasks change only where it takes a
range, and the surfaces not at all, whatever the state. -/

theorem pcGet_same (path : String) (pidx : ℕ) (fill : Option Words) (m : Machine) :
    SameTables m (m.pcGet path pidx fill).2 := by
  unfold pcGet
  split
  · exact ⟨rfl, rfl, rfl⟩
  · split
    · exact ⟨rfl, rfl, rfl⟩
    · cases fill with
      | none => exact ⟨rfl, rfl, rfl⟩
      | some words =>
        simp only
        split_ifs <;> exact ⟨rfl, rfl, rfl⟩

theorem pagecacheAcquire_same (path : String) (size pidx : ℕ) (fill : Option Words)
    (m : Machine) : SameTables m (m.pagecacheAcquire path size pidx fill).2 := by
  have hget := pcGet_same path pidx fill m
  unfold pagecacheAcquire
  split_ifs
  · exact SameTables.refl m
  · generalize m.pcGet path pidx fill = r at hget
    obtain ⟨_ | f, m'⟩ := r
    · exact hget
    · exact ⟨hget.tasks, hget.taskCount, hget.surf⟩

theorem filePread_same (a : MmapArgs) (f : FileDesc) (phys i : ℕ) (m : Machine) :
    SameTables m (m.filePread a f phys i) := by
  have hget := pcGet_same f.path (a.pgoff.toNat + i) (a.fill i) m
  unfold filePread
  simp only
  split_ifs
  · exact SameTables.refl m
  · generalize m.pcGet f.path (a.pgoff.toNat + i) (a.fill i) = r at hget
    obtain ⟨_ | g, m'⟩ := r
    · exact hget
    · exact ⟨hget.tasks, hget.taskCount, hget.surf⟩
  · exact ⟨rfl, rfl, rfl⟩

theorem mmapShared_same (a : MmapArgs) (i : ℕ) (m : Machine) :
    SameTables m (m.mmapShared a i).2 := by
  unfold mmapShared
  cases a.file with
  | none => exact SameTables.refl m
  | some f =>
    simp only
    split_ifs
    · exact pagecacheAcquire_same _ _ _ _ m
    · exact SameTables.refl m

theorem mmapFresh_same (a : MmapArgs) (i : ℕ) (m : Machine) :
    SameTables m (m.mmapFresh a i).2 := by
  unfold mmapFresh
  rcases m.vm.allocFrame with ⟨_ | phys, vm⟩
  · exact ⟨rfl, rfl, rfl⟩
  · cases a.file with
    | none => exact ⟨rfl, rfl, rfl⟩
    | some f =>
      simp only
      split_ifs
      · have hread := filePread_same a f phys i { m with vm := vm.setFrame phys zeroWords }
        exact ⟨hread.tasks, hread.taskCount, hread.surf⟩
      · exact ⟨rfl, rfl, rfl⟩

theorem mmapPage_same (pd base : ℕ) (a : MmapArgs) (m : Machine) (i : ℕ) :
    SameTables m (mmapPage pd base a m i).2 := by
  have hframe : SameTables m (m.mmapFrame a i).2 := by
    have hshared := mmapShared_same a i m
    unfold mmapFrame
    generalize m.mmapShared a i = r at hshared
    obtain ⟨_ | f, m'⟩ := r
    · simp only
      split_ifs
      · exact hshared
      · exact hshared.trans (mmapFresh_same a i m')
    · exact hshared
  unfold mmapPage
  generalize m.mmapFrame a i = r at hframe
  obtain ⟨_ | phys, m'⟩ := r
  · exact hframe
  · simp only
    split_ifs <;> exact ⟨hframe.tasks, hframe.taskCount, hframe.surf⟩

/-- Whatever `SYS_MMAP2` does, the tasks and the surfaces are those from before the call, or
those from after the range was found. -/
theorem sysMmap2_same (t : ℕ) (a : MmapArgs) (m : Machine) :
    SameTables m (m.sysMmap2 t a).2 ∨ SameTables (m.mmapBase t a).2 (m.sysMmap2 t a).2 := by
  unfold sysMmap2
  cases (m.tasks t).pageDir with
  | none => exact .inl (SameTables.refl m)
  | some pd =>
    simp only
    by_cases hlen : a.len.toNat = 0
    · rw [if_pos hlen]
      exact .inl (SameTables.refl m)
    · rw [if_neg hlen]
      refine .inr ?_
      obtain ⟨_ | base, m'⟩ := m.mmapBase t a
      · exact SameTables.refl m'
      · simp only
        split_ifs
        · exact SameTables.refl m'
        · exact SameTables.refl m'
        · have hloop : SameTables m' (loop (mmapPage pd base a) (List.range a.pages) m').2 :=
            loop_invariant (List.range a.pages)
              (fun m₁ i _ h => h.trans (mmapPage_same pd base a m₁ i)) (SameTables.refl m')
          generalize loop (mmapPage pd base a) (List.range a.pages) m' = q at hloop
          obtain ⟨_ | _, m''⟩ := q <;> exact hloop

/-- The surfaces after `SYS_MMAP2`. -/
theorem sysMmap2_surf (t : ℕ) (a : MmapArgs) (m : Machine) :
    (m.sysMmap2 t a).2.surf = m.surf := by
  have hbase : (m.mmapBase t a).2.surf = m.surf := by
    unfold mmapBase
    split_ifs <;> rfl
  rcases sysMmap2_same t a m with h | h
  · exact h.surf
  · exact h.surf.trans hbase

end Machine

end Makar
