import Makar.MachineInv

/-!
# The page cache and file mappings

The page cache holds one reference on the frame of each of its slots, and fills
a frame only while that is the only one: a frame that is mapped as well is given
up for a new one. `SYS_MMAP2` maps the frames of the cache read-only, with a
reference more for each page, and everything else from new frames.

A failed allocation is not noticed by `pc_get`, which keeps the error value as if
it were a frame. The value refers to nothing, and what the allocator is later
asked about it comes to nothing either (`freeFrame_errorFrame`), so the
references stay in order; the kernel only stops if the page can be read.
-/

namespace Makar

open List Multiset

namespace Machine

variable {K : Kernel} {W : Prop} {O : ℕ → ℕ → ℕ → Entry → Prop} {S : Set ℕ}
  {P : ℕ → ℕ → ℕ → Entry → Prop} {pds : Set ℕ} {L : Multiset ℕ} {m m' : Machine} {vm : Vm}
  {pd i j f old : ℕ} {e : Entry}

/-! ## References of the cache -/

@[simp] theorem frameRef_zero : frameRef 0 = 0 := if_pos (.inl rfl)

@[simp] theorem frameRef_errorFrame : frameRef errorFrame = 0 := if_pos (.inr rfl)

theorem frameRef_of_real (h0 : f ≠ 0) (h1 : f ≠ errorFrame) : frameRef f = {f} :=
  if_neg (not_or.2 ⟨h0, h1⟩)

theorem pcRefs_cons (p : PcPage) (l : List PcPage) :
    pcRefs (p :: l) = frameRef p.frame + pcRefs l := by
  unfold pcRefs
  rw [List.map_cons, List.sum_cons]

theorem pcRefs_append (l₁ l₂ : List PcPage) : pcRefs (l₁ ++ l₂) = pcRefs l₁ + pcRefs l₂ := by
  unfold pcRefs
  rw [map_append, sum_append]

theorem pcRefs_singleton (p : PcPage) : pcRefs [p] = frameRef p.frame := by
  unfold pcRefs
  rw [List.map_singleton, List.sum_singleton]

theorem mem_pcRefs {p : PcPage} {l : List PcPage} (hp : p ∈ l) (h0 : p.frame ≠ 0)
    (h1 : p.frame ≠ errorFrame) : p.frame ∈ pcRefs l := by
  have hle : frameRef p.frame ≤ pcRefs l :=
    single_le_sum (fun N _ => zero_le) _ (mem_map.2 ⟨p, hp, rfl⟩)
  refine mem_of_le hle ?_
  rw [frameRef_of_real h0 h1]
  exact Multiset.mem_singleton_self _

/-- The references of the least recently used slot, and of the others. -/
theorem pcRefs_getLast {l : List PcPage} {p : PcPage} (h : l.getLast? = some p) :
    pcRefs l = frameRef p.frame + pcRefs l.dropLast := by
  rw [← dropLast_append_getLast? p h, pcRefs_append, pcRefs_singleton, dropLast_concat, add_comm]

/-- A page that is found is valid. -/
theorem valid_of_find {l : List PcPage} {p : PcPage} {path : String} {pidx : ℕ}
    (h : l.find? (pcMatch path pidx) = some p) : p.valid = true := by
  have hmatch := find?_some h
  unfold pcMatch at hmatch
  rw [Bool.and_eq_true, Bool.and_eq_true] at hmatch
  exact hmatch.1.1

/-- Moving a slot to the front changes no reference. -/
theorem pcRefs_touch {l : List PcPage} {q : PcPage → Bool} {p : PcPage} (hf : l.find? q = some p) :
    pcRefs (p :: l.eraseP q) = pcRefs l := by
  obtain ⟨hq, as, bs, rfl, has⟩ := find?_eq_some_iff_append.1 hf
  have herase : (as ++ p :: bs).eraseP q = as ++ bs := by
    rw [eraseP_append_right _ (fun b hb => by simpa using has b hb),
      eraseP_cons_of_pos hq]
  rw [herase, pcRefs_cons, pcRefs_append, pcRefs_append, pcRefs_cons, ← add_assoc,
    add_comm (frameRef p.frame), add_assoc]

/-! ## Frames -/

theorem errorFrame_not_mem (K : Kernel) : errorFrame ∉ K.frames := by
  intro hc
  have := K.lt_idmapEnd _ hc
  exact absurd this (by decide)

/-- Giving up the error value changes nothing. -/
theorem freeFrame_errorFrame (h : vm.Inv K W S P pds L) : vm.freeFrame errorFrame = vm := by
  have hle : vm.pmm.maxFrames ≤ errorFrame := h.pmm.max_le.trans (by decide)
  unfold Vm.freeFrame Pmm.pmmFreeFrame Pmm.pmmFreePages
  simp only [Pmm.mul_div_pmmFrameSize, hle, if_true]

/-- The frame `pc_get` fills is that of the slot where the cache alone has it, and otherwise an
allocation, once the slot refers to nothing. -/
theorem pcFrame_eq (old : ℕ) (vm : Vm) :
    old ≠ 0 ∧ vm.refCount old = 1 ∧ pcFrame old vm = (old, vm)
      ∨ ∃ v, (old = 0 ∧ v = vm ∨ old ≠ 0 ∧ vm.refCount old ≠ 1 ∧ v = vm.freeFrame old)
        ∧ pcFrame old vm = (v.allocFrame.1.getD errorFrame, v.allocFrame.2) := by
  have halloc : ∀ v : Vm, pcFrame 0 v = (v.allocFrame.1.getD errorFrame, v.allocFrame.2) := by
    intro v
    unfold pcFrame
    simp only [ne_eq, not_true_eq_false, false_and, if_false, if_true]
    rcases v.allocFrame with ⟨_ | f, v⟩
    · rw [Option.getD_none]
    · rfl
  by_cases h0 : old = 0
  · exact .inr ⟨vm, .inl ⟨h0, rfl⟩, h0 ▸ halloc vm⟩
  by_cases hone : vm.refCount old = 1
  · exact .inl ⟨h0, hone, by simp [pcFrame, h0, hone]⟩
  · have hcond : old ≠ 0 ∧ vm.refCount old ≠ 1 := ⟨h0, hone⟩
    refine .inr ⟨vm.freeFrame old, .inr ⟨h0, hone, rfl⟩, ?_⟩
    rw [← halloc]
    simp only [pcFrame, if_pos hcond, ne_eq, not_true_eq_false, false_and, if_false, if_true]

/-- The frame `pc_get` fills, with what was in the slot taken out of the
books and what will be put in. -/
theorem pcFrame_spec (h : vm.Inv K W S P pds (frameRef old + L)) (hS : ∀ f ∈ S, f ∈ L) :
    (pcFrame old vm).2.Inv K W S P pds (frameRef (pcFrame old vm).1 + L)
      ∧ (pcFrame old vm).1 ≠ 0
      ∧ ∀ f ∈ L, vm.refs f = 1 → (pcFrame old vm).2.refs f = 1 := by
  rcases pcFrame_eq old vm with ⟨h0, -, heq⟩ | ⟨v, hv, heq⟩ <;> rw [heq]
  · exact ⟨h, h0, fun f _ hf => hf⟩
  -- the slot refers to nothing
  obtain ⟨hinv, hkeep⟩ : v.Inv K W S P pds L ∧ ∀ f ∈ L, vm.refs f = 1 → v.refs f = 1 := by
    rcases hv with ⟨rfl, rfl⟩ | ⟨h0, hone, rfl⟩
    · rw [frameRef_zero, zero_add] at h
      exact ⟨h, fun f _ hf => hf⟩
    by_cases herr : old = errorFrame
    · rw [herr, frameRef_errorFrame, zero_add] at h
      rw [herr, freeFrame_errorFrame h]
      exact ⟨h, fun f _ hf => hf⟩
    · rw [frameRef_of_real h0 herr, singleton_add] at h
      refine ⟨h.freeFrame (h.not_mem_surface hS), fun f _ hf => ?_⟩
      rw [h.refs_freeFrame, if_neg]
      · exact hf
      · rintro rfl
        exact hone ((h.refCount_eq _).trans hf)
  rcases hinv.allocFrame with heq | ⟨f, u, heq, ha, hu⟩
  · simp only [heq, Option.getD_none, frameRef_errorFrame, zero_add]
    exact ⟨hinv, by decide, hkeep⟩
  · have hmem := hu.mem_frames ha.one.ge
    have h0 : f ≠ 0 := fun h => K.zero_not_mem (h ▸ hmem)
    have h1 : f ≠ errorFrame := fun h => errorFrame_not_mem K (h ▸ hmem)
    simp only [heq, Option.getD_some, frameRef_of_real h0 h1, singleton_add]
    exact ⟨hu, h0, fun g hg hone => (ha.keepsRefs g (hkeep g hg hone).ge).trans (hkeep g hg hone)⟩

/-! ## `pc_get` -/

/-- The calls of the page cache leave the tasks and the surfaces alone. -/
structure SameTables (m m' : Machine) : Prop where
  tasks : m'.tasks = m.tasks
  taskCount : m'.taskCount = m.taskCount
  surf : m'.surf = m.surf

theorem SameTables.refl (m : Machine) : SameTables m m := ⟨rfl, rfl, rfl⟩

theorem SameTables.trans {m₁ m₂ m₃ : Machine} (h : SameTables m₁ m₂) (h' : SameTables m₂ m₃) :
    SameTables m₁ m₃ :=
  ⟨h'.tasks.trans h.tasks, h'.taskCount.trans h.taskCount, h'.surf.trans h.surf⟩

/-- What a lookup in the page cache leaves, when `L` are the references outside
the cache. -/
structure Looked (K : Kernel) (W : Prop) (S : Set ℕ) (P : ℕ → ℕ → ℕ → Entry → Prop) (pds : Set ℕ)
    (L : Multiset ℕ) (m : Machine) (r : Option ℕ × Machine) : Prop where
  /-- The address spaces are in order. -/
  inv : r.2.vm.Inv K W S P pds (pcRefs r.2.cache + L)
  /-- Pages in the cache have frames. -/
  cached : ∀ p ∈ r.2.cache, p.valid = true → p.frame ≠ 0 ∧ p.frame ≠ errorFrame
  /-- The frame that was looked up is the cache's. -/
  mem : ∀ f, r.1 = some f → f ∈ pcRefs r.2.cache
  /-- What was held once outside the cache still is. -/
  keeps : ∀ f ∈ L, m.vm.refs f = 1 → r.2.vm.refs f = 1
  /-- Nothing else changes. -/
  same : SameTables m r.2

/-- **`pc_get`.** -/
theorem pcGet_spec (path : String) (pidx : ℕ) (fill : Option Words)
    (h : m.vm.Inv K W S P pds (pcRefs m.cache + L)) (hS : ∀ f ∈ S, f ∈ L)
    (hc : ∀ p ∈ m.cache, p.valid = true → p.frame ≠ 0 ∧ p.frame ≠ errorFrame) :
    Looked K W S P pds L m (m.pcGet path pidx fill) := by
  unfold pcGet
  cases hfind : m.cache.find? (pcMatch path pidx) with
  | some p =>
    have hp := mem_of_find?_eq_some hfind
    obtain ⟨h0, h1⟩ := hc p hp (valid_of_find hfind)
    refine ⟨?_, ?_, ?_, fun f _ hf => hf, ⟨rfl, rfl, rfl⟩⟩
    · show m.vm.Inv K W S P pds (pcRefs (p :: m.cache.eraseP (pcMatch path pidx)) + L)
      rw [pcRefs_touch hfind]
      exact h
    · intro q hq
      rcases mem_cons.1 hq with rfl | hq
      · exact hc q hp
      · exact hc q (mem_of_mem_eraseP hq)
    · intro f hf
      injection hf with hf
      subst hf
      exact mem_pcRefs mem_cons_self h0 h1
  | none =>
    cases hlast : m.cache.getLast? with
    | none => exact ⟨h, hc, fun f hf => (by cases hf), fun f _ hf => hf, SameTables.refl m⟩
    | some p =>
      have hdrop : ∀ q ∈ m.cache.dropLast, q.valid = true → q.frame ≠ 0 ∧ q.frame ≠ errorFrame :=
        fun q hq => hc q (mem_of_mem_dropLast hq)
      have h' : m.vm.Inv K W S P pds (frameRef p.frame + (pcRefs m.cache.dropLast + L)) := by
        rw [← add_assoc, ← pcRefs_getLast hlast]
        exact h
      obtain ⟨hinv, hne, hkeep⟩ := pcFrame_spec h'
        (fun f hf => mem_add.2 (.inr (hS f hf)))
      have hkeep' : ∀ f ∈ L, m.vm.refs f = 1 → (pcFrame p.frame m.vm).2.refs f = 1 :=
        fun f hf => hkeep f (mem_add.2 (.inr hf))
      simp only []
      generalize pcFrame p.frame m.vm = r at hinv hne hkeep'
      cases fill with
      | none =>
        refine ⟨?_, ?_, fun f hf => (by cases hf), hkeep', ⟨rfl, rfl, rfl⟩⟩
        · show r.2.Inv K W S P pds
            (pcRefs (m.cache.dropLast ++ [{ p with frame := r.1, valid := false }]) + L)
          rw [pcRefs_append, pcRefs_singleton, add_comm (pcRefs _), add_assoc]
          exact hinv
        · intro q hq hv
          rcases mem_append.1 hq with hq | hq
          · exact hdrop q hq hv
          · rw [List.mem_singleton.1 hq] at hv
            cases hv
      | some words =>
        simp only []
        split_ifs with herr
        · exact ⟨h, hc, fun f hf => (by cases hf), fun f _ hf => hf, ⟨rfl, rfl, rfl⟩⟩
        · have hmem : r.1 ∈ frameRef r.1 + (pcRefs m.cache.dropLast + L) := by
            refine mem_add.2 (.inl ?_)
            rw [frameRef_of_real hne herr]
            exact Multiset.mem_singleton_self _
          refine ⟨?_, ?_, ?_, hkeep', ⟨rfl, rfl, rfl⟩⟩
          · show (r.2.setFrame r.1 words).Inv K W S P pds
              (pcRefs (⟨true, path, pidx, r.1⟩ :: m.cache.dropLast) + L)
            rw [pcRefs_cons, add_assoc]
            exact hinv.setFrame (hinv.mem_frames (hinv.covered.pos_of_mem hmem))
              (hinv.data_of_mem hmem) words
          · intro q hq hv
            rcases mem_cons.1 hq with rfl | hq
            · exact ⟨hne, herr⟩
            · exact hdrop q hq hv
          · intro f hf
            injection hf with hf
            subst hf
            exact mem_pcRefs (p := ⟨true, path, pidx, r.1⟩) mem_cons_self hne herr

/-! ## From the cache to the machine -/

theorem SameTables.pds_eq (h : SameTables m m') : m'.pds = m.pds := by
  unfold pds
  rw [h.tasks]

theorem SameTables.surfFrames_eq (h : SameTables m m') : m'.surfFrames = m.surfFrames := by
  unfold surfFrames
  rw [h.surf]

theorem SameTables.pages_eq (h : SameTables m m') : m'.Pages O = m.Pages O := by
  funext pd i j e
  unfold Pages PageOk SlotAt
  rw [h.tasks, h.surf]

/-- The tables of the kernel are as they were, up to the page cache. -/
theorem Shape.same (h : m.Shape K) (hs : SameTables m m')
    (hc : ∀ p ∈ m'.cache, p.valid = true → p.frame ≠ 0 ∧ p.frame ≠ errorFrame) :
    m'.Shape K := by
  refine ⟨?_, ?_, ?_, ?_, ?_, hc, ?_⟩
  · rw [hs.tasks]
    exact h.dirs
  · rw [hs.tasks, hs.taskCount]
    exact h.unused
  · rw [hs.surf]
    exact h.free
  · rw [hs.surf]
    exact h.range
  · rw [hs.surf, hs.tasks]
    exact h.slots
  · rw [hs.surf]
    exact h.sized

/-- **A lookup keeps the invariant**, with the loose references `N` the caller
holds besides. -/
theorem Looked.machine {N : Multiset ℕ} {r : Option ℕ × Machine} (h : m.Shape K)
    (hr : Looked K W m.surfFrames (m.Pages O) m.pds (surfRefs m.surf + N) m r) :
    r.2.Shape K ∧ r.2.vm.Inv K W r.2.surfFrames (r.2.Pages O) r.2.pds (r.2.loose + N) := by
  refine ⟨h.same hr.same hr.cached, ?_⟩
  unfold loose
  rw [hr.same.surfFrames_eq, hr.same.pages_eq, hr.same.pds_eq, hr.same.surf, add_assoc]
  exact hr.inv

/-- A lookup in a machine that is in order. -/
theorem Inv.looked {N : Multiset ℕ} (h : m.Shape K)
    (hv : m.vm.Inv K W m.surfFrames (m.Pages O) m.pds (m.loose + N)) (path : String) (pidx : ℕ)
    (fill : Option Words) :
    Looked K W m.surfFrames (m.Pages O) m.pds (surfRefs m.surf + N) m (m.pcGet path pidx fill) := by
  refine pcGet_spec path pidx fill ?_ ?_ h.cached
  · unfold loose at hv
    rw [add_assoc] at hv
    exact hv
  · exact fun f hf => mem_add.2 (.inl (h.mem_surfRefs hf))

/-- **A read through the page cache.** -/
theorem Inv.pcGet (h : m.Inv K W O) (path : String) (pidx : ℕ) (fill : Option Words) :
    (m.pcGet path pidx fill).2.Inv K W O := by
  have hv : m.vm.Inv K W m.surfFrames (m.Pages O) m.pds (m.loose + 0) := by
    rw [add_zero]
    exact h.vm
  obtain ⟨hs, hi⟩ := Looked.machine h.toShape (Inv.looked h.toShape hv path pidx fill)
  rw [add_zero] at hi
  exact ⟨hs, hi⟩

/-! ## Giving slots up -/

/-- **Dropping slots of the cache** gives their references up. -/
theorem foldl_pcDrop (l : List PcPage) (h : vm.Inv K W S P pds (pcRefs l + L))
    (hS : ∀ f ∈ S, f ∈ L) : (l.foldl pcDrop vm).Inv K W S P pds L := by
  induction l generalizing vm with
  | nil =>
    unfold pcRefs at h
    rw [map_nil, sum_nil, zero_add] at h
    exact h
  | cons p l ih =>
    rw [pcRefs_cons, add_assoc] at h
    rw [List.foldl_cons]
    refine ih ?_
    have hS' : ∀ f ∈ S, f ∈ pcRefs l + L := fun f hf => mem_add.2 (.inr (hS f hf))
    unfold pcDrop frameRef at *
    by_cases h0 : p.frame = 0
    · rw [if_pos (.inl h0), zero_add] at h
      rw [if_neg (not_not.2 h0)]
      exact h
    · rw [if_pos h0]
      by_cases h1 : p.frame = errorFrame
      · rw [if_pos (.inr h1), zero_add] at h
        rw [h1, freeFrame_errorFrame h]
        exact h
      · rw [if_neg (not_or.2 ⟨h0, h1⟩), singleton_add] at h
        exact h.freeFrame (h.not_mem_surface hS')

theorem pcRefs_empty (l : List PcPage) : pcRefs (l.map (fun _ => PcPage.empty)) = 0 := by
  unfold pcRefs
  rw [List.map_map]
  exact List.sum_eq_zero (fun N hN => by
    obtain ⟨p, -, rfl⟩ := mem_map.1 hN
    rfl)

/-- An empty cache has no references. -/
theorem pcRefs_replicate {n : ℕ} : pcRefs (List.replicate n PcPage.empty) = 0 := by
  have hmap : List.replicate n PcPage.empty
      = (List.replicate n PcPage.empty).map (fun _ => PcPage.empty) := by
    rw [List.map_replicate]
  rw [hmap]
  exact pcRefs_empty _

theorem pcRefs_filter (q : PcPage → Bool) (l : List PcPage) :
    pcRefs (l.filter q) + pcRefs (l.filter (fun p => !q p)) = pcRefs l := by
  induction l with
  | nil => rfl
  | cons p l ih =>
    by_cases hq : q p = true
    · rw [filter_cons_of_pos hq, filter_cons_of_neg (by simp [hq]), pcRefs_cons,
        pcRefs_cons, add_assoc, ih]
    · rw [List.filter_cons_of_neg hq, List.filter_cons_of_pos (by simpa using hq), pcRefs_cons,
        pcRefs_cons, ← ih, add_left_comm]

/-- **`pagecache_invalidate`.** -/
theorem Inv.pagecacheInvalidate (h : m.Inv K W O) (path : String) :
    (m.pagecacheInvalidate path).Inv K W O := by
  have hsurf : ∀ f ∈ m.surfFrames, f ∈ surfRefs m.surf := fun f hf => h.mem_surfRefs hf
  have hv := h.vm
  unfold loose at hv
  rw [← pcRefs_filter (fun p => p.valid && p.path == path) m.cache, add_assoc] at hv
  have hdrop := foldl_pcDrop _ hv (fun f hf => mem_add.2 (.inr (hsurf f hf)))
  refine ⟨⟨h.dirs, h.unused, h.free, h.range, h.slots, ?_, h.sized⟩, ?_⟩
  · intro p hp hval
    rcases mem_append.1 hp with hp | hp
    · exact h.cached p (mem_of_mem_filter hp) hval
    · obtain ⟨q, -, rfl⟩ := mem_map.1 hp
      cases hval
  · have hrefs : (m.pagecacheInvalidate path).loose
        = pcRefs (m.cache.filter (fun p => !(p.valid && p.path == path))) + surfRefs m.surf := by
      unfold loose Machine.pagecacheInvalidate
      simp only []
      rw [pcRefs_append, pcRefs_empty, add_zero]
    rw [hrefs]
    exact hdrop

/-- **`pagecache_drop_all`.** -/
theorem Inv.pagecacheDropAll (h : m.Inv K W O) : m.pagecacheDropAll.Inv K W O := by
  have hsurf : ∀ f ∈ m.surfFrames, f ∈ surfRefs m.surf := fun f hf => h.mem_surfRefs hf
  have hdrop := foldl_pcDrop m.cache h.vm hsurf
  refine ⟨⟨h.dirs, h.unused, h.free, h.range, h.slots, ?_, h.sized⟩, ?_⟩
  · intro p hp hval
    rw [List.eq_of_mem_replicate hp] at hval
    cases hval
  · have hrefs : m.pagecacheDropAll.loose = surfRefs m.surf := by
      unfold loose Machine.pagecacheDropAll
      simp only []
      rw [pcRefs_replicate, zero_add]
    rw [hrefs]
    exact hdrop

end Machine

end Makar
