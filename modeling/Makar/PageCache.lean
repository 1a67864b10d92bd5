import Makar.MachineRun

/-!
# The references of the page cache

Each slot of the page cache that has a frame owns one reference on it. `pc_get`
recycles the least recently used slot on a miss: it fills the frame of the slot
again when the cache alone refers to it, and otherwise gives the reference up
and allocates. `pagecache_acquire` hands out a second reference, and
`pagecache_invalidate` and `pagecache_drop_all` give the cache's own back.

Here the books are exact. `Books` says that the count of every frame is the
number of slots that have it plus the references held outside the cache, so
that a frame is never in the pool while a slot has it. The state of a run keeps
the outside references beside the machine; between the calls of the cache any
other part of the kernel may allocate a frame or give a reference up, so that
the pool can be empty at any point.

Two things break the books. `pc_get` compares what `pmm_alloc_frame` returns
with zero, and a failed allocation returns `PMM_ALLOC_ERROR`: when the file then
cannot be read either, the error value is left in the slot as its frame. And
`pmm_inc_ref` counts no reference above 255. `PcState.Ok` is the condition on a
call that excludes both, `slots_own_frames` that the books are kept in every run
under it.
-/

namespace Makar

open List Multiset Boot

namespace Machine

/-! ## `pagecache_read` -/

/-- The local state of `pagecache_read`. -/
structure ReadState where
  /-- `done`. -/
  done : ℕ
  /-- `pc_get` failed. -/
  failed : Bool
  /-- The machine. -/
  machine : Machine

/-- A turn of the loop of `pagecache_read`; `lens` is the number of valid bytes
of each page, `p->len`. -/
def readTurn (path : String) (off toRead : ℕ) (fill : ℕ → Option Words) (lens : ℕ → ℕ)
    (r : ReadState) (_ : ℕ) : Bool × ReadState :=
  if toRead ≤ r.done then (false, r)
  else
    let pidx := (r.done + off) / pmmFrameSize
    let poff := (r.done + off) % pmmFrameSize
    match r.machine.pcGet path pidx (fill pidx) with
    | (none, m) => (false, { r with failed := true, machine := m })
    | (some _, m) =>
      if lens pidx ≤ poff then (false, { r with machine := m })
      else
        let done := r.done + min (lens pidx - poff) (toRead - r.done)
        (decide (pmmFrameSize ≤ lens pidx), { r with done := done, machine := m })

/-- `pagecache_read`: the number of bytes read, none for the error `-1`. A turn
that goes on reads a byte at least, so there are no more turns than bytes. -/
def pagecacheRead (path : String) (size off len : ℕ) (fill : ℕ → Option Words) (lens : ℕ → ℕ)
    (m : Machine) : Option ℕ × Machine :=
  let toRead := min len (size - off)
  let r := (loop (readTurn path off toRead fill lens) (List.range toRead) ⟨0, false, m⟩).2
  (if r.failed ∧ r.done = 0 then none else some r.done, r.machine)

variable {path : String} {off toRead : ℕ} {fill : ℕ → Option Words} {lens : ℕ → ℕ}

end Machine

/-! ## The calls of the cache -/

/-- A call of the page cache, or what the rest of the kernel does with frames
between two of them. -/
inductive PcCall where
  /-- `pagecache_read`, with the outcome of reading each page from the file and
  the number of its bytes. -/
  | read (path : String) (size off len : ℕ) (fill : ℕ → Option Words) (lens : ℕ → ℕ)
  /-- `pagecache_acquire`. -/
  | acquire (path : String) (size pidx : ℕ) (fill : Option Words)
  /-- `pagecache_invalidate`. -/
  | invalidate (path : String)
  /-- `pagecache_drop_all`. -/
  | dropAll
  /-- `pmm_alloc_frame`, called outside the cache. -/
  | alloc
  /-- `pmm_free_frame`, called by one who holds a reference. -/
  | free (f : ℕ)

/-- The machine, with the references on frames that are held outside the
cache. -/
structure PcState where
  /-- The machine. -/
  machine : Machine
  /-- The references that were handed out and not given back. -/
  held : Multiset ℕ

namespace PcState

/-- What a call does. Only a reference that is held is given back. -/
def act (c : PcState) : PcCall → PcState
  | .read path size off len fill lens =>
    { c with machine := (c.machine.pagecacheRead path size off len fill lens).2 }
  | .acquire path size pidx fill =>
    match c.machine.pagecacheAcquire path size pidx fill with
    | (none, m) => ⟨m, c.held⟩
    | (some f, m) => ⟨m, f ::ₘ c.held⟩
  | .invalidate path => { c with machine := c.machine.pagecacheInvalidate path }
  | .dropAll => { c with machine := c.machine.pagecacheDropAll }
  | .alloc =>
    match c.machine.vm.allocFrame with
    | (none, vm) => ⟨{ c.machine with vm := vm }, c.held⟩
    | (some f, vm) => ⟨{ c.machine with vm := vm }, f ::ₘ c.held⟩
  | .free f =>
    if f ∈ c.held then ⟨{ c.machine with vm := c.machine.vm.freeFrame f }, c.held.erase f⟩ else c

/-- A call; a kernel that has stopped makes none. -/
def step (c : PcState) (call : PcCall) : PcState :=
  if c.machine.panicked then c else c.act call

/-- **Every slot owns its frame**: a slot with a frame has a real one, among the
managed frames `M` and not in the pool, the count of which is the reference of
the slot and those held outside the cache; and no other slot has the same. -/
structure SlotsOwn (M : Set ℕ) (c : PcState) : Prop where
  /-- The frame is managed. -/
  managed : ∀ p ∈ c.machine.cache, p.frame ≠ 0 → p.frame ∈ M
  /-- The frame is not free. -/
  not_inPool : ∀ p ∈ c.machine.cache, p.frame ≠ 0 → ¬ c.machine.vm.pmm.InPool p.frame
  /-- The slot holds one reference. -/
  one : ∀ p ∈ c.machine.cache, p.frame ≠ 0 →
    (c.machine.vm.pmm.memMap p.frame).refcount = 1 + c.held.count p.frame
  /-- No two slots have the same frame. -/
  apart : c.machine.cache.Pairwise (fun p q => p.frame ≠ 0 → p.frame ≠ q.frame)

/-- **A page that cannot be read finds a frame**: when `pc_get` misses, needs a
frame that is not the slot's own, and the file cannot be read, the pool is not
empty. -/
def FillOk (path : String) (pidx : ℕ) (fill : Option Words) (m : Machine) : Prop :=
  fill = none → m.cache.find? (Machine.pcMatch path pidx) = none →
    ∀ p, m.cache.getLast? = some p → p.frame = 0 ∨ m.vm.refCount p.frame ≠ 1 →
      ∃ x, m.vm.pmm.InPool x

/-- **The condition on a call**: no page that cannot be read meets an empty pool,
at any `pc_get` of the call, and no reference is handed out on a cached frame
that has 255. -/
def Ok (c : PcState) : PcCall → Prop
  | .read path size off len fill lens =>
    let toRead := min len (size - off)
    LoopMeets
      (fun r _ => r.done < toRead →
        FillOk path ((r.done + off) / pmmFrameSize) (fill ((r.done + off) / pmmFrameSize)) r.machine)
      (Machine.readTurn path off toRead fill lens) ⟨0, false, c.machine⟩ (List.range toRead)
  | .acquire path size pidx fill => pidx * pmmFrameSize < size →
      FillOk path pidx fill c.machine
        ∧ ∀ p, c.machine.cache.find? (Machine.pcMatch path pidx) = some p →
          c.machine.vm.refCount p.frame < 0xFF
  | _ => True

end PcState

/-! ## Exact books -/

/-- **The books of the cache**, with the references `N` held outside it: every
count is exact, no frame is in two slots, and no slot has the error value. -/
structure Books (M : Set ℕ) (N : Multiset ℕ) (vm : Vm) (cache : List PcPage) : Prop where
  /-- The allocator is in order. -/
  pmm : vm.pmm.Inv M none
  /-- Every reference is counted, and nothing else is. -/
  count : ∀ f, vm.refs f = (pcRefs cache + N).count f
  /-- No frame is in two slots. -/
  nodup : (pcRefs cache).Nodup
  /-- No slot has the error value. -/
  real : ∀ p ∈ cache, p.frame ≠ errorFrame
  /-- A slot with a page has a frame. -/
  valid : ∀ p ∈ cache, p.valid = true → p.frame ≠ 0

namespace Books

open Machine

variable {M : Set ℕ} {N L : Multiset ℕ} {vm : Vm} {cache : List PcPage} {f old : ℕ}

/-- The books of a cache whose slots are old ones, or new ones in order. -/
theorem renew {v : Vm} {l : List PcPage} (h : Books M N vm cache) (hpmm : v.pmm.Inv M none)
    (hc : ∀ f, v.refs f = (pcRefs l + L).count f) (hnodup : (pcRefs l).Nodup)
    (hl : ∀ p ∈ l, p ∈ cache ∨ p.frame ≠ errorFrame ∧ (p.valid = true → p.frame ≠ 0)) :
    Books M L v l :=
  ⟨hpmm, hc, hnodup, fun p hp => (hl p hp).elim (h.real p) And.left,
    fun p hp hv => (hl p hp).elim (fun hp => h.valid p hp hv) (fun hn => hn.2 hv)⟩

/-- A frame with references is managed. -/
theorem mem_of_refs (h : vm.pmm.Inv M none) (hf : vm.refs f ≠ 0) : f ∈ M := by
  by_contra hn
  exact hf (h.clear_of_not_mem hn).2

/-- **What the books say of the slots.** -/
theorem slotsOwn {c : PcState} (h : Books M c.held c.machine.vm c.machine.cache) :
    c.SlotsOwn M := by
  have hmem : ∀ p ∈ c.machine.cache, p.frame ≠ 0 → p.frame ∈ pcRefs c.machine.cache :=
    fun p hp h0 => mem_pcRefs hp h0 (h.real p hp)
  have hone : ∀ p ∈ c.machine.cache, p.frame ≠ 0 →
      c.machine.vm.refs p.frame = 1 + c.held.count p.frame := by
    intro p hp h0
    rw [h.count, count_add, count_eq_one_of_mem h.nodup (hmem p hp h0)]
  refine ⟨fun p hp h0 => mem_of_refs h.pmm ?_, fun p hp h0 hpool => ?_, hone, ?_⟩
  · rw [hone p hp h0]
    omega
  · have hz : c.machine.vm.refs p.frame = 0 := Pmm.refcount_of_inPool h.pmm hpool
    rw [hone p hp h0] at hz
    omega
  · have hreal := h.real
    have hnodup := h.nodup
    generalize c.machine.cache = l at hreal hnodup
    induction l with
    | nil => exact List.Pairwise.nil
    | cons p l ih =>
      rw [pcRefs_cons, nodup_add] at hnodup
      refine List.Pairwise.cons (fun q hq h0 heq => ?_)
        (ih (fun q hq => hreal q (mem_cons_of_mem p hq)) hnodup.2.1)
      have h1 := hreal p mem_cons_self
      have hp : p.frame ∈ frameRef p.frame := by
        unfold frameRef
        rw [if_neg (not_or.2 ⟨h0, h1⟩)]
        exact Multiset.mem_singleton_self _
      have hq' : p.frame ∈ pcRefs l := by
        rw [heq] at h0 h1 ⊢
        exact mem_pcRefs hq h0 h1
      exact disjoint_left.1 hnodup.2.2 hp hq'

/-! ## Frames in and out -/

/-- `pmm_free_frame` with the references `L` left. -/
theorem count_freeFrame (h : vm.pmm.Inv M none)
    (hc : ∀ g, vm.refs g = (f ::ₘ L).count g) (g : ℕ) :
    (vm.freeFrame f).refs g = L.count g := by
  rw [Vm.refs_freeFrame_of_pmm h, hc, hc, Multiset.count_cons_self]
  split_ifs with hg
  · rw [hg]
    omega
  · rw [Multiset.count_cons_of_ne hg]

theorem pmm_freeFrame (h : vm.pmm.Inv M none) (f : ℕ) : (vm.freeFrame f).pmm.Inv M none :=
  (Pmm.pmmFreePages_spec h (f * pmmFrameSize) 0).1

/-- **`pmm_alloc_frame`, in exact books**: it fails on an empty pool, or adds one
reference on a frame that had none. -/
theorem allocFrame (h : vm.pmm.Inv M none) (hc : ∀ g, vm.refs g = L.count g) :
    (vm.allocFrame = (none, vm) ∧ ∀ x, ¬ vm.pmm.InPool x)
      ∨ ∃ f vm', vm.allocFrame = (some f, vm') ∧ vm'.pmm.Inv M none
        ∧ (∀ g, vm'.refs g = (f ::ₘ L).count g) ∧ f ∉ L := by
  rcases Vm.Inv.alloc_of_pmm h with hno | ⟨f, v, heq, ha, hv, -⟩
  · exact .inl hno
  · refine .inr ⟨f, v, heq, hv, fun g => ?_, ?_⟩
    · rw [ha.refs_eq, hc, Multiset.count_cons]
    · rw [← Multiset.count_eq_zero, ← hc]
      exact ha.free

/-- What `pc_get` gets to fill: the error value from an empty pool, when the
frame of the slot could not be kept, or a frame with one reference that no other
slot has. -/
theorem pcFrame_cases (hM0 : 0 ∉ M) (hM1 : errorFrame ∉ M) (h : vm.pmm.Inv M none)
    (hc : ∀ g, vm.refs g = (frameRef old + L).count g) (hold : old ≠ errorFrame) :
    (pcFrame old vm).1 = errorFrame ∧ (old = 0 ∨ vm.refCount old ≠ 1)
        ∧ (∀ x, ¬ vm.pmm.InPool x)
      ∨ (pcFrame old vm).1 ≠ 0 ∧ (pcFrame old vm).1 ≠ errorFrame
        ∧ (pcFrame old vm).2.pmm.Inv M none
        ∧ (∀ g, (pcFrame old vm).2.refs g = ((pcFrame old vm).1 ::ₘ L).count g)
        ∧ (pcFrame old vm).1 ∉ L := by
  rcases pcFrame_eq old vm with ⟨h0, hone, heq⟩ | ⟨v, hv, heq⟩ <;> rw [heq]
  · rw [frameRef_of_real h0 hold, singleton_add] at hc
    refine .inr ⟨h0, hold, h, hc, ?_⟩
    have hcount := hc old
    rw [← Vm.refCount_of_pmm h, hone, Multiset.count_cons_self] at hcount
    exact count_eq_zero.1 (Nat.succ_injective hcount.symm)
  -- the slot refers to nothing
  obtain ⟨hgone, hpmm, hcv, hpool⟩ : (old = 0 ∨ vm.refCount old ≠ 1) ∧ v.pmm.Inv M none
      ∧ (∀ g, v.refs g = L.count g) ∧ ∀ x, vm.pmm.InPool x → v.pmm.InPool x := by
    rcases hv with ⟨rfl, rfl⟩ | ⟨h0, hone, rfl⟩
    · rw [frameRef_zero, zero_add] at hc
      exact ⟨.inl rfl, h, hc, fun x => id⟩
    · rw [frameRef_of_real h0 hold, singleton_add] at hc
      exact ⟨.inr hone, pmm_freeFrame h old, count_freeFrame h hc,
        fun x => h.inPool_freePages _ 0⟩
  rcases allocFrame hpmm hcv with ⟨heq, hno⟩ | ⟨f, u, heq, hu, hcu, hfL⟩
  · simp only [heq, Option.getD_none]
    exact .inl ⟨trivial, hgone, fun x hx => hno x (hpool x hx)⟩
  · have hf : f ∈ M := by
      refine mem_of_refs hu ?_
      rw [hcu, Multiset.count_cons_self]
      exact Nat.succ_ne_zero _
    simp only [heq, Option.getD_some]
    exact .inr ⟨fun h0 => hM0 (h0 ▸ hf), fun h1 => hM1 (h1 ▸ hf), hu, hcu, hfL⟩

/-! ## The calls keep the books -/

section Calls

variable {m : Machine}

/-- What a lookup leaves: the books, and a frame in the cache that has one
reference or was there before. -/
structure Found (M : Set ℕ) (N : Multiset ℕ) (path : String) (pidx : ℕ) (m : Machine)
    (r : Option ℕ × Machine) : Prop where
  /-- The books are in order. -/
  books : Books M N r.2.vm r.2.cache
  /-- The frame is the cache's. -/
  mem : ∀ f, r.1 = some f → f ∈ pcRefs r.2.cache
  /-- On a miss, the frame has one reference. -/
  count : ∀ f, r.1 = some f → r.2.vm.refs f = 1
    ∨ ∃ p, m.cache.find? (pcMatch path pidx) = some p ∧ p.frame = f ∧ r.2.vm = m.vm

section

variable (hM0 : 0 ∉ M) (hM1 : errorFrame ∉ M)
include hM0 hM1

/-- **`pc_get` keeps the books**, if a page that cannot be read finds a frame. -/
theorem pcGet (h : Books M N m.vm m.cache) (path : String) (pidx : ℕ) (fill : Option Words)
    (hok : PcState.FillOk path pidx fill m) : Found M N path pidx m (m.pcGet path pidx fill) := by
  unfold Machine.pcGet
  cases hfind : m.cache.find? (pcMatch path pidx) with
  | some p =>
    have hp := mem_of_find?_eq_some hfind
    refine ⟨h.renew h.pmm (fun f => ?_) ?_ fun q hq => .inl ?_, fun f hf => ?_,
      fun f hf => .inr ⟨p, hfind, ?_, rfl⟩⟩
    · show m.vm.refs f = (pcRefs (p :: m.cache.eraseP (pcMatch path pidx)) + N).count f
      rw [pcRefs_touch hfind]
      exact h.count f
    · show (pcRefs (p :: m.cache.eraseP (pcMatch path pidx))).Nodup
      rw [pcRefs_touch hfind]
      exact h.nodup
    · rcases mem_cons.1 hq with rfl | hq
      · exact hp
      · exact mem_of_mem_eraseP hq
    · injection hf with hf
      subst hf
      exact mem_pcRefs mem_cons_self (h.valid p hp (valid_of_find hfind)) (h.real p hp)
    · injection hf
  | none =>
    cases hlast : m.cache.getLast? with
    | none => exact ⟨h, fun f hf => (by cases hf), fun f hf => (by cases hf)⟩
    | some p =>
      have hdrop : ∀ q ∈ m.cache.dropLast, q ∈ m.cache := fun q => mem_of_mem_dropLast
      have hp : p ∈ m.cache := mem_of_getLast? hlast
      have hrefs := pcRefs_getLast hlast
      have hnodup : (pcRefs m.cache.dropLast).Nodup := by
        have := h.nodup
        rw [hrefs, nodup_add] at this
        exact this.2.1
      have hcount : ∀ g, m.vm.refs g = (frameRef p.frame + (pcRefs m.cache.dropLast + N)).count g := by
        intro g
        rw [h.count g, hrefs, add_assoc]
      have hcases := pcFrame_cases hM0 hM1 h.pmm hcount (h.real p hp)
      have hneed : fill = none → p.frame = 0 ∨ m.vm.refCount p.frame ≠ 1 →
          ∃ x, m.vm.pmm.InPool x := fun hnone => hok hnone hfind p hlast
      simp only []
      generalize pcFrame p.frame m.vm = r at hcases
      rcases hcases with ⟨herr, hold, hno⟩ | ⟨h0, h1, hpmm, hc, hfresh⟩
      · cases fill with
        | none =>
          obtain ⟨x, hx⟩ := hneed rfl hold
          exact absurd hx (hno x)
        | some words =>
          simp only [if_pos herr]
          exact ⟨h, fun f hf => (by cases hf), fun f hf => (by cases hf)⟩
      -- the slot with the frame it gets, wherever it goes in the list
      · have hcons : frameRef r.1 = {r.1} := frameRef_of_real h0 h1
        have hnew : (r.1 ::ₘ pcRefs m.cache.dropLast).Nodup :=
          nodup_cons.2
            ⟨fun hmem => hfresh (mem_add.2 (.inl hmem)), hnodup⟩
        have hbooks : ∀ (v : Vm) (l : List PcPage), v.pmm = r.2.pmm →
            pcRefs l = r.1 ::ₘ pcRefs m.cache.dropLast →
            (∀ q ∈ l, q ∈ m.cache.dropLast ∨ q.frame = r.1) → Books M N v l := by
          intro v l hv hlist hl
          refine h.renew (hv ▸ hpmm) (fun f => ?_) (hlist ▸ hnew)
            fun q hq => (hl q hq).imp (hdrop q) fun hq => ?_
          · rw [hlist, cons_add, Vm.refs, hv]
            exact hc f
          · rw [hq]
            exact ⟨h1, fun _ => h0⟩
        cases fill with
        | none =>
          refine ⟨hbooks _ _ rfl ?_ fun q hq => ?_, fun f hf => (by cases hf),
            fun f hf => (by cases hf)⟩
          · rw [pcRefs_append, pcRefs_singleton, hcons, add_comm, singleton_add]
          · rcases mem_append.1 hq with hq | hq
            · exact .inl hq
            · rw [List.mem_singleton.1 hq]
              exact .inr rfl
        | some words =>
          have hlist : pcRefs (⟨true, path, pidx, r.1⟩ :: m.cache.dropLast)
              = r.1 ::ₘ pcRefs m.cache.dropLast := by
            rw [pcRefs_cons, hcons, singleton_add]
          simp only [if_neg h1]
          refine ⟨hbooks _ _ rfl hlist fun q hq => ?_, fun f hf => ?_, fun f hf => .inl ?_⟩
          · rcases mem_cons.1 hq with rfl | hq
            · exact .inr rfl
            · exact .inl hq
          · injection hf with hf
            dsimp only
            rw [hlist, ← hf]
            exact mem_cons_self _ _
          · injection hf with hf
            rw [← hf]
            show r.2.refs r.1 = 1
            rw [hc, Multiset.count_cons_self, Multiset.count_eq_zero_of_notMem hfresh]

/-- **`pagecache_read` keeps the books.** -/
theorem pagecacheRead {c : PcState} {path : String} {size off len : ℕ} {fill : ℕ → Option Words}
    {lens : ℕ → ℕ} (h : Books M c.held c.machine.vm c.machine.cache)
    (hok : c.Ok (.read path size off len fill lens)) :
    Books M c.held (c.machine.pagecacheRead path size off len fill lens).2.vm
      (c.machine.pagecacheRead path size off len fill lens).2.cache := by
  unfold Machine.pagecacheRead
  refine LoopMeets.invariant (P := fun r => Books M c.held r.machine.vm r.machine.cache) _
    (fun r i _ hr hfill => ?_) h hok
  unfold readTurn
  split_ifs with hend
  · exact hr
  have hget := (pcGet hM0 hM1 hr path _ _ (hfill (Nat.lt_of_not_le hend))).books
  dsimp only
  generalize r.machine.pcGet path ((r.done + off) / pmmFrameSize)
    (fill ((r.done + off) / pmmFrameSize)) = q at hget
  obtain ⟨f, m⟩ := q
  cases f with
  | none => exact hget
  | some f =>
    by_cases hshort : lens ((r.done + off) / pmmFrameSize) ≤ (r.done + off) % pmmFrameSize
    · simp only [if_pos hshort]
      exact hget
    · simp only [if_neg hshort]
      exact hget

/-- **`pagecache_acquire` keeps the books**, with the reference it hands out. -/
theorem pagecacheAcquire {c : PcState} {path : String} {size pidx : ℕ} {fill : Option Words}
    (h : Books M c.held c.machine.vm c.machine.cache) (hok : c.Ok (.acquire path size pidx fill)) :
    let c' := c.act (.acquire path size pidx fill)
    Books M c'.held c'.machine.vm c'.machine.cache := by
  unfold PcState.act Machine.pagecacheAcquire
  by_cases hsize : size ≤ pidx * pmmFrameSize
  · simp only [if_pos hsize]
    exact h
  obtain ⟨hfill, hlt⟩ := hok (Nat.lt_of_not_le hsize)
  have hget := pcGet hM0 hM1 h path pidx fill hfill
  simp only [if_neg hsize]
  generalize c.machine.pcGet path pidx fill = q at hget
  obtain ⟨f, m⟩ := q
  cases f with
  | none => exact hget.books
  | some f =>
    have hbooks := hget.books
    have hpos : 1 ≤ m.vm.refs f := by
      rw [hbooks.count, count_add]
      have := one_le_count_iff_mem.2 (hget.mem f rfl)
      omega
    have hbelow : m.vm.refs f < 0xFF := by
      rcases hget.count f rfl with hone | ⟨p, hfind, hp, hvm⟩
      · exact hone.trans_lt (by decide)
      · have hcount := hlt p hfind
        rw [hp, Vm.refCount_of_pmm h.pmm] at hcount
        dsimp only at hvm
        rw [hvm]
        exact hcount
    refine ⟨(Pmm.pmmIncRef_spec hbooks.pmm (f * pmmFrameSize)).1, fun g => ?_, hbooks.nodup,
      hbooks.real, hbooks.valid⟩
    dsimp only
    rw [Vm.refs_incRef_of_pmm hbooks.pmm hpos hbelow, hbooks.count, hbooks.count,
      Multiset.add_cons, Multiset.count_cons]
    by_cases hg : g = f
    · rw [if_pos hg, if_pos hg, hg]
    · rw [if_neg hg, if_neg hg, add_zero]

end

/-- **Slots that are given up** give their references back. -/
theorem foldl_pcDrop (l : List PcPage) (hpmm : vm.pmm.Inv M none)
    (hc : ∀ g, vm.refs g = (pcRefs l + L).count g) (hreal : ∀ p ∈ l, p.frame ≠ errorFrame) :
    (l.foldl pcDrop vm).pmm.Inv M none ∧ ∀ g, (l.foldl pcDrop vm).refs g = L.count g := by
  induction l generalizing vm with
  | nil =>
    refine ⟨hpmm, fun g => ?_⟩
    have hnil : pcRefs [] = 0 := rfl
    rw [hnil, zero_add] at hc
    exact hc g
  | cons p l ih =>
    rw [pcRefs_cons, add_assoc] at hc
    have hrest : ∀ q ∈ l, q.frame ≠ errorFrame := fun q hq => hreal q (mem_cons_of_mem p hq)
    rw [List.foldl_cons]
    unfold pcDrop
    by_cases h0 : p.frame = 0
    · rw [if_neg (not_not.2 h0)]
      rw [frameRef, if_pos (.inl h0), zero_add] at hc
      exact ih hpmm hc hrest
    · rw [if_pos h0]
      rw [frameRef_of_real h0 (hreal p mem_cons_self), singleton_add] at hc
      exact ih (pmm_freeFrame hpmm p.frame) (count_freeFrame hpmm hc) hrest

/-- An empty slot has no frame and no page. -/
theorem of_mem_empty {l : List PcPage} {q : PcPage} (hq : q ∈ l.map (fun _ => PcPage.empty)) :
    q = PcPage.empty := by
  obtain ⟨p, -, rfl⟩ := mem_map.1 hq
  rfl

/-- **`pagecache_invalidate` keeps the books.** -/
theorem pagecacheInvalidate (h : Books M N m.vm m.cache) (path : String) :
    Books M N (m.pagecacheInvalidate path).vm (m.pagecacheInvalidate path).cache := by
  let q : PcPage → Bool := fun p => p.valid && p.path == path
  have hrefs : pcRefs m.cache
      = pcRefs (m.cache.filter q) + pcRefs (m.cache.filter (fun p => !q p)) :=
    (pcRefs_filter q m.cache).symm
  have hkept : pcRefs (m.pagecacheInvalidate path).cache
      = pcRefs (m.cache.filter (fun p => !q p)) := by
    unfold Machine.pagecacheInvalidate
    dsimp only
    rw [pcRefs_append, pcRefs_empty, add_zero]
  have hcount : ∀ g, m.vm.refs g
      = (pcRefs (m.cache.filter q) + (pcRefs (m.cache.filter (fun p => !q p)) + N)).count g := by
    intro g
    rw [h.count g, hrefs, add_assoc]
  obtain ⟨hpmm, hc⟩ := foldl_pcDrop _ h.pmm hcount
    (fun p hp => h.real p (mem_of_mem_filter hp))
  refine h.renew hpmm (fun f => ?_) ?_ fun p hp => ?_
  · rw [hkept]
    exact hc f
  · have hnodup := h.nodup
    rw [hrefs, nodup_add] at hnodup
    rw [hkept]
    exact hnodup.2.1
  · rcases mem_append.1 hp with hp | hp
    · exact .inl (mem_of_mem_filter hp)
    · rw [of_mem_empty hp]
      exact .inr ⟨by decide, fun hv => by cases hv⟩

/-- An empty cache is in order, with what is held outside it. -/
theorem empty (hpmm : vm.pmm.Inv M none) (hc : ∀ g, vm.refs g = N.count g) :
    Books M N vm (List.replicate pcNpages PcPage.empty) := by
  have hrefs : pcRefs (replicate pcNpages PcPage.empty) = 0 := pcRefs_replicate
  refine ⟨hpmm, fun f => ?_, ?_, fun p hp => ?_, fun p hp hv => ?_⟩
  · rw [hrefs, zero_add]
    exact hc f
  · rw [hrefs]
    exact nodup_zero
  · rw [List.eq_of_mem_replicate hp]
    decide
  · rw [List.eq_of_mem_replicate hp] at hv
    cases hv

/-- **`pagecache_drop_all` keeps the books.** -/
theorem pagecacheDropAll (h : Books M N m.vm m.cache) :
    Books M N m.pagecacheDropAll.vm m.pagecacheDropAll.cache := by
  obtain ⟨hpmm, hc⟩ := foldl_pcDrop m.cache h.pmm h.count h.real
  exact empty hpmm hc

end Calls

/-- **Every call keeps the books.** -/
theorem step (hM0 : 0 ∉ M) (hM1 : errorFrame ∉ M) (c : PcState) (call : PcCall)
    (h : Books M c.held c.machine.vm c.machine.cache) (hok : c.Ok call) :
    Books M (c.step call).held (c.step call).machine.vm (c.step call).machine.cache := by
  unfold PcState.step
  split_ifs with hstop
  · exact h
  cases call with
  | read path size off len fill lens => exact pagecacheRead hM0 hM1 h hok
  | acquire path size pidx fill => exact pagecacheAcquire hM0 hM1 h hok
  | invalidate path => exact pagecacheInvalidate h path
  | dropAll => exact pagecacheDropAll h
  | alloc =>
    unfold PcState.act
    rcases allocFrame h.pmm h.count with ⟨heq, -⟩ | ⟨f, vm, heq, hpmm, hc, -⟩
    · simp only [heq]
      exact h
    · simp only [heq]
      refine ⟨hpmm, fun g => ?_, h.nodup, h.real, h.valid⟩
      rw [add_cons]
      exact hc g
  | free f =>
    unfold PcState.act
    by_cases hf : f ∈ c.held
    · simp only [if_pos hf]
      have hc := h.count
      rw [← cons_erase hf] at hc
      simp only [add_cons] at hc
      exact ⟨pmm_freeFrame h.pmm f, count_freeFrame h.pmm hc, h.nodup, h.real, h.valid⟩
    · simp only [if_neg hf]
      exact h

end Books

namespace PcState

/-- The page cache after boot: nothing is cached, and nobody holds a frame. -/
def boot (b : Boot) : PcState := ⟨b.machine, 0⟩

theorem books_boot (b : Boot) :
    Books b.kernel.frames (boot b).held (boot b).machine.vm (boot b).machine.cache := by
  obtain ⟨hinv, hz⟩ := Pmm.inv_pmmInit b.nodup
  exact Books.empty hinv (fun g => (hz g).trans (count_zero g).symm)

/-- **Every slot of the page cache owns its frame**, after every run of calls in
which no page that cannot be read meets an empty pool and no reference is handed
out on a frame that has 255. -/
theorem slots_own_frames (b : Boot) (calls : List PcCall)
    (hok : Meets Ok step (boot b) calls) :
    (calls.foldl step (boot b)).SlotsOwn b.kernel.frames := by
  have hbooks := Meets.invariant
    (P := fun c : PcState => Books b.kernel.frames c.held c.machine.vm c.machine.cache)
    (fun c call => Books.step b.kernel.zero_not_mem (Machine.errorFrame_not_mem b.kernel) c call)
    (books_boot b) hok
  exact hbooks.slotsOwn

/-- A page is read, mapped, and dropped from the cache while it is mapped. -/
def mapping : List PcCall :=
  [.read "libc.so" 1 0 1 (fun _ => some zeroWords) (fun _ => 1),
    .acquire "libc.so" 1 0 (some zeroWords), .invalidate "libc.so"]

/-- A file cannot be read, and the cache is emptied. -/
def unreadable : List PcCall := [.acquire "libm.so" 1 0 none, .dropAll]

/-- The theorem at a run that meets the condition: when the page cannot be read, a
frame is free. -/
theorem slots_own_frames_mapped :
    Meets Ok step (boot Boot.small) (mapping ++ unreadable)
      ∧ ((mapping ++ unreadable).foldl step (boot Boot.small)).SlotsOwn
        Boot.small.kernel.frames := by
  have hfree : ∃ x, (mapping.foldl step (boot small)).machine.vm.pmm.InPool x :=
    ⟨0x410, 0x410, 4, by decide +kernel, by decide +kernel⟩
  have hmiss : (mapping.foldl step (boot small)).machine.cache.find?
      (Machine.pcMatch "libm.so" 0) = none := by decide +kernel
  have hmapping : Meets Ok step (boot small) mapping := by
    refine ⟨⟨fun _ hnone => (by cases hnone), fun _ => trivial⟩,
      fun _ => ⟨fun hnone => (by cases hnone), fun p hp => ?_⟩, trivial, trivial⟩
    have hhit : ((mapping.take 1).foldl step (boot small)).machine.cache.find?
        (Machine.pcMatch "libc.so" 0) = some ⟨true, "libc.so", 0, 0x400⟩ := by decide +kernel
    obtain rfl := Option.some.inj (hp.symm.trans hhit)
    decide +kernel
  have hunreadable : Meets Ok step (mapping.foldl step (boot small)) unreadable := by
    refine ⟨fun _ => ⟨fun _ _ _ _ _ => hfree, fun p hp => ?_⟩, trivial, trivial⟩
    cases hp.symm.trans hmiss
  have hok := meets_append.2 ⟨hmapping, hunreadable⟩
  exact ⟨hok, slots_own_frames small _ hok⟩

/-- A boot with a single frame. -/
def oneFrame : Boot where
  kernelPhysEnd := 0x200000
  magic := multiboot2BootloaderMagic
  tags := [.mmap [⟨0x400000, 0x1000, 1⟩]]
  dir := fun _ => Entry.zero
  mem := fun _ => zeroWords
  nodup := by decide +kernel
  entry := fun _ => Or.inl rfl
  private_pages := Boot.small.private_pages

/-- **A slot is left with the error value**: the only frame is taken, and a file
cannot be read. -/
theorem slot_with_error_value :
    ¬ ([PcCall.alloc, .read "libc.so" 1 0 1 (fun _ => none) (fun _ => 0)].foldl step
      (boot oneFrame)).SlotsOwn oneFrame.kernel.frames := by
  have hlast : ([PcCall.alloc, .read "libc.so" 1 0 1 (fun _ => none) (fun _ => 0)].foldl step
      (boot oneFrame)).machine.cache.getLast? = some ⟨false, "", 0, errorFrame⟩ := by
    decide +kernel
  intro h
  exact Machine.errorFrame_not_mem oneFrame.kernel
    (h.managed _ (mem_of_getLast? hlast) (by decide))

end PcState

end Makar
