import Makar.MachineRun

/-!
# Pages that can be written

In a run in which nothing that is shared is made writable, a page a task can
write to is the only holder of its frame, unless it is a surface's: no other
page of any task has the frame, nor does the page cache, and it is neither a
directory nor a table. A store by one task is then seen by nobody else.

The condition is not met by every run: `SYS_MPROTECT` gives write permission to
whatever page is there, without a look at the count of its frame, so a page that
is shared with the page cache, or with another task after `fork`, can be written
in place. Without it too a task maps no directory and no table.
-/

namespace Makar

namespace Vm

namespace Inv

variable {K : Kernel} {W : Prop} {S : Set ℕ} {P : ℕ → ℕ → ℕ → Entry → Prop} {pds : Set ℕ}
  {L : Multiset ℕ} {s : Vm} {pd pt i j f w : ℕ} {e : Entry}

/-- A store to data leaves the mappings as they are. -/
theorem maps_store (hd : Data s pds f) (hpd : pd ∈ pds) (word : Entry) :
    (s.setWord f w word).Maps pd i j e ↔ s.Maps pd i j e := by
  have hk : (s.setWord f w word).kpd = s.kpd := rfl
  refine maps_congr hk (setWord_mem_of_ne ?_) (fun i' pt ht => ?_)
  · rintro rfl
    exact hd.1 hpd
  · refine setWord_mem_of_ne ?_
    rintro rfl
    exact hd.2 pd hpd i' ht

end Inv

/-- The walkers find the directory's own table. -/
theorem Table.tableOf {s : Vm} {pd pt virt : ℕ} (h : s.Table pd (pdIndex virt) pt) :
    s.tableOf pd virt = some pt := by
  obtain ⟨-, ⟨hp, hl, -⟩, hf⟩ := h
  unfold Vm.tableOf
  rw [if_pos ⟨hp, by rw [hl]; exact Bool.false_ne_true⟩, hf]

end Vm

namespace Machine

variable {K : Kernel} {W : Prop} {O : ℕ → ℕ → ℕ → Entry → Prop} {m m' : Machine}
  {t pd i j f : ℕ} {e : Entry}

/-- A page that can be written, and is not a surface's. -/
structure OwnPage (m : Machine) (pd i j : ℕ) (e : Entry) : Prop where
  /-- It is in the address space of a task. -/
  space : pd ∈ m.pds
  /-- It is mapped. -/
  maps : m.vm.Maps pd i j e
  /-- It is writable. -/
  writable : e.writable = true
  /-- It is not a surface's. -/
  plain : e.frame ∉ m.surfFrames

/-- **The page is the only holder of its frame.** -/
structure SoleHolder (m : Machine) (pd i j f : ℕ) : Prop where
  /-- The count is one. -/
  one : m.vm.refs f = 1
  /-- No other page has the frame. -/
  page : ∀ pd' ∈ m.pds, ∀ i' j' e', m.vm.Maps pd' i' j' e' → e'.frame = f →
    pd' = pd ∧ i' = i ∧ j' = j
  /-- The page cache does not have it. -/
  cache : ∀ p ∈ m.cache, p.frame ≠ f
  /-- It is not a directory. -/
  dir : f ∉ m.pds
  /-- It is not a table. -/
  table : ∀ pd' ∈ m.pds, ∀ i', ¬ m.vm.Table pd' i' f

/-- What an address space sees at a place. -/
def Sees (m : Machine) (pd i j : ℕ) (words : Words) : Prop :=
  ∃ e, m.vm.Maps pd i j e ∧ m.vm.mem e.frame = words

/-- **Nothing changes but the page**, for any address space and for the page
cache. -/
structure OnlyPage (m m' : Machine) (pd i j : ℕ) : Prop where
  /-- Every other place of every address space shows what it did. -/
  sees : ∀ pd' ∈ m.pds, ∀ i' j', ¬ (pd' = pd ∧ i' = i ∧ j' = j) → ∀ words,
    m'.Sees pd' i' j' words ↔ m.Sees pd' i' j' words
  /-- The page cache holds what it did. -/
  cache : m'.cache = m.cache ∧ ∀ p ∈ m.cache, m'.vm.mem p.frame = m.vm.mem p.frame

theorem OnlyPage.refl (m : Machine) (pd i j : ℕ) : OnlyPage m m pd i j :=
  ⟨fun _ _ _ _ _ _ => Iff.rfl, rfl, fun _ _ => rfl⟩

/-- **A page that can be written is the only holder**, where the invariant
holds with its flag. -/
theorem Inv.soleHolder (h : m.Inv K W O) (hW : W) (hp : m.OwnPage pd i j e) :
    m.SoleHolder pd i j e.frame := by
  have hone := h.vm.alone hW pd hp.space i j e hp.maps hp.writable hp.plain
  have hr := Vm.refers_page hp.space hp.maps hp.plain
  have hdata := h.vm.data_of_maps hp.space hp.maps
  refine ⟨hone, fun pd' hpd' i' j' e' hm hf => ?_, fun p hp' hf => ?_, hdata.1, hdata.2⟩
  · have hr' : m.vm.Refers m.surfFrames m.pds (.page pd' i' j') e.frame := by
      rw [← hf]
      refine Vm.refers_page hpd' hm ?_
      rw [hf]
      exact hp.plain
    have heq := h.vm.covered.unique hone.le hr' hr
    injection heq with h₁ h₂ h₃
    exact ⟨h₁, h₂, h₃⟩
  · -- a slot of the cache with the frame would be a second reference
    have hmem := h.vm.mem_frames hone.ge
    have h0 : p.frame ≠ 0 := by
      rw [hf]
      intro hz
      exact K.zero_not_mem (hz ▸ hmem)
    have h1 : p.frame ≠ errorFrame := by
      rw [hf]
      intro hz
      exact errorFrame_not_mem K (hz ▸ hmem)
    have hloose : e.frame ∈ m.loose := by
      rw [← hf]
      exact Multiset.mem_add.2 (.inl (mem_pcRefs hp' h0 h1))
    exact h.vm.covered.not_mem_of_refers hone.le hr hloose

/-- **A store through such a page changes nothing else.** -/
theorem Inv.onlyPage_store (h : m.Inv K W O) (hW : W) (hd : (m.tasks t).pageDir = some pd)
    {addr : UInt32} (hp : m.OwnPage pd (pdIndex addr.toNat) (ptIndex addr.toNat) e)
    (word : Entry) :
    OnlyPage m (m.step (.store t addr word)) pd (pdIndex addr.toNat) (ptIndex addr.toNat) := by
  have hsole := h.soleHolder hW hp
  unfold Machine.step
  split_ifs with hno
  · exact OnlyPage.refl m pd _ _
  · obtain ⟨pt, hT, -, rfl, -⟩ := hp.maps
    show OnlyPage m (m.userStore t addr word) pd _ _
    unfold Machine.userStore
    simp only [hd, hT.tableOf]
    split_ifs with hc
    · have hdata := h.vm.data_of_maps hp.space hp.maps
      refine ⟨fun pd' hpd' i' j' hne words => ?_, rfl, fun p hp' => ?_⟩
      · unfold Sees
        refine exists_congr (fun e' => ?_)
        rw [Vm.Inv.maps_store hdata hpd']
        refine and_congr_right (fun hm => ?_)
        rw [Vm.setWord_mem_of_ne]
        exact fun heq => hne (hsole.page pd' hpd' i' j' e' hm heq)
      · exact Vm.setWord_mem_of_ne (hsole.cache p hp')
    · exact OnlyPage.refl m pd _ _

/-- **Writable pages are private**: after every run in which the steps meet the
condition, a page that can be written and is not a surface's is the only holder
of its frame, and a store through it is not seen through any other page of any
task, nor in the page cache. -/
theorem writable_pages_private (b : Boot) (es : List Event)
    (hok : Meets (Guard b.kernel.Shared True) step b.machine es) {pd i j : ℕ} {e : Entry}
    (hp : (b.machine.run es).OwnPage pd i j e) :
    (b.machine.run es).SoleHolder pd i j e.frame
      ∧ ∀ t addr word, ((b.machine.run es).tasks t).pageDir = some pd →
        pdIndex addr.toNat = i → ptIndex addr.toNat = j →
          OnlyPage (b.machine.run es) ((b.machine.run es).step (.store t addr word)) pd i j := by
  have hinv := b.inv_run hok
  refine ⟨hinv.soleHolder trivial hp, fun t addr word hd hi hj => ?_⟩
  subst hi hj
  exact hinv.onlyPage_store trivial hd hp word

/-- A task starts a program, asks for a page, and touches it. -/
def touchRun : List Event :=
  [.create 0 true true, .exec 1 smallImage,
    .mmap2 1 ⟨0, 0x1000, true, false, true, none, 0, fun _ => zeroWords, fun _ => none⟩,
    .fault 1 0x90000000 true]

theorem meets_touchRun :
    Meets (Guard Boot.small.kernel.Shared True) step Boot.small.machine touchRun := by
  refine (meets_append (l := startRun)).2 ⟨meets_startRun,
    fun pd base _ _ h => absurd h (by decide), fun pd _ _ _ => Boot.small_not_shared _, trivial⟩

set_option maxRecDepth 40000 in
theorem surf_touchRun : (Boot.small.machine.run touchRun).surf = fun _ => Surface.empty := rfl

theorem ownPage_touchRun :
    (Boot.small.machine.run touchRun).OwnPage 1024 576 0 (Entry.leaf 1036 true) where
  space := ⟨1, by decide +kernel⟩
  maps := ⟨1037, ⟨by decide, by decide +kernel, by decide +kernel⟩, by decide,
    by decide +kernel, rfl⟩
  writable := rfl
  plain := by
    rintro ⟨k, hk⟩
    rw [surf_touchRun] at hk
    exact absurd hk List.not_mem_nil

theorem touched_page_private : (Boot.small.machine.run touchRun).SoleHolder 1024 576 0 1036 :=
  (writable_pages_private Boot.small touchRun meets_touchRun ownPage_touchRun).1

/-- A task maps a page of a file that is shared with the page cache, and then
asks `SYS_MPROTECT` for write permission. -/
def protectRun : List Event :=
  [.create 0 true true, .exec 1 smallImage,
    .mmap2 1 ⟨0, 0x1000, false, false, false, some ⟨"lib", 0x1000, true⟩, 0, fun _ => zeroWords,
      fun _ => some zeroWords⟩,
    .mprotect 1 0x90000000 0x1000 true]

set_option maxRecDepth 40000 in
theorem surf_protectRun : (Boot.small.machine.run protectRun).surf = fun _ => Surface.empty := rfl

/-- **The page cache can be written through a mapping**: `SYS_MPROTECT` made the
page writable with its frame still in the cache, and a store changes what the
cache holds. -/
theorem store_changes_cache : ∃ e p, (Boot.small.machine.run protectRun).OwnPage 1024 576 0 e
    ∧ p ∈ (Boot.small.machine.run protectRun).cache ∧ p.valid = true ∧ p.frame = e.frame
    ∧ ((Boot.small.machine.run protectRun).step
        (.store 1 0x90000000 (Entry.leaf 1 true))).vm.mem p.frame 0
      ≠ (Boot.small.machine.run protectRun).vm.mem p.frame 0 := by
  refine ⟨Entry.leaf 1036 true, ⟨true, "lib", 0, 1036⟩, ⟨⟨1, by decide +kernel⟩,
    ⟨1037, ⟨by decide, by decide +kernel, by decide +kernel⟩, by decide, by decide +kernel, rfl⟩,
    rfl, ?_⟩, by decide +kernel, rfl, rfl, by decide +kernel⟩
  rintro ⟨k, hk⟩
  rw [surf_protectRun] at hk
  exact absurd hk List.not_mem_nil

section Frames

variable {b : Boot} {es : List Event}
  (hok : Meets (Guard b.kernel.Shared W) step b.machine es) (hm : b.machine.run es = m)
include hok hm

/-- **A task maps only data**: managed frames, and no directory or table of any task. -/
theorem pages_are_data (hpd : pd ∈ m.pds) (hmap : m.vm.Maps pd i j e) :
    e.frame ∈ b.kernel.frames ∧ Vm.Inv.Data m.vm m.pds e.frame := by
  have hinv := hm ▸ (b.inv_run hok).vm
  exact ⟨hinv.mem_frames (hinv.refs_of_maps hpd hmap), hinv.data_of_maps hpd hmap⟩

/-- **Free memory is nobody's**: no frame of a free block is a directory or a table, mapped, in
the page cache or a surface's. -/
theorem free_frames_unused {o x : ℕ} (hf : m.vm.pmm.IsFree f o) (hx : Covers f o x) :
    Vm.Inv.Data m.vm m.pds x ∧ x ∉ m.loose
      ∧ ∀ pd ∈ m.pds, ∀ i j e, m.vm.Maps pd i j e → e.frame ≠ x := by
  have hinv := hm ▸ (b.inv_run hok).vm
  -- a frame with references would head the free block
  have hne : ∀ y, 1 ≤ m.vm.refs y → y ≠ x := by
    rintro y hy rfl
    have hr := Nat.one_le_iff_ne_zero.1 hy
    obtain rfl : y = f := hinv.pmm.head_of_covers (b := (f, o)) (.inl hf) hx (.inr hr)
    exact hr (hinv.pmm.free_ref y hf.1)
  refine ⟨⟨fun hpd => hne x (hinv.dir_one x hpd).ge rfl, fun pd hpd i ht => ?_⟩, fun hl => ?_,
    fun pd hpd i j e hmap => hne _ (hinv.refs_of_maps hpd hmap)⟩
  · exact hne x (hinv.table_one pd hpd i x ht).ge rfl
  · exact hne x ((Multiset.one_le_count_iff_mem.2 hl).trans (hinv.covered.count_le x)) rfl

end Frames

theorem touched_page_managed : 1036 ∈ Boot.small.kernel.frames :=
  (pages_are_data meets_touchRun rfl ownPage_touchRun.space ownPage_touchRun.maps).1

theorem last_frame_unused : 1055 ∉ (Boot.small.machine.run touchRun).loose :=
  (free_frames_unused (f := 1040) (o := 4) meets_touchRun rfl (by decide +kernel) (by decide)).2.1

end Machine

end Makar
