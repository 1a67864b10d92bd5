import Makar.Ledger
import Makar.PmmCalls
import Makar.Vm

/-!
# Who holds a frame

The address spaces of the kernel are trees: a directory, the page tables its
entries point at, the pages the entries of those point at. `Holder` names the
places of such a tree, and `Vm.Refers` says which frame each place refers to;
the places of the page tables that the kernel's own directory points at are
nobody's, and neither are entries for the frames of a shared surface, `S`, which
are mapped without taking a reference.

`Vm.Inv` is the invariant of the address spaces with directories `pds`: every
reference is counted (`Covered`), frames used as directories or tables are used
once, a directory differs from the kernel's only by tables of its own, and what
is not managed is as it was at boot. It is kept while the code holds loose
references `L`, and has two parameters that the properties of later modules
fill in: a predicate `P` of every page that is mapped, and the flag `W`, under
which a page mapped writable is referred to from that one place only.
-/

namespace Makar

open Multiset

/-- What the kernel fixes at boot: the managed frames, its directory, and the
memory outside the managed frames, with the page tables of the directory. -/
structure Kernel where
  /-- The managed frames. -/
  frames : Set ℕ
  /-- The kernel's directory. -/
  dir : ℕ → Entry
  /-- The unmanaged memory. -/
  mem : ℕ → ℕ → Entry
  /-- The null frame is not managed. -/
  zero_not_mem : 0 ∉ frames
  /-- Managed frames are in the identity map. -/
  lt_idmapEnd : ∀ f ∈ frames, f < idmapEnd
  /-- An entry of the kernel is empty, a large page, or a table of its own. -/
  entry : ∀ i, dir i = Entry.zero
    ∨ (dir i).present = true ∧ ((dir i).large = true ∨ (dir i).frame ∉ frames)
  /-- No page of the kernel's tables is open to user mode or copy-on-write. -/
  private_pages : ∀ i j, (dir i).present = true → (dir i).large = false →
    (mem (dir i).frame j).user = false ∧ (mem (dir i).frame j).cow = false

/-- The entry points at a page table of the kernel, which every address space
shares. -/
def Kernel.Shared (K : Kernel) (i : ℕ) : Prop :=
  (K.dir i).present = true ∧ (K.dir i).large = false

/-- A place that refers to a frame. -/
inductive Holder where
  /-- The task that runs in the address space. -/
  | dir (pd : ℕ)
  /-- An entry of a directory. -/
  | table (pd i : ℕ)
  /-- An entry of a table. -/
  | page (pd i j : ℕ)

namespace Vm

/-! ## Reading memory after a write -/

section Write

variable (s : Vm) (f g i j : ℕ) (e : Entry) (words : ℕ → Entry)

theorem setWord_mem : (s.setWord f i e).mem g j = if g = f ∧ j = i then e else s.mem g j := by
  unfold setWord
  by_cases hg : g = f
  · subst hg
    by_cases hj : j = i
    · subst hj
      simp
    · simp [hj]
  · simp [hg]

theorem setWord_mem_self : (s.setWord f i e).mem f i = e := by simp [setWord]

theorem setFrame_mem_self : (s.setFrame f words).mem f = words := by simp [setFrame]

variable {s f g i e words}

theorem setFrame_zero : ((s.setFrame f (fun _ => Entry.zero)).mem f j).present = false := by
  rw [setFrame_mem_self]
  rfl

theorem setWord_mem_of_ne (hg : g ≠ f) : (s.setWord f i e).mem g = s.mem g := by
  simp [setWord, hg]

theorem setFrame_mem_of_ne (hg : g ≠ f) : (s.setFrame f words).mem g = s.mem g := by
  simp [setFrame, hg]

@[simp] theorem setWord_pmm : (s.setWord f i e).pmm = s.pmm := rfl

@[simp] theorem setWord_kpd : (s.setWord f i e).kpd = s.kpd := rfl

end Write

/-! ## References -/

/-- The count of a frame. -/
def refs (s : Vm) (f : ℕ) : ℕ := (s.pmm.memMap f).refcount

@[simp] theorem setWord_refs (s : Vm) (f i : ℕ) (e : Entry) : (s.setWord f i e).refs = s.refs :=
  rfl

/-- The directory's own page table for an entry. -/
def Table (s : Vm) (pd i pt : ℕ) : Prop :=
  i < tableSize ∧ s.OwnTable pd i ∧ (s.mem pd i).frame = pt

/-- The page of the address space at that place. -/
def Maps (s : Vm) (pd i j : ℕ) (e : Entry) : Prop :=
  ∃ pt, s.Table pd i pt ∧ j < tableSize ∧ s.mem pt j = e ∧ e.present = true

/-- Which frame a place refers to, for the directories `pds` and the surface
frames `S`. -/
def Refers (s : Vm) (S pds : Set ℕ) : Holder → ℕ → Prop
  | .dir pd, f => pd ∈ pds ∧ pd = f
  | .table pd i, f => pd ∈ pds ∧ s.Table pd i f
  | .page pd i j, f => pd ∈ pds ∧ ∃ e, s.Maps pd i j e ∧ e.frame = f ∧ f ∉ S

/-- **The invariant of the address spaces.** -/
structure Inv (K : Kernel) (W : Prop) (S : Set ℕ) (P : ℕ → ℕ → ℕ → Entry → Prop) (pds : Set ℕ)
    (L : Multiset ℕ) (s : Vm) : Prop where
  /-- The allocator is in order. -/
  pmm : s.pmm.Inv K.frames none
  /-- Every reference is counted. -/
  covered : Covered (s.Refers S pds) L s.refs
  /-- The kernel's directory does not change. -/
  kpd : s.kpd = K.dir
  /-- Unmanaged memory does not change. -/
  kernel : ∀ k, k ∉ K.frames → s.mem k = K.mem k
  /-- A directory is the kernel's, with tables of its own in empty places. -/
  shape : ∀ pd ∈ pds, ∀ i, i < tableSize →
    s.mem pd i = K.dir i ∨ K.dir i = Entry.zero ∧ s.OwnTable pd i
  /-- A directory has one reference. -/
  dir_one : ∀ pd ∈ pds, s.refs pd = 1
  /-- A table has one reference. -/
  table_one : ∀ pd ∈ pds, ∀ i pt, s.Table pd i pt → s.refs pt = 1
  /-- A frame of a surface has one reference, which is the surface's. -/
  surface : ∀ f ∈ S, f ∈ L ∧ s.refs f = 1
  /-- What is known of every page. -/
  maps : ∀ pd ∈ pds, ∀ i j e, s.Maps pd i j e → P pd i j e
  /-- A writable page is referred to once. -/
  alone : W → ∀ pd ∈ pds, ∀ i j e, s.Maps pd i j e → e.writable = true → e.frame ∉ S →
    s.refs e.frame = 1

variable {K : Kernel} {W : Prop} {S : Set ℕ} {P Q : ℕ → ℕ → ℕ → Entry → Prop} {pds : Set ℕ}
  {L L' N : Multiset ℕ} {s t : Vm} {pd pd' pt i i' j f g : ℕ} {e e₀ : Entry}

theorem refers_dir (hpd : pd ∈ pds) : s.Refers S pds (.dir pd) pd := ⟨hpd, rfl⟩

theorem refers_table (hpd : pd ∈ pds) (ht : s.Table pd i pt) :
    s.Refers S pds (.table pd i) pt := ⟨hpd, ht⟩

theorem refers_page (hpd : pd ∈ pds) (hm : s.Maps pd i j e) (hS : e.frame ∉ S) :
    s.Refers S pds (.page pd i j) e.frame := ⟨hpd, e, hm, rfl, hS⟩

/-! ## Counts, when the allocator is in order -/

section Counts

variable {M : Set ℕ}

/-- `pmm_ref_count` reads the count. -/
theorem refCount_of_pmm (h : s.pmm.Inv M none) (f : ℕ) : s.refCount f = s.refs f := by
  unfold refCount Pmm.pmmRefCount
  rw [Pmm.mul_div_pmmFrameSize]
  by_cases hf : s.pmm.maxFrames ≤ f
  · simp only [hf, if_true]
    by_contra hne
    exact absurd (h.lt_of_refcount (Ne.symm hne)) (Nat.not_lt.2 hf)
  · simp only [hf, if_false]
    rfl

/-- The counts after `pmm_free_frame`. -/
theorem refs_freeFrame_of_pmm (h : s.pmm.Inv M none) (f g : ℕ) :
    (s.freeFrame f).refs g = if g = f then s.refs f - 1 else s.refs g := by
  have hrec := (Pmm.pmmFreePages_spec h (f * pmmFrameSize) 0).2
  rw [Pmm.mul_div_pmmFrameSize] at hrec
  exact hrec.refcount g

/-- The counts after `pmm_inc_ref`, below the limit. -/
theorem refs_incRef_of_pmm (h : s.pmm.Inv M none) (hf : 1 ≤ s.refs f) (hlt : s.refs f < 0xFF)
    (g : ℕ) : (s.incRef f).refs g = if g = f then s.refs f + 1 else s.refs g := by
  have hrec := (Pmm.pmmIncRef_spec h (f * pmmFrameSize)).2
  rw [Pmm.mul_div_pmmFrameSize] at hrec
  have hne : ¬ ((s.pmm.memMap f).refcount = 0 ∨ (s.pmm.memMap f).refcount = 0xFF) := by
    unfold refs at hf hlt
    omega
  rw [if_neg hne] at hrec
  exact hrec.refcount g

end Counts

namespace Inv

/-! ## Reading the invariant -/

/-- A frame with references is managed. -/
theorem mem_frames (h : s.Inv K W S P pds L) (hf : 1 ≤ s.refs f) : f ∈ K.frames := by
  by_contra hn
  have := (h.pmm.clear_of_not_mem hn).2
  unfold refs at hf
  omega

section

variable (h : s.Inv K W S P pds L) (hpd : pd ∈ pds)
include h hpd

/-- The frame of a table is managed. -/
theorem table_mem (ht : s.Table pd i pt) : pt ∈ K.frames :=
  h.mem_frames (h.table_one pd hpd i pt ht).ge

/-- A table belongs to one entry of one directory. -/
theorem table_inj (hpd' : pd' ∈ pds) (ht : s.Table pd i pt) (ht' : s.Table pd' i' pt) :
    pd = pd' ∧ i = i' := by
  have heq := h.covered.unique (h.table_one pd hpd i pt ht).le (refers_table hpd ht)
    (refers_table hpd' ht')
  injection heq with h₁ h₂
  exact ⟨h₁, h₂⟩

/-- A table is not a directory. -/
theorem table_not_dir (ht : s.Table pd i pt) : pt ∉ pds := by
  intro hd
  have heq := h.covered.unique (h.dir_one pt hd).le (refers_table hpd ht) (refers_dir hd)
  cases heq

end

/-- The frame is neither a directory nor a table, and may be written to. -/
def Data (s : Vm) (pds : Set ℕ) (f : ℕ) : Prop :=
  f ∉ pds ∧ ∀ pd ∈ pds, ∀ i, ¬ s.Table pd i f

/-- A frame held loose is data. -/
theorem data_of_mem (h : s.Inv K W S P pds L) (hf : f ∈ L) : Data s pds f := by
  constructor
  · intro hd
    exact h.covered.not_mem_of_refers (h.dir_one f hd).le (refers_dir hd) hf
  · intro pd hpd i ht
    exact h.covered.not_mem_of_refers (h.table_one pd hpd i f ht).le (refers_table hpd ht) hf

section

variable (h : s.Inv K W S P pds L) (hpd : pd ∈ pds) (hm : s.Maps pd i j e)
include h hpd hm

/-- A frame that is mapped is data. -/
theorem data_of_maps : Data s pds e.frame := by
  by_cases hS : e.frame ∈ S
  · exact h.data_of_mem (h.surface _ hS).1
  have hr := refers_page hpd hm hS
  constructor
  · intro hd
    have heq := h.covered.unique (h.dir_one _ hd).le hr (refers_dir hd)
    cases heq
  · intro pd' hpd' i' ht
    have heq := h.covered.unique (h.table_one pd' hpd' i' _ ht).le hr (refers_table hpd' ht)
    cases heq

/-- A frame that is mapped has references. -/
theorem refs_of_maps : 1 ≤ s.refs e.frame := by
  by_cases hS : e.frame ∈ S
  · exact (h.surface _ hS).2.ge
  · exact h.covered.pos_of_refers (refers_page hpd hm hS)

end

/-- A frame held loose besides the surfaces' is none of theirs. -/
theorem not_mem_surface (h : s.Inv K W S P pds (f ::ₘ L)) (hS : ∀ g ∈ S, g ∈ L) : f ∉ S := by
  intro hf
  have h₁ := h.covered.count_le f
  have h₂ := one_le_count_iff_mem.2 (hS f hf)
  rw [(h.surface f hf).2, count_cons_self] at h₁
  omega

section

variable (h : s.Inv K W S P pds L)
include h

/-- `pmm_ref_count` reads the count. -/
theorem refCount_eq (f : ℕ) : s.refCount f = s.refs f :=
  refCount_of_pmm h.pmm f

/-- The checks of the walkers let every own table through. -/
theorem walkable_iff (hpd : pd ∈ pds) (hi : i < tableSize) :
    s.Walkable pd i ↔ s.Table pd i (s.mem pd i).frame := by
  constructor
  · intro hw
    exact ⟨hi, hw.1, rfl⟩
  · intro ht
    have hmem := h.table_mem hpd ht
    refine ⟨ht.2.1, ?_, K.lt_idmapEnd _ hmem⟩
    intro hz
    rw [hz] at hmem
    exact K.zero_not_mem hmem

/-- `vmm_unmap_and_free` and `vmm_free_pd` release every frame with
references. -/
theorem releaseFrame_eq (hf : 1 ≤ s.refs f) : s.releaseFrame f = s.freeFrame f := by
  have hmem := h.mem_frames hf
  have hz : f ≠ 0 := by
    rintro rfl
    exact K.zero_not_mem hmem
  unfold releaseFrame
  rw [if_pos ⟨hz, K.lt_idmapEnd f hmem⟩]

/-- A present entry that is not large and not the kernel's is an own table. -/
theorem table_of_present (hpd : pd ∈ pds) (hi : i < tableSize) (hK : ¬ K.Shared i)
    (hp : (s.mem pd i).present = true) (hl : (s.mem pd i).large = false) :
    s.Table pd i (s.mem pd i).frame := by
  rcases h.shape pd hpd i hi with heq | ⟨-, hown⟩
  · rw [heq] at hp hl
    exact absurd ⟨hp, hl⟩ hK
  · exact ⟨hi, hown, rfl⟩

end

/-! ## Weakening -/

/-- The predicate of the pages may be weakened. -/
theorem imp (h : s.Inv K W S P pds L) (hPQ : ∀ pd ∈ pds, ∀ i j e, P pd i j e → Q pd i j e) :
    s.Inv K W S Q pds L :=
  { h with maps := fun pd hpd i j e hm => hPQ pd hpd i j e (h.maps pd hpd i j e hm) }

/-- Loose references that are not a surface's may be forgotten. -/
theorem forget (h : s.Inv K W S P pds L) (hL : L' ≤ L) (hS : ∀ f ∈ S, f ∈ L') :
    s.Inv K W S P pds L' :=
  { h with
    covered := h.covered.mono (fun _ _ hr => hr) hL (fun _ => le_rfl)
    surface := fun f hf => ⟨hS f hf, (h.surface f hf).2⟩ }

section

variable {S' : Set ℕ} (h : s.Inv K W S P pds L)
include h

/-- Other frames may be the surfaces', if no mapped one stops being a surface's. -/
theorem resurface (hS : ∀ f ∈ S', f ∈ L ∧ s.refs f = 1)
    (hno : ∀ pd ∈ pds, ∀ i j e, s.Maps pd i j e → e.frame ∈ S → e.frame ∈ S') :
    s.Inv K W S' P pds L :=
  { h with
    covered := h.covered.congr (fun o f hr => by
      cases o with
      | dir pd => exact hr
      | table pd i => exact hr
      | page pd i j =>
        obtain ⟨hpd, e, hm, rfl, hn⟩ := hr
        exact refers_page hpd hm (fun hc => hn (hno pd hpd i j e hm hc)))
    surface := hS
    alone := fun hw pd hpd i j e hm hwr hn =>
      h.alone hw pd hpd i j e hm hwr (fun hc => hn (hno pd hpd i j e hm hc)) }

/-- Frames that no page maps may stop being a surface's. -/
theorem shrink (hS : S' ⊆ S)
    (hno : ∀ pd ∈ pds, ∀ i j e, s.Maps pd i j e → e.frame ∈ S → e.frame ∈ S') :
    s.Inv K W S' P pds L :=
  h.resurface (fun f hf => h.surface f (hS hf)) hno

/-- Loose frames with one reference may become a surface's. -/
theorem grow (hS : S ⊆ S') (hnew : ∀ f ∈ S', f ∈ L ∧ s.refs f = 1) : s.Inv K W S' P pds L :=
  h.resurface hnew fun _ _ _ _ _ _ hc => hS hc

end

/-! ## Writing to memory -/

theorem table_congr (hk : t.kpd = s.kpd) (hd : t.mem pd = s.mem pd) :
    t.Table pd i pt ↔ s.Table pd i pt := by
  unfold Table OwnTable
  rw [hk, hd]

theorem maps_congr (hk : t.kpd = s.kpd) (hd : t.mem pd = s.mem pd)
    (ht : ∀ i pt, s.Table pd i pt → t.mem pt = s.mem pt) :
    t.Maps pd i j e ↔ s.Maps pd i j e := by
  unfold Maps
  refine exists_congr (fun pt => ?_)
  rw [table_congr hk hd]
  refine and_congr_right (fun htab => ?_)
  rw [ht i pt htab]

/-- Nothing depends on the count of the frame being one. -/
structure Plain (W : Prop) (S : Set ℕ) (pds : Set ℕ) (s : Vm) (f : ℕ) : Prop where
  data : Data s pds f
  surface : f ∉ S
  alone : W → ∀ pd ∈ pds, ∀ i j e, s.Maps pd i j e → e.writable = true → e.frame ≠ f

theorem other_or_plain (hother : ∀ g, g ≠ f → t.refs g = s.refs g) (hf : Plain W S pds s f) (g : ℕ) :
    t.refs g = s.refs g ∨ Plain W S pds s g := by
  rcases eq_or_ne g f with rfl | hg
  · exact .inr hf
  · exact .inl (hother g hg)

/-- **Data may be written, and the count of a plain frame may change**, as far
as the references are still counted. -/
theorem of_congr (h : s.Inv K W S P pds L) (hk : t.kpd = s.kpd)
    (hmem : ∀ g, t.mem g = s.mem g ∨ g ∈ K.frames ∧ Data s pds g) (hpmm : t.pmm.Inv K.frames none)
    (hc : Covered (s.Refers S pds) L' t.refs) (hg : ∀ g, t.refs g = s.refs g ∨ Plain W S pds s g)
    (hS : ∀ g ∈ S, g ∈ L') : t.Inv K W S P pds L' := by
  have hd : ∀ {pd}, pd ∈ pds → t.mem pd = s.mem pd := fun hpd =>
    (hmem _).resolve_right fun hdata => hdata.2.1 hpd
  have htab : ∀ {pd}, pd ∈ pds → ∀ {i pt}, t.Table pd i pt ↔ s.Table pd i pt := fun hpd =>
    table_congr hk (hd hpd)
  have hmaps : ∀ {pd}, pd ∈ pds → ∀ {i j e}, t.Maps pd i j e ↔ s.Maps pd i j e := fun hpd =>
    maps_congr hk (hd hpd) fun i pt hT => (hmem pt).resolve_right fun hdata => hdata.2.2 _ hpd i hT
  refine ⟨hpmm, hc.congr (fun o f hr => ?_), hk.trans h.kpd, ?_, ?_, ?_, ?_, ?_, ?_, ?_⟩
  · cases o with
    | dir pd => exact hr
    | table pd i => exact ⟨hr.1, (htab hr.1).1 hr.2⟩
    | page pd i j =>
      obtain ⟨hpd, e, hm, hef⟩ := hr
      exact ⟨hpd, e, (hmaps hpd).1 hm, hef⟩
  · intro k hkf
    rw [(hmem k).resolve_right fun hdata => hkf hdata.1]
    exact h.kernel k hkf
  · intro pd hpd i hi
    have := h.shape pd hpd i hi
    unfold OwnTable at this ⊢
    rw [hd hpd, hk]
    exact this
  · intro pd hpd
    rw [(hg pd).resolve_right fun hf => hf.data.1 hpd]
    exact h.dir_one pd hpd
  · intro pd hpd i pt hT
    have hT' := (htab hpd).1 hT
    rw [(hg pt).resolve_right fun hf => hf.data.2 pd hpd i hT']
    exact h.table_one pd hpd i pt hT'
  · intro g hgS
    rw [(hg g).resolve_right fun hf => hf.surface hgS]
    exact ⟨hS g hgS, (h.surface g hgS).2⟩
  · intro pd hpd i j e hm
    exact h.maps pd hpd i j e ((hmaps hpd).1 hm)
  · intro hW pd hpd i j e hm hw heS
    have hm' := (hmaps hpd).1 hm
    rw [(hg e.frame).resolve_right fun hf => hf.alone hW pd hpd i j e hm' hw rfl]
    exact h.alone hW pd hpd i j e hm' hw heS

section

variable (h : s.Inv K W S P pds L) (hf : f ∈ K.frames) (hd : Data s pds f)
include h hf hd

/-- Data may be filled. -/
theorem setFrame (words : ℕ → Entry) : (s.setFrame f words).Inv K W S P pds L := by
  refine h.of_congr rfl (fun g => ?_) h.pmm h.covered (fun _ => .inl rfl)
    fun g hg => (h.surface g hg).1
  by_cases hg : g = f
  · exact .inr (hg ▸ ⟨hf, hd⟩)
  · exact .inl (setFrame_mem_of_ne hg)

/-- A word of data may be written. -/
theorem setWord (j : ℕ) (e : Entry) : (s.setWord f j e).Inv K W S P pds L :=
  h.setFrame hf hd _

end

/-! ## The allocator -/

section

variable (h : s.Inv K W S P pds L)
include h

/-- A frame whose count is not one is plain. -/
theorem plain_of_ne_one (hf : s.refs f ≠ 1) : Plain W S pds s f := by
  have hS : f ∉ S := fun hS => hf (h.surface f hS).2
  refine ⟨⟨fun hd => hf (h.dir_one f hd), fun pd hpd i ht => hf (h.table_one pd hpd i f ht)⟩, hS,
    fun hW pd hpd i j e hm hw hef => hf ?_⟩
  subst hef
  exact h.alone hW pd hpd i j e hm hw hS

/-- A frame held loose that is not a surface's is plain. -/
theorem plain_of_mem (hf : f ∈ L) (hS : f ∉ S) : Plain W S pds s f := by
  refine ⟨h.data_of_mem hf, hS, fun hW pd hpd i j e hm hw hef => ?_⟩
  subst hef
  exact h.covered.not_mem_of_refers (h.alone hW pd hpd i j e hm hw hS).le
    (refers_page hpd hm hS) hf

/-- A page that is not mapped writable is plain. -/
theorem plain_of_maps (hpd : pd ∈ pds) (hm : s.Maps pd i j e) (hw : e.writable = false)
    (hS : e.frame ∉ S) : Plain W S pds s e.frame := by
  refine ⟨h.data_of_maps hpd hm, hS, fun hW pd' hpd' i' j' e' hm' hw' hef => ?_⟩
  have hone := h.alone hW pd' hpd' i' j' e' hm' hw' (hef ▸ hS)
  rw [hef] at hone
  -- with one reference the two places are the same, and so are the entries
  have hr' : s.Refers S pds (.page pd' i' j') e.frame := ⟨hpd', e', hm', hef, hS⟩
  have heq := h.covered.unique hone.le (refers_page hpd hm hS) hr'
  injection heq with h₁ h₂ h₃
  subst h₁ h₂ h₃
  obtain ⟨pt, hT, -, he, -⟩ := hm
  obtain ⟨pt', hT', -, he', -⟩ := hm'
  have hpt : pt = pt' := hT.2.2.symm.trans hT'.2.2
  subst hpt
  rw [he] at he'
  rw [he', hw'] at hw
  cases hw

end

/-- What an allocation has done, when it has returned frame `f`. -/
structure Alloc (s t : Vm) (f : ℕ) : Prop where
  /-- The frame was free. -/
  free : s.refs f = 0
  /-- The frame was in the pool. -/
  inPool : s.pmm.InPool f
  /-- It has one reference now. -/
  one : t.refs f = 1
  /-- No other count changed. -/
  other : ∀ g, g ≠ f → t.refs g = s.refs g
  /-- Memory is as it was. -/
  mem : t.mem = s.mem
  /-- The kernel's directory is as it was. -/
  kpd : t.kpd = s.kpd

theorem Alloc.refs_eq (h : Alloc s t f) (g : ℕ) : t.refs g = s.refs g + if g = f then 1 else 0 := by
  split_ifs with hg
  · rw [hg, h.one, h.free]
  · exact h.other g hg

/-- `pmm_alloc_frame` fails on an empty pool and changes nothing, or returns a frame that was
free. -/
theorem alloc_of_pmm {M : Set ℕ} (h : s.pmm.Inv M none) :
    (s.allocFrame = (none, s) ∧ ∀ x, ¬ s.pmm.InPool x)
      ∨ ∃ f t, s.allocFrame = (some f, t) ∧ Alloc s t f ∧ t.pmm.Inv M none
        ∧ s.pmm.Allocated t.pmm f 0 := by
  unfold Vm.allocFrame Pmm.pmmAllocFrame
  rcases Pmm.pmmAllocPages_spec h 0 with ⟨heq, -⟩ | ⟨f, t, heq, ht, ha⟩
  · left
    refine ⟨by rw [heq]; simp, fun x hx => ?_⟩
    obtain ⟨f, t, hf, -⟩ := h.alloc_of_inPool hx
    rw [heq] at hf
    exact Pmm.mul_pmmFrameSize_ne f (congrArg Prod.fst hf).symm
  · right
    have hpool : s.pmm.InPool f := ha.inPool f (covers_self f 0)
    refine ⟨f, { s with pmm := t }, ?_, ⟨Pmm.refcount_of_inPool h hpool, hpool, ?_, ?_, rfl, rfl⟩,
      ht, ha⟩
    · rw [heq]
      simp [Pmm.mul_pmmFrameSize_ne, Pmm.mul_div_pmmFrameSize]
    · exact (ha.refcount f).trans (if_pos rfl)
    · exact fun g hg => (ha.refcount g).trans (if_neg hg)

/-- **`pmm_alloc_frame`** fails and changes nothing, or gives a loose reference
to a frame nobody refers to. -/
theorem allocFrame (h : s.Inv K W S P pds L) :
    s.allocFrame = (none, s)
      ∨ ∃ f t, s.allocFrame = (some f, t) ∧ Alloc s t f ∧ t.Inv K W S P pds (f ::ₘ L) := by
  rcases alloc_of_pmm h.pmm with ⟨hnone, -⟩ | ⟨f, t, heq, ha, ht, -⟩
  · exact .inl hnone
  · refine .inr ⟨f, t, heq, ha, ?_⟩
    refine h.of_congr ha.kpd (fun g => .inl (congrFun ha.mem g)) ht ?_
      (other_or_plain ha.other (h.plain_of_ne_one (by rw [ha.free]; decide))) ?_
    · refine h.covered.acquire ?_ (fun g hg => (ha.other g hg).ge)
      rw [ha.free]
      exact ha.one.ge
    · exact fun g hg => mem_cons_of_mem (h.surface g hg).1

/-- The counts after `pmm_free_frame`. -/
theorem refs_freeFrame (h : s.Inv K W S P pds L) (f g : ℕ) :
    (s.freeFrame f).refs g = if g = f then s.refs f - 1 else s.refs g :=
  refs_freeFrame_of_pmm h.pmm f g

/-- **`pmm_free_frame`** gives up a loose reference. -/
theorem freeFrame (h : s.Inv K W S P pds (f ::ₘ L)) (hf : f ∉ S) :
    (s.freeFrame f).Inv K W S P pds L := by
  have hother : ∀ g, g ≠ f → (s.freeFrame f).refs g = s.refs g := by
    intro g hg
    rw [h.refs_freeFrame, if_neg hg]
  refine h.of_congr rfl (fun _ => .inl rfl) (Pmm.pmmFreePages_spec h.pmm (f * pmmFrameSize) 0).1 ?_
    (other_or_plain hother (h.plain_of_mem (mem_cons_self f L) hf)) ?_
  · refine h.covered.release ?_ (fun g hg => (hother g hg).ge)
    rw [h.refs_freeFrame, if_pos rfl]
    omega
  · intro g hg
    rcases mem_cons.1 (h.surface g hg).1 with rfl | hL
    · exact absurd hg hf
    · exact hL

/-- Loose references are given up one after the other. -/
theorem foldl_freeFrame (l : List ℕ) (h : s.Inv K W S P pds (l + L)) (hS : ∀ f ∈ S, f ∈ L) :
    (l.foldl (fun vm f => vm.freeFrame f) s).Inv K W S P pds L
      ∧ ∀ g, (l.foldl (fun vm f => vm.freeFrame f) s).refs g = s.refs g - l.count g := by
  induction l generalizing s with
  | nil =>
    rw [coe_nil, zero_add] at h
    exact ⟨h, fun g => rfl⟩
  | cons f l ih =>
    rw [← cons_coe, cons_add] at h
    have hfS := h.not_mem_surface (fun g hg => mem_add.2 (.inr (hS g hg)))
    obtain ⟨hinv, hrefs⟩ := ih (h.freeFrame hfS)
    refine ⟨hinv, fun g => ?_⟩
    rw [List.foldl_cons, hrefs g, h.refs_freeFrame]
    by_cases hg : g = f
    · subst hg
      rw [if_pos rfl, List.count_cons_self]
      omega
    · rw [if_neg hg, List.count_cons_of_ne (Ne.symm hg)]

section

variable (h : s.Inv K W S P pds L) (hf : 1 ≤ s.refs f) (hlt : s.refs f < 0xFF)
include h hf hlt

/-- The counts after `pmm_inc_ref`, below the limit. -/
theorem refs_incRef (g : ℕ) : (s.incRef f).refs g = if g = f then s.refs f + 1 else s.refs g :=
  refs_incRef_of_pmm h.pmm hf hlt g

/-- **`pmm_inc_ref`** gives a loose reference, below the limit of the count. -/
theorem incRef (hplain : Plain W S pds s f) : (s.incRef f).Inv K W S P pds (f ::ₘ L) := by
  have hother : ∀ g, g ≠ f → (s.incRef f).refs g = s.refs g := by
    intro g hg
    rw [h.refs_incRef hf hlt, if_neg hg]
  refine h.of_congr rfl (fun _ => .inl rfl) (Pmm.pmmIncRef_spec h.pmm (f * pmmFrameSize)).1 ?_
    (other_or_plain hother hplain) ?_
  · refine h.covered.acquire ?_ (fun g hg => (hother g hg).ge)
    rw [h.refs_incRef hf hlt, if_pos rfl]
  · exact fun g hg => mem_cons_of_mem (h.surface g hg).1

end

/-! ## Entries of tables -/

section

variable (h : s.Inv K W S P pds L) (hpd : pd ∈ pds) (ht : s.Table pd i pt)
include h hpd ht

/-- Writing an entry of a table changes no directory, so no table. -/
theorem table_setWord (hpd' : pd' ∈ pds) :
    (s.setWord pt j e).Table pd' i' g ↔ s.Table pd' i' g := by
  refine table_congr rfl (setWord_mem_of_ne ?_)
  rintro rfl
  exact h.table_not_dir hpd ht hpd'

/-- Writing an entry of a table changes the page at that place, and no
other. -/
theorem maps_setWord (hj : j < tableSize) (hpd' : pd' ∈ pds) {j' : ℕ} :
    (s.setWord pt j e).Maps pd' i' j' e₀
      ↔ (if pd' = pd ∧ i' = i ∧ j' = j then e₀ = e ∧ e.present = true
          else s.Maps pd' i' j' e₀) := by
  unfold Maps
  by_cases hat : pd' = pd ∧ i' = i ∧ j' = j
  · obtain ⟨rfl, rfl, rfl⟩ := hat
    rw [if_pos ⟨rfl, rfl, rfl⟩]
    constructor
    · rintro ⟨pt', hT, -, he, hp⟩
      have hT' := (h.table_setWord hpd ht hpd).1 hT
      have hpt : pt' = pt := hT'.2.2.symm.trans ht.2.2
      rw [hpt, setWord_mem_self] at he
      exact ⟨he.symm, he ▸ hp⟩
    · rintro ⟨rfl, hp⟩
      exact ⟨pt, (h.table_setWord hpd ht hpd).2 ht, hj, setWord_mem_self .., hp⟩
  · rw [if_neg hat]
    refine exists_congr (fun pt' => ?_)
    rw [h.table_setWord hpd ht hpd']
    refine and_congr_right (fun hT => ?_)
    have hword : (s.setWord pt j e).mem pt' j' = s.mem pt' j' := by
      rw [setWord_mem, if_neg]
      rintro ⟨rfl, rfl⟩
      obtain ⟨h₁, h₂⟩ := h.table_inj hpd' hpd hT ht
      exact hat ⟨h₁, h₂, rfl⟩
    rw [hword]

/-- **An entry of a table may be written**, as far as the references are still
counted and the page that comes is as pages must be. -/
theorem setEntry (hj : j < tableSize) (hc : Covered ((s.setWord pt j e).Refers S pds) L' s.refs)
    (hS : ∀ f ∈ S, f ∈ L') (hP : e.present = true → P pd i j e)
    (hW : W → e.present = true → e.writable = true → e.frame ∉ S → s.refs e.frame = 1) :
    (s.setWord pt j e).Inv K W S P pds L' := by
  have hmem := h.table_mem hpd ht
  refine ⟨h.pmm, hc, h.kpd, ?_, ?_, h.dir_one, ?_, fun f hf => ⟨hS f hf, (h.surface f hf).2⟩,
    ?_, ?_⟩
  · intro k hk
    have hne : k ≠ pt := fun heq => hk (heq ▸ hmem)
    rw [setWord_mem_of_ne hne]
    exact h.kernel k hk
  · intro pd' hpd' i' hi'
    have hne : pd' ≠ pt := fun heq => h.table_not_dir hpd ht (heq ▸ hpd')
    have := h.shape pd' hpd' i' hi'
    unfold OwnTable at this ⊢
    rw [setWord_mem_of_ne hne]
    exact this
  · intro pd' hpd' i' pt' hT
    exact h.table_one pd' hpd' i' pt' ((h.table_setWord hpd ht hpd').1 hT)
  · intro pd' hpd' i' j' e' hm
    rw [h.maps_setWord hpd ht hj hpd'] at hm
    split_ifs at hm with hat
    · obtain ⟨rfl, rfl, rfl⟩ := hat
      obtain ⟨rfl, hp⟩ := hm
      exact hP hp
    · exact h.maps pd' hpd' i' j' e' hm
  · intro hw pd' hpd' i' j' e' hm hwr heS
    rw [h.maps_setWord hpd ht hj hpd'] at hm
    split_ifs at hm with hat
    · obtain ⟨rfl, hp⟩ := hm
      exact hW hw hp hwr heS
    · exact h.alone hw pd' hpd' i' j' e' hm hwr heS

/-- Writing an entry of a table changes what that one place refers to. -/
theorem refers_setWord (hj : j < tableSize) {o : Holder} (ho : o ≠ .page pd i j) :
    (s.setWord pt j e).Refers S pds o f ↔ s.Refers S pds o f := by
  cases o with
  | dir pd' => exact Iff.rfl
  | table pd' i' =>
    refine and_congr_right (fun hpd' => ?_)
    exact h.table_setWord hpd ht hpd'
  | page pd' i' j' =>
    refine and_congr_right (fun hpd' => exists_congr (fun e' => ?_))
    rw [h.maps_setWord hpd ht hj hpd', if_neg]
    rintro ⟨rfl, rfl, rfl⟩
    exact ho rfl

end

/-- **Replacing an entry**: the references `N` go into the new one, and the
reference of the old one, if `N'` says so, comes loose. -/
theorem replaceEntry {N' : Multiset ℕ} (h : s.Inv K W S P pds (N + L)) (hpd : pd ∈ pds)
    (ht : s.Table pd i pt) (hj : j < tableSize) (hS : ∀ f ∈ S, f ∈ L)
    (hN : e.present = true → e.frame ∉ S → e.frame ∈ N)
    (hN' : N' = 0 ∨ (s.mem pt j).present = true ∧ (s.mem pt j).frame ∉ S
      ∧ N' = {(s.mem pt j).frame})
    (hP : e.present = true → P pd i j e)
    (hW : W → e.present = true → e.writable = true → e.frame ∉ S → s.refs e.frame = 1) :
    (s.setWord pt j e).Inv K W S P pds (N' + L) := by
  refine h.setEntry hpd ht hj ?_ (fun f hf => mem_add.2 (.inr (hS f hf))) hP hW
  refine h.covered.exchange (.page pd i j) N' (fun o f ho => h.refers_setWord hpd ht hj ho) ?_ ?_
  · rintro f ⟨-, e', hm, hf, hfS⟩
    rw [h.maps_setWord hpd ht hj hpd, if_pos ⟨rfl, rfl, rfl⟩] at hm
    obtain ⟨rfl, hp⟩ := hm
    subst hf
    exact hN hp hfS
  · intro f
    rcases hN' with rfl | ⟨hp, hfS, rfl⟩
    · exact .inl (count_zero f)
    · rw [count_singleton]
      split_ifs with hf
      · exact .inr ⟨rfl, hpd, s.mem pt j, ⟨pt, ht, hj, rfl, hp⟩, hf.symm, hf ▸ hfS⟩
      · exact .inl rfl

/-- **Changing the flags of an entry.** -/
theorem reflagEntry (h : s.Inv K W S P pds L) (hpd : pd ∈ pds) (ht : s.Table pd i pt)
    (hj : j < tableSize) (hp₀ : (s.mem pt j).present = true) (hf : e.frame = (s.mem pt j).frame)
    (hP : e.present = true → P pd i j e)
    (hW : W → e.present = true → e.writable = true → e.frame ∉ S → s.refs e.frame = 1) :
    (s.setWord pt j e).Inv K W S P pds L := by
  refine h.setEntry hpd ht hj ?_ (fun f hf => (h.surface f hf).1) hP hW
  refine h.covered.congr (fun o f hr => ?_)
  by_cases ho : o = .page pd i j
  · subst ho
    obtain ⟨-, e', hm, hef, hfS⟩ := hr
    rw [h.maps_setWord hpd ht hj hpd, if_pos ⟨rfl, rfl, rfl⟩] at hm
    obtain ⟨rfl, -⟩ := hm
    exact ⟨hpd, s.mem pt j, ⟨pt, ht, hj, rfl, hp₀⟩, hf.symm.trans hef, hfS⟩
  · exact (h.refers_setWord hpd ht hj ho).1 hr

end Inv

end Vm

end Makar
