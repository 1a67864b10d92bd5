import Makar.ElfReads

/-!
# The image in memory

`map_load_segments` goes through the segments one by one and through the pages of each: a new
frame for every page, zeros, the bytes of the file that fall into it, and an entry in the page
table. *A segment does not know of the others.* Where one ends in the page in which the next
begins, the page is given a second frame, and the entry of the first is overwritten with it:
what the first segment had in the page is gone, and so is the frame, which `vmm_free_pd` does
not find.

An address space under construction is seen here page by page: which frame the entry of a page
has, which table a region of the directory has, and the frames that `pmm_alloc_frame` will
hand out, in the order in which it will. The directory begins with the kernel's entries. A page
in a region of theirs is refused or goes into the kernel's own table, where `vmm_free_pd` does not
look for it. A frame that cannot be had for a table is not noticed at the
page, but at the next one, and the stack, which is mapped last, has several pages in one table.
-/

namespace Makar

open List Function Option

namespace ElfFile

/-! ## Pages -/

/-- What a page of a segment is filled with. -/
def content (f : ElfFile) (base q va : ℕ) : Buf :=
  let copyFrom := max (f.vaddr base q) va
  let copyTo := min ((f.vaddr base q + f.buf.rd32 (q + 16)) % 2 ^ 32) (va + 4096)
  if copyFrom < copyTo then
    Buf.zero.blit (copyFrom - va) (f.buf.slice
      ((f.buf.rd32 (q + 4) + (copyFrom - f.vaddr base q)) % 2 ^ 32) (copyTo - copyFrom))
  else Buf.zero

/-- The pages that are loaded for a file, in the order of the loops. -/
def image (f : ElfFile) (base : ℕ) : List (ℕ × Buf) :=
  (range f.phnum).flatMap fun i =>
    if f.Loads (f.phdr i) then
      (f.segPages base (f.phdr i)).map fun va => (va, f.content base (f.phdr i) va)
    else []

/-- The pages of a program: its own, those of its interpreter, and the stack, whose top page
is filled later. -/
def programPages (f : ElfFile) (o : Option ElfFile) (top : Buf) : List (ℕ × Buf) :=
  f.image f.loadBase ++ o.elim [] (fun g => g.image 0x70000000)
    ++ stackPages.zip (top :: replicate 7 Buf.zero)

end ElfFile

/-- An entry of the kernel's directory. -/
inductive KernelPde
  | large
  | table
  deriving DecidableEq

/-- An address space under construction. It keeps bytes, which `Vm` does not: `Vm` has the entries
of all address spaces and the counts of their frames. -/
structure Space where
  /-- The page directory. -/
  pd : ℕ
  /-- The frames that can be had. -/
  free : List ℕ
  /-- What is in a frame. -/
  bytes : ℕ → Buf
  /-- The entry of the kernel for a region of 4 MiB. -/
  kernel : ℕ → Option KernelPde
  /-- The frame of a page in a table of the kernel. -/
  kernelPtes : ℕ → Option ℕ
  /-- The page table of another region. -/
  tables : ℕ → Option ℕ
  /-- The frame of a page there. -/
  ptes : ℕ → Option ℕ

namespace Space

/-- `vmm_map_page`. A large page is not replaced, and without a frame for the table nothing
happens. -/
def vmmMapPage (va phys : ℕ) (s : Space) : Space :=
  match s.kernel (va / 2 ^ 22) with
  | some .large => s
  | some .table => { s with kernelPtes := update s.kernelPtes (va / 4096) (some phys) }
  | none =>
    match s.tables (va / 2 ^ 22) with
    | some _ => { s with ptes := update s.ptes (va / 4096) (some phys) }
    | none =>
      match s.free with
      | [] => s
      | pt :: free => { s with
          free := free
          tables := update s.tables (va / 2 ^ 22) (some pt)
          ptes := update s.ptes (va / 4096) (some phys) }

/-- A page is loaded, or there is no frame for it. -/
def loadPage (s : Space) (p : ℕ × Buf) : Option Space :=
  match s.free with
  | [] => none
  | phys :: free => some (vmmMapPage p.1 phys
      { s with free := free, bytes := update s.bytes phys p.2 })

/-- The pages of a program are loaded. -/
def loadPages (s : Space) (ps : List (ℕ × Buf)) : Option Space := ps.foldlM loadPage s

/-- `vmm_create_pd`, of the frames that can be had. -/
def create (kernel : ℕ → Option KernelPde) (kernelPtes : ℕ → Option ℕ) (pd : ℕ) (free : List ℕ) :
    Space :=
  ⟨pd, free, fun _ => Buf.zero, kernel, kernelPtes, fun _ => none, fun _ => none⟩

/-- The frames that the directory leads to: its own, those of its tables and those of the
pages in them, each as often as there is an entry for it. -/
def held (s : Space) : List ℕ :=
  s.pd :: (range 1024).filterMap s.tables ++ (range (2 ^ 20)).filterMap s.ptes

/-- The frame is below `VMM_KERNEL_IDMAP_END`, and not frame 0. -/
def InIdmap (f : ℕ) : Prop := f ≠ 0 ∧ f < 0x10000

instance (f : ℕ) : Decidable (InIdmap f) := inferInstanceAs (Decidable (_ ∧ _))

/-- The table that `vmm_free_pd` walks in a region: none of the kernel's, and in the window. -/
def walked (s : Space) (r : ℕ) : Option ℕ :=
  if s.kernel r = none then (s.tables r).filter fun pt => InIdmap pt else none

/-- What can be had after `vmm_free_pd`, of frames with one reference each and in some order: the
directory, the tables it walks, and the frames of their pages that are in the window. -/
def vmmFreePd (s : Space) : List ℕ :=
  s.pd :: (range 1024).filterMap s.walked ++ (range (2 ^ 20)).filterMap (fun n =>
    (s.walked (n / 1024)).bind fun _ => (s.ptes n).filter fun f => InIdmap f) ++ s.free

/-- The byte at an address, if a page table leads to it. -/
def byteAt (s : Space) (a : ℕ) : Option UInt8 :=
  (match s.kernel (a / 2 ^ 22) with
    | some .large => none
    | some .table => s.kernelPtes (a / 4096)
    | none => s.ptes (a / 4096)).map fun f => s.bytes f (a % 4096)

/-! ## Entries that are written -/

variable {g : ℕ → Option ℕ}

/-- An entry that was empty counts one frame more. -/
theorem filterMap_update_none {n i f : ℕ} (hi : i < n) (hg : g i = none) :
    (range n).filterMap (update g i (some f)) ~ f :: (range n).filterMap g := by
  have hsplit : range n ~ i :: (range n).erase i := perm_cons_erase (mem_range.2 hi)
  have hrest : ((range n).erase i).filterMap (update g i (some f))
      = ((range n).erase i).filterMap g := by
    refine filterMap_congr fun j hj => update_of_ne ?_ _ _
    rintro rfl
    exact (nodup_range.not_mem_erase) hj
  refine (hsplit.filterMap _).trans ?_
  rw [filterMap_cons_some (update_self ..), hrest]
  refine Perm.cons f ?_
  rw [← filterMap_cons_none hg]
  exact (hsplit.filterMap _).symm

/-- An entry that had a frame loses it. -/
theorem filterMap_update_some {n i f f' : ℕ} (hi : i < n) (hg : g i = some f') :
    f' :: (range n).filterMap (update g i (some f))
      ~ f :: (range n).filterMap g := by
  have hnone : update g i none i = none := update_self ..
  have h₁ := filterMap_update_none (f := f) hi hnone
  have h₂ := filterMap_update_none (f := f') hi hnone
  rw [update_idem] at h₁ h₂
  have hback : update g i (some f') = g := by rw [← hg, update_eq_self]
  rw [hback] at h₂
  exact ((h₁.cons f').trans (Perm.swap ..)).trans (h₂.symm.cons f)

/-! ## Loading -/

variable {kernel : ℕ → Option KernelPde} {s t : Space} {all lost : List ℕ}
  {ps done : List (ℕ × Buf)} {p : ℕ × Buf}

/-- **The pages that have been loaded**: the frames are those of the directory, those that can
be had and those that are lost, of which there are some exactly if a page was loaded twice. -/
structure Good (kernel : ℕ → Option KernelPde) (all : List ℕ) (done : List (ℕ × Buf)) (s : Space) :
    Prop where
  /-- The entries of the kernel stay. -/
  same : s.kernel = kernel
  /-- They are in other regions. -/
  apart : ∀ r, (s.tables r).isSome → kernel r = none
  /-- Every frame is somewhere. -/
  frames : ∃ lost, lost ++ s.held ++ s.free ~ all
    ∧ (lost = [] ↔ (done.map fun p => p.1 / 4096).Nodup)
  /-- The region of a page has its table. -/
  tables : ∀ p ∈ done, (s.tables (p.1 / 2 ^ 22)).isSome
  /-- The pages with an entry are those that were loaded. -/
  ptes : ∀ n, (s.ptes n).isSome ↔ n ∈ done.map fun p => p.1 / 4096
  /-- What they hold, if none was loaded twice. -/
  pages : (done.map fun p => p.1 / 4096).Nodup → ∀ p ∈ done,
    ∃ f, s.ptes (p.1 / 4096) = some f ∧ s.bytes f = p.2
  /-- Their frames are taken. -/
  taken : ∀ n f, s.ptes n = some f → f ∉ s.free

theorem good_create (kernelPtes : ℕ → Option ℕ) (pd : ℕ) (free : List ℕ) :
    Good kernel (pd :: free) [] (create kernel kernelPtes pd free) where
  same := rfl
  apart := fun _ h => nomatch h
  frames := ⟨[], by simp [held, create, filterMap_none], by simp⟩
  tables := fun _ h => nomatch h
  ptes := fun n => by simp [create]
  pages := fun _ _ h => nomatch h
  taken := fun _ _ h => nomatch h

section

variable (hall : all.Nodup) (h : Good kernel all done s)
include hall h

/-- **A frame is entered for a page**, whether its table was there or is new. -/
theorem Good.enter {phys : ℕ} {rest : List ℕ} (hfree : s.free = phys :: rest)
    (hlt : p.1 / 4096 < 2 ^ 20) (hk : kernel (p.1 / 2 ^ 22) = none) (hpd : t.pd = s.pd)
    (hkernel : t.kernel = s.kernel)
    (hbytes : t.bytes = update s.bytes phys p.2)
    (hptes : t.ptes = update s.ptes (p.1 / 4096) (some phys))
    (htables : (range 1024).filterMap t.tables ++ t.free
      ~ (range 1024).filterMap s.tables ++ rest) (hsub : t.free ⊆ rest)
    (hmono : ∀ r, (s.tables r).isSome → (t.tables r).isSome)
    (hnew : ∀ r, (t.tables r).isSome → r ≠ p.1 / 2 ^ 22 → (s.tables r).isSome)
    (hregion : (t.tables (p.1 / 2 ^ 22)).isSome) : Good kernel all (done ++ [p]) t := by
  obtain ⟨lost, hperm, hlost⟩ := h.frames
  have hphys : phys ∉ rest := by
    have hnodup := (nodup_append.1 (hperm.nodup_iff.2 hall)).2.1
    rw [hfree] at hnodup
    exact (nodup_cons.1 hnodup).1
  have hkeys : (done ++ [p]).map (fun p => p.1 / 4096)
      = done.map (fun p => p.1 / 4096) ++ [p.1 / 4096] := map_append
  have hnodup : ((done ++ [p]).map fun p => p.1 / 4096).Nodup
      ↔ (done.map fun p => p.1 / 4096).Nodup ∧ (s.ptes (p.1 / 4096)).isSome = false := by
    rw [hkeys, nodup_append_comm, singleton_append, nodup_cons, ← h.ptes, Bool.not_eq_true]
    exact and_comm
  refine ⟨hkernel.trans h.same, fun r hr => ?_, ?_, ?_, fun n => ?_, fun hn x hx => ?_,
    fun n f hf => ?_⟩
  · by_cases heq : r = p.1 / 2 ^ 22
    · rw [heq, hk]
    · exact h.apart r (hnew r hr heq)
  · -- what the entry held before is lost
    refine ⟨(s.ptes (p.1 / 4096)).toList ++ lost, perm_iff_count.2 fun a => ?_, ?_⟩
    · have h₁ := hperm.count_eq a
      have h₂ := htables.count_eq a
      have h₃ : count a ((s.ptes (p.1 / 4096)).toList ++ (range (2 ^ 20)).filterMap t.ptes)
          = count a (phys :: (range (2 ^ 20)).filterMap s.ptes) := by
        rw [hptes]
        cases hold : s.ptes (p.1 / 4096) with
        | none =>
          rw [toList_none, nil_append]
          exact (filterMap_update_none hlt hold).count_eq a
        | some f' =>
          rw [toList_some, singleton_append]
          exact (filterMap_update_some hlt hold).count_eq a
      simp only [held, hpd, hfree, count_append, count_cons, cons_append] at h₁ h₂ h₃ ⊢
      omega
    · rw [hnodup, append_eq_nil_iff, ← hlost, and_comm]
      cases s.ptes (p.1 / 4096) <;> simp
  · intro x hx
    rcases mem_append.1 hx with hx | hx
    · exact hmono _ (h.tables x hx)
    · rw [mem_singleton.1 hx]
      exact hregion
  · rw [hptes, hkeys, mem_append, mem_singleton, ← h.ptes]
    by_cases hn : n = p.1 / 4096
    · rw [hn, update_self]
      exact iff_of_true rfl (.inr rfl)
    · rw [update_of_ne hn]
      exact (or_iff_left hn).symm
  · obtain ⟨hold, hnew⟩ := hnodup.1 hn
    rw [hptes, hbytes]
    rcases mem_append.1 hx with hx | hx
    · obtain ⟨f, hf, hb⟩ := h.pages hold x hx
      have hne : x.1 / 4096 ≠ p.1 / 4096 := by
        intro heq
        rw [← heq, hf] at hnew
        cases hnew
      refine ⟨f, (update_of_ne hne _ _).trans hf, ?_⟩
      rw [update_of_ne, hb]
      rintro rfl
      exact h.taken _ _ hf (hfree ▸ mem_cons_self)
    · obtain rfl := mem_singleton.1 hx
      exact ⟨phys, update_self .., update_self ..⟩
  · rw [hptes] at hf
    by_cases hn : n = p.1 / 4096
    · rw [hn, update_self] at hf
      obtain rfl := some.inj hf
      exact fun hc => hphys (hsub hc)
    · rw [update_of_ne hn] at hf
      intro hc
      exact h.taken n f hf (hfree ▸ mem_cons_of_mem _ (hsub hc))

/-- **A page is loaded**, unless there was no frame for its table and there is none left. -/
theorem Good.loadPage (hlt : p.1 < 2 ^ 32) (hk : kernel (p.1 / 2 ^ 22) = none)
    (hp : s.loadPage p = some t) :
    Good kernel all (done ++ [p]) t ∨ t.free = [] ∧ s.tables (p.1 / 2 ^ 22) = none := by
  unfold Space.loadPage at hp
  cases hfree : s.free with
  | nil =>
    rw [hfree] at hp
    cases hp
  | cons phys rest =>
    rw [hfree] at hp
    obtain rfl := some.inj hp
    have hnone : s.kernel (p.1 / 2 ^ 22) = none := by rw [h.same, hk]
    unfold vmmMapPage
    dsimp only
    rw [hnone]
    cases htable : s.tables (p.1 / 2 ^ 22) with
    | some pt =>
      dsimp only
      exact .inl (h.enter hall hfree (by omega) hk rfl rfl rfl rfl (.refl _) (Subset.refl _)
        (fun _ h => h) (fun _ h _ => h) (by rw [htable]; rfl))
    | none =>
      dsimp only
      cases rest with
      | nil => exact .inr ⟨rfl, rfl⟩
      | cons pt free =>
        refine .inl (h.enter hall hfree (by omega) hk rfl rfl rfl rfl ?_ (subset_cons_self _ _)
          (fun r hr => ?_) (fun r hr hne => ?_) ?_)
        · refine ((filterMap_update_none (by omega) htable).append_right free).trans ?_
          exact perm_middle.symm
        · dsimp only
          by_cases heq : r = p.1 / 2 ^ 22
          · rw [heq, update_self]
            rfl
          · rwa [update_of_ne heq]
        · dsimp only at hr
          rwa [update_of_ne hne] at hr
        · dsimp only
          rw [update_self]
          rfl

/-- **The pages are loaded**, unless there is no frame left. -/
theorem Good.loadPages (hlt : ∀ p ∈ ps, p.1 < 2 ^ 32 ∧ kernel (p.1 / 2 ^ 22) = none)
    (hps : s.loadPages ps = some t) : Good kernel all (done ++ ps) t ∨ t.free = [] := by
  induction ps generalizing s done with
  | nil =>
    obtain rfl := some.inj hps
    rw [append_nil]
    exact .inl h
  | cons p ps ih =>
    obtain ⟨u, hu, hrest⟩ := bind_eq_some_iff.1 (show (s.loadPage p).bind _ = some t from hps)
    rw [forall_mem_cons] at hlt
    rcases h.loadPage hall hlt.1.1 hlt.1.2 hu with hgood | ⟨hempty, -⟩
    · rw [← singleton_append, ← append_assoc]
      exact ih hgood hlt.2 hrest
    · cases ps with
      | nil =>
        obtain rfl := some.inj hrest
        exact .inr hempty
      | cons p' ps =>
        obtain ⟨v, hv, -⟩ := bind_eq_some_iff.1 (show (u.loadPage p').bind _ = some t from hrest)
        unfold Space.loadPage at hv
        rw [hempty] at hv
        cases hv

end

/-- **A load whose last two pages are in one region** has all its pages: there was a frame
after the last table. -/
theorem Good.loaded (hall : all.Nodup) (h : Good kernel all [] s) {x y : ℕ × Buf}
    (hlt : ∀ p ∈ ps ++ [x, y], p.1 < 2 ^ 32 ∧ kernel (p.1 / 2 ^ 22) = none)
    (hxy : x.1 / 2 ^ 22 = y.1 / 2 ^ 22) (ht : s.loadPages (ps ++ [x, y]) = some t) :
    Good kernel all (ps ++ [x, y]) t := by
  have hsplit : ps ++ [x, y] = (ps ++ [x]) ++ [y] := by simp
  rw [hsplit] at ht hlt ⊢
  rw [Space.loadPages, foldlM_append] at ht
  obtain ⟨u, hu, ht⟩ := bind_eq_some_iff.1 ht
  obtain ⟨v, hv, ht⟩ := bind_eq_some_iff.1 ht
  obtain rfl := some.inj ht
  rw [forall_mem_append, forall_mem_singleton] at hlt
  rcases h.loadPages hall hlt.1 hu with hgood | hempty
  · rw [nil_append] at hgood
    rcases hgood.loadPage hall hlt.2.1 hlt.2.2 hv with hdone | ⟨-, hnone⟩
    · exact hdone
    · have := hgood.tables x (by simp)
      rw [hxy, hnone] at this
      cases this
  · unfold Space.loadPage at hv
    rw [hempty] at hv
    cases hv

/-- **`vmm_free_pd` gives back what the directory holds**, when all frames are in the identity
window. -/
theorem Good.vmmFreePd_eq (h : Good kernel all done s) (hall : ∀ f ∈ all, InIdmap f) :
    s.vmmFreePd = s.held ++ s.free := by
  obtain ⟨lost, hperm, -⟩ := h.frames
  have hheld : ∀ f ∈ s.held, InIdmap f := fun f hf => hall f (hperm.subset (by simp [hf]))
  have hwalked : ∀ r, r < 1024 → s.walked r = s.tables r := by
    intro r hr
    unfold walked
    rw [h.same]
    cases htable : s.tables r with
    | none => exact ite_self _
    | some pt =>
      have hpt : InIdmap pt := hheld pt (mem_append_left _ (mem_cons_of_mem _
        (mem_filterMap.2 ⟨r, mem_range.2 hr, htable⟩)))
      rw [if_pos (h.apart r (isSome_of_mem htable))]
      exact if_pos (decide_eq_true hpt)
  have hpages : ∀ n, n < 2 ^ 20 → ((s.walked (n / 1024)).bind fun _ =>
      (s.ptes n).filter fun f => InIdmap f) = s.ptes n := by
    intro n hn
    rw [hwalked _ (by omega)]
    cases hf : s.ptes n with
    | none => exact bind_fun_none _
    | some f =>
      -- the page was loaded, so its region has a table
      obtain ⟨p, hp, heq⟩ := mem_map.1 ((h.ptes n).1 (isSome_of_mem hf))
      obtain ⟨pt, hpt⟩ := isSome_iff_exists.1 (h.tables p hp)
      rw [show n / 1024 = p.1 / 2 ^ 22 by omega, hpt]
      exact if_pos (decide_eq_true (hheld f (mem_append_right _
        (mem_filterMap.2 ⟨n, mem_range.2 hn, hf⟩))))
  unfold vmmFreePd held
  rw [filterMap_congr fun r hr => hwalked r (mem_range.1 hr),
    filterMap_congr fun n hn => hpages n (mem_range.1 hn)]

end Space

/-! ## Bytes -/

namespace ElfFile

variable {f : ElfFile} {base q i k va : ℕ}

/-- **A valid image**: the segments are in the user window and in the file, and have no more
bytes in the file than in memory. -/
def Valid (f : ElfFile) (base : ℕ) : Prop :=
  ∀ i, i < f.phnum → f.Loads (f.phdr i) → 0x10000000 ≤ f.vaddr base (f.phdr i)
    ∧ f.vaddr base (f.phdr i) + f.buf.rd32 (f.phdr i + 20) ≤ 0xC0000000
    ∧ f.buf.rd32 (f.phdr i + 16) ≤ f.buf.rd32 (f.phdr i + 20)
    ∧ f.buf.rd32 (f.phdr i + 4) + f.buf.rd32 (f.phdr i + 16) ≤ f.size

instance (f : ElfFile) (base : ℕ) : Decidable (f.Valid base) :=
  inferInstanceAs (Decidable (∀ i, i < _ → _))

/-- The segment begins in its first page, and ends where its last page does. -/
theorem stop_eq (h : f.vaddr base q + f.buf.rd32 (q + 20) ≤ 0xC0000000) :
    f.stop base q = (f.vaddr base q + f.buf.rd32 (q + 20) + 4095) / 4096 * 4096 := by
  unfold stop
  rw [Nat.mod_eq_of_lt (by omega : f.vaddr base q + f.buf.rd32 (q + 20) < 2 ^ 32),
    Nat.mod_eq_of_lt (by omega)]

/-- The pages of a valid image are below `2 ^ 32`. -/
theorem Valid.image_lt (h : f.Valid base) : ∀ p ∈ f.image base, p.1 < 2 ^ 32 := by
  intro p hp
  obtain ⟨i, hi, hp⟩ := mem_flatMap.1 hp
  split_ifs at hp with hl
  · obtain ⟨va, hva, rfl⟩ := mem_map.1 hp
    obtain ⟨j, -, hlt⟩ := mem_segPages.1 hva
    obtain ⟨-, hend, -, -⟩ := h i (mem_range.1 hi) hl
    rw [stop_eq hend] at hlt
    dsimp only
    omega
  · cases hp

section

variable (h : f.Valid base) (hi : i < f.phnum) (hl : f.Loads (f.phdr i))
include h hi hl

/-- The page of a byte of a segment is loaded. -/
theorem Valid.mem_image (hk : k < f.buf.rd32 (f.phdr i + 20)) :
    let va := (f.vaddr base (f.phdr i) + k) / 4096 * 4096
    (va, f.content base (f.phdr i) va) ∈ f.image base := by
  obtain ⟨-, hend, -, -⟩ := h i hi hl
  refine mem_flatMap.2 ⟨i, mem_range.2 hi, ?_⟩
  rw [if_pos hl]
  refine mem_map.2 ⟨_, mem_segPages.2 ⟨(f.vaddr base (f.phdr i) + k) / 4096
    - f.vaddr base (f.phdr i) / 4096, ?_, ?_⟩, rfl⟩
  · unfold first
    omega
  · rw [stop_eq hend]
    omega

/-- **What a page is filled with**: the bytes of the file, and zeros behind them. -/
theorem Valid.content_byte :
    f.content base (f.phdr i) ((f.vaddr base (f.phdr i) + k) / 4096 * 4096)
        ((f.vaddr base (f.phdr i) + k) % 4096)
      = if k < f.buf.rd32 (f.phdr i + 16) then f.buf (f.buf.rd32 (f.phdr i + 4) + k) else 0 := by
  obtain ⟨-, hend, hsz, hin⟩ := h i hi hl
  have hle := f.le
  unfold content
  generalize f.vaddr base (f.phdr i) = v at *
  generalize f.buf.rd32 (f.phdr i + 16) = fsz at *
  generalize f.buf.rd32 (f.phdr i + 4) = offset at *
  generalize f.buf.rd32 (f.phdr i + 20) = msz at *
  rw [Nat.mod_eq_of_lt (by omega : v + fsz < 2 ^ 32)]
  have hpage : (v + k) / 4096 * 4096 + (v + k) % 4096 = v + k := Nat.div_add_mod' _ _
  have hmod := Nat.mod_lt (v + k) (by norm_num : 0 < 4096)
  obtain ⟨va, hva⟩ : ∃ x, x = (v + k) / 4096 * 4096 := ⟨_, rfl⟩
  obtain ⟨m, hm⟩ : ∃ x, x = (v + k) % 4096 := ⟨_, rfl⟩
  rw [← hva, ← hm] at hpage ⊢
  rw [← hm] at hmod
  obtain ⟨copyFrom, hfrom⟩ : ∃ x, x = max v va := ⟨_, rfl⟩
  obtain ⟨copyTo, hto⟩ : ∃ x, x = min (v + fsz) (va + 4096) := ⟨_, rfl⟩
  rw [← hfrom, ← hto]
  by_cases hfile : k < fsz
  · rw [if_pos hfile, if_pos (by omega), Nat.mod_eq_of_lt (by omega), Buf.blit, Buf.length_slice,
      if_pos (by omega), Buf.slice, getD_eq_getElem _ _ (by simp; omega), getElem_map, getElem_range]
    congr 1
    omega
  · rw [if_neg hfile]
    split_ifs
    · refine Buf.blit_of_notMem ?_
      rw [Buf.length_slice]
      omega
    · rfl

end

/-- **When a program is loaded as its file says.** Its bytes are in place, with zeros where
the file has none, every frame that was taken has one entry, and `vmm_free_pd` gives all of
them back: exactly if no page belongs to two segments, of the program or of its interpreter,
or to a segment and the stack. -/
theorem load_ok_iff (f : ElfFile) (o : Option ElfFile) (top : Buf) (hf : f.Valid f.loadBase)
    (ho : ∀ g, o = some g → g.Valid 0x70000000) (kernel : ℕ → Option KernelPde)
    (kernelPtes : ℕ → Option ℕ)
    (hkernel : ∀ p ∈ f.programPages o top, kernel (p.1 / 2 ^ 22) = none) (pd : ℕ) (free : List ℕ)
    (hfree : (pd :: free).Nodup) (hmap : ∀ x ∈ pd :: free, Space.InIdmap x) (t : Space)
    (ht : (Space.create kernel kernelPtes pd free).loadPages (f.programPages o top) = some t) :
    ((∀ i, i < f.phnum → f.Loads (f.phdr i) → ∀ k, k < f.buf.rd32 (f.phdr i + 20) →
        t.byteAt (f.vaddr f.loadBase (f.phdr i) + k)
          = some (if k < f.buf.rd32 (f.phdr i + 16)
            then f.buf (f.buf.rd32 (f.phdr i + 4) + k) else 0))
      ∧ (∀ x ∈ pd :: free, x ∉ t.free → t.held.count x = 1)
      ∧ t.vmmFreePd ~ pd :: free)
    ↔ ((f.programPages o top).map fun p => p.1 / 4096).Nodup := by
  have hbelow : ∀ p ∈ f.programPages o top, p.1 < 2 ^ 32 := by
    refine forall_mem_append.2 ⟨forall_mem_append.2 ⟨hf.image_lt, ?_⟩, fun p hp => ?_⟩
    · cases o with
      | none => exact fun _ h => nomatch h
      | some g => exact (ho g rfl).image_lt
    · have := (stackPages_inWindow p.1 (of_mem_zip hp).1).2
      omega
  have hlt := fun p hp => And.intro (hbelow p hp) (hkernel p hp)
  have hgood : Space.Good kernel (pd :: free) (f.programPages o top) t := by
    have hstack : f.programPages o top = (f.image f.loadBase ++ o.elim [] (fun g => g.image 0x70000000)
        ++ (stackPages.take 6).zip (top :: replicate 5 Buf.zero))
        ++ [(0xBFFE9000, Buf.zero), (0xBFFE8000, Buf.zero)] := by
      rw [append_assoc]
      rfl
    rw [hstack] at ht hlt ⊢
    exact (Space.good_create kernelPtes pd free).loaded hfree hlt (by decide) ht
  obtain ⟨lost, hperm, hlost⟩ := hgood.frames
  rw [← hlost]
  constructor
  · rintro ⟨-, honce, -⟩
    by_contra hne
    obtain ⟨x, hx⟩ := exists_mem_of_ne_nil lost hne
    -- a lost frame is neither free nor held
    have hcount := hperm.count_eq x
    have hone : count x (pd :: free) ≤ 1 := nodup_iff_count_le_one.1 hfree x
    have hpos := count_pos_iff.2 hx
    rw [count_append, count_append] at hcount
    have := honce x (hperm.subset (by simp [hx])) (count_eq_zero.1 (by omega))
    omega
  · rintro rfl
    rw [nil_append] at hperm
    refine ⟨fun i hi hl k hk => ?_, fun x hx hfree' => ?_,
      hgood.vmmFreePd_eq hmap ▸ hperm⟩
    · have hpage := mem_append_left (stackPages.zip (top :: replicate 7 Buf.zero))
        (mem_append_left (o.elim [] (fun g => g.image 0x70000000)) (hf.mem_image hi hl hk))
      obtain ⟨g, hg, hbytes⟩ := hgood.pages (hlost.1 rfl) _ hpage
      have hnone := hkernel _ hpage
      dsimp only at hnone
      rw [show ∀ a, a / 4096 * 4096 / 2 ^ 22 = a / 2 ^ 22 by omega] at hnone
      unfold Space.byteAt
      rw [Nat.mul_div_cancel _ (by norm_num)] at hg
      rw [hgood.same, hnone]
      dsimp only
      rw [hg, map_some, hbytes]
      exact congrArg some (hf.content_byte hi hl)
    · have hcount := hperm.count_eq x
      rw [count_append, count_eq_zero.2 hfree', count_eq_one_of_mem hfree hx] at hcount
      exact hcount

/-- A file with a header and segments of four bytes, the first four of the file, at some
addresses. -/
def smallFile (addrs : List UInt8) : ElfFile where
  buf := fun i => (([0x7F, 0x45, 0x4C, 0x46, 1, 1, 0, 0, 0, 0, 0, 0, 0, 0, 0, 0, 2, 0, 3, 0, 1, 0, 0,
    0, 0, 0, 0, 0x40, 52, 0, 0, 0, 0, 0, 0, 0, 0, 0, 0, 0, 52, 0, 32, 0,
    UInt8.ofNat addrs.length, 0, 0, 0, 0, 0, 0, 0] : List UInt8)
      ++ addrs.flatMap fun a => [1, 0, 0, 0, 0, 0, 0, 0, a, 0, 0, 0x40, a, 0, 0, 0x40, 4, 0, 0, 0,
        4, 0, 0, 0, 5, 0, 0, 0, 0, 0x10, 0, 0]).getD i 0
  size := 52 + 32 * min addrs.length 2
  le := by omega

/-- The identity window. -/
def idmap (r : ℕ) : Option KernelPde := if r < 64 then some .large else none

/-- One segment: all frames come back. -/
theorem load_ok_small : ∃ t, (Space.create idmap (fun _ => none) 1 (range' 2 12)).loadPages
      ((smallFile [0]).programPages none Buf.zero) = some t
    ∧ t.byteAt 0x40000000 = some 0x7F ∧ t.vmmFreePd ~ 1 :: range' 2 12 := by
  have hsome : ((Space.create idmap (fun _ => none) 1 (range' 2 12)).loadPages
      ((smallFile [0]).programPages none Buf.zero)).isSome := by
    decide +kernel
  obtain ⟨t, ht⟩ := isSome_iff_exists.1 hsome
  obtain ⟨hbytes, -, hfree⟩ := (load_ok_iff (smallFile [0]) none Buf.zero (by decide +kernel)
    (fun _ h => nomatch h) idmap (fun _ => none) (by decide +kernel) 1 (range' 2 12)
    (by decide +kernel) (by decide +kernel) t ht).2 (by decide +kernel)
  exact ⟨t, ht, hbytes 0 (by decide +kernel) (by decide +kernel) 0 (by decide +kernel), hfree⟩

/-- **Two segments in one page.** They have no byte in common, and of the first nothing is
left. -/
theorem load_overwrites : (smallFile [0, 16]).Valid 0
    ∧ ((Space.create idmap (fun _ => none) 1 (range' 2 12)).loadPages
      ((smallFile [0, 16]).programPages none Buf.zero)).map
        (fun t => (t.byteAt 0x40000000, t.byteAt 0x40000010)) = some (some 0, some 0x7F) := by
  decide +kernel

end ElfFile

end Makar
