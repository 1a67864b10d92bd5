import Makar.InflateSafe
import Makar.UnzipPaths

/-!
# What `unzip_archive` reads

Offsets and lengths of the end record, of the entries of the central directory and of the
local headers are chosen by whoever made the archive. Each header is read after a test that
it fits, and the tests add in 32 bits: `p + 46 > len`, `p + 46 + nlen > len` and
`lh_off + 30 > len`. Only the last test, of the data, is made in 64 bits.

Along the walk the sums stay close to the length, so that they wrap for a buffer that fills
the address space and for no other. But `lh_off` is any number. From `2 ^ 32 - 30` on the
sum is small, the header is taken to fit, and its signature is read in front of the buffer.

The reads are recorded as pieces of the archive, an offset and a size, in the order of the
code: the fields of the headers, and the name and the data that are handed on. The two loops
count as the code counts, with a bound on their turns, and it is shown that they end.
-/

namespace Makar

open List Nat

namespace Archive

/-- A piece, an offset and a size, is inside the buffer. -/
def Within (a : Archive) (s : ℕ × ℕ) : Prop := s.1 + s.2 ≤ a.len

instance (a : Archive) (s : ℕ × ℕ) : Decidable (a.Within s) := inferInstanceAs (Decidable (_ ≤ _))

/-! ## The loops -/

/-- The search for the end record, downwards: what it finds and what it reads, and none
while it has not ended. -/
def search (a : Archive) (limit : ℕ) : ℕ → ℕ → Option (Option ℕ × List (ℕ × ℕ))
  | 0, _ => none
  | fuel + 1, i =>
    if a.rd32 i = zipEocdSig then some (some i, [(i, 4)])
    else if i ≤ limit then some (none, [(i, 4)])
    else (a.search limit fuel ((i + (2 ^ 32 - 1)) % 2 ^ 32)).map fun r => (r.1, (i, 4) :: r.2)

/-- The local header of an entry, and the data that go to `vfs_write_file` or, if there is
room for the result, to `inflate_raw`. -/
def dataReads (a : Archive) (room : Bool) (e : ZipEntry) : List (ℕ × ℕ) :=
  if a.len < (e.lhOff + 30) % 2 ^ 32 then []
  else (e.lhOff, 4) ::
    if a.rd32 e.lhOff ≠ zipLocSig then []
    else (e.lhOff + 26, 2) :: (e.lhOff + 28, 2) ::
      match a.dataOff e with
      | none => []
      | some off =>
        if e.method = 0 then if e.csize ≠ e.usize then [] else [(off, e.usize)]
        else if e.method = 8 ∧ room then [(off, e.csize)] else []

end Archive

/-- The entry is neither refused nor a directory: its local header is looked for. -/
def ZipEntry.IsFile (e : ZipEntry) (destdir : CStr) : Prop :=
  nameIsUnsafe e.name = false ∧ (buildDest destdir e.name).isSome ∧ e.name.getLast? ≠ some '/'

instance (e : ZipEntry) (destdir : CStr) : Decidable (e.IsFile destdir) :=
  inferInstanceAs (Decidable (_ ∧ _))

namespace Archive

/-- What a turn of the walk reads: the entry, its name and what belongs to it. -/
def turnReads (a : Archive) (room : Bool) (destdir : CStr) (p : ℕ) : List (ℕ × ℕ) :=
  if a.len < (p + 46) % 2 ^ 32 then []
  else (p, 4) ::
    if a.rd32 p ≠ zipCenSig then []
    else [(p + 10, 2), (p + 20, 4), (p + 24, 4), (p + 28, 2), (p + 30, 2), (p + 32, 2), (p + 42, 4)]
      ++ if a.len < (p + 46 + (a.entryAt p).name.length) % 2 ^ 32 then []
        else (p + 46, (a.entryAt p).name.length) ::
          if (a.entryAt p).IsFile destdir then a.dataReads room (a.entryAt p) else []

/-- The walk breaks off at a position. -/
def Stops (a : Archive) (p : ℕ) : Prop :=
  (a.len < (p + 46) % 2 ^ 32 ∨ a.rd32 p ≠ zipCenSig)
    ∨ a.len < (p + 46 + (a.entryAt p).name.length) % 2 ^ 32

instance (a : Archive) (p : ℕ) : Decidable (a.Stops p) := inferInstanceAs (Decidable (_ ∨ _))

/-- `next`. -/
def next (a : Archive) (p : ℕ) : ℕ :=
  (p + 46 + (a.entryAt p).name.length + (a.entryAt p).tail) % 2 ^ 32

/-- The walk with its counter `idx`, which has 16 bits: what it reads, and none while it has
not ended. -/
def walkReads (a : Archive) (room : ℕ → Bool) (destdir : CStr) (total : ℕ) :
    ℕ → ℕ → ℕ → Option (List (ℕ × ℕ))
  | 0, _, _ => none
  | fuel + 1, idx, p =>
    if total ≤ idx then some []
    else if a.Stops p then some (a.turnReads (room idx) destdir p)
    else (a.walkReads room destdir total fuel ((idx + 1) % 2 ^ 16) (a.next p)).map
      (a.turnReads (room idx) destdir p ++ ·)

/-- **What `unzip_archive` reads of the archive**, if its loops end within a number of
turns. -/
def reads (a : Archive) (room : ℕ → Bool) (destdir : CStr) (fuel : ℕ) : Option (List (ℕ × ℕ)) :=
  if a.len < 22 then some []
  else
    match a.search (if 22 + 65535 < a.len then a.len - 22 - 65535 else 0) fuel (a.len - 22) with
    | none => none
    | some (none, l) => some l
    | some (some i, l) =>
      if a.len ≤ a.rd32 (i + 16) then some (l ++ [(i + 10, 2), (i + 16, 4)])
      else (a.walkReads room destdir (a.rd16 (i + 10)) fuel 0 (a.rd32 (i + 16))).map
        (l ++ [(i + 10, 2), (i + 16, 4)] ++ ·)

/-! ## The positions of the walk -/

variable {a : Archive}

/-- The positions the walk comes to. -/
def heads (a : Archive) : ℕ → ℕ → List ℕ
  | 0, _ => []
  | n + 1, p => p :: if a.Stops p then [] else a.heads n (a.next p)

/-- The positions at which the function looks for an entry. -/
def visited (a : Archive) : List ℕ :=
  if a.len < 22 then []
  else
    match a.eocd with
    | none => []
    | some i =>
      if a.len ≤ a.rd32 (i + 16) then [] else a.heads (a.rd16 (i + 10)) (a.rd32 (i + 16))

/-- The entries of the walk are those at its positions, but the one where it breaks off. -/
theorem walk_eq (n p : ℕ) :
    a.walk n p = ((a.heads n p).filter fun q => ¬ a.Stops q).map a.entryAt := by
  induction n generalizing p with
  | zero => rfl
  | succ n ih =>
    unfold walk heads
    by_cases h : a.len < (p + 46) % 2 ^ 32 ∨ a.rd32 p ≠ zipCenSig
    · have hstop : a.Stops p := .inl h
      rw [if_pos h, if_pos hstop, filter_cons_of_neg (by simpa using hstop)]
      rfl
    · by_cases h' : a.len < (p + 46 + (a.entryAt p).name.length) % 2 ^ 32
      · have hstop : a.Stops p := .inr h'
        simp only [if_neg h, if_pos h', if_pos hstop]
        rw [filter_cons_of_neg (by simpa using hstop)]
        rfl
      · have hstop : ¬ a.Stops p := not_or.2 ⟨h, h'⟩
        simp only [if_neg h, if_neg h', if_neg hstop]
        rw [filter_cons_of_pos (by simpa using hstop), map_cons, ← ih]
        rfl

/-- The entries of the archive are those at the positions that are visited. -/
theorem entries_eq :
    a.entries.getD [] = (a.visited.filter fun q => ¬ a.Stops q).map a.entryAt := by
  unfold entries visited
  split_ifs
  · rfl
  · cases a.eocd with
    | none => rfl
    | some i =>
      dsimp only
      split_ifs
      · rfl
      · exact walk_eq _ _

/-! ## When a header is read inside the buffer -/

/-- The test of a header of a number of bytes does not wrap; or there is no such header, and
the signature that shows it is inside. -/
def HeaderOk (a : Archive) (q size sig : ℕ) : Prop :=
  (q + size) % 2 ^ 32 ≤ a.len → q + size < 2 ^ 32 ∨ q + 4 ≤ a.len ∧ a.rd32 q ≠ sig

instance (q size sig : ℕ) : Decidable (a.HeaderOk q size sig) := inferInstanceAs (Decidable (_ → _))

/-- **None of the tests of a turn wraps.** -/
def Straight (a : Archive) (destdir : CStr) (p : ℕ) : Prop :=
  a.HeaderOk p 46 zipCenSig
    ∧ (¬ a.Stops p → p + 46 + (a.entryAt p).name.length < 2 ^ 32
      ∧ ((a.entryAt p).IsFile destdir → a.HeaderOk (a.entryAt p).lhOff 30 zipLocSig))

instance (destdir : CStr) (p : ℕ) : Decidable (a.Straight destdir p) :=
  inferInstanceAs (Decidable (_ ∧ _))

/-- The data of an entry are inside whatever the header says. -/
theorem dataOff_within {e : ZipEntry} {off : ℕ} (h : a.dataOff e = some off) :
    off + e.csize ≤ a.len := by
  unfold dataOff at h
  dsimp only at h
  split_ifs at h with h₁ h₂
  obtain rfl := Option.some.inj h
  exact Nat.le_of_not_lt h₂

/-- **A header and what is read behind it.** The pieces of the header show whether its end
wraps. -/
theorem header_within {q size sig : ℕ} {l : List (ℕ × ℕ)} {Q : Prop} (h4 : 4 ≤ size)
    (hl : (q + size) % 2 ^ 32 ≤ a.len → a.rd32 q = sig →
      ((∀ s ∈ l, a.Within s) ↔ q + size < 2 ^ 32 ∧ Q)) :
    (∀ s ∈ (if a.len < (q + size) % 2 ^ 32 then []
        else (q, 4) :: if a.rd32 q ≠ sig then [] else l), a.Within s)
      ↔ a.HeaderOk q size sig ∧ (¬ (a.len < (q + size) % 2 ^ 32 ∨ a.rd32 q ≠ sig) → Q) := by
  unfold HeaderOk
  by_cases hfit : a.len < (q + size) % 2 ^ 32
  · rw [if_pos hfit]
    exact iff_of_true (fun _ h => nomatch h)
      ⟨fun h => absurd hfit (not_lt.2 h), fun h => absurd (.inl hfit) h⟩
  have hfit' : (q + size) % 2 ^ 32 ≤ a.len := Nat.le_of_not_lt hfit
  have hin : q + size < 2 ^ 32 → a.Within (q, 4) := by
    intro h
    rw [mod_eq_of_lt h] at hfit'
    unfold Within
    dsimp only
    omega
  rw [if_neg hfit, forall_mem_cons]
  split_ifs with hsig
  · constructor
    · exact fun h => ⟨fun _ => .inr ⟨h.1, hsig⟩, fun h' => absurd (.inr hsig) h'⟩
    · rintro ⟨h, -⟩
      exact ⟨(h hfit').elim hin And.left, fun _ h => nomatch h⟩
  · rw [hl hfit' (not_not.1 hsig)]
    constructor
    · exact fun h => ⟨fun _ => .inl h.2.1, fun _ => h.2.2⟩
    · rintro ⟨h, hQ⟩
      have hlt := (h hfit').resolve_right fun h => hsig h.2
      exact ⟨hin hlt, hlt, hQ (not_or.2 ⟨hfit, hsig⟩)⟩

theorem dataReads_within (hlen : a.len < 2 ^ 32) (room : Bool) (e : ZipEntry) :
    (∀ s ∈ a.dataReads room e, a.Within s) ↔ a.HeaderOk e.lhOff 30 zipLocSig := by
  refine (header_within (Q := True) (by norm_num) fun hfit _ => ?_).trans
    (and_iff_left fun _ => trivial)
  simp only [forall_mem_cons, Within, and_true]
  constructor
  · rintro ⟨-, h, -⟩
    omega
  · intro h
    rw [mod_eq_of_lt h] at hfit
    refine ⟨by omega, by omega, ?_⟩
    cases hoff : a.dataOff e with
    | none => exact fun _ h => nomatch h
    | some off =>
      have hin := dataOff_within hoff
      dsimp only
      split_ifs with h₁ h₂ h₃
      · exact fun _ h => nomatch h
      · rw [forall_mem_singleton]
        omega
      · rw [forall_mem_singleton]
        exact hin
      · exact fun _ h => nomatch h

/-- **A turn reads inside the buffer exactly if none of its tests wraps.** -/
theorem turnReads_within (hlen : a.len < 2 ^ 32) (room : Bool) (destdir : CStr) (p : ℕ) :
    (∀ s ∈ a.turnReads room destdir p, a.Within s) ↔ a.Straight destdir p := by
  have hdata : (∀ s ∈ if (a.entryAt p).IsFile destdir then a.dataReads room (a.entryAt p) else [],
        a.Within s)
      ↔ ((a.entryAt p).IsFile destdir → a.HeaderOk (a.entryAt p).lhOff 30 zipLocSig) := by
    split_ifs with hfile
    · rw [forall_prop_of_true hfile]
      exact dataReads_within hlen room _
    · exact iff_of_true (fun _ h => nomatch h) (fun h => absurd h hfile)
  unfold Straight Stops
  simp only [not_or, and_imp]
  refine (header_within (Q := ¬ a.len < (p + 46 + (a.entryAt p).name.length) % 2 ^ 32 →
    p + 46 + (a.entryAt p).name.length < 2 ^ 32
      ∧ ((a.entryAt p).IsFile destdir → a.HeaderOk (a.entryAt p).lhOff 30 zipLocSig))
    (by norm_num) fun hfit _ => ?_).trans (by simp only [not_or, and_imp])
  rw [← hdata]
  generalize (if (a.entryAt p).IsFile destdir then a.dataReads room (a.entryAt p) else []) = l
  generalize (a.entryAt p).name.length = n
  simp only [forall_mem_append, forall_mem_cons, not_mem_nil, false_imp_iff, implies_true,
    and_true]
  split_ifs with hname
  · simp only [Within, not_mem_nil, false_imp_iff, implies_true, and_true, hname, not_true_eq_false]
    omega
  · rw [forall_mem_cons, forall_prop_of_true hname]
    unfold Within
    dsimp only
    constructor
    · rintro ⟨-, hin, h⟩
      exact ⟨by omega, by omega, h⟩
    · rintro ⟨-, hlt, h⟩
      exact ⟨by omega, by omega, h⟩

/-! ## Whole runs -/

/-- **The search ends**, finds what `eocd` finds, and reads inside the buffer. -/
theorem search_eq (hlen : a.len < 2 ^ 32) (limit fuel : ℕ) {i : ℕ} (hi : limit ≤ i)
    (hin : i + 22 ≤ a.len) (hfuel : i - limit < fuel) :
    ∃ l, a.search limit fuel i
        = some (((List.range (i - limit + 1)).map fun k => i - k).find? fun j =>
          a.rd32 j = zipEocdSig, l)
      ∧ ∀ s ∈ l, a.Within s := by
  induction fuel generalizing i with
  | zero => exact absurd hfuel (not_lt_zero _)
  | succ fuel ih =>
    have hhere : a.Within (i, 4) := by
      unfold Within
      dsimp only
      omega
    unfold search
    rw [range_succ_eq_map, map_cons, map_map]
    by_cases hsig : a.rd32 i = zipEocdSig
    · rw [if_pos hsig, find?_cons_of_pos (by simpa using hsig)]
      exact ⟨_, rfl, forall_mem_singleton.2 hhere⟩
    rw [if_neg hsig, find?_cons_of_neg (by simpa using hsig)]
    split_ifs with hlimit
    · have hzero : i - limit = 0 := by omega
      rw [hzero]
      exact ⟨_, rfl, forall_mem_singleton.2 hhere⟩
    have hdown : (i + (2 ^ 32 - 1)) % 2 ^ 32 = i - 1 := by omega
    obtain ⟨l, heq, hl⟩ := ih (i := i - 1) (by omega) (by omega) (by omega)
    have hmap : ((List.range (i - limit)).map ((fun k => i - k) ∘ succ))
        = (List.range (i - 1 - limit + 1)).map fun k => i - 1 - k := by
      rw [show i - 1 - limit + 1 = i - limit by omega]
      refine map_congr_left fun k _ => ?_
      dsimp only [Function.comp]
      omega
    rw [hdown, heq, hmap]
    exact ⟨_, rfl, forall_mem_cons.2 ⟨hhere, hl⟩⟩

/-- **The walk ends**: its counter comes to `total` before it wraps. And it reads inside the
buffer exactly if no test of its turns wraps. -/
theorem walkReads_within (hlen : a.len < 2 ^ 32) (room : ℕ → Bool) (destdir : CStr) {total : ℕ}
    (htotal : total < 2 ^ 16) (idx fuel p : ℕ) (hidx : idx ≤ total) (hfuel : total - idx < fuel) :
    ∃ l, a.walkReads room destdir total fuel idx p = some l
      ∧ ((∀ s ∈ l, a.Within s) ↔ ∀ q ∈ a.heads (total - idx) p, a.Straight destdir q) := by
  induction fuel generalizing idx p with
  | zero => exact absurd hfuel (not_lt_zero _)
  | succ fuel ih =>
    unfold walkReads
    by_cases hend : total ≤ idx
    · rw [if_pos hend, Nat.sub_eq_zero_of_le hend]
      exact ⟨_, rfl, iff_of_true (fun _ h => nomatch h) (fun _ h => nomatch h)⟩
    rw [if_neg hend, show total - idx = total - (idx + 1) + 1 by omega, heads, forall_mem_cons]
    by_cases hstop : a.Stops p
    · rw [if_pos hstop, if_pos hstop]
      refine ⟨_, rfl, (turnReads_within hlen _ destdir p).trans ?_⟩
      exact ⟨fun h => ⟨h, fun _ h => nomatch h⟩, And.left⟩
    · rw [if_neg hstop, if_neg hstop, mod_eq_of_lt (by omega : idx + 1 < 2 ^ 16)]
      obtain ⟨l, heq, hl⟩ := ih (idx + 1) (a.next p) (by omega) (by omega)
      rw [heq]
      refine ⟨_, rfl, ?_⟩
      rw [forall_mem_append, turnReads_within hlen, hl]

/-- Two bytes are a number below `2 ^ 16`. -/
theorem rd16_lt (p : ℕ) : a.rd16 p < 2 ^ 16 := by
  have h₁ := (a.zip p).toNat_lt
  have h₂ := (a.zip (p + 1)).toNat_lt
  unfold rd16
  omega

/-- The end record is inside the buffer. -/
theorem eocd_within {i : ℕ} (hlen : 22 ≤ a.len) (h : a.eocd = some i) : i + 22 ≤ a.len := by
  obtain ⟨k, -, rfl⟩ := mem_map.1 (mem_of_find?_eq_some h)
  omega

/-- **`unzip_archive` ends and reads inside the buffer exactly if** no test of a header that
it comes to wraps: for an archive that leaves some room in the address space, if the local
header of no file is said to be in the last thirty bytes below `2 ^ 32`. What it hands to
`inflate_raw` is read within its bounds, and to an end, if the sizes leave room in the same
way. -/
theorem unzipArchive_reads_iff (a : Archive) (hlen : a.len < 2 ^ 32) (room : ℕ → Bool)
    (destdir : CStr) :
    ((∃ l, a.reads room destdir (2 ^ 16 + 1) = some l ∧ ∀ s ∈ l, a.Within s)
      ↔ ∀ p ∈ a.visited, a.Straight destdir p)
    ∧ ∀ e ∈ a.entries.getD [], ∀ off, a.dataOff e = some off → a.len + 65535 < 2 ^ 32 →
      e.usize + 65535 < 2 ^ 32 →
      ∃ rc s, inflateRaw ⟨fun i => a.zip (off + i), e.csize, e.usize⟩ (fun _ => 0)
        (8 * e.csize + 1) = .ok (rc, s) := by
  constructor
  · unfold reads visited
    by_cases hshort : a.len < 22
    · rw [if_pos hshort, if_pos hshort]
      exact iff_of_true ⟨_, rfl, fun _ h => nomatch h⟩ (fun _ h => nomatch h)
    rw [if_neg hshort, if_neg hshort]
    obtain ⟨l, heq, hl⟩ := search_eq hlen
      (if 22 + 65535 < a.len then a.len - 22 - 65535 else 0) (2 ^ 16 + 1) (i := a.len - 22)
      (by split_ifs <;> omega) (by omega) (by split_ifs <;> omega)
    rw [heq]
    change (∃ l', (match some (a.eocd, l) with
      | none => none
      | some (none, l) => some l
      | some (some i, l) => _) = some l' ∧ _) ↔ _
    cases heocd : a.eocd with
    | none => exact iff_of_true ⟨l, rfl, hl⟩ (fun _ h => nomatch h)
    | some i =>
      have hi := eocd_within (by omega) heocd
      have hfields : ∀ s ∈ l ++ [(i + 10, 2), (i + 16, 4)], a.Within s := by
        refine forall_mem_append.2 ⟨hl, forall_mem_cons.2 ⟨?_, forall_mem_singleton.2 ?_⟩⟩
        all_goals
          unfold Within
          dsimp only
          omega
      dsimp only
      by_cases hcd : a.len ≤ a.rd32 (i + 16)
      · rw [if_pos hcd, if_pos hcd]
        exact iff_of_true ⟨_, rfl, hfields⟩ (fun _ h => nomatch h)
      · have htotal := rd16_lt (a := a) (i + 10)
        obtain ⟨w, hw, hiff⟩ := walkReads_within hlen room destdir htotal 0 (2 ^ 16 + 1)
          (a.rd32 (i + 16)) (zero_le _) (by omega)
        rw [if_neg hcd, if_neg hcd, hw]
        refine ⟨?_, fun h => ⟨_, rfl, forall_mem_append.2 ⟨hfields, hiff.2 h⟩⟩⟩
        rintro ⟨_, heq, h⟩
        cases heq
        exact hiff.1 (forall_mem_append.1 h).2
  · intro e _ off hoff hsrc hdst
    have hin := dataOff_within hoff
    obtain ⟨rc, s, heq, -⟩ := infTurns_returns (fun _ => 0)
      (z := ⟨fun i => a.zip (off + i), e.csize, e.usize⟩) ⟨by dsimp only; omega, hdst⟩
      (lt_succ_self _)
    exact ⟨rc, s, heq⟩

end Archive

/-- The archive with one file is read inside its buffer. -/
theorem unzipArchive_reads_file :
    ∃ l, (oneFile [0x61]).reads (fun _ => true) "/d".toList (2 ^ 16 + 1) = some l
      ∧ ∀ s ∈ l, (oneFile [0x61]).Within s :=
  (Archive.unzipArchive_reads_iff (oneFile [0x61]) (by decide +kernel) (fun _ => true)
    "/d".toList).1.2 (by decide +kernel)

/-- An archive of an entry and an end record. The local header of the entry is said to be at
`2 ^ 32 - 16`. -/
def farHeader : Archive :=
  let cen := leBytes 4 zipCenSig ++ replicate 24 0 ++ leBytes 2 1 ++ replicate 12 0
    ++ leBytes 4 (2 ^ 32 - 16) ++ [0x61]
  let bytes := cen ++ leBytes 4 zipEocdSig ++ replicate 6 0 ++ leBytes 2 1 ++ replicate 10 0
  ⟨fun i => bytes.getD i 0, bytes.length⟩

/-- **A read in front of the buffer.** The sum `lh_off + 30` is 14, and the signature is read
at `zip + lh_off`, sixteen bytes before the archive. -/
theorem unzipArchive_reads_before :
    (2 ^ 32 - 16, 4) ∈ (farHeader.reads (fun _ => true) "/d".toList (2 ^ 16 + 1)).getD []
      ∧ ¬ farHeader.Within (2 ^ 32 - 16, 4) := by
  decide +kernel

end Makar
