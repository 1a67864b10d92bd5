import Makar.Unzip

/-!
# Where an archive is unpacked to

Every path that `unzip_archive` hands to the file system should lie in the destination
directory, whatever the archive is. `name_is_unsafe` refuses the names with a component `..`,
and in a path without one the normalisation of the file system only ever appends.

The test reads a name up to its length and the file system reads a path up to the first zero.
In the name `..`, zero, `x` there is no component `..`, for the zero is part of the component;
the path of the entry ends in front of it, and is the parent of the destination
(`unzip_escapes`). That a name can do this is decided by the part in front of the zero: it has
to end in `..` with no other component in front that could be taken back (`Climbs`).

A second thing is on purpose. `make_parent_dirs` makes all directories along the way, those
above the destination included, and they are outside unless the destination is a single name.
`unzip_inside` says exactly when every path is inside.
-/

namespace Makar

open List ZipEntry

/-! ## Directories -/

/-- **The path is in the directory**, or is the directory. -/
def Inside (dir path : CStr) : Prop := path = dir ∨ dir = ['/'] ∧ ['/'] <+: path ∨ dir ++ ['/'] <+: path

instance (dir path : CStr) : Decidable (Inside dir path) :=
  inferInstanceAs (Decidable (_ ∨ _ ∧ _ ∨ _))

namespace Inside

variable {dir path path' : CStr}

theorem refl (dir : CStr) : Inside dir dir := .inl rfl

theorem isPrefix (h : Inside dir path) : dir <+: path := by
  rcases h with rfl | ⟨rfl, h⟩ | h
  · exact prefix_rfl
  · exact h
  · exact (prefix_append dir ['/']).trans h

theorem trans (h : Inside dir path) (h' : Inside path path') : Inside dir path' := by
  rcases h with rfl | ⟨rfl, h⟩ | h
  · exact h'
  · exact .inr (.inl ⟨rfl, h.trans h'.isPrefix⟩)
  · exact .inr (.inr (h.trans h'.isPrefix))

end Inside

/-! ## Normalisation -/

/-- The last segment is a component of its own. -/
theorem splitOn_append (a b : CStr) :
    (a ++ '/' :: b).splitOn '/' = a.splitOn '/' ++ b.splitOn '/' :=
  splitOnP_append_cons a b (by decide)

theorem splitOn_ne_nil (a : CStr) : a.splitOn '/' ≠ [] := splitOnP_ne_nil _ _

/-- The state of `path_normalize` at the end of a path. -/
def normState (path : CStr) : NormState := (path.splitOn '/').foldl normSegment ⟨['/'], []⟩

theorem normState_append (a b : CStr) :
    normState (a ++ '/' :: b) = (b.splitOn '/').foldl normSegment (normState a) := by
  rw [normState, splitOn_append, foldl_append]
  rfl

/-- A separator at the end changes nothing. -/
theorem normState_slash (a : CStr) : normState (a ++ ['/']) = normState a := by
  rw [normState_append]
  rfl

/-- The components start inside the output, which starts with a separator. -/
structure NormState.Ok (s : NormState) : Prop where
  /-- The first character. -/
  root : ['/'] <+: s.out
  /-- The starts. -/
  starts : ∀ n ∈ s.compStart, 1 ≤ n ∧ n ≤ s.out.length
  /-- They are in order. -/
  sorted : s.compStart.Pairwise (· ≥ ·)

/-- A segment that is a component. -/
def IsComponent (seg : CStr) : Prop := seg ≠ [] ∧ seg ≠ ['.'] ∧ seg ≠ ['.', '.']

instance (seg : CStr) : Decidable (IsComponent seg) := inferInstanceAs (Decidable (_ ∧ _ ∧ _))

variable {s : NormState}

variable {seg : CStr}

/-- What a component appends. -/
theorem normSegment_component (hseg : IsComponent seg) (hs : s.Ok) :
    Inside s.out (normSegment s seg).out
      ∧ (normSegment s seg).compStart
        = if s.compStart.length < vfsPathMax / 2 then s.out.length :: s.compStart
          else s.compStart := by
  unfold normSegment
  rw [if_neg (by rintro (h | h); exacts [hseg.1 h, hseg.2.1 h]), if_neg hseg.2.2]
  refine ⟨?_, rfl⟩
  show Inside s.out ((if _ then _ else _) ++ _)
  split_ifs with h
  · exact .inr (.inr (prefix_append _ _))
  · -- the root has its separator already, and a full buffer takes nothing
    obtain ⟨rest, hroot⟩ := hs.root
    cases rest with
    | nil =>
      rw [append_nil] at hroot
      rw [← hroot]
      exact .inr (.inl ⟨rfl, prefix_append _ _⟩)
    | cons c rest =>
      have hlen : 1 < s.out.length := by
        rw [← hroot]
        simp
      have hfull : vfsPathMax - 1 - s.out.length = 0 := by omega
      rw [hfull, take_zero, append_nil]
      exact .refl _

theorem NormState.Ok.normSegment (hs : s.Ok) (seg : CStr) : (normSegment s seg).Ok := by
  by_cases hseg : IsComponent seg
  · obtain ⟨hin, hstart⟩ := normSegment_component hseg hs
    have hle := hin.isPrefix.length_le
    have hone := hs.root.length_le
    refine ⟨hs.root.trans hin.isPrefix, fun n hn => ?_, ?_⟩
    · rw [hstart] at hn
      split_ifs at hn
      · rcases mem_cons.1 hn with rfl | hn
        · exact ⟨hone, hle⟩
        · exact ⟨(hs.starts n hn).1, (hs.starts n hn).2.trans hle⟩
      · exact ⟨(hs.starts n hn).1, (hs.starts n hn).2.trans hle⟩
    · rw [hstart]
      split_ifs
      · exact pairwise_cons.2 ⟨fun n hn => (hs.starts n hn).2, hs.sorted⟩
      · exact hs.sorted
  · unfold Makar.normSegment
    by_cases hskip : seg = [] ∨ seg = ['.']
    · rw [if_pos hskip]
      exact hs
    · have hup : seg = ['.', '.'] := by
        unfold IsComponent at hseg
        tauto
      rw [if_neg hskip, if_pos hup]
      cases hst : s.compStart with
      | nil => exact hs
      | cons start rest =>
        have hstart := hs.starts start (by rw [hst]; exact mem_cons_self)
        have hsorted := hs.sorted
        rw [hst] at hsorted
        obtain ⟨hbelow, hrest⟩ := pairwise_cons.1 hsorted
        refine ⟨?_, fun n hn => ⟨?_, ?_⟩, hrest⟩
        · exact prefix_take_iff.2 ⟨hs.root, hstart.1⟩
        · exact (hs.starts n (by rw [hst]; exact mem_cons_of_mem _ hn)).1
        · show n ≤ (s.out.take start).length
          rw [length_take, min_eq_left hstart.2]
          exact hbelow n hn

theorem NormState.Ok.foldl (hs : s.Ok) (segs : List CStr) :
    (segs.foldl Makar.normSegment s).Ok := by
  induction segs generalizing s with
  | nil => exact hs
  | cons seg segs ih => exact ih (hs.normSegment seg)

theorem normState_ok (path : CStr) : (normState path).Ok :=
  NormState.Ok.foldl ⟨prefix_rfl, fun _ hn => absurd hn not_mem_nil, List.Pairwise.nil⟩ _

/-- **The state is above another**: it was reached by components only. The output is inside, and
the components that were added start inside. -/
structure Above (s t : NormState) : Prop where
  /-- The output. -/
  out : Inside s.out t.out
  /-- The components. -/
  starts : ∃ new, t.compStart = new ++ s.compStart
    ∧ ∀ n ∈ new, n ≤ t.out.length ∧ Inside s.out (t.out.take n)

theorem Above.refl (s : NormState) : Above s s := ⟨.refl _, [], rfl, fun _ hn => nomatch hn⟩

/-- The components among segments. -/
def components (segs : List CStr) : List CStr := segs.filter (fun seg => decide (IsComponent seg))

theorem Above.normSegment {s t : NormState} (ht : t.Ok) (h : Above s t)
    (hseg : seg ≠ ['.', '.']) : Above s (normSegment t seg) := by
  by_cases hcomp : IsComponent seg
  · obtain ⟨hin, hstart⟩ := normSegment_component hcomp ht
    obtain ⟨new, hnew, hbelow⟩ := h.starts
    have hle := hin.isPrefix.length_le
    -- what was there is still there
    have hkeep : ∀ n ≤ t.out.length, (Makar.normSegment t seg).out.take n = t.out.take n := by
      intro n hn
      obtain ⟨rest, hrest⟩ := hin.isPrefix
      rw [← hrest, take_append_of_le_length hn]
    refine ⟨h.out.trans hin, ?_⟩
    rw [hstart]
    split_ifs
    · refine ⟨t.out.length :: new, by rw [hnew]; rfl, fun n hn => ?_⟩
      rcases mem_cons.1 hn with rfl | hn
      · rw [hkeep _ le_rfl, take_length]
        exact ⟨hle, h.out⟩
      · rw [hkeep _ (hbelow n hn).1]
        exact ⟨(hbelow n hn).1.trans hle, (hbelow n hn).2⟩
    · refine ⟨new, hnew, fun n hn => ?_⟩
      rw [hkeep _ (hbelow n hn).1]
      exact ⟨(hbelow n hn).1.trans hle, (hbelow n hn).2⟩
  · have hskip : seg = [] ∨ seg = ['.'] := by
      unfold IsComponent at hcomp
      tauto
    unfold Makar.normSegment
    rw [if_pos hskip]
    exact h

/-- **Segments without a step up stay above.** -/
theorem foldl_above (segs : List CStr) {t : NormState} (ht : t.Ok) (h : Above s t)
    (hup : ['.', '.'] ∉ segs) : Above s (segs.foldl normSegment t) := by
  induction segs generalizing t with
  | nil => exact h
  | cons seg segs ih =>
    rw [mem_cons, not_or] at hup
    exact ih (ht.normSegment seg) (h.normSegment ht (Ne.symm hup.1)) hup.2

/-- How many components there are after such segments: each adds one, until the stack is full. -/
theorem foldl_compStart_length (segs : List CStr) {t : NormState} (ht : t.Ok)
    (hup : ['.', '.'] ∉ segs) :
    (segs.foldl normSegment t).compStart.length
      = max t.compStart.length
        (min (t.compStart.length + (components segs).length) (vfsPathMax / 2)) := by
  induction segs generalizing t with
  | nil => simp [components]
  | cons seg segs ih =>
    rw [mem_cons, not_or] at hup
    rw [foldl_cons, ih (ht.normSegment seg) hup.2]
    by_cases hcomp : IsComponent seg
    · have hlen : (components (seg :: segs)).length = (components segs).length + 1 := by
        unfold components
        rw [filter_cons_of_pos (by simpa using hcomp), length_cons]
      rw [(normSegment_component hcomp ht).2, hlen]
      split_ifs
      · rw [length_cons]
        omega
      · omega
    · have hsame : components (seg :: segs) = components segs :=
        filter_cons_of_neg (by simpa using hcomp)
      have hskip : seg = [] ∨ seg = ['.'] := by
        unfold IsComponent at hcomp
        have := hup.1
        tauto
      rw [hsame, show normSegment t seg = t from if_pos hskip]

/-- **The name climbs**: it ends in a step up, with no component in front of it that could be
taken back, and the directory has one. A component is not taken back when the stack of
`path_normalize` was full before it. -/
def Climbs (s : NormState) (name : CStr) : Prop :=
  (name.splitOn '/').getLast? = some ['.', '.']
    ∧ (components (name.splitOn '/') = [] ∨ vfsPathMax / 2 ≤ s.compStart.length)
    ∧ ∃ start, s.compStart.head? = some start ∧ start < s.out.length

instance (s : NormState) (name : CStr) : Decidable (Climbs s name) :=
  decidable_of_iff ((name.splitOn '/').getLast? = some ['.', '.']
    ∧ (components (name.splitOn '/') = [] ∨ vfsPathMax / 2 ≤ s.compStart.length)
    ∧ s.compStart.head?.any (fun start => decide (start < s.out.length)) = true) (by
      unfold Climbs
      cases s.compStart.head? <;> simp)

/-- **A name that has a step up at its end at most** leads out of a directory if it climbs. -/
theorem inside_foldl_iff (hs : s.Ok) {name : CStr}
    (hup : ['.', '.'] ∉ (name.splitOn '/').dropLast) :
    Inside s.out ((name.splitOn '/').foldl normSegment s).out ↔ ¬ Climbs s name := by
  have hne := splitOn_ne_nil name
  have hsplit := dropLast_append_getLast hne
  have hlast : (name.splitOn '/').getLast? = some ((name.splitOn '/').getLast hne) :=
    getLast?_eq_some_getLast hne
  unfold Climbs
  generalize name.splitOn '/' = segs at *
  generalize segs.getLast hne = last at *
  generalize segs.dropLast = pre at *
  subst hsplit
  rw [foldl_append, foldl_cons, foldl_nil, hlast]
  have habove := foldl_above pre hs (Above.refl s) hup
  have hok := hs.foldl pre
  by_cases hstep : last = ['.', '.']
  · subst hstep
    have hcomps : components (pre ++ [['.', '.']]) = components pre := by
      unfold components
      rw [filter_append]
      simp [IsComponent]
    have hlen := foldl_compStart_length pre hs hup
    rw [hcomps]
    generalize pre.foldl normSegment s = t at *
    obtain ⟨new, hnew, hbelow⟩ := habove.starts
    unfold normSegment
    rw [if_neg (by decide), if_pos rfl]
    have hcount : new = [] ↔ components pre = [] ∨ vfsPathMax / 2 ≤ s.compStart.length := by
      rw [hnew, length_append] at hlen
      rw [← length_eq_zero_iff, ← length_eq_zero_iff]
      omega
    rw [← hcount, hnew]
    cases hnew' : new with
    | cons start rest =>
      have := hbelow start (by rw [hnew']; exact mem_cons_self)
      simpa using this.2
    | nil =>
      subst hnew'
      cases hst : s.compStart with
      | nil => simpa using habove.out
      | cons start rest =>
        have hstart := hs.starts start (by rw [hst]; exact mem_cons_self)
        have htake : t.out.take start = s.out.take start := by
          obtain ⟨rest, hrest⟩ := habove.out.isPrefix
          rw [← hrest, take_append_of_le_length hstart.2]
        simp only [nil_append, head?_cons, Option.some.injEq, true_and, exists_eq_left',
          htake]
        constructor
        · intro hin hlt
          have := hin.isPrefix.length_le
          rw [length_take] at this
          omega
        · intro hge
          rw [take_of_length_le (by omega)]
          exact .refl _
  · have hin := (habove.normSegment hok hstep).out
    simp only [Option.some.injEq, hstep, false_and, not_false_eq_true, iff_true]
    exact hin

/-! ## Names that pass the test -/

/-- A segment that is not the last stands between separators. -/
theorem exists_of_mem_dropLast {segs : List CStr} (h : seg ∈ segs.dropLast) :
    ∃ a b, ['/'].intercalate segs = a ++ seg ++ '/' :: b ∧ (a = [] ∨ ∃ a', a = a' ++ ['/']) := by
  induction segs with
  | nil => exact absurd h not_mem_nil
  | cons x segs ih =>
    cases segs with
    | nil => exact absurd h not_mem_nil
    | cons y segs =>
      rw [intercalate_cons_cons]
      rcases mem_cons.1 h with rfl | h
      · exact ⟨[], ['/'].intercalate (y :: segs), by simp, .inl rfl⟩
      · obtain ⟨a, b, heq, ha⟩ := ih h
        refine ⟨x ++ ['/'] ++ a, b, by rw [heq]; simp only [append_assoc], .inr ?_⟩
        rcases ha with rfl | ⟨a', rfl⟩
        · exact ⟨x, by simp⟩
        · exact ⟨x ++ ['/'] ++ a', by simp only [append_assoc]⟩

/-- The test finds a component that is a step up. -/
theorem nameIsUnsafe_up {a b : CStr} (ha : a = [] ∨ ∃ a', a = a' ++ ['/']) :
    nameIsUnsafe (a ++ ['.', '.'] ++ '/' :: b) = true := by
  have hat : unsafeAt (a ++ ['.', '.'] ++ '/' :: b) a.length = true := by
    have hget : ∀ i, (a ++ ['.', '.'] ++ '/' :: b).getD (a.length + i) '\x00'
        = ('.' :: '.' :: '/' :: b).getD i '\x00' := by
      intro i
      rw [append_assoc, getD_append_right _ _ _ _ (Nat.le_add_right _ _),
        Nat.add_sub_cancel_left]
      rfl
    have hbefore : a.length = 0 ∨ (a ++ ['.', '.'] ++ '/' :: b).getD (a.length - 1) '\x00' = '/' := by
      rcases ha with rfl | ⟨a', rfl⟩
      · exact .inl rfl
      · refine .inr ?_
        rw [append_assoc, append_assoc, length_append, length_singleton,
          Nat.add_sub_cancel, getD_append_right _ _ _ _ le_rfl, Nat.sub_self]
        rfl
    have h0 := hget 0
    rw [Nat.add_zero] at h0
    unfold unsafeAt
    rw [h0, hget 1, hget 2]
    simpa using hbefore
  unfold nameIsUnsafe
  rw [Bool.or_eq_true]
  refine .inr (any_eq_true.2 ⟨a.length, mem_range.2 ?_, hat⟩)
  simp

/-- The part of a name that is in the path of the entry. -/
def ZipEntry.seen (e : ZipEntry) : CStr :=
  cstr (if e.name.getLast? = some '/' then e.name.dropLast else e.name)

/-- It is a part of the name. -/
theorem ZipEntry.seen_isPrefix (e : ZipEntry) : e.seen <+: e.name := by
  unfold seen cstr
  refine ( takeWhile_prefix _).trans ?_
  split_ifs
  · exact dropLast_prefix _
  · exact prefix_rfl

section

variable {e : ZipEntry} (h : nameIsUnsafe e.name = false)
include h

/-- **A name that passes the test** has a step up at the end of what is seen of it, at most. -/
theorem ZipEntry.up_not_mem : ['.', '.'] ∉ (e.seen.splitOn '/').dropLast := by
  intro hmem
  obtain ⟨a, b, heq, ha⟩ := exists_of_mem_dropLast hmem
  rw [intercalate_splitOn] at heq
  obtain ⟨rest, hrest⟩ := e.seen_isPrefix
  have hname : e.name = a ++ ['.', '.'] ++ '/' :: (b ++ rest) := by
    rw [← hrest, heq]
    simp only [append_assoc, cons_append]
  rw [hname, nameIsUnsafe_up ha] at h
  cases h

/-- Nor does it start at the root. -/
theorem ZipEntry.seen_head : e.seen.head? ≠ some '/' := by
  intro hhead
  obtain ⟨rest, hrest⟩ := e.seen_isPrefix
  have hfirst : e.name.getD 0 '\x00' = '/' := by
    rw [← hrest]
    cases hs : e.seen with
    | nil =>
      rw [hs] at hhead
      cases hhead
    | cons c l =>
      rw [hs] at hhead
      exact Option.some_injective _ hhead
  have hbad : nameIsUnsafe e.name = true := by
    unfold nameIsUnsafe
    rw [hfirst]
    simp
  rw [hbad] at h
  cases h

end

/-! ## Paths in the destination -/

/-- The path that is normalised: an absolute one, or one behind the working directory. -/
def fullPath (cwd path : CStr) : CStr := if path.head? = some '/' then path else cwd ++ '/' :: path

theorem fullPath_append {cwd path : CStr} (hne : path ≠ []) (rest : CStr) :
    fullPath cwd (path ++ rest) = fullPath cwd path ++ rest := by
  have hhead : (path ++ rest).head? = path.head? := head?_append_of_ne_nil path hne
  unfold fullPath
  rw [hhead]
  split_ifs
  · rfl
  · rw [append_assoc, cons_append]

/-- A path that fits the buffer is resolved from there. -/
theorem pathResolve_eq {cwd path : CStr} (hcwd : cwd.length < vfsPathMax)
    (hpath : path.length < vfsPathMax - 1) :
    pathResolve cwd path = (normState (fullPath cwd path)).out := by
  cases path with
  | nil =>
    show pathNormalize cwd = (normState (cwd ++ ['/'])).out
    rw [normState_slash]
    rfl
  | cons c rest =>
    by_cases hc : c = '/'
    · subst hc
      rfl
    · have hfull : fullPath cwd (c :: rest) = cwd ++ '/' :: c :: rest := by
        unfold fullPath
        rw [head?_cons, if_neg (fun h => hc (Option.some_injective _ h))]
      rw [hfull]
      unfold pathResolve
      split
      · rename_i heq
        cases heq
      · rename_i heq
        cases heq
        exact absurd rfl hc
      · have hfits : cwd.length + 1 + (c :: rest).length + 1 ≤ vfsPathMax * 2 := by
          unfold vfsPathMax at *
          omega
        rw [if_pos hfits]
        rfl

/-- What `build_dest` leaves in the buffer, if it fits: the directory with a separator at its
end, unless it is empty, and the name. -/
theorem buildDest_eq {destdir name dest : CStr} (h : buildDest destdir name = some dest) :
    dest = destBase destdir ++ name ∧ dest.length < vfsPathMax - 1
      ∧ (destBase destdir = destdir ++ ['/'] ∧ destdir ≠ []
        ∨ destBase destdir = destdir ∧ (destdir = [] ∨ ∃ d, destdir = d ++ ['/'])) := by
  unfold buildDest at h
  simp only at h
  split_ifs at h with hno
  push Not at hno
  obtain ⟨hlen, -⟩ := hno
  have hbase : (destBase destdir).length < vfsPathMax - 1 := by
    refine lt_of_le_of_lt ?_ hlen
    rw [length_append]
    exact Nat.le_add_right _ _
  have hname : name.take (vfsPathMax - 1 - (destBase destdir).length) = name := by
    refine take_of_length_le ?_
    by_contra hlong
    rw [length_append, length_take] at hlen
    omega
  have hshort : destdir.length < vfsPathMax - 1 := by
    by_contra hlong
    have htake : (destdir.take (vfsPathMax - 1)).length = vfsPathMax - 1 := by
      rw [length_take]
      omega
    unfold destBase at hbase
    simp only at hbase
    split_ifs at hbase
    · rw [length_append] at hbase
      omega
    · omega
  have htake : destdir.take (vfsPathMax - 1) = destdir := take_of_length_le hshort.le
  obtain rfl := Option.some_injective _ h
  rw [hname] at hlen ⊢
  refine ⟨rfl, hlen, ?_⟩
  unfold destBase
  rw [htake]
  simp only
  split_ifs with hsep
  · exact .inl ⟨rfl, hsep.1⟩
  · refine .inr ⟨rfl, ?_⟩
    by_cases hnil : destdir = []
    · exact .inl hnil
    · have hlast : destdir.getLast? = some '/' := by
        by_contra hc
        exact hsep ⟨hnil, hc, hshort⟩
      obtain ⟨d, hd⟩ := getLast?_eq_some_iff.1 hlast
      exact .inr ⟨d, hd⟩

/-- **A path below the destination** is normalised from where the destination is. -/
theorem normState_dest {cwd destdir name dest tail : CStr} (h : buildDest destdir name = some dest)
    (htail : tail.head? ≠ some '/') :
    normState (fullPath cwd (destBase destdir ++ tail))
      = (tail.splitOn '/').foldl normSegment (normState (fullPath cwd destdir)) := by
  obtain ⟨-, -, ⟨hbase, hne⟩ | ⟨hbase, rfl | ⟨d, rfl⟩⟩⟩ := buildDest_eq h
  · rw [hbase, append_assoc, fullPath_append hne]
    exact normState_append _ _
  · have htail' : fullPath cwd tail = cwd ++ '/' :: tail := if_neg htail
    have hnil : fullPath cwd [] = cwd ++ ['/'] := rfl
    rw [hbase, nil_append, htail', hnil, normState_slash, normState_append]
  · rw [hbase, fullPath_append (by simp)]
    obtain ⟨f, hf⟩ : ∃ f, fullPath cwd (d ++ ['/']) = f ++ ['/'] := by
      unfold fullPath
      split_ifs
      · exact ⟨d, rfl⟩
      · exact ⟨cwd ++ '/' :: d, by simp⟩
    rw [hf, normState_slash, append_assoc]
    exact normState_append f tail

/-- The directories that `make_parent_dirs` makes on the way to a path. -/
theorem mem_makeParentDirs {path q : CStr} (hpath : path.length < vfsPathMax - 1) :
    q ∈ makeParentDirs path ↔ q ≠ [] ∧ ∃ r, path = q ++ '/' :: r := by
  unfold makeParentDirs
  rw [mem_filterMap, min_eq_left hpath.le]
  constructor
  · rintro ⟨i, hi, hq⟩
    rw [mem_range] at hi
    split_ifs at hq with hc
    obtain rfl := Option.some_injective _ hq
    rw [getD_eq_getElem _ _ hi] at hc
    refine ⟨?_, path.drop (i + 1), ?_⟩
    · intro hnil
      have := congrArg length hnil
      rw [length_take, length_nil] at this
      omega
    · rw [← hc.1, cons_getElem_drop_succ, take_append_drop]
  · rintro ⟨hne, r, rfl⟩
    refine ⟨q.length, mem_range.2 (by simp), ?_⟩
    rw [getD_append_right _ _ _ _ le_rfl, Nat.sub_self, getD_cons_zero,
      if_pos ⟨rfl, length_pos_iff.2 hne⟩, take_left]

/-! ## The calls -/

section Entry

variable {destdir cwd dest : CStr} {e : ZipEntry}

/-- The path of an entry is what is seen of its name, in the destination. -/
theorem ZipEntry.path_eq (hdest : '\x00' ∉ destdir) (hne : e.name ≠ [])
    (h : buildDest destdir e.name = some dest) : e.path dest = destBase destdir ++ e.seen := by
  obtain ⟨rfl, -, hbase⟩ := buildDest_eq h
  have hclean : ∀ c ∈ destBase destdir, c ≠ '\x00' := by
    intro c hc
    rcases hbase with ⟨hb, -⟩ | ⟨hb, -⟩
    · rw [hb] at hc
      rcases mem_append.1 hc with hc | hc
      · exact fun h0 => hdest (h0 ▸ hc)
      · rw [mem_singleton.1 hc]
        decide
    · rw [hb] at hc
      exact fun h0 => hdest (h0 ▸ hc)
  have hcut : ∀ l : CStr, cstr (destBase destdir ++ l) = destBase destdir ++ cstr l := by
    intro l
    exact takeWhile_append_of_pos (fun c hc => by simpa using hclean c hc)
  unfold path seen
  split_ifs
  · rw [dropLast_append_of_ne_nil hne, hcut]
  · rw [hcut]

variable (hcwd : cwd.length < vfsPathMax) (hdest : '\x00' ∉ destdir)
  (hsafe : nameIsUnsafe e.name = false) (h : buildDest destdir e.name = some dest)

include hsafe in
theorem ZipEntry.name_ne_nil : e.name ≠ [] := by
  intro hnil
  unfold nameIsUnsafe at hsafe
  rw [hnil] at hsafe
  cases hsafe

include hdest hsafe h in
theorem ZipEntry.path_length : (e.path dest).length < vfsPathMax - 1 := by
  obtain ⟨rfl, hlen, -⟩ := buildDest_eq h
  rw [path_eq hdest (name_ne_nil hsafe) h]
  have := e.seen_isPrefix.length_le
  rw [length_append] at hlen ⊢
  omega

include h in
theorem destdir_length : destdir.length < vfsPathMax - 1 := by
  obtain ⟨rfl, hlen, ⟨hbase, -⟩ | ⟨hbase, -⟩⟩ := buildDest_eq h
  · rw [hbase] at hlen
    simp only [length_append] at hlen
    omega
  · rw [hbase] at hlen
    simp only [length_append] at hlen
    omega

include hcwd hdest hsafe h in
/-- **The entry itself** is in the destination unless its name climbs. -/
theorem inside_path_iff : Inside (pathResolve cwd destdir) (pathResolve cwd (e.path dest))
    ↔ ¬ Climbs (normState (fullPath cwd destdir)) e.seen := by
  have hpath := path_eq hdest (name_ne_nil hsafe) h
  rw [pathResolve_eq hcwd (destdir_length h),
    pathResolve_eq hcwd (path_length hdest hsafe h), hpath,
    normState_dest h (seen_head hsafe)]
  exact inside_foldl_iff (normState_ok _) (up_not_mem hsafe)

include hcwd hdest hsafe h in
/-- **The directories along the way** are in the destination if those above it are. -/
theorem inside_parents_iff :
    (∀ q ∈ makeParentDirs (e.path dest), Inside (pathResolve cwd destdir) (pathResolve cwd q))
      ↔ ∀ q ∈ makeParentDirs destdir, Inside (pathResolve cwd destdir) (pathResolve cwd q) := by
  have hpath := path_eq hdest (name_ne_nil hsafe) h
  have hlen := path_length hdest hsafe h
  have hlen' := destdir_length h
  have hhead := seen_head hsafe
  simp only [mem_makeParentDirs hlen, mem_makeParentDirs hlen']
  obtain ⟨-, -, hbase⟩ := buildDest_eq h
  constructor
  · rintro hall q ⟨hne, r, hq⟩
    refine hall q ⟨hne, ?_⟩
    rcases hbase with ⟨hb, -⟩ | ⟨hb, -⟩
    · exact ⟨r ++ ['/'] ++ e.seen, by rw [hpath, hb, hq]; simp⟩
    · exact ⟨r ++ e.seen, by rw [hpath, hb, hq]; simp⟩
  · rintro hall q ⟨hne, r, hq⟩
    rw [hpath] at hq
    rcases append_eq_append_iff.1 hq with ⟨c, hqc, hseen⟩ | ⟨c, hbc, hrest⟩
    · -- a directory of the name
      rw [hqc] at hq ⊢
      have hc : c.head? ≠ some '/' := by
        intro hc
        refine hhead ?_
        rw [hseen]
        cases c with
        | nil => cases hc
        | cons x l => exact hc
      have hup : ['.', '.'] ∉ c.splitOn '/' := by
        intro hmem
        refine up_not_mem hsafe ?_
        rw [hseen, splitOn_append, dropLast_append_of_ne_nil (splitOn_ne_nil r)]
        exact mem_append_left _ hmem
      have hclen : (destBase destdir ++ c).length < vfsPathMax - 1 := by
        rw [hpath, hseen] at hlen
        simp only [length_append] at hlen ⊢
        omega
      rw [pathResolve_eq hcwd hlen', pathResolve_eq hcwd hclen, normState_dest h hc]
      exact (foldl_above _ (normState_ok _) (Above.refl _) hup).out
    · -- a directory of the destination
      cases c with
      | nil =>
        rw [nil_append] at hrest
        rw [← hrest] at hhead
        exact absurd rfl hhead
      | cons x c =>
        obtain ⟨rfl, -⟩ := cons_eq_cons.1 hrest
        rcases hbase with ⟨hb, -⟩ | ⟨hb, -⟩
        · rw [hb] at hbc
          rcases eq_nil_or_concat' c with rfl | ⟨c', y, rfl⟩
          · obtain ⟨hqd, -⟩ := append_inj' hbc rfl
            rw [hqd]
            exact .refl _
          · have hassoc : q ++ '/' :: (c' ++ [y]) = (q ++ '/' :: c') ++ [y] := by simp
            rw [hassoc] at hbc
            obtain ⟨hqd, -⟩ := append_inj' hbc rfl
            exact hall q ⟨hne, c', hqd⟩
        · rw [hb] at hbc
          exact hall q ⟨hne, c, hbc⟩

end Entry

/-- **Every path is in the destination exactly if** for every entry that is not refused the
directories above the destination are in it, and the name of an entry that is made does not
climb. -/
theorem unzip_inside (a : Archive) (room ok : ℕ → Bool) (destdir cwd : CStr)
    (hcwd : cwd.length < vfsPathMax) (hdest : '\x00' ∉ destdir) :
    (∀ call ∈ (a.unzipArchive room ok destdir).2,
      Inside (pathResolve cwd destdir) (pathResolve cwd call.path))
    ↔ ∀ x ∈ (a.entries.getD []).zipIdx, nameIsUnsafe x.1.name = false →
      (buildDest destdir x.1.name).isSome →
        (∀ q ∈ makeParentDirs destdir, Inside (pathResolve cwd destdir) (pathResolve cwd q))
          ∧ (x.1.name.getLast? = some '/' ∨ (a.dataOf (room x.2) x.1).isSome →
            ¬ Climbs (normState (fullPath cwd destdir)) x.1.seen) := by
  have hentry : ∀ (r : Bool) (e : ZipEntry),
      (∀ call ∈ a.entryCalls r destdir e,
        Inside (pathResolve cwd destdir) (pathResolve cwd call.path))
      ↔ (nameIsUnsafe e.name = false → (buildDest destdir e.name).isSome →
        (∀ q ∈ makeParentDirs destdir, Inside (pathResolve cwd destdir) (pathResolve cwd q))
          ∧ (e.name.getLast? = some '/' ∨ (a.dataOf r e).isSome →
            ¬ Climbs (normState (fullPath cwd destdir)) e.seen)) := by
    intro r e
    unfold Archive.entryCalls
    cases hsafe : nameIsUnsafe e.name with
    | true => simp
    | false =>
      cases hbuild : buildDest destdir e.name with
      | none => simp
      | some dest =>
        have hown : (∀ call ∈ (a.makeEntry r e (e.path dest)).toList,
            Inside (pathResolve cwd destdir) (pathResolve cwd call.path))
            ↔ (e.name.getLast? = some '/' ∨ (a.dataOf r e).isSome →
              Inside (pathResolve cwd destdir) (pathResolve cwd (e.path dest))) := by
          unfold Archive.makeEntry
          by_cases hdir : e.name.getLast? = some '/'
          · simp [hdir, UnzipCall.path]
          · cases a.dataOf r e <;> simp [hdir, UnzipCall.path]
        have hmkdir : ∀ q, (UnzipCall.mkdir q).path = q := fun _ => rfl
        simp only [Bool.false_eq_true, if_false, forall_mem_append, forall_mem_map,
          hmkdir, hown, inside_parents_iff hcwd hdest hsafe hbuild,
          inside_path_iff hcwd hdest hsafe hbuild, forall_const, Option.isSome_some]
  constructor
  · intro hall x hx
    refine (hentry _ _).1 (fun call hcall => hall call ?_)
    exact mem_flatMap.2 ⟨x, hx, hcall⟩
  · intro hall call hcall
    obtain ⟨x, hx, hcall⟩ := mem_flatMap.1 hcall
    exact (hentry _ _).2 (hall x hx) call hcall

/-! ## An archive with one file -/

/-- Numbers as bytes. -/
def leBytes : ℕ → ℕ → List UInt8
  | 0, _ => []
  | k + 1, n => UInt8.ofNat n :: leBytes k (n / 256)

/-- An archive with one stored file of one byte, and the name of it. -/
def oneFile (name : List UInt8) : Archive :=
  let loc := leBytes 4 zipLocSig ++ List.replicate 14 0 ++ leBytes 4 1 ++ leBytes 4 1
    ++ List.replicate 4 0 ++ [7]
  let cen := leBytes 4 zipCenSig ++ List.replicate 16 0 ++ leBytes 4 1 ++ leBytes 4 1
    ++ leBytes 2 name.length ++ List.replicate 16 0 ++ name
  let eocd := leBytes 4 zipEocdSig ++ List.replicate 4 0 ++ leBytes 2 1 ++ leBytes 2 1
    ++ leBytes 4 cen.length ++ leBytes 4 loc.length ++ leBytes 2 0
  let bytes := loc ++ cen ++ eocd
  ⟨fun i => bytes.getD i 0, bytes.length⟩

/-- The file `a`, unpacked to `/d`. -/
theorem unzip_inside_file :
    (∀ x ∈ ((oneFile [0x61]).entries.getD []).zipIdx, nameIsUnsafe x.1.name = false →
      (buildDest "/d".toList x.1.name).isSome →
        (∀ q ∈ makeParentDirs "/d".toList,
          Inside (pathResolve ['/'] "/d".toList) (pathResolve ['/'] q))
          ∧ (x.1.name.getLast? = some '/' ∨ ((oneFile [0x61]).dataOf true x.1).isSome →
            ¬ Climbs (normState (fullPath ['/'] "/d".toList)) x.1.seen))
    ∧ ∀ call ∈ ((oneFile [0x61]).unzipArchive (fun _ => true) (fun _ => true) "/d".toList).2,
      Inside (pathResolve ['/'] "/d".toList) (pathResolve ['/'] call.path) := by
  refine ⟨?cond, (unzip_inside (oneFile [0x61]) (fun _ => true) (fun _ => true) "/d".toList ['/']
    (by decide) (by decide)).2 ?cond⟩
  decide +kernel

/-- **An archive escapes.** The name of its only file is `..`, a zero and `x`. It passes the
test, and the file is written to the parent of the destination. -/
theorem unzip_escapes :
    let dest := "/tmp/uz".toList
    let calls := ((oneFile [0x2E, 0x2E, 0, 0x78]).unzipArchive (fun _ => true) (fun _ => true)
      dest).2
    .writeFile "/tmp/uz/..".toList [7] ∈ calls
      ∧ pathResolve ['/'] "/tmp/uz/..".toList = "/tmp".toList
      ∧ ¬ Inside (pathResolve ['/'] dest) "/tmp".toList := by
  decide +kernel

end Makar
