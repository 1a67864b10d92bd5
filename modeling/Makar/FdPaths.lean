import Makar.FdBuffers

/-!
# The paths of descriptors

A slot of kind `FILE` keeps the path as it was given to `SYS_OPEN`, and the path is
resolved anew each time it is used: when a file on the disk is read, when a page of
it is mapped and when a dirty buffer is flushed. It is resolved in the working
directory of the task that runs then, and pages are looked up in the cache by the
string alone. So a relative path can reach another file after a `chdir`
(`flushed_elsewhere`).

Three conditions exclude that (`Fds.PathOk`). A `chdir` leaves the paths of the open
slots of the task what they were; a new task whose slot of the pool had a table with
dirty files finds their paths in its own directory the same; and an open for reading
from the disk finds neither pages nor open slots with the same string for another
file. Then every use goes to the file that the path named when it was opened
(`uses_origin`).
-/

namespace Makar

open Function List

/-- The path of the slot may be used again. -/
def FileFd.UsesPath (f : FileFd) : Prop := f.lazy = true ∨ f.writable = true ∨ f.dirty = true

instance (f : FileFd) : Decidable f.UsesPath := inferInstanceAs (Decidable (_ ∨ _ ∨ _))

/-- The path of `g` is that of `f`, and is not used where that of `f` is not. -/
structure FileFd.Like (f g : FileFd) : Prop where
  /-- The path. -/
  path : g.path = f.path
  /-- What it named. -/
  origin : g.origin = f.origin
  /-- No other pages are read. -/
  lazy : g.lazy = true → f.lazy = true
  /-- The path is not used otherwise. -/
  uses : g.UsesPath → f.UsesPath

theorem FileFd.Like.refl (f : FileFd) : f.Like f := ⟨rfl, rfl, id, id⟩

theorem FileFd.Like.trans {f g h : FileFd} (hfg : f.Like g) (hgh : g.Like h) : f.Like h :=
  ⟨hgh.path.trans hfg.path, hgh.origin.trans hfg.origin, fun hl => hfg.lazy (hgh.lazy hl),
    fun hu => hfg.uses (hgh.uses hu)⟩

/-- A call on the buffer leaves the path alone, when only writable files get dirty. -/
theorem FileFd.Like.after {f : FileFd} {g : OpenFile}
    (hdirty : g.dirty = true → f.writable = true ∨ f.dirty = true) (data : Option ℕ) :
    f.Like (f.after g data) := by
  refine ⟨rfl, rfl, id, ?_⟩
  rintro (hl | hw | hd)
  · exact .inl hl
  · exact .inr (.inl hw)
  · exact .inr (hdirty hd)

namespace OpenFile

theorem sysRead_dirty (null : Bool) (len : ℕ) (f : OpenFile) :
    (f.sysRead null len).2.dirty = f.dirty := by
  unfold sysRead
  split_ifs <;> rfl

theorem sysLseek_dirty (offset : Word) (whence : ℤ) (f : OpenFile) :
    (f.sysLseek offset whence).2.dirty = f.dirty := by
  unfold sysLseek
  split_ifs <;> rfl

/-- Only a writable file gets dirty. -/
theorem syscallFdWrite_dirty {seg : FileSeg} {f : OpenFile}
    (h : (f.syscallFdWrite seg).2.dirty = true) : f.writable = true ∨ f.dirty = true := by
  unfold syscallFdWrite at h
  split_ifs at h with hnull hw
  · exact .inr h
  · exact .inr h
  all_goals exact .inl (by simpa using hw)

end OpenFile

namespace Fds

/-- A FILE slot of a task that has not ended. -/
def Open (s : Fds) (t : ℕ) (f : FileFd) : Prop := s.Acts t ∧ ∃ i, s.entry (t, i) = .file f

/-- The files that are read from the disk, under which string. -/
def Known (s : Fds) (path origin : CStr) : Prop :=
  ∃ t f, s.Open t f ∧ f.lazy = true ∧ f.path = path ∧ f.origin = origin

/-- Something holds of every FILE slot of a task. -/
def ForFiles (s : Fds) (t : ℕ) (Q : FileFd → Prop) : Prop :=
  ∀ i, match s.entry (t, i) with
    | .file f => Q f
    | _ => True

theorem ForFiles.at {s : Fds} {t : ℕ} {Q : FileFd → Prop} (h : s.ForFiles t Q)
    {i : Fin taskMaxFds} {f : FileFd} (hf : s.entry (t, i) = .file f) : Q f := by
  have hi := h i
  rw [hf] at hi
  exact hi

instance (s : Fds) (t : ℕ) (Q : FileFd → Prop) [DecidablePred Q] : Decidable (s.ForFiles t Q) :=
  @Nat.decidableForallFin taskMaxFds _ fun i =>
    match s.entry (t, i) with
    | .file f => inferInstanceAs (Decidable (Q f))
    | .none | .plain | .pipe .. | .socket .. => isTrue trivial

/-- Something holds of every FILE slot of every task that has not ended. -/
def ForOpenFiles (s : Fds) (Q : FileFd → Prop) : Prop :=
  ∀ u < maxTasks, (s.tasks u).alive = true → s.ForFiles u Q

instance (s : Fds) (Q : FileFd → Prop) [DecidablePred Q] : Decidable (s.ForOpenFiles Q) :=
  inferInstanceAs (Decidable (∀ _ < _, _ → _))

/-- **The condition on an event.** -/
def PathOk (s : Fds) : FdEvent → Prop
  | .open t path flags env => s.Acts t → flags.writable = false → env.onDisk = true →
      s.objs.fs.OneFile path (pathResolve (s.tasks t).cwd path)
        ∧ s.ForOpenFiles fun f => f.lazy = true → f.path = path →
          f.origin = pathResolve (s.tasks t).cwd path
  | .chdir t path found => s.Acts t → found = true → s.ForFiles t fun f => f.UsesPath →
      pathResolve (pathResolve (s.tasks t).cwd path) f.path = f.origin
  | .fork t env | .create t env => s.Acts t → ∀ c ∈ s.newSlot env, s.ForFiles c fun f =>
      f.dirty = true → pathResolve (s.tasks t).cwd f.path = f.origin
  | _ => True

instance (s : Fds) (ev : FdEvent) : Decidable (s.PathOk ev) :=
  match ev with
  | .open .. | .chdir .. | .fork .. | .create .. => by unfold PathOk; infer_instance
  | .close .. | .read .. | .pread .. | .acquire .. | .write .. | .lseek .. | .pipe .. | .dup ..
  | .dup2 .. | .socket .. | .exit _ | .change _ => .isTrue trivial

/-- **The paths of open slots are kept**: they name what they named when they were opened, pages
cached under the strings of slots that are read from the disk are pages of their files, and every use
has gone to the file the path was opened for. -/
structure Kept (s : Fds) : Prop where
  /-- Paths name what they named. -/
  resolves : ∀ {t f}, s.Open t f → f.UsesPath → pathResolve (s.tasks t).cwd f.path = f.origin
  /-- The pages under a string are those of its file. -/
  pages : ∀ {path origin}, s.Known path origin → s.objs.fs.OneFile path origin
  /-- A string is in use for one file. -/
  same : ∀ {path a b}, s.Known path a → s.Known path b → a = b
  /-- The uses so far. -/
  uses : ∀ u ∈ s.objs.uses, u.reached = u.origin

/-- Pages in the cache that were there, or are those of open slots. -/
def PagesOk (s : Fds) (fs : FileSys) : Prop :=
  ∀ p ∈ fs.cache, p.valid = true → p ∈ s.objs.fs.cache ∨ s.Known p.path p.file

/-- The objects after part of a call: pages and uses are in order. -/
def Serves (s : Fds) (o : Objs) : Prop :=
  s.PagesOk o.fs ∧ ∀ u ∈ o.uses, u.reached = u.origin

section

variable {s : Fds} {t : ℕ} {tbl : FdTable} {o : Objs} {cwd : CStr} {disk : Bytes → Option Bytes}

theorem Kept.serves (h : s.Kept) : s.Serves s.objs := ⟨fun _ hp _ => .inl hp, h.uses⟩

theorem Serves.congr (h : s.Serves o) {o' : Objs} (hfs : o'.fs = o.fs) (huses : o'.uses = o.uses) :
    s.Serves o' := by
  unfold Serves
  rw [hfs, huses]
  exact h

/-- Pages under the string of a slot that is read from the disk are pages of its file. -/
theorem Kept.oneFile (h : s.Kept) {fs : FileSys} (hfs : s.PagesOk fs) {path origin : CStr}
    (hknown : s.Known path origin) : fs.OneFile path origin := by
  intro p hp hv hpath
  rcases hfs p hp hv with hold | hnew
  · exact h.pages hknown p hold hv hpath
  · rw [hpath] at hnew
    exact h.same hnew hknown

/-- **The rule for an event**: slots of the new state are like slots of the old one. -/
theorem Kept.derive (h : s.Kept) {s' : Fds} (hserves : s.Serves s'.objs)
    (hopen : ∀ u f, s'.Open u f → f.UsesPath → pathResolve (s'.tasks u).cwd f.path = f.origin
      ∧ (f.lazy = true → s.Known f.path f.origin)) : s'.Kept := by
  have hknown : ∀ {path origin}, s'.Known path origin → s.Known path origin := by
    rintro path origin ⟨u, f, hf, hlazy, rfl, rfl⟩
    exact (hopen u f hf (.inl hlazy)).2 hlazy
  exact ⟨fun hf huse => (hopen _ _ hf huse).1, fun hk => h.oneFile hserves.1 (hknown hk),
    fun ha hb => h.same (hknown ha) (hknown hb), hserves.2⟩

/-- A slot like one of the same task. -/
theorem Kept.like (h : s.Kept) {f g : FileFd} (hf : s.Open t f) (hlike : f.Like g)
    (huse : g.UsesPath) : pathResolve (s.tasks t).cwd g.path = g.origin
      ∧ (g.lazy = true → s.Known g.path g.origin) := by
  rw [hlike.path, hlike.origin]
  exact ⟨h.resolves hf (hlike.uses huse), fun hl => ⟨t, f, hf, hlike.lazy hl, rfl, rfl⟩⟩

/-! ## Flushes -/

variable {f : FileFd}

theorem Serves.fdFlushOne (h : s.Serves o)
    (hf : f.dirty = true → pathResolve cwd f.path = f.origin) :
    s.Serves (o.fdFlushOne cwd disk f) := by
  unfold Objs.fdFlushOne
  split
  · exact h
  · split_ifs with hclean
    · exact h
    · rw [not_or] at hclean
      refine ⟨fun p hp hv => h.1 p (FileSys.mem_vfsChangeFile hp hv).1 hv, fun u hu => ?_⟩
      rcases mem_append.1 hu with hu | hu
      · exact h.2 u hu
      · rw [mem_singleton.1 hu]
        exact hf (by simpa using hclean.1)

theorem Serves.closeEntry (h : s.Serves o) {e : FdEntry}
    (he : ∀ f, e = .file f → f.dirty = true → pathResolve cwd f.path = f.origin) :
    s.Serves (o.closeEntry cwd disk e) := by
  cases e with
  | file f =>
    have hflush : s.Serves (o.fdFlushOne cwd disk f) := h.fdFlushOne (he f rfl)
    unfold Objs.closeEntry
    dsimp only
    split
    · exact hflush
    · exact hflush.congr rfl rfl
  | none => exact h
  | plain => exact h
  | pipe r b => exact h.congr rfl rfl
  | socket n => exact h.congr rfl rfl

/-- **A table is destroyed** whose dirty files have paths that name what they named. -/
theorem Serves.fdTableDestroy (h : s.Serves o)
    (htbl : ∀ i f, tbl i = .file f → f.dirty = true → pathResolve cwd f.path = f.origin) :
    s.Serves (o.fdTableDestroy cwd disk tbl) :=
  foldl_invariant (P := fun o => s.Serves o)
    (fun _ i ho => Serves.closeEntry ho fun f hf => htbl i f hf) _ h

/-! ## Reads -/

variable {path : CStr}

/-- A lookup goes to the file of the slot. -/
theorem Kept.pcGet (h : s.Kept) {fs : FileSys} (hfs : s.PagesOk fs) (pidx : ℕ)
    (hknown : s.Known path (pathResolve cwd path)) :
    s.PagesOk (fs.pcGet cwd path pidx).2
      ∧ ∀ p, (fs.pcGet cwd path pidx).1 = some p → p.file = pathResolve cwd path := by
  refine ⟨fun p hp hv => ?_, fun p hp => ?_⟩
  · rcases FileSys.mem_pcGet hp hv with hold | ⟨-, hnew⟩
    · exact hfs p hold hv
    · rw [hnew]
      exact .inr hknown
  · unfold FileSys.pcGet at hp
    split at hp
    · next q hfind =>
      rw [← Option.some.inj hp]
      have hmatch := List.find?_some hfind
      unfold FileSys.pcMatch at hmatch
      simp only [Bool.and_eq_true, beq_iff_eq] at hmatch
      exact h.oneFile hfs hknown q (mem_of_find?_eq_some hfind) hmatch.1.1 hmatch.2
    · split at hp
      · cases hp
      · split at hp
        · cases hp
        · rw [← Option.some.inj hp]

/-- **A read goes to the file of the slot**, page by page. -/
theorem Kept.readLoop (h : s.Kept) (off toRead : ℕ)
    (hknown : s.Known path (pathResolve cwd path)) :
    s.PagesOk (s.objs.fs.readLoop cwd path off toRead).fs
      ∧ ∀ x ∈ (s.objs.fs.readLoop cwd path off toRead).sources, x = pathResolve cwd path := by
  unfold FileSys.readLoop
  refine loop_invariant (P := fun r : FileSys.ReadLoop => s.PagesOk r.fs
    ∧ ∀ x ∈ r.sources, x = pathResolve cwd path) _ (fun r _ _ hr => ?_)
    ⟨h.serves.1, fun x hx => absurd hx not_mem_nil⟩
  unfold FileSys.readTurn
  split_ifs
  · exact hr
  · have hget := h.pcGet hr.1 ((off + r.out.length) / pcPgsz) hknown
    dsimp only
    generalize r.fs.pcGet cwd path ((off + r.out.length) / pcPgsz) = got at hget
    obtain ⟨page, fs⟩ := got
    cases page with
    | none =>
      refine ⟨hget.1, fun x hx => ?_⟩
      rcases mem_cons.1 hx with rfl | hx
      · rfl
      · exact hr.2 x hx
    | some p =>
      have hsources : ∀ x ∈ p.file :: r.sources, x = pathResolve cwd path := by
        intro x hx
        rcases mem_cons.1 hx with rfl | hx
        · exact hget.2 p rfl
        · exact hr.2 x hx
      dsimp only
      split_ifs <;> exact ⟨hget.1, hsources⟩

theorem Kept.readDisk (h : s.Kept) (hf : s.Open t f) (hlazy : f.lazy = true) (off len : ℕ) :
    s.Serves (s.readDisk t f off len).2.objs := by
  have horigin := h.resolves hf (.inl hlazy)
  have hloop := h.readLoop off (min len (f.size - off))
    ⟨t, f, hf, hlazy, rfl, horigin.symm⟩
  refine ⟨hloop.1, fun u hu => ?_⟩
  rcases mem_append.1 hu with hu | hu
  · exact h.uses u hu
  · obtain ⟨x, hx, rfl⟩ := mem_map.1 hu
    exact (hloop.2 x hx).trans horigin

/-! ## Slots -/

theorem entry_eq (htbl : (s.tasks t).table = some tbl) (i : Fin taskMaxFds) :
    s.entry (t, i) = tbl i := by
  unfold entry
  rw [htbl]
  rfl

variable {i : Fin taskMaxFds}

/-- The slots of a table that a task has. -/
theorem open_of (hacts : s.Acts t) (htbl : (s.tasks t).table = some tbl) (hf : tbl i = .file f) :
    s.Open t f :=
  ⟨hacts, i, (entry_eq htbl i).trans hf⟩

theorem setEntry_task (i : Fin taskMaxFds) (e : FdEntry) (u : ℕ) :
    ((s.setEntry t i e).tasks u).cwd = (s.tasks u).cwd
      ∧ ((s.setEntry t i e).Acts u ↔ s.Acts u) := by
  unfold Acts setEntry
  dsimp only
  by_cases hut : u = t
  · subst hut
    rw [update_self]
    exact ⟨rfl, Iff.rfl⟩
  · rw [update_of_ne hut]
    exact ⟨rfl, Iff.rfl⟩

/-- After a slot was written, the FILE slots are those before, and the new one. -/
theorem open_setEntry (htbl : (s.tasks t).table = some tbl) {e : FdEntry} {u : ℕ}
    (hf : (s.setEntry t i e).Open u f) : s.Open u f ∨ u = t ∧ e = .file f := by
  obtain ⟨hacts, j, hj⟩ := hf
  have hacts' := (setEntry_task i e u).2.1 hacts
  by_cases hut : u = t
  · subst hut
    rw [entry_eq (setEntry_table htbl i e)] at hj
    by_cases hji : j = i
    · subst hji
      rw [update_self] at hj
      exact .inr ⟨rfl, hj⟩
    · rw [update_of_ne hji] at hj
      exact .inl ⟨hacts', j, (entry_eq htbl j).trans hj⟩
  · have hsame : (s.setEntry t i e).tasks u = s.tasks u := update_of_ne hut _ _
    unfold entry at hj
    rw [hsame] at hj
    exact .inl ⟨hacts', j, hj⟩

section

variable (h : s.Kept) (htbl : (s.tasks t).table = some tbl) {i : Fin taskMaxFds}
include h htbl

/-- **A slot is written** with one whose path is in order. -/
theorem Kept.setEntry {e : FdEntry} (ho : s.Serves o)
    (he : ∀ f, e = .file f → f.UsesPath →
      pathResolve (s.tasks t).cwd f.path = f.origin ∧ (f.lazy = true → s.Known f.path f.origin)) :
    (Fds.setEntry t i e ⟨s.tasks, o⟩).Kept := by
  refine h.derive ho fun u f hf huse => ?_
  rw [(setEntry_task i e u).1]
  rcases open_setEntry (s := ⟨s.tasks, o⟩) htbl hf with hold | ⟨rfl, hnew⟩
  · exact h.like (f := f) hold (.refl f) huse
  · exact he f hnew huse

/-- **A file is opened**, and its string is in use for no other file if it is read from the
disk. -/
theorem Kept.setOpen {f : FileFd} (hfs : o.fs = s.objs.fs) (huses : o.uses = s.objs.uses)
    (hres : pathResolve (s.tasks t).cwd f.path = f.origin)
    (hpages : f.lazy = true → s.objs.fs.OneFile f.path f.origin)
    (hsame : f.lazy = true → ∀ origin, s.Known f.path origin → origin = f.origin) :
    (Fds.setEntry t i (.file f) ⟨s.tasks, o⟩).Kept := by
  have hopen : ∀ {u g}, (Fds.setEntry t i (.file f) ⟨s.tasks, o⟩).Open u g →
      s.Open u g ∨ u = t ∧ g = f := by
    intro u g hg
    rcases open_setEntry (s := ⟨s.tasks, o⟩) htbl hg with hold | ⟨rfl, hnew⟩
    · exact .inl hold
    · exact .inr ⟨rfl, (FdEntry.file.inj hnew).symm⟩
  have hknown : ∀ {path origin}, (Fds.setEntry t i (.file f) ⟨s.tasks, o⟩).Known path origin →
      s.Known path origin ∨ f.lazy = true ∧ path = f.path ∧ origin = f.origin := by
    rintro path origin ⟨u, g, hg, hlazy, rfl, rfl⟩
    rcases hopen hg with hold | ⟨-, rfl⟩
    · exact .inl ⟨u, g, hold, hlazy, rfl, rfl⟩
    · exact .inr ⟨hlazy, rfl, rfl⟩
  refine ⟨fun hg huse => ?_, fun hk => ?_, fun ha hb => ?_, ?_⟩
  · rw [(setEntry_task i _ _).1]
    rcases hopen hg with hold | ⟨rfl, rfl⟩
    · exact h.resolves hold huse
    · exact hres
  · show o.fs.OneFile _ _
    rw [hfs]
    rcases hknown hk with hold | ⟨hlazy, rfl, rfl⟩
    · exact h.pages hold
    · exact hpages hlazy
  · rcases hknown ha with ha | ⟨hlazy, rfl, rfl⟩ <;> rcases hknown hb with hb | ⟨hlazy', hpath, rfl⟩
    · exact h.same ha hb
    · exact hsame hlazy' _ (hpath ▸ ha)
    · exact (hsame hlazy _ hb).symm
    · rfl
  · show ∀ u ∈ o.uses, _
    rw [huses]
    exact h.uses

end

/-! ## The calls -/

theorem openEntry_fs (path : CStr) (flags : OpenFlags) (env : OpenEnv) :
    (o.openEntry cwd path flags env).2.fs = o.fs
      ∧ (o.openEntry cwd path flags env).2.uses = o.uses := by
  unfold Objs.openEntry
  extract_lets slot isEmpty
  split_ifs
  · exact ⟨rfl, rfl⟩
  · exact ⟨rfl, rfl⟩
  · exact ⟨rfl, rfl⟩
  · exact ⟨rfl, rfl⟩
  · split
    · exact ⟨rfl, rfl⟩
    · split <;> exact ⟨rfl, rfl⟩
  · split <;> exact ⟨rfl, rfl⟩

/-- The slot that `SYS_OPEN` makes has the path, and is read from the disk only if it was opened for
reading and is there. -/
theorem openEntry_file {flags : OpenFlags} {env : OpenEnv}
    (hf : (o.openEntry cwd path flags env).1 = some (.file f)) :
    f.path = path ∧ f.origin = pathResolve cwd path
      ∧ (f.lazy = true → flags.writable = false ∧ env.onDisk = true) := by
  unfold Objs.openEntry at hf
  extract_lets slot isEmpty at hf
  split_ifs at hf
  · cases hf
  · cases hf
    exact ⟨rfl, rfl, fun h => absurd h Bool.false_ne_true⟩
  · split at hf
    · next hdisk =>
      cases hf
      exact ⟨rfl, rfl, fun _ => by simpa using hdisk⟩
    · split at hf
      · cases hf
      · cases hf
        exact ⟨rfl, rfl, fun h => absurd h Bool.false_ne_true⟩
  · split at hf
    · next hdisk =>
      cases hf
      exact ⟨rfl, rfl, fun _ => by simpa using hdisk⟩
    · cases hf

section Calls

variable (h : s.Kept) (hacts : s.Acts t) (htbl : (s.tasks t).table = some tbl)

include h hacts htbl

/-- `SYS_OPEN`: the string is in use for no other file. -/
theorem Kept.sysOpen {path : CStr} {flags : OpenFlags} {env : OpenEnv}
    (hok : s.PathOk (.open t path flags env)) : (s.sysOpen t tbl path flags env).Kept := by
  unfold Fds.sysOpen
  split_ifs
  · exact h
  · split
    · exact h
    · next i _ =>
      have hfs := @openEntry_fs s.objs (s.tasks t).cwd path flags env
      have hserves := h.serves.congr hfs.1 hfs.2
      split
      · next o' hopen =>
        rw [hopen] at hserves
        exact h.derive hserves fun u f hf huse => h.like hf (.refl f) huse
      · next e o' hopen =>
        rw [hopen] at hserves hfs
        cases e with
        | file f =>
          obtain ⟨hpath, horigin, hdisk⟩ : f.path = path
              ∧ f.origin = pathResolve (s.tasks t).cwd path
              ∧ (f.lazy = true → flags.writable = false ∧ env.onDisk = true) :=
            openEntry_file (congrArg Prod.fst hopen)
          refine h.setOpen htbl hfs.1 hfs.2 (by rw [hpath, horigin]) (fun hlazy => ?_) ?_
          · rw [hpath, horigin]
            exact (hok hacts (hdisk hlazy).1 (hdisk hlazy).2).1
          · rintro hlazy origin ⟨u, g, ⟨hu, j, hj⟩, hg, hgpath, rfl⟩
            rw [horigin]
            exact ((hok hacts (hdisk hlazy).1 (hdisk hlazy).2).2 u hu.1 hu.2).at hj hg
              (hgpath.trans hpath)
        | _ => exact h.setEntry htbl hserves fun f hf => by cases hf

section

variable (fd : ℤ)

theorem Kept.fdClose (disk : Bytes → Option Bytes) : (s.fdClose t tbl fd disk).Kept := by
  unfold Fds.fdClose
  split
  · exact h
  · refine h.setEntry htbl (h.serves.closeEntry fun f hf hdirty => ?_) fun f hf => by cases hf
    exact h.resolves (open_of hacts htbl hf) (.inr (.inr hdirty))

theorem Kept.sysRead (len : ℕ) : (s.sysRead t tbl fd len).Kept := by
  unfold Fds.sysRead
  split
  · exact h
  · split
    · next i _ f hf =>
      have hopen := open_of hacts htbl hf
      split_ifs with hlazy
      · refine h.setEntry htbl (h.readDisk hopen hlazy f.pos len) fun g hg => ?_
        cases hg
        exact h.like hopen ⟨rfl, rfl, id, id⟩
      · refine h.setEntry htbl h.serves fun g hg => ?_
        cases hg
        exact h.like hopen (.after (fun hd => .inr ((OpenFile.sysRead_dirty _ _ _).symm.trans hd)) _)
    · exact h

theorem Kept.syscallFilePread (off len : ℕ) : (s.syscallFilePread t tbl fd off len).Kept := by
  unfold Fds.syscallFilePread
  split
  · exact h
  · split
    · next i _ f hf =>
      split_ifs with hlazy
      · exact h.derive (h.readDisk (open_of hacts htbl hf) hlazy off len)
          fun u g hg huse => h.like hg (.refl g) huse
      · exact h
    · exact h

theorem Kept.pagecacheAcquire (pidx : ℕ) : (s.pagecacheAcquire t tbl fd pidx).Kept := by
  unfold Fds.pagecacheAcquire
  split
  · exact h
  · split
    · next i _ f hf =>
      split_ifs with hlazy
      · have hopen := open_of hacts htbl hf
        have horigin := h.resolves hopen (.inl hlazy.1)
        have hget := h.pcGet h.serves.1 pidx
          ⟨t, f, hopen, hlazy.1, rfl, horigin.symm⟩
        refine h.derive ⟨hget.1, fun u hu => ?_⟩ fun u g hg huse => h.like hg (.refl g) huse
        rcases mem_append.1 hu with hu | hu
        · exact h.uses u hu
        · rw [mem_singleton.1 hu, ← horigin]
          dsimp only
          cases hpage : (s.objs.fs.pcGet (s.tasks t).cwd f.path pidx).1 with
          | none => rfl
          | some p => exact hget.2 p hpage
      · exact h
    · exact h

theorem Kept.syscallFdWrite (seg : FileSeg) (moves : Bool) :
    (s.syscallFdWrite t tbl fd seg moves).Kept := by
  unfold Fds.syscallFdWrite
  split
  · exact h
  · next i _ =>
    split
    · next f hf =>
      have hopen := open_of hacts htbl hf
      have hlike : ∀ data, f.Like (f.after ((s.objs.openFile f).syscallFdWrite seg).2 data) :=
        FileFd.Like.after OpenFile.syscallFdWrite_dirty
      have hwritten : ∀ (data : Option ℕ) (o : Objs), o.fs = s.objs.fs → o.uses = s.objs.uses →
          (Fds.setEntry t i (.file (f.after ((s.objs.openFile f).syscallFdWrite seg).2 data))
            ⟨s.tasks, o⟩).Kept := by
        intro data o hfs huses
        refine h.setEntry htbl (h.serves.congr hfs huses) fun g hg => ?_
        cases hg
        exact h.like hopen (hlike data)
      dsimp only
      split
      · split_ifs <;> exact hwritten _ _ rfl rfl
      · split_ifs <;> exact hwritten _ _ rfl rfl
    · exact h

theorem Kept.sysLseek (offset : Word) (whence : ℤ) : (s.sysLseek t tbl fd offset whence).Kept := by
  unfold Fds.sysLseek
  split
  · exact h
  · split
    · next i _ f hf =>
      refine h.setEntry htbl h.serves fun g hg => ?_
      cases hg
      exact h.like (open_of hacts htbl hf)
        (.after (fun hd => .inr ((OpenFile.sysLseek_dirty _ _ _).symm.trans hd)) _)
    · exact h

end

omit hacts in
theorem Kept.sysPipe (mem : Bool) : (s.sysPipe t tbl mem).Kept := by
  unfold Fds.sysPipe
  split
  · exact h
  · next i _ =>
    split
    · exact h
    · split_ifs
      · have hfirst : (Fds.setEntry t i (.pipe s.objs.nextRing false) ⟨s.tasks, s.objs.newRing⟩).Kept :=
          h.setEntry htbl (h.serves.congr rfl rfl) fun f hf => by cases hf
        exact hfirst.setEntry (setEntry_table (s := ⟨s.tasks, s.objs.newRing⟩) htbl i _) hfirst.serves
          fun f hf => by cases hf
      · exact h

omit hacts in
/-- A slot is copied whose path is in order. -/
theorem Kept.copyEntry {i : Fin taskMaxFds} {e : FdEntry} (he : ∀ f, e = .file f → s.Open t f) :
    (s.copyEntry t i e).Kept := by
  have hfile : ∀ f, e = .file f → f.UsesPath → pathResolve (s.tasks t).cwd f.path = f.origin
      ∧ (f.lazy = true → s.Known f.path f.origin) := fun f hf => h.like (he f hf) (.refl f)
  unfold Fds.copyEntry
  split
  · exact h.setEntry htbl (h.serves.congr rfl rfl) hfile
  · exact h.setEntry htbl h.serves hfile

theorem Kept.sysDup (oldfd : ℤ) : (s.sysDup t tbl oldfd).Kept := by
  unfold Fds.sysDup
  split
  · exact h.copyEntry htbl fun f hf => open_of hacts htbl hf
  · exact h

theorem Kept.sysDup2 (oldfd newfd : ℤ) (disk : Bytes → Option Bytes) :
    (s.sysDup2 t tbl oldfd newfd disk).Kept := by
  unfold Fds.sysDup2
  split
  · next i j hget hindex =>
    split_ifs with hij
    · exact h
    · have htbl' := fdClose_table htbl hindex disk
      refine (h.fdClose hacts htbl newfd disk).copyEntry htbl' fun f hf => ?_
      refine open_of ?_ htbl' ((update_of_ne hij _ _).trans hf)
      unfold Fds.fdClose
      split
      · exact hacts
      · exact (setEntry_task (s := ⟨s.tasks, _⟩) _ _ t).2.2 hacts
  · exact h

omit hacts in
theorem Kept.sysSocket (free : Bool) : (s.sysSocket t tbl free).Kept := by
  unfold Fds.sysSocket
  split_ifs
  · split
    · exact h.derive (h.serves.congr rfl rfl) fun u f hf huse => h.like hf (.refl f) huse
    · exact h.setEntry htbl (h.serves.congr rfl rfl) fun f hf => by cases hf
  · exact h

end Calls

/-! ## Tasks -/

/-- The slots of a child are like those of its parent, and neither files nor uses change. -/
structure ClonedFrom (src : FdTable) (o : Objs) (c : CloneState) : Prop where
  /-- The slots. -/
  like : ∀ i g, c.tbl i = .file g → ∃ f, src i = .file f ∧ f.Like g
  /-- The files. -/
  fs : c.objs.fs = o.fs
  /-- The uses. -/
  uses : c.objs.uses = o.uses

section

variable {src : FdTable} {c : CloneState} (h : ClonedFrom src o c)
include h

theorem ClonedFrom.update {e : FdEntry} {o' : Objs} (hfs : o'.fs = c.objs.fs)
    (huses : o'.uses = c.objs.uses) (he : ∀ g, e = .file g → ∃ f, c.tbl i = .file f ∧ f.Like g) :
    ClonedFrom src o ⟨Function.update c.tbl i e, o'⟩ := by
  refine ⟨fun j g hg => ?_, hfs.trans h.fs, huses.trans h.uses⟩
  dsimp only at hg
  by_cases hji : j = i
  · subst hji
    rw [update_self] at hg
    obtain ⟨f, hf, hlike⟩ := he g hg
    obtain ⟨f', hf', hlike'⟩ := h.like j f hf
    exact ⟨f', hf', hlike'.trans hlike⟩
  · rw [update_of_ne hji] at hg
    exact h.like j g hg

theorem ClonedFrom.cloneSlot (mem : Fin taskMaxFds → Bool) (i : Fin taskMaxFds) :
    ClonedFrom src o (c.cloneSlot mem i).2 := by
  have hclean : ∀ (f : FileFd) (data : Option ℕ) (capacity : ℕ),
      f.Like { f with data := data, capacity := capacity, dirty := false } := fun f _ _ =>
    ⟨rfl, rfl, id, fun hu => hu.imp id fun hw => hw.imp id fun hd => absurd hd Bool.false_ne_true⟩
  unfold CloneState.cloneSlot
  cases he : c.tbl i with
  | file f =>
    have hfile : ∀ (data : Option ℕ) (capacity : ℕ) (o' : Objs), o'.fs = c.objs.fs →
        o'.uses = c.objs.uses → ClonedFrom src o ⟨Function.update c.tbl i
          (.file { f with data := data, capacity := capacity, dirty := false }), o'⟩ := by
      intro data capacity o' hfs huses
      refine h.update hfs huses fun g hg => ⟨f, he, ?_⟩
      cases hg
      exact hclean f data capacity
    dsimp only
    split
    · exact hfile f.data 0 c.objs rfl rfl
    · split_ifs
      · exact hfile none 0 _ rfl rfl
      · exact hfile _ f.capacity _ rfl rfl
      · -- The buffers that are given back are not files.
        have hback : (c.unwind i).fs = c.objs.fs ∧ (c.unwind i).uses = c.objs.uses := by
          unfold CloneState.unwind
          refine foldl_invariant (P := fun o' : Objs => o'.fs = c.objs.fs ∧ o'.uses = c.objs.uses)
            (fun o' j ho' => ?_) _ ⟨rfl, rfl⟩
          split
          · split <;> exact ho'
          · exact ho'
        exact ⟨h.like, hback.1.trans h.fs, hback.2.trans h.uses⟩
  | none => exact h
  | plain => exact h
  | pipe r b => exact ⟨h.like, h.fs, h.uses⟩
  | socket n => exact h.update rfl rfl fun g hg => by cases hg

end

/-- **`fd_table_clone`.** -/
theorem fdTableClone_like (room : Bool) (mem : Fin taskMaxFds → Bool) (src : FdTable) :
    ((o.fdTableClone room mem src).2.fs = o.fs ∧ (o.fdTableClone room mem src).2.uses = o.uses)
      ∧ ∀ child, (o.fdTableClone room mem src).1 = some child →
        ∀ i g, child i = .file g → ∃ f, src i = .file f ∧ f.Like g := by
  unfold Objs.fdTableClone
  split_ifs
  · have hloop := loop_invariant (P := ClonedFrom src o)
      (List.finRange taskMaxFds) (fun c i _ hc => hc.cloneSlot mem i)
      (s := ⟨src, o⟩) ⟨fun i g hg => ⟨g, hg, .refl g⟩, rfl, rfl⟩
    split
    · next c hc =>
      rw [hc] at hloop
      refine ⟨⟨hloop.fs, hloop.uses⟩, fun child hchild => ?_⟩
      cases hchild
      exact hloop.like
    · next c hc =>
      rw [hc] at hloop
      exact ⟨⟨hloop.fs, hloop.uses⟩, fun child hchild => by cases hchild⟩
  · exact ⟨⟨rfl, rfl⟩, fun child hchild => by cases hchild⟩

section

variable (h : s.Kept)
include h

/-- **A new task** with slots like those of its parent; the dirty files of the table that is
destroyed have paths that name the same in the parent's directory. -/
theorem Kept.install (ho : s.Serves o) {c : ℕ} (hc : c < maxTasks) {disk : Bytes → Option Bytes}
    (hchild : ∀ i g, tbl i = .file g → ∃ f, s.Open t f ∧ f.Like g)
    (hold : s.ForFiles c fun f => f.dirty = true → pathResolve (s.tasks t).cwd f.path = f.origin) :
    (Fds.install t c disk tbl ⟨s.tasks, o⟩).Kept := by
  have hserves : s.Serves (Fds.install t c disk tbl ⟨s.tasks, o⟩).objs := by
    unfold Fds.install
    dsimp only
    split
    · exact ho
    · next old hold' =>
      exact ho.fdTableDestroy fun i f hf => hold.at ((entry_eq hold' i).trans hf)
  refine h.derive hserves fun u g hg huse => ?_
  obtain ⟨⟨hu, halive⟩, i, hi⟩ := hg
  by_cases huc : u = c
  · subst huc
    have htask : (Fds.install t u disk tbl ⟨s.tasks, o⟩).tasks u
        = ⟨true, (s.tasks t).cwd, some tbl⟩ := update_self _ _ _
    unfold entry at hi
    rw [htask] at hi
    obtain ⟨f, hf, hlike⟩ := hchild i g hi
    rw [htask]
    exact h.like hf hlike huse
  · have htask : (Fds.install t c disk tbl ⟨s.tasks, o⟩).tasks u = s.tasks u :=
      update_of_ne huc _ _
    unfold entry at hi
    rw [htask] at hi halive ⊢
    exact h.like (f := g) ⟨⟨hu, halive⟩, i, hi⟩ (.refl g) huse

theorem Kept.taskFork (hacts : s.Acts t) (htbl : (s.tasks t).table = some tbl) {env : ForkEnv}
    (hok : s.PathOk (.fork t env)) : (s.taskFork t tbl env).Kept := by
  obtain ⟨⟨hfs, huses⟩, hlike⟩ := fdTableClone_like (o := s.objs) env.room env.mem tbl
  have hserves := h.serves.congr hfs huses
  unfold Fds.taskFork
  split
  · next o' hclone =>
    rw [hclone] at hserves
    exact h.derive hserves fun u f hf huse => h.like hf (.refl f) huse
  · next child o' hclone =>
    rw [hclone] at hserves hlike
    have hchild : ∀ i g, child i = .file g → ∃ f, s.Open t f ∧ f.Like g := by
      intro i g hg
      obtain ⟨f, hf, hl⟩ := hlike child rfl i g hg
      exact ⟨f, open_of hacts htbl hf, hl⟩
    dsimp only
    split
    · refine h.derive (hserves.fdTableDestroy fun i g hg hdirty => ?_)
        fun u f hf huse => h.like hf (.refl f) huse
      obtain ⟨f, hf, hl⟩ := hchild i g hg
      exact (h.like hf hl (.inr (.inr hdirty))).1
    · next c hslot =>
      have hslot' : s.newSlot env = some c := by
        split_ifs at hslot
        exact hslot
      exact h.install hserves (Balanced.newSlot_lt hslot') hchild (hok hacts c hslot')

theorem Kept.taskCreate (hacts : s.Acts t) {env : ForkEnv} (hok : s.PathOk (.create t env)) :
    (s.taskCreate t env).Kept := by
  unfold Fds.taskCreate
  split_ifs
  · split
    · exact h
    · next c hslot =>
      refine h.install h.serves (Balanced.newSlot_lt hslot) (fun i g hg => ?_) (hok hacts c hslot)
      unfold FdTable.default at hg
      split_ifs at hg
  · exact h

theorem Kept.sysChdir (hacts : s.Acts t) {path : CStr} {found : Bool}
    (hok : s.PathOk (.chdir t path found)) : (s.sysChdir t path found).Kept := by
  unfold Fds.sysChdir
  split_ifs with hfound
  · refine h.derive h.serves fun u f hf huse => ?_
    obtain ⟨⟨hu, halive⟩, i, hi⟩ := hf
    unfold entry at hi
    dsimp only at halive hi ⊢
    by_cases hut : u = t
    · subst hut
      rw [update_self] at halive hi ⊢
      exact ⟨(hok hacts hfound).at hi huse, fun hlazy => ⟨u, f, ⟨hacts, i, hi⟩, hlazy, rfl, rfl⟩⟩
    · rw [update_of_ne hut] at halive hi ⊢
      exact h.like (f := f) ⟨⟨hu, halive⟩, i, hi⟩ (.refl f) huse
  · exact h

theorem Kept.taskExit : (s.taskExit t).Kept := by
  refine h.derive h.serves fun u f hf huse => ?_
  obtain ⟨⟨hu, halive⟩, i, hi⟩ := hf
  unfold Fds.taskExit at halive hi ⊢
  unfold entry at hi
  dsimp only at halive hi ⊢
  by_cases hut : u = t
  · subst hut
    rw [update_self] at halive
    cases halive
  · rw [update_of_ne hut] at halive hi ⊢
    exact h.like (f := f) ⟨⟨hu, halive⟩, i, hi⟩ (.refl f) huse

theorem Kept.changeFiles (call : FsCall) : (s.changeFiles call).Kept := by
  have hchange : ∀ fs : FileSys, (∀ p ∈ fs.cache, p.valid = true → p ∈ s.objs.fs.cache) →
      Kept { s with objs := { s.objs with fs := fs } } := fun fs hfs =>
    h.derive ⟨fun p hp hv => .inl (hfs p hp hv), h.uses⟩ fun u f hf huse => h.like hf (.refl f) huse
  cases call with
  | read cwd path size off len => exact h
  | write cwd path left => exact hchange _ fun p hp hv => (FileSys.mem_vfsChangeFile hp hv).1
  | delete cwd path left => exact hchange _ fun p hp hv => (FileSys.mem_vfsChangeFile hp hv).1
  | rename cwd oldPath newPath done => exact hchange _ fun p hp hv => (FileSys.mem_vfsRename hp hv).1

/-- **Every event keeps the paths** that meets the condition. -/
theorem Kept.step (ev : FdEvent) (hok : s.PathOk ev) : (s.step ev).Kept := by
  cases ev with
  | «open» t path flags env =>
    exact onTable_rule h fun tbl ht ha htbl => h.sysOpen ⟨ht, ha⟩ htbl hok
  | close t fd disk => exact onTable_rule h fun tbl ht ha htbl => h.fdClose ⟨ht, ha⟩ htbl fd disk
  | read t fd len => exact onTable_rule h fun tbl ht ha htbl => h.sysRead ⟨ht, ha⟩ htbl fd len
  | pread t fd off len =>
    exact onTable_rule h fun tbl ht ha htbl => h.syscallFilePread ⟨ht, ha⟩ htbl fd off len
  | acquire t fd pidx =>
    exact onTable_rule h fun tbl ht ha htbl => h.pagecacheAcquire ⟨ht, ha⟩ htbl fd pidx
  | write t fd seg moves =>
    exact onTable_rule h fun tbl ht ha htbl => h.syscallFdWrite ⟨ht, ha⟩ htbl fd seg moves
  | lseek t fd offset whence =>
    exact onTable_rule h fun tbl ht ha htbl => h.sysLseek ⟨ht, ha⟩ htbl fd offset whence
  | pipe t mem => exact onTable_rule h fun tbl _ _ htbl => h.sysPipe htbl mem
  | dup t oldfd => exact onTable_rule h fun tbl ht ha htbl => h.sysDup ⟨ht, ha⟩ htbl oldfd
  | dup2 t oldfd newfd disk =>
    exact onTable_rule h fun tbl ht ha htbl => h.sysDup2 ⟨ht, ha⟩ htbl oldfd newfd disk
  | socket t free => exact onTable_rule h fun tbl _ _ htbl => h.sysSocket htbl free
  | chdir t path found => exact onTable_rule h fun tbl ht ha _ => h.sysChdir ⟨ht, ha⟩ hok
  | fork t env => exact onTable_rule h fun tbl ht ha htbl => h.taskFork ⟨ht, ha⟩ htbl hok
  | create t env => exact onTable_rule h fun tbl ht ha _ => h.taskCreate ⟨ht, ha⟩ hok
  | exit t => exact onTable_rule h fun tbl _ _ _ => h.taskExit
  | change call => exact h.changeFiles call

end

end

/-- Nothing is open at the boot. -/
theorem kept_boot (fs : FileSys) (cwd : CStr) : (boot fs cwd).Kept := by
  have hopen : ∀ {t f}, ¬ (boot fs cwd).Open t f := by
    rintro t f ⟨-, i, hi⟩
    unfold entry boot FdTable.default at hi
    dsimp only at hi
    split_ifs at hi
    · simp only [Option.map_some, Option.getD_some] at hi
      split_ifs at hi
    · cases hi
  exact ⟨fun hf => absurd hf hopen, fun ⟨_, _, hf, _⟩ => absurd hf hopen,
    fun ⟨_, _, hf, _⟩ => absurd hf hopen, fun u hu => absurd hu not_mem_nil⟩

/-- **Descriptors stay with their files.** After every run whose events meet the condition, every
read from the disk, every page that is mapped and every flush has gone to the file that the path
named when `SYS_OPEN` ran. -/
theorem uses_origin (fs : FileSys) (cwd : CStr) (evs : List FdEvent)
    (hok : Meets PathOk step (boot fs cwd) evs) :
    ∀ u ∈ ((boot fs cwd).run evs).objs.uses, u.reached = u.origin :=
  (Meets.invariant (P := Kept) (fun _ ev hs hev => hs.step ev hev) (kept_boot fs cwd) hok).uses

/-- A file is opened by its absolute path and read by a child in another directory, and a new file
is flushed by its parent. -/
def readByChild : List FdEvent :=
  [.open 0 "/f".toList ⟨false, false, false, false⟩
      ⟨false, true, some (1, true), true, true, none⟩,
    create "g".toList, .fork 0 ⟨true, fun _ => true, true, some 1, some⟩, .close 1 4 some,
    .chdir 1 "/a".toList true, .read 1 3 1, .close 0 4 some]

/-- The theorem at a run with a read and a flush. -/
theorem uses_origin_absolute :
    Meets PathOk step (boot FileSys.oneFile "/".toList) readByChild
      ∧ ((boot FileSys.oneFile "/".toList).run readByChild).objs.uses.length = 2
      ∧ ∀ u ∈ ((boot FileSys.oneFile "/".toList).run readByChild).objs.uses,
        u.reached = u.origin := by
  have hok : Meets PathOk step (boot FileSys.oneFile "/".toList) readByChild := by
    decide +kernel
  exact ⟨hok, by decide +kernel, uses_origin _ _ _ hok⟩

/-- **A flush that goes elsewhere**: a new file is opened by a relative path, and the task changes
its directory before it closes it. -/
theorem flushed_elsewhere :
    ¬ ∀ u ∈ ((boot FileSys.oneFile "/".toList).run
      [create "g".toList, .chdir 0 "/a".toList true, .close 0 3 some]).objs.uses,
      u.reached = u.origin := by
  decide +kernel

end Fds

end Makar
