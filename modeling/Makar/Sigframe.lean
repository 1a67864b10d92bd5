import Makar.ByteMemory
import Makar.ProcMask

/-!
# Handlers of the program

A signal with a handler of the program is delivered on the way back to ring 3.
`signal_check_user` saves the interrupted registers in a frame below the stack
pointer of the program and goes to the handler; the handler returns to a
trampoline in the frame, which calls `SYS_SIGRETURN`, and that takes the
registers from the frame again.

The frame lies in memory that the program can write. What `SYS_SIGRETURN` checks
is where the frame is and that it has the magic word; every register comes out of
it as it stands, the selectors and the flags with the rest. A program that writes
a frame of its own chooses its privilege level (`forged_selector`), and
`sigreturn_confined` says which frames leave it in ring 3.

When nobody writes to a frame, what is put in comes out again. Handlers may be
interrupted by other handlers to any depth, and each of those puts a frame of its
own on the stack; `Handled` describes such a stretch of a program, and
`handlers_restore` says that the outermost return restores what the first
delivery interrupted.
-/

namespace Makar

open List

/-- The fields of `registers_t` that a signal saves. -/
structure Registers where
  /-- The data segment selector. -/
  ds : Word
  /-- A general register. -/
  edi : Word
  /-- A general register. -/
  esi : Word
  /-- The frame pointer. -/
  ebp : Word
  /-- A general register. -/
  ebx : Word
  /-- A general register. -/
  edx : Word
  /-- A general register. -/
  ecx : Word
  /-- A general register. -/
  eax : Word
  /-- The program counter. -/
  eip : Word
  /-- The code segment selector. -/
  cs : Word
  /-- The flags. -/
  eflags : Word
  /-- The stack pointer of the program. -/
  useresp : Word
  /-- The stack segment selector. -/
  ss : Word
deriving DecidableEq

/-- `sigframe_t`; the trampoline is two words of code. -/
structure Sigframe where
  /-- The address the handler returns to. -/
  retAddr : Word
  /-- The argument of the handler. -/
  signo : Word
  /-- The saved program counter. -/
  savedEip : Word
  /-- The saved code segment selector. -/
  savedCs : Word
  /-- The saved flags. -/
  savedEflags : Word
  /-- The saved stack pointer. -/
  savedUseresp : Word
  /-- The saved stack segment selector. -/
  savedSs : Word
  /-- A saved general register. -/
  savedEax : Word
  /-- A saved general register. -/
  savedEbx : Word
  /-- A saved general register. -/
  savedEcx : Word
  /-- A saved general register. -/
  savedEdx : Word
  /-- A saved general register. -/
  savedEsi : Word
  /-- A saved general register. -/
  savedEdi : Word
  /-- The saved frame pointer. -/
  savedEbp : Word
  /-- The saved data segment selector. -/
  savedDs : Word
  /-- `SIGFRAME_MAGIC`. -/
  magic : Word
  /-- `movl $SYS_SIGRETURN, %eax`, but for its last byte. -/
  trampolineLow : Word
  /-- The last byte of it, and `int $0x80; nop`. -/
  trampolineHigh : Word

/-- `SIGFRAME_MAGIC`. -/
def sigframeMagic : Word := 0x53494746

/-- `sizeof(sigframe_t)`. -/
def sigframeSize : Word := 72

namespace Sigframe

/-- The words of a frame in the order in which they lie in memory. -/
def words (f : Sigframe) : List Word :=
  [f.retAddr, f.signo, f.savedEip, f.savedCs, f.savedEflags, f.savedUseresp, f.savedSs, f.savedEax,
    f.savedEbx, f.savedEcx, f.savedEdx, f.savedEsi, f.savedEdi, f.savedEbp, f.savedDs, f.magic,
    f.trampolineLow, f.trampolineHigh]

/-- The frame at an address. -/
def read (m : Mem) (base : Word) : Sigframe :=
  let word (i : ℕ) := m.readWord (base + BitVec.ofNat 32 (4 * i))
  { retAddr := word 0, signo := word 1, savedEip := word 2, savedCs := word 3,
    savedEflags := word 4, savedUseresp := word 5, savedSs := word 6, savedEax := word 7,
    savedEbx := word 8, savedEcx := word 9, savedEdx := word 10, savedEsi := word 11,
    savedEdi := word 12, savedEbp := word 13, savedDs := word 14, magic := word 15,
    trampolineLow := word 16, trampolineHigh := word 17 }

/-- The frame that `signal_check_user` builds. -/
def build (r : Registers) (base : Word) (sig : ℕ) : Sigframe where
  retAddr := base + 64
  signo := BitVec.ofNat 32 sig
  savedEip := r.eip
  savedCs := r.cs
  savedEflags := r.eflags
  savedUseresp := r.useresp
  savedSs := r.ss
  savedEax := r.eax
  savedEbx := r.ebx
  savedEcx := r.ecx
  savedEdx := r.edx
  savedEsi := r.esi
  savedEdi := r.edi
  savedEbp := r.ebp
  savedDs := r.ds
  magic := sigframeMagic
  trampolineLow := 0x000077b8
  trampolineHigh := 0x9080cd00

/-- The registers that `SYS_SIGRETURN` takes from a frame. -/
def restore (f : Sigframe) : Registers where
  ds := f.savedDs
  edi := f.savedEdi
  esi := f.savedEsi
  ebp := f.savedEbp
  ebx := f.savedEbx
  edx := f.savedEdx
  ecx := f.savedEcx
  eax := f.savedEax
  eip := f.savedEip
  cs := f.savedCs
  eflags := f.savedEflags
  useresp := f.savedUseresp
  ss := f.savedSs

/-- What `SYS_SIGRETURN` looks at in a frame. -/
def saved (f : Sigframe) : Registers × Word := (f.restore, f.magic)

/-- **The frame reads back.** -/
theorem read_writeWords (f : Sigframe) (m : Mem) (base : Word) :
    read (m.writeWords base f.words) base = f := by
  have hword : ∀ (i : ℕ) (hi : i < 18), (m.writeWords base f.words).readWord
      (base + BitVec.ofNat 32 (4 * i)) = f.words.get ⟨i, hi⟩ := fun i hi =>
    @Mem.readWord_writeWords m base f.words (by decide : 4 * 18 ≤ 2 ^ 32) i hi
  unfold read
  dsimp only
  rw [hword 0 (by decide), hword 1 (by decide), hword 2 (by decide), hword 3 (by decide),
    hword 4 (by decide), hword 5 (by decide), hword 6 (by decide), hword 7 (by decide),
    hword 8 (by decide), hword 9 (by decide), hword 10 (by decide), hword 11 (by decide),
    hword 12 (by decide), hword 13 (by decide), hword 14 (by decide), hword 15 (by decide),
    hword 16 (by decide), hword 17 (by decide)]
  rfl

/-- The bytes of the frame at `base` that `SYS_SIGRETURN` looks at are the same in two
memories: everything from `saved_eip` to the magic word. -/
def Unaltered (base : Word) (m m' : Mem) : Prop :=
  ∀ c, 8 ≤ (c - base).toNat → (c - base).toNat < 64 → m' c = m c

theorem Unaltered.refl (base : Word) (m : Mem) : Unaltered base m m := fun _ _ _ => rfl

theorem Unaltered.trans {base : Word} {m m' m'' : Mem} (h : Unaltered base m m')
    (h' : Unaltered base m' m'') : Unaltered base m m'' :=
  fun c hlo hhi => (h' c hlo hhi).trans (h c hlo hhi)

/-- A frame nobody altered holds the same registers. -/
theorem Unaltered.saved {base : Word} {m m' : Mem} (h : Unaltered base m m') :
    (read m' base).saved = (read m base).saved := by
  have hword : ∀ i, 2 ≤ i → i < 16 → m'.readWord (base + BitVec.ofNat 32 (4 * i))
      = m.readWord (base + BitVec.ofNat 32 (4 * i)) := by
    intro i hlo hhi
    refine Mem.readWord_congr fun c hc => h c ?_ ?_ <;> bv_omega
  unfold Sigframe.saved restore read
  dsimp only
  rw [hword 2 (by decide) (by decide), hword 3 (by decide) (by decide),
    hword 4 (by decide) (by decide), hword 5 (by decide) (by decide),
    hword 6 (by decide) (by decide), hword 7 (by decide) (by decide),
    hword 8 (by decide) (by decide), hword 9 (by decide) (by decide),
    hword 10 (by decide) (by decide), hword 11 (by decide) (by decide),
    hword 12 (by decide) (by decide), hword 13 (by decide) (by decide),
    hword 14 (by decide) (by decide), hword 15 (by decide) (by decide)]

/-- **A frame below another leaves it alone**: one that ends where the handler has left the
stack pointer, at most at the argument of the handler. -/
theorem unaltered_writeWords {base base' : Word} (m : Mem) (f : Sigframe)
    (h : base'.toNat + 72 ≤ base.toNat + 8) (hbase : base.toNat + 64 ≤ 2 ^ 32) :
    Unaltered base m (m.writeWords base' f.words) := by
  intro c hlo hhi
  refine Mem.writeWords_of_le f.words ?_
  show 4 * 18 ≤ _
  bv_omega

end Sigframe

/-! ## Delivery and return -/

/-- A program in ring 3 and the kernel it runs on: the tasks, the registers the program has
on its way through the kernel, and its memory. -/
structure Ring3 where
  /-- The tasks; the program is the one that runs. -/
  procs : Procs
  /-- Its registers. -/
  regs : Registers
  /-- Its memory. -/
  mem : Mem

namespace Ring3

/-- `signal_check_user`. -/
def signalCheckUser (u : Ring3) : Ring3 :=
  if u.regs.cs &&& 3 ≠ 3 then u
  else
    let t := u.procs.current
    match (List.range' 1 Procs.sigMax).find? (u.procs.caughtBy t) with
    | none => u
    | some sig =>
      let base := u.regs.useresp - sigframeSize
      { procs := u.procs.sigClear t sig
        regs := { u.regs with useresp := base, eip := (u.procs.handlerFor t sig).toBitVec }
        mem := u.mem.writeWords base (Sigframe.build u.regs base sig).words }

/-- The tasks see of it what `Procs.signalCheckUser` says. -/
theorem signalCheckUser_procs {u : Ring3} (h : u.regs.cs &&& 3 = 3) :
    u.signalCheckUser.procs = (u.procs.signalCheckUser u.procs.current).2 := by
  unfold signalCheckUser Procs.signalCheckUser
  rw [if_neg (not_not.2 h)]
  dsimp only
  cases (range' 1 Procs.sigMax).find? (u.procs.caughtBy u.procs.current) <;> rfl

/-- A delivery leaves the selectors and the flags alone. -/
theorem signalCheckUser_regs (u : Ring3) : u.signalCheckUser.regs.cs = u.regs.cs
    ∧ u.signalCheckUser.regs.ss = u.regs.ss ∧ u.signalCheckUser.regs.eflags = u.regs.eflags := by
  unfold signalCheckUser
  split_ifs
  · exact ⟨rfl, rfl, rfl⟩
  · dsimp only
    split <;> exact ⟨rfl, rfl, rfl⟩

/-- The address at which `SYS_SIGRETURN` expects the frame. -/
def frameBase (u : Ring3) : Word := u.regs.useresp - 4

/-- `SYS_SIGRETURN` takes the frame: it lies in the stack of the program and has the magic
word. -/
def Accepted (u : Ring3) : Prop :=
  ¬ (u.frameBase < BitVec.ofNat 32 userStackLimit
      ∨ BitVec.ofNat 32 userStackTop < u.frameBase + sigframeSize)
    ∧ (Sigframe.read u.mem u.frameBase).magic = sigframeMagic

instance (u : Ring3) : Decidable u.Accepted := inferInstanceAs (Decidable (_ ∧ _))

/-- `SYS_SIGRETURN`: the task is killed and others run, or it has the registers of the
frame. -/
def sigreturn (u : Ring3) : Except Procs Ring3 :=
  let base := u.frameBase
  if base < BitVec.ofNat 32 userStackLimit
      ∨ BitVec.ofNat 32 userStackTop < base + sigframeSize then
    .error (u.procs.act .sigreturn)
  else
    let sf := Sigframe.read u.mem base
    if sf.magic ≠ sigframeMagic then .error (u.procs.act .sigreturn)
    else .ok { u with regs := sf.restore }

/-- The call as a whole: on the way back another signal may be delivered. -/
def sysSigreturn (u : Ring3) : Except Procs Ring3 := u.sigreturn.map signalCheckUser

theorem sigreturn_eq (u : Ring3) : u.sigreturn = if u.Accepted
    then .ok { u with regs := (Sigframe.read u.mem u.frameBase).restore }
    else .error (u.procs.act .sigreturn) := by
  unfold sigreturn
  dsimp only
  by_cases hrange : u.frameBase < BitVec.ofNat 32 userStackLimit
      ∨ BitVec.ofNat 32 userStackTop < u.frameBase + sigframeSize
  · have hno : ¬ u.Accepted := fun h => h.1 hrange
    rw [if_pos hrange, if_neg hno]
  · rw [if_neg hrange]
    by_cases hmagic : (Sigframe.read u.mem u.frameBase).magic = sigframeMagic
    · have hyes : u.Accepted := ⟨hrange, hmagic⟩
      rw [if_neg (not_not.2 hmagic), if_pos hyes]
    · have hno : ¬ u.Accepted := fun h => hmagic h.2
      rw [if_pos hmagic, if_neg hno]

/-! ## Frames of the program's own making -/

/-- The requested privilege level of a selector. -/
def rpl (selector : Word) : Word := selector &&& 3

/-- The I/O privilege level in the flags. -/
def iopl (eflags : Word) : Word := (eflags >>> 12) &&& 3

/-- The interrupt flag. -/
def interruptFlag (eflags : Word) : Bool := eflags.getLsbD 9

/-- The flag of virtual-8086 mode. -/
def virtualFlag (eflags : Word) : Bool := eflags.getLsbD 17

/-- **The program stays in ring 3**: registers `r'` have selectors of privilege level 3, and
against `r` they do not raise the I/O privilege level, clear the interrupt flag or set the flag
of virtual-8086 mode. -/
structure Confined (r r' : Registers) : Prop where
  /-- The code segment is one of ring 3. -/
  cs : rpl r'.cs = 3
  /-- The stack segment is one of ring 3. -/
  ss : rpl r'.ss = 3
  /-- The I/O privilege level is not raised. -/
  iopl : iopl r'.eflags ≤ iopl r.eflags
  /-- Interrupts are not turned off. -/
  interrupts : interruptFlag r.eflags = true → interruptFlag r'.eflags = true
  /-- Virtual-8086 mode is not entered. -/
  virtual : virtualFlag r'.eflags = true → virtualFlag r.eflags = true

/-- The call kills the task or leaves it in ring 3. -/
def StaysInRing3 (u : Ring3) : Prop := ∀ u', u.sysSigreturn = .ok u' → Confined u.regs u'.regs

/-- The words of the frame at the stack pointer are ones a program in ring 3 may have in its
registers. -/
def FrameConfined (u : Ring3) : Prop :=
  Confined u.regs (Sigframe.read u.mem u.frameBase).restore

theorem confined_congr {r r₁ r₂ : Registers} (hcs : r₂.cs = r₁.cs) (hss : r₂.ss = r₁.ss)
    (hfl : r₂.eflags = r₁.eflags) : Confined r r₂ ↔ Confined r r₁ := by
  constructor <;> rintro ⟨h1, h2, h3, h4, h5⟩ <;>
    exact ⟨hcs ▸ h1, hss ▸ h2, hfl ▸ h3, hfl ▸ h4, hfl ▸ h5⟩

/-- **When a program stays in ring 3**: the frame it hands over is refused, or the selectors and
the flags in it are those of a program in ring 3. -/
theorem sigreturn_confined (u : Ring3) :
    u.StaysInRing3 ↔ ¬ u.Accepted ∨ u.FrameConfined := by
  unfold StaysInRing3 sysSigreturn
  rw [sigreturn_eq]
  split_ifs with hacc
  · -- The check on the way back does not change what is asked about.
    obtain ⟨hcs, hss, hfl⟩ :=
      signalCheckUser_regs { u with regs := (Sigframe.read u.mem u.frameBase).restore }
    have hiff := confined_congr (r := u.regs) hcs hss hfl
    constructor
    · intro h
      exact .inr (hiff.1 (h _ rfl))
    · rintro (hno | hconf) u' hu'
      · exact absurd hacc hno
      · cases hu'
        exact hiff.2 hconf
  · exact ⟨fun _ => .inl hacc, fun _ u' hu' => (by cases hu')⟩

/-- A program at the top of its stack that has written a frame with these selectors. -/
def forged (cs ss : Word) : Ring3 :=
  let base : Word := 0xBFFEFF00
  let user : Registers :=
    { ds := 0x23, edi := 0, esi := 0, ebp := 0, ebx := 0, edx := 0, ecx := 0, eax := 119,
      eip := 0x40000000, cs := 0x1B, eflags := 0x202, useresp := base + 4, ss := 0x23 }
  { procs := Procs.taskingInit
    regs := user
    mem := Mem.writeWords (fun _ => 0) base
      (Sigframe.build { user with cs := cs, ss := ss } base 0).words }

/-- **A forged frame** with the code segment of the kernel is accepted, and the program goes on in
ring 0. -/
theorem forged_selector : ¬ (forged 0x08 0x10).StaysInRing3 := by
  rw [sigreturn_confined]
  rintro (h | h)
  · exact h (by decide +kernel)
  · exact absurd h.cs (by decide +kernel)

/-- The condition holds of a frame with the selectors of the program. -/
theorem sigreturn_confined_user : (forged 0x1B 0x23).Accepted ∧ (forged 0x1B 0x23).StaysInRing3 :=
  ⟨by decide +kernel, (sigreturn_confined _).2 (.inr
    ⟨by decide +kernel, by decide +kernel, by decide +kernel, by decide +kernel,
      by decide +kernel⟩)⟩

/-! ## Frames nobody writes to -/

/-- A signal is delivered to a handler of the program, with a frame at `base`. -/
structure Delivers (u : Ring3) (base : Word) (u' : Ring3) : Prop where
  /-- The program is in ring 3. -/
  user : u.regs.cs &&& 3 = 3
  /-- A signal is due that the program handles. -/
  caught : ∃ sig, (List.range' 1 Procs.sigMax).find? (u.procs.caughtBy u.procs.current) = some sig
  /-- The frame is below the stack pointer. -/
  base : base = u.regs.useresp - sigframeSize
  /-- `signal_check_user` has run. -/
  after : u' = u.signalCheckUser

/-- The frame fits in the stack of the program. -/
def Fits (base : Word) : Prop :=
  userStackLimit ≤ base.toNat ∧ base.toNat + sigframeSize.toNat ≤ userStackTop

/-- **A stretch of a program with handlers at work.** `frames` are the frames of the handlers
that have not returned. The program runs, and other tasks with it, with any change to its
registers and its memory but to those frames; or a signal interrupts it, the handler runs, with
its own frame among those nobody alters, and returns. -/
inductive Handled : List Word → Ring3 → Ring3 → Prop
  /-- Nothing more happens. -/
  | done (frames : List Word) (u : Ring3) : Handled frames u u
  /-- The program runs, and the kernel does something for it or for others. -/
  | user {frames : List Word} {u u₁ u' : Ring3} (es : List Procs.Event)
      (hprocs : u₁.procs = u.procs.run es)
      (hframes : ∀ base ∈ frames, Sigframe.Unaltered base u.mem u₁.mem)
      (hrest : Handled frames u₁ u') : Handled frames u u'
  /-- A handler is entered and returns. -/
  | signal {frames : List Word} {u u₁ u₂ u₃ u' : Ring3} {base : Word}
      (hdelivers : u.Delivers base u₁) (hfits : Fits base)
      (hframes : ∀ base ∈ frames, Sigframe.Unaltered base u.mem u₁.mem)
      (hinner : Handled (base :: frames) u₁ u₂) (hesp : u₂.regs.useresp = base + 4)
      (hreturn : u₂.sigreturn = .ok u₃) (hrest : Handled frames u₃ u') : Handled frames u u'

variable {u u₁ u₂ u₃ u' : Ring3} {base : Word} {frames : List Word}

theorem Delivers.signalCheckUser_eq (h : u.Delivers base u₁) : ∃ sig,
    u₁ = { procs := u.procs.sigClear u.procs.current sig
           regs := { u.regs with
             useresp := base, eip := (u.procs.handlerFor u.procs.current sig).toBitVec }
           mem := u.mem.writeWords base (Sigframe.build u.regs base sig).words } := by
  obtain ⟨huser, ⟨sig, hsig⟩, rfl, rfl⟩ := h
  refine ⟨sig, ?_⟩
  unfold signalCheckUser
  rw [if_neg (not_not.2 huser)]
  dsimp only
  rw [hsig]

/-- A delivery puts the interrupted registers in its frame. -/
theorem Delivers.saved (h : u.Delivers base u₁) :
    (Sigframe.read u₁.mem base).saved = (u.regs, sigframeMagic) := by
  obtain ⟨sig, rfl⟩ := h.signalCheckUser_eq
  dsimp only
  rw [Sigframe.read_writeWords]
  rfl

/-- A delivery inside a handler that has not gone back up its stack keeps the frame of the
handler. -/
theorem Delivers.unaltered {base' : Word} (h : u.Delivers base u₁) (hfits : Fits base)
    (hbase : Fits base') (hesp : u.regs.useresp.toNat ≤ base'.toNat + 8) :
    Sigframe.Unaltered base' u.mem u₁.mem := by
  have hb := h.base
  obtain ⟨sig, rfl⟩ := h.signalCheckUser_eq
  have hlo := hfits.1
  have hhi := hfits.2
  have hhi' := hbase.2
  simp only [userStackLimit, userStackTop, userStackPages, pmmFrameSize, sigframeSize] at *
  refine Sigframe.unaltered_writeWords _ _ ?_ ?_ <;> bv_omega

theorem sigreturn_ok (h : u.sigreturn = .ok u') : u'.mem = u.mem ∧ u'.procs = u.procs := by
  rw [sigreturn_eq] at h
  split_ifs at h
  cases h
  exact ⟨rfl, rfl⟩

/-- The frames of the handlers that have not returned are as they were. -/
theorem Handled.unaltered (h : Handled frames u u') :
    ∀ base ∈ frames, Sigframe.Unaltered base u.mem u'.mem := by
  induction h with
  | done frames u => exact fun base _ => .refl base u.mem
  | user es hprocs hframes hrest ih => exact fun b hb => (hframes b hb).trans (ih b hb)
  | signal hdelivers hfits hframes hinner hesp hreturn hrest ihin ih =>
    intro b hb
    have hin := ihin b (mem_cons_of_mem _ hb)
    rw [← (sigreturn_ok hreturn).1] at hin
    exact ((hframes b hb).trans hin).trans (ih b hb)

/-- No mask is written. -/
theorem Handled.unmasked (h : Handled frames u u') (hu : u.procs.Unmasked) :
    u'.procs.Unmasked := by
  induction h with
  | done frames u => exact hu
  | user es hprocs hframes hrest ih =>
    refine ih ?_
    rw [hprocs]
    exact hu.run es
  | signal hdelivers hfits hframes hinner hesp hreturn hrest ihin ih =>
    refine ih ?_
    rw [(sigreturn_ok hreturn).2]
    refine ihin ?_
    rw [hdelivers.after, signalCheckUser_procs hdelivers.user]
    obtain ⟨w, hw⟩ := Procs.signalCheckUser_eq _ _
    rw [hw]
    exact hu.setPending _ w

/-- A frame that fits and has the magic word is accepted. -/
theorem accepted_of_fits (hfits : Fits base) (hesp : u.regs.useresp = base + 4)
    (hmagic : (Sigframe.read u.mem base).magic = sigframeMagic) : u.Accepted := by
  have hbase : u.frameBase = base := by
    unfold frameBase
    rw [hesp]
    bv_omega
  unfold Accepted
  rw [hbase]
  refine ⟨?_, hmagic⟩
  have hlo := hfits.1
  have hhi := hfits.2
  simp only [userStackLimit, userStackTop, userStackPages, pmmFrameSize, sigframeSize] at *
  bv_omega

/-- **Handlers restore what they interrupt.** In any state the system comes to, when a signal is
delivered to a handler of the program with a frame that fits in the stack, and the handler
returns after whatever the program does, further handlers inside it to any depth included, with
no frame altered, then `SYS_SIGRETURN` accepts the frame, every register is what it was before
the delivery, and so is the mask of every task. -/
theorem handlers_restore (es : List Procs.Event) (hu : u.procs = Procs.taskingInit.run es)
    (hdelivers : u.Delivers base u₁) (hfits : Fits base) (hinner : Handled [base] u₁ u₂)
    (hesp : u₂.regs.useresp = base + 4) :
    ∃ u₃, u₂.sigreturn = .ok u₃ ∧ u₃.regs = u.regs
      ∧ ∀ i, (u₃.procs.pool i).sigMask = (u.procs.pool i).sigMask := by
  have hsaved : (Sigframe.read u₂.mem base).saved = (u.regs, sigframeMagic) :=
    (hinner.unaltered base mem_cons_self).saved.trans hdelivers.saved
  have hregs : (Sigframe.read u₂.mem base).restore = u.regs := congrArg Prod.fst hsaved
  have hmagic : (Sigframe.read u₂.mem base).magic = sigframeMagic := congrArg Prod.snd hsaved
  have hbase : u₂.frameBase = base := by
    unfold frameBase
    rw [hesp]
    bv_omega
  have hmask : u.procs.Unmasked := hu ▸ Procs.unmasked_run es
  have hmask₁ : u₁.procs.Unmasked := by
    rw [hdelivers.after, signalCheckUser_procs hdelivers.user]
    obtain ⟨w, hw⟩ := Procs.signalCheckUser_eq u.procs.current u.procs
    rw [hw]
    exact hmask.setPending _ w
  refine ⟨{ u₂ with regs := u.regs }, ?_, rfl, fun i => ?_⟩
  · rw [sigreturn_eq, if_pos (accepted_of_fits hfits hesp hmagic), hbase, hregs]
  · exact (hinner.unmasked hmask₁ i).trans (hmask i).symm

/-- A program that has handlers for two signals, both of which are due. -/
def interrupted : Ring3 where
  procs := Procs.taskingInit.run
    [.taskCreate true true, .dispatch 1, .signal 10 0x40001000, .signal 12 0x40002000,
      .kill 2 10, .kill 2 12]
  regs :=
    { ds := 0x23, edi := 1, esi := 2, ebp := 3, ebx := 4, edx := 5, ecx := 6, eax := 7,
      eip := 0x40000000, cs := 0x1B, eflags := 0x202, useresp := 0xBFFEFF00, ss := 0x23 }
  mem := fun _ => 0

/-- The program moves its stack pointer and does nothing else. -/
theorem handled_setEsp (frames : List Word) (u : Ring3) (esp : Word) :
    Handled frames u { u with regs := { u.regs with useresp := esp } } := by
  refine .user [] ?_ ?_ (.done frames _)
  · rfl
  · exact fun base _ => .refl base u.mem

/-- The second signal interrupts the handler of the first, both return, and the program has its
registers back. -/
theorem handlers_restore_nested : ∃ u₂ u₃ : Ring3,
    Handled [0xBFFEFEB8] interrupted.signalCheckUser u₂ ∧ u₂.regs.useresp = 0xBFFEFEBC
      ∧ u₂.sigreturn = .ok u₃ ∧ u₃.regs = interrupted.regs := by
  have hfirst : interrupted.Delivers 0xBFFEFEB8 interrupted.signalCheckUser :=
    ⟨by decide +kernel, ⟨10, by decide +kernel⟩, by decide +kernel, rfl⟩
  have hsecond : interrupted.signalCheckUser.Delivers 0xBFFEFE70
      interrupted.signalCheckUser.signalCheckUser :=
    ⟨by decide +kernel, ⟨12, by decide +kernel⟩, by decide +kernel, rfl⟩
  have hprocs : interrupted.signalCheckUser.procs = Procs.taskingInit.run
      ([.taskCreate true true, .dispatch 1, .signal 10 0x40001000, .signal 12 0x40002000,
        .kill 2 10, .kill 2 12] ++ [.checkUser]) := by
    have hstep : interrupted.procs.step .checkUser
        = (interrupted.procs.signalCheckUser interrupted.procs.current).2 := by
      unfold Procs.step
      rw [if_neg (by decide +kernel)]
      dsimp only
      rw [if_pos (by decide +kernel)]
      rfl
    rw [signalCheckUser_procs hfirst.user, ← hstep, Procs.run, foldl_append]
    rfl
  have hfits : Fits 0xBFFEFEB8 ∧ Fits 0xBFFEFE70 := by
    unfold Fits
    decide +kernel
  obtain ⟨w, hreturn, hregs, -⟩ := handlers_restore _ hprocs hsecond hfits.2
    (handled_setEsp [0xBFFEFE70] _ 0xBFFEFE74) rfl
  have hinner : Handled [0xBFFEFEB8] interrupted.signalCheckUser
      { w with regs := { w.regs with useresp := 0xBFFEFEBC } } := by
    refine .signal hsecond hfits.2 (fun base hbase => ?_)
      (handled_setEsp [0xBFFEFE70, 0xBFFEFEB8] _ 0xBFFEFE74) rfl hreturn (handled_setEsp _ w _)
    rw [mem_singleton] at hbase
    exact hbase ▸ hsecond.unaltered hfits.2 hfits.1 (by decide +kernel)
  obtain ⟨u₃, hreturn₃, hregs₃, -⟩ := handlers_restore _ rfl hfirst hfits.1 hinner rfl
  exact ⟨_, u₃, hinner, rfl, hreturn₃, hregs₃⟩

end Ring3

end Makar
