import Makar.Buffer

/-!
# The initial stack of a program

The last part of `elf_exec`: the arguments of the program are copied to the top page of its
stack, from the top down and the last argument first. Below them stand sixteen random bytes,
the auxiliary vector, a null that is the empty environment, the pointers to the arguments with
a null at their end, and their number, where `_start` looks for it.

The page can be too small. When an argument does not fit, the loop stops and the number of
arguments becomes the index of the argument: *as if the ones before it had been packed*. It
is the ones behind it that have been, and the pointers that the table is made of are those
the loop has not come to. Unless the table does not fit either, in which case there are no
arguments at all, the program gets pointers that were never written.

`uargv` is an array on the kernel's stack, so what is in it before it is written is an input
(`junk`), and so are the numbers that the loader hands over in the auxiliary vector.
-/

namespace Makar

namespace ElfStack

open List Function Nat

/-- `PAGE_SIZE`. -/
def pageSize : ℕ := 4096

/-- `stack_virt`, the address of the top page. -/
def stackVirt : ℕ := 0xBFFF0000 - pageSize

/-- `ELF_MAX_ARGC`. -/
def elfMaxArgc : ℕ := 128

/-- `ELF_ARG_MAX`. -/
def elfArgMax : ℕ := 256

/-- What is copied of an argument: to its end, and not more than fits in `ELF_ARG_MAX`. -/
def copied (s : List UInt8) : List UInt8 := (s.takeWhile (· ≠ 0)).take (elfArgMax - 1)

/-- The page while it is filled. -/
structure Packing where
  /-- `spage`. -/
  page : Buf
  /-- `off`. -/
  off : ℕ
  /-- `uargv`. -/
  uargv : ℕ → ℕ
  /-- `argc`. -/
  argc : ℕ

/-- The loop that packs the strings, for the arguments below an index. -/
def pack (argv : List (List UInt8)) : ℕ → Packing → Packing
  | 0, s => s
  | i + 1, s =>
    let a := copied (argv.getD i [])
    if s.off < a.length + 1 then { s with argc := i }
    else
      let off := s.off - (a.length + 1)
      pack argv i { s with
        page := (s.page.blit off a).put (off + a.length) 0
        off := off
        uargv := Function.update s.uargv i (stackVirt + off) }

/-- The generator of the random bytes. -/
def nextSeed (seed : ℕ) : ℕ := (seed * 1103515245 + 12345) % 2 ^ 32

/-- The random bytes, from `timer_get_ticks`. -/
def randomBytes (ticks : ℕ) : List UInt8 :=
  (List.range 16).map fun i => UInt8.ofNat (nextSeed^[i + 1] (ticks ^^^ 0x9E3779B9) / 2 ^ 16)

/-- The random bytes are put below the strings, if they fit, and `off` is aligned. -/
def addRandom (ticks : ℕ) (s : Packing) : Packing :=
  if 16 ≤ s.off then
    { s with page := s.page.blit (s.off - 16) (randomBytes ticks), off := (s.off - 16) / 4 * 4 }
  else { s with off := s.off / 4 * 4 }

/-- What the auxiliary vector says of the image. -/
structure Aux where
  /-- `entry_main`. -/
  entryMain : ℕ
  /-- `at_base`. -/
  atBase : ℕ
  /-- `at_phnum`. -/
  atPhnum : ℕ
  /-- `at_phent`. -/
  atPhent : ℕ
  /-- `at_phdr`. -/
  atPhdr : ℕ

/-- The auxiliary vector, in the order in which it is written. -/
def auxWords (x : Aux) (execfn rand : ℕ) : List ℕ :=
  [0, 0, execfn, 31, rand, 25, x.entryMain, 9, x.atBase, 7, pageSize, 6, x.atPhnum, 5, x.atPhent,
    4, x.atPhdr, 3]

/-- `off -= 4; *(spage + off) = w`. -/
def push (s : Buf × ℕ) (w : ℕ) : Buf × ℕ := (s.1.wr32 (s.2 - 4) w, s.2 - 4)

/-- The tables for a number of arguments, below an offset. -/
def tables (x : Aux) (rand : ℕ) (s : Packing) (argc off : ℕ) : Buf × ℕ :=
  (auxWords x (if 0 < argc then s.uargv 0 else 0) rand ++ [0, 0]
    ++ ((List.range argc).map s.uargv).reverse ++ [argc]).foldl push (s.page, off)

/-- **The initial stack**: the page and the offset of `initial_esp` in it. Where the tables do
not fit below the strings the arguments are given up. -/
def initialStack (argv : List (List UInt8)) (x : Aux) (ticks : ℕ) (junk : ℕ → ℕ) : Buf × ℕ :=
  let argv := argv.take elfMaxArgc
  let p := pack argv argv.length ⟨Buf.zero, pageSize, junk, argv.length⟩
  let s := addRandom ticks p
  let rand := if 16 ≤ p.off then stackVirt + (p.off - 16) else 0
  if s.off < (s.argc + 21) * 4 then tables x rand s 0 pageSize else tables x rand s s.argc s.off

/-! ## What is asked of it -/

/-- The bytes that the strings of some arguments take. -/
def size (argv : List (List UInt8)) : ℕ := (argv.map fun s => (copied s).length + 1).sum

/-- Where the tables begin, below strings of a size. -/
def tableTop (used : ℕ) : ℕ :=
  (if 16 ≤ pageSize - used then pageSize - used - 16 else pageSize - used) / 4 * 4

/-- **A stack as `_start` expects it.** A number of arguments is on top, then a pointer to
each of them, a null-terminated copy in the page and above the pointers, and then a null; and
it is the number of all the arguments if there is room for them. -/
def StackOk (argv : List (List UInt8)) (r : Buf × ℕ) : Prop :=
  ∃ n, n ≤ argv.length
    ∧ (size argv ≤ pageSize → (argv.length + 21) * 4 ≤ tableTop (size argv) → n = argv.length)
    ∧ r.1.rd32 r.2 = n ∧ r.1.rd32 (r.2 + 4 * (n + 1)) = 0 ∧ r.2 + 4 * (n + 2) ≤ pageSize
    ∧ ∀ i, i < n → ∃ p, r.1.rd32 (r.2 + 4 * (i + 1)) = stackVirt + p ∧ r.2 + 4 * (n + 2) ≤ p
      ∧ p + ((copied (argv.getD i [])).length + 1) ≤ pageSize
      ∧ r.1.slice p ((copied (argv.getD i [])).length + 1) = copied (argv.getD i []) ++ [0]

/-! ## Words that are pushed -/

/-- **What is pushed is below where it was**, in the reverse order; and nothing above is
touched. -/
theorem foldl_push (ws : List ℕ) (b : Buf) (off : ℕ) (h : 4 * ws.length ≤ off) :
    (ws.foldl push (b, off)).2 + 4 * ws.length = off
      ∧ (∀ k, off ≤ k → (ws.foldl push (b, off)).1 k = b k)
      ∧ ∀ i, ws.reverse.getD i 0 < 2 ^ 32 → i < ws.length →
        (ws.foldl push (b, off)).1.rd32 ((ws.foldl push (b, off)).2 + 4 * i)
          = ws.reverse.getD i 0 := by
  induction ws generalizing b off with
  | nil => exact ⟨rfl, fun _ _ => rfl, fun _ _ hi => absurd hi (not_lt_zero _)⟩
  | cons w ws ih =>
    rw [length_cons] at h
    obtain ⟨hoff, habove, hwords⟩ := ih (b.wr32 (off - 4) w) (off - 4) (by omega)
    rw [foldl_cons]
    refine ⟨?_, fun k hk => ?_, fun i hi hlt => ?_⟩
    · change (ws.foldl push (b.wr32 (off - 4) w, off - 4)).2 + 4 * (ws.length + 1) = off
      omega
    · exact (habove k (by omega)).trans (Buf.wr32_of_notMem (by omega))
    · rw [length_cons] at hlt
      rw [reverse_cons] at hi ⊢
      rcases lt_or_ge i ws.length with hin | hin
      · rw [getD_append _ _ _ _ (by rwa [length_reverse])] at hi ⊢
        exact hwords i hi hin
      · obtain rfl : i = ws.length := by omega
        rw [getD_append_right _ _ _ _ (by rw [length_reverse]), length_reverse, Nat.sub_self] at hi ⊢
        have hat : (ws.foldl push (push (b, off) w)).2 + 4 * ws.length = off - 4 := hoff
        rw [hat, getD_cons_zero]
        exact (Buf.rd32_congr fun k hk _ => habove k hk).trans (Buf.rd32_wr32 hi)

/-! ## Strings that are packed -/

variable {argv : List (List UInt8)} {i k ticks : ℕ} {s : Packing}

/-- The strings from an index on are in the page, each where the ones behind it end. -/
structure Packed (argv : List (List UInt8)) (k : ℕ) (s : Packing) : Prop where
  /-- `off` is below them. -/
  off : s.off + size (argv.drop k) = pageSize
  /-- Each has its pointer and its copy. -/
  placed : ∀ j, k ≤ j → j < argv.length → ∃ p, s.uargv j = stackVirt + p ∧ s.off ≤ p
    ∧ p + ((copied (argv.getD j [])).length + 1) ≤ pageSize
    ∧ s.page.slice p ((copied (argv.getD j [])).length + 1) = copied (argv.getD j []) ++ [0]

theorem size_drop (h : i < argv.length) :
    size (argv.drop i) = (copied (argv.getD i [])).length + 1 + size (argv.drop (i + 1)) := by
  rw [drop_eq_getElem_cons h, getD_eq_getElem _ _ h]
  exact sum_cons

theorem size_drop_anti (argv : List (List UInt8)) {j : ℕ} (h : i ≤ j) :
    size (argv.drop j) ≤ size (argv.drop i) := by
  have hsub : (argv.drop j).Sublist (argv.drop i) := by
    rw [← Nat.add_sub_cancel' h, ← drop_drop]
    exact drop_sublist _ _
  exact (hsub.map _).sum_le_sum fun _ _ => zero_le _

/-- A string and its null byte. -/
theorem slice_string (b : Buf) (o : ℕ) (xs : List UInt8) :
    ((b.blit o xs).put (o + xs.length) 0).slice o (xs.length + 1) = xs ++ [0] := by
  have hlast : ((b.blit o xs).put (o + xs.length) 0).slice o xs.length = xs := by
    refine Eq.trans ?_ (Buf.slice_blit (b := b) (o := o))
    exact Buf.slice_congr fun k _ hk => Buf.put_of_ne (by omega)
  unfold Buf.slice at *
  rw [range_succ, map_append, hlast]
  simp

/-- One more argument is packed. -/
theorem Packed.turn (h : Packed argv (i + 1) s) (hi : i < argv.length)
    (hroom : (copied (argv.getD i [])).length + 1 ≤ s.off) :
    let a := copied (argv.getD i [])
    let off := s.off - (a.length + 1)
    Packed argv i { s with
      page := (s.page.blit off a).put (off + a.length) 0
      off := off
      uargv := update s.uargv i (stackVirt + off) } := by
  intro a off
  have hoff := h.off
  change a.length + 1 ≤ s.off at hroom
  constructor
  · rw [size_drop hi]
    change s.off - (a.length + 1) + (a.length + 1 + _) = _
    omega
  · intro j hj hlt
    dsimp only
    rcases eq_or_lt_of_le hj with rfl | hj
    · rw [update_self]
      refine ⟨off, rfl, le_rfl, ?_, slice_string _ _ _⟩
      change s.off - (a.length + 1) + (a.length + 1) ≤ pageSize
      omega
    · rw [update_of_ne (by omega)]
      obtain ⟨p, hp, hle, hin, hcopy⟩ := h.placed j hj hlt
      refine ⟨p, hp, by omega, hin, hcopy.symm ▸ ?_⟩
      refine Buf.slice_congr fun m hm _ => ?_
      rw [Buf.put_of_ne (by omega), Buf.blit_of_notMem (by omega)]

/-- **How the loop ends.** All arguments are packed; or one does not fit, its index is the
number of arguments, and the pointers up to it are as they were. -/
theorem pack_spec (h : Packed argv i s) (hi : i ≤ argv.length) :
    (Packed argv 0 (pack argv i s) ∧ (pack argv i s).argc = s.argc)
      ∨ ∃ k, k < i ∧ Packed argv (k + 1) (pack argv i s) ∧ (pack argv i s).argc = k
        ∧ pageSize < size (argv.drop k) ∧ ∀ j, j ≤ k → (pack argv i s).uargv j = s.uargv j := by
  induction i generalizing s with
  | zero => exact .inl ⟨h, rfl⟩
  | succ i ih =>
    unfold pack
    dsimp only
    split_ifs with hfull
    · refine .inr ⟨i, lt_succ_self i, ⟨h.off, h.placed⟩, rfl, ?_, fun _ _ => rfl⟩
      have hoff := h.off
      rw [size_drop (lt_of_succ_le hi)]
      omega
    · rcases ih (h.turn hi (Nat.le_of_not_lt hfull)) (by omega) with
        hall | ⟨k, hk, hp, hargc, hsize, hold⟩
      · exact .inl hall
      · refine .inr ⟨k, by omega, hp, hargc, hsize, fun j hj => ?_⟩
        rw [hold j hj]
        exact update_of_ne (by omega) _ _

/-- The random bytes are below the strings. -/
theorem addRandom_spec (ticks : ℕ) (h : Packed argv k s) :
    (addRandom ticks s).off = tableTop (size (argv.drop k))
      ∧ (addRandom ticks s).off ≤ s.off ∧ (addRandom ticks s).argc = s.argc
      ∧ (addRandom ticks s).uargv = s.uargv
      ∧ ∀ m, s.off ≤ m → (addRandom ticks s).page m = s.page m := by
  have hoff : s.off = pageSize - size (argv.drop k) := by
    have := h.off
    omega
  unfold addRandom tableTop
  rw [← hoff]
  split_ifs
  · refine ⟨rfl, by dsimp only; omega, rfl, rfl, fun m hm => Buf.blit_of_notMem (.inr ?_)⟩
    rw [randomBytes, length_map, length_range]
    omega
  · exact ⟨rfl, by dsimp only; omega, rfl, rfl, fun _ _ => rfl⟩

/-! ## The whole stack -/

/-- The words of the stack, from its top. -/
theorem reverse_words (aux : List ℕ) (f : ℕ → ℕ) (argc : ℕ) :
    (aux ++ [0, 0] ++ ((List.range argc).map f).reverse ++ [argc]).reverse
      = argc :: ((List.range argc).map f ++ ([0, 0] ++ aux.reverse)) := by
  simp

/-- **The tables below some strings**: the number, the pointers and the null, and the strings
above are as they were. -/
theorem tables_spec (x : Aux) (rand : ℕ) (s : Packing) (argc off : ℕ) (hargc : argc < 2 ^ 32)
    (hoff : (argc + 21) * 4 ≤ off) :
    let r := tables x rand s argc off
    r.1.rd32 r.2 = argc ∧ r.1.rd32 (r.2 + 4 * (argc + 1)) = 0 ∧ r.2 + 4 * (argc + 2) ≤ off
      ∧ (∀ i, i < argc → s.uargv i < 2 ^ 32 → r.1.rd32 (r.2 + 4 * (i + 1)) = s.uargv i)
      ∧ ∀ m, off ≤ m → r.1 m = s.page m := by
  unfold tables
  generalize haux : auxWords x (if 0 < argc then s.uargv 0 else 0) rand = aux
  generalize s.uargv = f
  intro r
  have hlen : (aux ++ [0, 0] ++ ((range argc).map f).reverse ++ [argc]).length = argc + 21 := by
    simp [← haux, auxWords]
  obtain ⟨hesp, habove, hwords⟩ := foldl_push
    (aux ++ [0, 0] ++ ((range argc).map f).reverse ++ [argc]) s.page off (by omega)
  rw [hlen] at hesp hwords
  rw [reverse_words] at hwords
  change r.2 + 4 * (argc + 21) = off at hesp
  refine ⟨?_, ?_, by omega, fun i hi hf => ?_, habove⟩
  · exact hwords 0 hargc (by omega)
  · have hnull : (argc :: ((range argc).map f ++ ([0, 0] ++ aux.reverse))).getD (argc + 1) 0
        = 0 := by
      rw [getD_cons_succ, getD_append_right _ _ _ _ (by simp)]
      simp
    have := hwords (argc + 1) (by rw [hnull]; norm_num) (by omega)
    rwa [hnull] at this
  · have hptr : (argc :: ((range argc).map f ++ ([0, 0] ++ aux.reverse))).getD (i + 1) 0
        = f i := by
      have hi' : i < ((range argc).map f).length := by simpa using hi
      rw [getD_cons_succ, getD_append _ _ _ _ hi', getD_eq_getElem _ _ hi']
      simp
    have := hwords (i + 1) (by rw [hptr]; exact hf) (by omega)
    rwa [hptr] at this

/-- The loop begins with nothing packed. -/
theorem packed_start (argv : List (List UInt8)) (junk : ℕ → ℕ) :
    Packed argv argv.length ⟨Buf.zero, pageSize, junk, argv.length⟩ :=
  ⟨by rw [drop_length]; rfl, fun _ hj hlt => absurd hlt (not_lt.2 hj)⟩

/-- With no arguments there is only the table. -/
theorem stackOk_none (x : Aux) (rand : ℕ) (s : Packing) {off : ℕ} (hlo : 84 ≤ off)
    (hhi : off ≤ pageSize)
    (hn : size argv ≤ pageSize → (argv.length + 21) * 4 ≤ tableTop (size argv) → argv.length = 0) :
    StackOk argv (tables x rand s 0 off) := by
  obtain ⟨h₁, h₂, h₃, -, -⟩ := tables_spec x rand s 0 off (by norm_num) hlo
  exact ⟨0, zero_le _, fun h h' => (hn h h').symm, h₁, h₂, h₃.trans hhi,
    fun i hi => absurd hi (not_lt_zero i)⟩

/-- **Whatever is packed, the stack is in order if the number is that of the arguments that
are**, or if the tables do not fit. -/
theorem initialStack_ok {x : Aux} {junk : ℕ → ℕ} (hlen : argv.length ≤ elfMaxArgc)
    (hcond : ∀ k, 1 ≤ k → k < argv.length → pageSize < size (argv.drop k) →
      size (argv.drop (k + 1)) ≤ pageSize → tableTop (size (argv.drop (k + 1))) < (k + 21) * 4) :
    StackOk argv (initialStack argv x ticks junk) := by
  unfold initialStack
  dsimp only
  rw [take_of_length_le hlen]
  unfold elfMaxArgc at hlen
  have hspec := pack_spec (packed_start argv junk) le_rfl
  generalize pack argv argv.length ⟨Buf.zero, pageSize, junk, argv.length⟩ = p at hspec ⊢
  generalize (if 16 ≤ p.off then stackVirt + (p.off - 16) else 0) = rand
  dsimp only at hspec
  rcases hspec with ⟨hp, hargc⟩ | ⟨k, hk, hp, hargc, hover, -⟩
  · obtain ⟨htop, hle, hsargc, huargv, hpage⟩ := addRandom_spec ticks hp
    generalize addRandom ticks p = s at *
    rw [drop_zero] at htop
    have hcount : s.argc = argv.length := hsargc.trans hargc
    have hpoff := hp.off
    split_ifs with hlacks
    · exact stackOk_none _ _ _ (by decide) le_rfl (fun _ hfit => by omega)
    · obtain ⟨h₁, h₂, h₃, h₄, h₅⟩ := tables_spec x rand s s.argc s.off (by omega)
        (Nat.le_of_not_lt hlacks)
      refine ⟨s.argc, hcount.le, fun _ _ => hcount, h₁, h₂, by omega, fun i hi => ?_⟩
      obtain ⟨q, hq, hqle, hqin, hcopy⟩ := hp.placed i (zero_le i) (hcount ▸ hi)
      have hsq : s.uargv i = stackVirt + q := by rw [huargv, hq]
      have hsmall : stackVirt + q < 2 ^ 32 := by
        unfold stackVirt pageSize at *
        omega
      refine ⟨q, (h₄ i hi (hsq ▸ hsmall)).trans hsq, by omega, hqin, hcopy.symm ▸ ?_⟩
      exact Buf.slice_congr fun m hm _ => (h₅ m (by omega)).trans (hpage m (by omega))
  · obtain ⟨htop, hle, hsargc, -, -⟩ := addRandom_spec ticks hp
    generalize addRandom ticks p = s at *
    have hpoff := hp.off
    have hmono := size_drop_anti argv (zero_le k)
    rw [drop_zero] at hmono
    split_ifs with hlacks
    · exact stackOk_none _ _ _ (by decide) le_rfl (fun hfit _ => by omega)
    · have hzero : s.argc = 0 := by
        by_contra hne
        have := hcond k (by omega) hk hover (by omega)
        omega
      rw [hzero] at hlacks ⊢
      exact stackOk_none _ _ _ (by omega) (by omega) (fun hfit _ => by omega)

/-- **A number with pointers that were never written.** Where the loop stops at the argument
of a positive index and the tables fit, the first pointer is what was in the array. -/
theorem initialStack_junk (x : Aux) (ticks : ℕ) (junk : ℕ → ℕ) (hlen : argv.length ≤ elfMaxArgc)
    (hk : 1 ≤ k) (hover : pageSize < size (argv.drop k))
    (hfits : size (argv.drop (k + 1)) ≤ pageSize)
    (htable : (k + 21) * 4 ≤ tableTop (size (argv.drop (k + 1)))) (hjunk : junk 0 < 2 ^ 32) :
    ∃ r, initialStack argv x ticks junk = r ∧ r.1.rd32 r.2 = k ∧ r.1.rd32 (r.2 + 4) = junk 0 := by
  unfold initialStack
  dsimp only
  rw [take_of_length_le hlen]
  unfold elfMaxArgc at hlen
  have hspec := pack_spec (packed_start argv junk) le_rfl
  generalize pack argv argv.length ⟨Buf.zero, pageSize, junk, argv.length⟩ = p at hspec ⊢
  generalize (if 16 ≤ p.off then stackVirt + (p.off - 16) else 0) = rand
  dsimp only at hspec
  rcases hspec with ⟨hp, -⟩ | ⟨k', hlt, hp, hargc, hover', hold⟩
  · have hall := hp.off
    have hmono := size_drop_anti argv (zero_le k)
    omega
  -- the loop stops at one index only, since the sizes decrease
  obtain rfl : k' = k := by
    have hfits' := hp.off
    by_contra hne
    rcases lt_or_gt_of_ne hne with h | h
    · have := size_drop_anti argv (show k' + 1 ≤ k from h)
      omega
    · have := size_drop_anti argv (show k + 1 ≤ k' from h)
      omega
  obtain ⟨htop, -, hsargc, huargv, -⟩ := addRandom_spec ticks hp
  generalize addRandom ticks p = s at *
  rw [hargc] at hsargc
  rw [if_neg (by omega), hsargc]
  obtain ⟨h₁, -, -, h₄, -⟩ := tables_spec x rand s k' s.off (by omega) (by omega)
  have hzero : s.uargv 0 = junk 0 := by rw [huargv, hold 0 (zero_le _)]
  exact ⟨_, rfl, h₁, (h₄ 0 hk (hzero ▸ hjunk)).trans hzero⟩

/-- **When the initial stack is in order**, whatever was in the array: if the strings do not
fit in the page, the argument at which the loop stops is the first one, or the tables do not
fit below what has been packed and are written without arguments. -/
theorem initialStack_ok_iff (argv : List (List UInt8)) (x : Aux) (ticks : ℕ) :
    (∀ junk, StackOk (argv.take elfMaxArgc) (initialStack argv x ticks junk))
      ↔ ∀ k, 1 ≤ k → k < (argv.take elfMaxArgc).length →
        pageSize < size ((argv.take elfMaxArgc).drop k) →
        size ((argv.take elfMaxArgc).drop (k + 1)) ≤ pageSize →
        tableTop (size ((argv.take elfMaxArgc).drop (k + 1))) < (k + 21) * 4 := by
  have hlen : (argv.take elfMaxArgc).length ≤ elfMaxArgc := length_take_le _ _
  have hsame : ∀ junk, initialStack argv x ticks junk
      = initialStack (argv.take elfMaxArgc) x ticks junk := by
    intro junk
    unfold initialStack
    rw [take_take, min_self]
  constructor
  · intro h k hk _ hover hfits
    by_contra hc
    obtain ⟨r, hr, hcount, hfirst⟩ := initialStack_junk x ticks (fun _ => 0) hlen hk hover hfits
      (Nat.le_of_not_lt hc) (by norm_num)
    obtain ⟨n, -, -, hn, -, -, hptr⟩ := h fun _ => 0
    rw [hsame, hr] at hn hptr
    obtain ⟨p, hp, -⟩ := hptr 0 (by omega)
    rw [zero_add, mul_one, hfirst] at hp
    unfold stackVirt pageSize at hp
    omega
  · intro h junk
    rw [hsame]
    exact initialStack_ok hlen h

/-- Eighteen arguments: two of 200 bytes, one of 100 and fifteen of 255. -/
def manyArgs : List (List UInt8) :=
  replicate 2 (replicate 200 97) ++ [replicate 100 98] ++ replicate 15 (replicate 255 99)

/-- **A program with one argument, at an address that was never written.** The last sixteen
of the arguments are packed, the second does not fit, and the program is told that it has
one. -/
theorem initialStack_unwritten :
    ¬ ∀ junk, StackOk manyArgs (initialStack manyArgs ⟨0, 0, 0, 0, 0⟩ 0 junk) := by
  intro h
  obtain ⟨n, -, -, hn, -, -, hptr⟩ := h fun _ => 0
  have hcount : (initialStack manyArgs ⟨0, 0, 0, 0, 0⟩ 0 fun _ => 0).1.rd32
      (initialStack manyArgs ⟨0, 0, 0, 0, 0⟩ 0 fun _ => 0).2 = 1 := by
    decide +kernel
  have hfirst : (initialStack manyArgs ⟨0, 0, 0, 0, 0⟩ 0 fun _ => 0).1.rd32
      ((initialStack manyArgs ⟨0, 0, 0, 0, 0⟩ 0 fun _ => 0).2 + 4 * (0 + 1)) = 0 := by
    decide +kernel
  obtain ⟨p, hp, -⟩ := hptr 0 (by omega)
  rw [hfirst] at hp
  unfold stackVirt pageSize at hp
  omega

end ElfStack

end Makar
