import Makar.Runs

/-!
# The virtual console

A virtual console is a grid of cells with a cursor, and `vt_putchar` interprets the bytes that are
written to it: text, a few control characters, and escape sequences, which a machine of six states
takes apart. The rows of the grid may be more than are in use: the last one is given to a status
bar now and then, and `vt_set_usable_rows` can take rows away while a sequence is half read and a
cursor is saved below the new limit.

The console's one invariant is `Ok`: the cursor is inside the rows in use, the sequence has no more
parameters than there is room for, and the cells that have been written are cells of the grid. What
each function may write is said once (`Draws`): cells of the rows in use and no others.

`vt_init` multiplies the two sides of the grid and the size of a cell with 32 bits, and does not
look whether the product fits. When it does not, the block it gets is smaller than the grid
(`init_short`); the invariant is about grids whose size in bytes has 32 bits.
-/

namespace Makar

open List Nat

namespace Vt

/-- `vt_cell_t` -/
structure Cell where
  ch : UInt8
  flags : UInt8
  fg : UInt32
  bg : UInt32
  deriving DecidableEq, Repr

/-- `sizeof(vt_cell_t)` -/
def cellBytes : ℕ := 12

/-- `VT_NPARAM` -/
def nparamMax : ℕ := 8

/-- `esc_state` -/
inductive Esc
  | ground
  | esc
  | csi
  | osc
  /-- One byte is swallowed: a character set. -/
  | swallow
  /-- An escape inside an operating system command. -/
  | oscEsc
  deriving DecidableEq, Repr

/-- `vt_buf_t`. The numbers have 32 bits. -/
structure Buf where
  cols : ℕ
  rows : ℕ
  usableRows : ℕ
  curCol : ℕ
  curRow : ℕ
  fg : UInt32
  bg : UInt32
  /-- `cells` is not null. -/
  hasCells : Bool
  /-- The memory that starts at `cells`, cell by cell. -/
  cells : ℕ → Cell
  escState : Esc
  escNparam : ℕ
  escPriv : Bool
  escParam : ℕ → ℕ
  savedCol : ℕ
  savedRow : ℕ
  defFg : UInt32
  defBg : UInt32
  /-- The cells that have been written since the console was set up. -/
  written : List ℕ

/-- `vt_dirty_t` -/
structure Dirty where
  scrolled : Bool := false
  hasCell : Bool := false
  col : ℕ := 0
  row : ℕ := 0
  deriving DecidableEq, Repr

/-- The number of cells `vt_init` asks for, and how many the block it gets has room for. -/
def requested (cols rows : ℕ) : ℕ := cols * rows % 2 ^ 32

/-- The cells there is room for in the block `kmalloc(n * sizeof(vt_cell_t))` gives. -/
def room (cols rows : ℕ) : ℕ := requested cols rows * cellBytes % 2 ^ 32 / cellBytes

/-- A blank in the given colours. -/
def blank (fg bg : UInt32) : Cell := ⟨32, 0, fg, bg⟩

/-- `vt_init`, with whether `kmalloc` found a block and what was in it. -/
def init (cols rows : UInt32) (fg bg : UInt32) (found : Bool) (mem : ℕ → Cell) : Bool × Buf :=
  (found,
    { cols := cols.toNat
      rows := rows.toNat
      usableRows := rows.toNat
      curCol := 0
      curRow := 0
      fg, bg
      hasCells := found
      cells := fun k =>
        if found ∧ k < requested cols.toNat rows.toNat then blank fg bg else mem k
      escState := .ground
      escNparam := 0
      escPriv := false
      escParam := fun _ => 0
      savedCol := 0
      savedRow := 0
      defFg := fg
      defBg := bg
      written := [] })

namespace Buf

variable (v : Buf)

/-- `vt_set_color` -/
def setColor (fg bg : UInt32) : Buf := { v with fg, bg }

/-- `vt_limit_rows` -/
def limitRows : ℕ :=
  if v.rows = 0 then 0
  else if v.usableRows = 0 ∨ v.rows < v.usableRows then v.rows
  else v.usableRows

/-- `vt_set_usable_rows` -/
def setUsableRows (rows : ℕ) : Buf :=
  if v.rows = 0 then v
  else
    let rows := if rows = 0 ∨ v.rows < rows then v.rows else rows
    { v with
      usableRows := rows
      curRow := if rows ≤ v.curRow then rows - 1 else v.curRow
      curCol := if v.cols ≤ v.curCol ∧ 0 < v.cols then v.cols - 1 else v.curCol }

/-- A number, or the last one below a bound. -/
def clamp (bound n : ℕ) : ℕ := if bound ≤ n then bound - 1 else n

/-- `vt_set_cursor` -/
def setCursor (col row : ℕ) : Buf :=
  if v.cols = 0 ∨ v.limitRows = 0 then v
  else { v with curCol := clamp v.cols col, curRow := clamp v.limitRows row }

/-- `vt_fill_cell` over a list of cells. -/
def fillCells (ks : List ℕ) (c : Cell) : Buf :=
  { v with cells := fun k => if k ∈ ks then c else v.cells k, written := ks ++ v.written }

/-- Where a cell is: `row * cols + col`. -/
def index (col row : ℕ) : ℕ := (row * v.cols + col) % 2 ^ 32

/-- `vt_clear` -/
def clear : Buf :=
  let v := { v with curCol := 0, curRow := 0 }
  if v.hasCells then
    v.fillCells (List.range (v.cols * v.limitRows % 2 ^ 32)) (blank v.fg v.bg)
  else v

/-- The `memmove` of `vt_scroll_up`: so many cells come from a row further down. -/
def moveUp (n : ℕ) : Buf :=
  { v with
    cells := fun k => if k < n then v.cells (k + v.cols) else v.cells k
    written := List.range n ++ v.written }

/-- `vt_scroll_up` -/
def scrollUp : Buf :=
  let rows := v.limitRows
  if rows ≤ 1 then v.clear
  else
    let rowBytes := v.cols * cellBytes % 2 ^ 32
    let v := v.moveUp ((rows - 1) * rowBytes % 2 ^ 32 / cellBytes)
    v.fillCells ((List.range v.cols).map fun c => (rows - 1) * v.cols % 2 ^ 32 + c)
      (blank v.fg v.bg)

/-- The cells of the region from a place to another, row by row, inside the rows in use. -/
def region (r0 c0 r1 c1 : ℕ) : List ℕ :=
  ((List.range v.limitRows).filter fun r => r0 ≤ r ∧ r ≤ r1).flatMap fun r =>
    let cs := if r = r0 then c0 else 0
    let ce := if r = r1 then c1 else v.cols - 1
    ((List.range v.cols).filter fun c => cs ≤ c ∧ c ≤ ce).map fun c => v.index c r

/-- `vt_fill_region` -/
def fillRegion (r0 c0 r1 c1 : ℕ) : Buf :=
  if v.hasCells then v.fillCells (v.region r0 c0 r1 c1) (blank v.fg v.bg) else v

/-- `vt_pget` -/
def pget (i dflt : ℕ) : ℕ :=
  let n := if i < v.escNparam then v.escParam i else 0
  if n = 0 then dflt else n

/-- `s_ansi_pal` -/
def ansiPal : List UInt32 :=
  [0x00000000, 0x00AA0000, 0x0000AA00, 0x00AA5500, 0x000000AA, 0x00AA00AA, 0x0000AAAA, 0x00AAAAAA,
    0x00555555, 0x00FF5555, 0x0055FF55, 0x00FFFF55, 0x005555FF, 0x00FF55FF, 0x0055FFFF, 0x00FFFFFF]

/-- One parameter of `vt_sgr`. -/
def sgrParam (p : ℕ) : Buf :=
  if p = 0 then { v with fg := v.defFg, bg := v.defBg }
  else if 30 ≤ p ∧ p ≤ 37 then { v with fg := ansiPal.getD (p - 30) 0 }
  else if p = 39 then { v with fg := v.defFg }
  else if 40 ≤ p ∧ p ≤ 47 then { v with bg := ansiPal.getD (p - 40) 0 }
  else if p = 49 then { v with bg := v.defBg }
  else if 90 ≤ p ∧ p ≤ 97 then { v with fg := ansiPal.getD (p - 90 + 8) 0 }
  else if 100 ≤ p ∧ p ≤ 107 then { v with bg := ansiPal.getD (p - 100 + 8) 0 }
  else v

/-- `vt_sgr` -/
def sgr : Buf :=
  if v.escNparam = 0 then { v with fg := v.defFg, bg := v.defBg }
  else ((List.range v.escNparam).map v.escParam).foldl sgrParam v

/-- The cursor goes up, not past the first row. -/
def up (n : ℕ) : Buf := { v with curRow := if n < v.curRow then v.curRow - n else 0 }

/-- The cursor goes down, not past the last row in use. -/
def down (n : ℕ) : Buf := { v with curRow := clamp v.limitRows ((v.curRow + n) % 2 ^ 32) }

/-- The cursor that was saved. -/
def restore : Buf :=
  { v with curCol := clamp v.cols v.savedCol, curRow := clamp v.limitRows v.savedRow }

/-- `vt_csi_dispatch`: whether the contents have changed, and the console. -/
def csiDispatch (f : UInt8) : Bool × Buf :=
  let rows := v.limitRows
  let m := if 0 < v.escNparam then v.escParam 0 else 0
  match f with
  | 0x41 /- A -/ => (false, v.up (v.pget 0 1))
  | 0x42 /- B -/ => (false, v.down (v.pget 0 1))
  | 0x43 /- C -/ =>
    (false, { v with curCol := clamp v.cols ((v.curCol + v.pget 0 1) % 2 ^ 32) })
  | 0x44 /- D -/ =>
    (false, { v with curCol := if v.pget 0 1 < v.curCol then v.curCol - v.pget 0 1 else 0 })
  | 0x45 /- E -/ => (false, { v.down (v.pget 0 1) with curCol := 0 })
  | 0x46 /- F -/ => (false, { v.up (v.pget 0 1) with curCol := 0 })
  | 0x47 | 0x60 /- G, backquote -/ => (false, { v with curCol := clamp v.cols (v.pget 0 1 - 1) })
  | 0x64 /- d -/ => (false, { v with curRow := clamp rows (v.pget 0 1 - 1) })
  | 0x48 | 0x66 /- H, f -/ =>
    (false,
      { v with
        curRow := clamp rows (v.pget 0 1 - 1)
        curCol := clamp v.cols (v.pget 1 1 - 1) })
  | 0x4A /- J: erase in display -/ =>
    (true,
      if m = 0 then v.fillRegion v.curRow v.curCol (rows - 1) (v.cols - 1)
      else if m = 1 then v.fillRegion 0 0 v.curRow v.curCol
      else v.fillRegion 0 0 (rows - 1) (v.cols - 1))
  | 0x4B /- K: erase in line -/ =>
    (true,
      if m = 0 then v.fillRegion v.curRow v.curCol v.curRow (v.cols - 1)
      else if m = 1 then v.fillRegion v.curRow 0 v.curRow v.curCol
      else v.fillRegion v.curRow 0 v.curRow (v.cols - 1))
  | 0x6D /- m -/ => (false, v.sgr)
  | 0x73 /- s -/ => (false, { v with savedCol := v.curCol, savedRow := v.curRow })
  | 0x75 /- u -/ => (false, v.restore)
  | _ => (false, v)

/-- The byte after an escape. -/
def putEsc (b : UInt8) : Dirty × Buf :=
  match b with
  | 0x5B /- [ -/ =>
    ({}, { v with escState := .csi, escNparam := 0, escPriv := false, escParam := fun i =>
      if i < nparamMax then 0 else v.escParam i })
  | 0x5D /- ] -/ => ({}, { v with escState := .osc })
  | 0x37 /- 7 -/ =>
    ({}, { v with savedCol := v.curCol, savedRow := v.curRow, escState := .ground })
  | 0x38 /- 8 -/ => ({}, { v.restore with escState := .ground })
  | 0x63 /- c -/ =>
    ({ scrolled := true },
      { Buf.clear { v with fg := v.defFg, bg := v.defBg } with escState := .ground })
  | 0x28 | 0x29 | 0x2A | 0x2B => ({}, { v with escState := .swallow })
  | _ => ({}, { v with escState := .ground })

/-- The index of the parameter that a digit belongs to. -/
def paramIndex : ℕ := if v.escNparam ≠ 0 then v.escNparam - 1 else 0

/-- A byte of a control sequence. -/
def putCsi (b : UInt8) : Dirty × Buf :=
  if b = 0x3F then ({}, { v with escPriv := true })
  else if 0x30 ≤ b ∧ b ≤ 0x39 then
    ({}, { v with
      escParam := Function.update v.escParam v.paramIndex
        ((v.escParam v.paramIndex * 10 + (b.toNat - 0x30)) % 2 ^ 16)
      escNparam := if v.escNparam = 0 then 1 else v.escNparam })
  else if b = 0x3B then
    let n := if v.escNparam = 0 then 1 else v.escNparam
    ({}, { v with escNparam := if n < nparamMax then n + 1 else n })
  else if 0x40 ≤ b ∧ b ≤ 0x7E then
    let r := v.csiDispatch b
    ({ scrolled := r.1 }, { r.2 with escState := .ground })
  else ({}, v)

/-- The cursor goes to the next row, and the rows scroll when there is none. The flag is
`scrolled`. -/
def nextRow (scrolled : Bool) : Bool × Buf :=
  let v := { v with curRow := (v.curRow + 1) % 2 ^ 32 }
  let rows := v.limitRows
  if rows ≤ v.curRow then (true, { v.scrollUp with curRow := rows - 1 }) else (scrolled, v)

/-- A cursor that is out of range is brought back first. -/
def bringBack : Bool × Buf :=
  let r := if v.cols ≤ v.curCol then { v with curCol := 0 }.nextRow false else (false, v)
  let rows := v.limitRows
  if rows ≤ r.2.curRow then (true, { r.2.scrollUp with curRow := rows - 1 }) else r

/-- Text and control characters. -/
def putText (b : UInt8) : Dirty × Buf :=
  let (scrolled, v) := v.bringBack
  if b = 0x0A then
    let r := { v with curCol := 0 }.nextRow scrolled
    ({ scrolled := r.1 }, r.2)
  else if b = 0x0D then ({ scrolled }, { v with curCol := 0 })
  else if b = 0x08 then
    let v := { v with curCol := if 0 < v.curCol then v.curCol - 1 else v.curCol }
    (⟨scrolled, true, v.curCol, v.curRow⟩,
      v.fillCells [v.index v.curCol v.curRow] (blank v.fg v.bg))
  else
    let w := v.fillCells [v.index v.curCol v.curRow] ⟨b, 0, v.fg, v.bg⟩
    let w := { w with curCol := (w.curCol + 1) % 2 ^ 32 }
    let r := if w.cols ≤ w.curCol then { w with curCol := 0 }.nextRow scrolled else (scrolled, w)
    (⟨r.1, true, v.curCol, v.curRow⟩, r.2)

/-- `vt_putchar` -/
def putchar (b : UInt8) : Dirty × Buf :=
  if ¬v.hasCells ∨ v.cols = 0 ∨ v.limitRows = 0 then ({}, v)
  else
    match v.escState with
    | .esc => v.putEsc b
    | .swallow => ({}, { v with escState := .ground })
    | .csi => v.putCsi b
    | .osc =>
      if b = 0x07 then ({}, { v with escState := .ground })
      else if b = 0x1B then ({}, { v with escState := .oscEsc })
      else ({}, v)
    | .oscEsc => ({}, { v with escState := .ground })
    | .ground => if b = 0x1B then ({}, { v with escState := .esc }) else v.putText b

/-! ## What is drawn -/

variable {v} {w u : Buf} {k n col row : ℕ}

/-- **A grid whose size has 32 bits**, with at least one column and at least one row in use. -/
structure Sized (v : Buf) : Prop where
  cols : 0 < v.cols
  usable : 0 < v.usableRows
  usable_le : v.usableRows ≤ v.rows
  fits : v.cols * v.rows * cellBytes < 2 ^ 32

/-- **Only cells of the rows in use are written**, and the sides of the grid stay. -/
structure Draws (v w : Buf) : Prop where
  cols : w.cols = v.cols
  rows : w.rows = v.rows
  usableRows : w.usableRows = v.usableRows
  cells : ∀ k, v.usableRows * v.cols ≤ k → w.cells k = v.cells k
  written : ∀ k ∈ w.written, k ∈ v.written ∨ k < v.usableRows * v.cols

namespace Sized

theorem limitRows (h : v.Sized) : v.limitRows = v.usableRows := by
  have h1 := h.usable
  have h2 := h.usable_le
  unfold Buf.limitRows
  rw [if_neg (by omega), if_neg (by omega)]

/-- A row in use begins inside the grid. -/
theorem mul_le (h : v.Sized) (hn : n ≤ v.usableRows) : n * v.cols * cellBytes < 2 ^ 32 := by
  refine lt_of_le_of_lt (mul_le_mul_right _ ?_) h.fits
  rw [mul_comm v.cols]
  exact mul_le_mul_right _ (hn.trans h.usable_le)

/-- A cell of a row in use is where it should be. -/
theorem index_lt (h : v.Sized) (hcol : col < v.cols) (hrow : row < v.usableRows) :
    v.index col row < v.usableRows * v.cols := by
  have hle : (row + 1) * v.cols ≤ v.usableRows * v.cols := mul_le_mul_right _ hrow
  have hlt := h.mul_le (le_refl v.usableRows)
  rw [succ_mul] at hle
  unfold cellBytes at hlt
  unfold index
  rw [mod_eq_of_lt (by omega)]
  omega

theorem draws (h : v.Sized) (hd : Draws v w) : w.Sized := by
  refine ⟨?_, ?_, ?_, ?_⟩
  · rw [hd.cols]
    exact h.cols
  · rw [hd.usableRows]
    exact h.usable
  · rw [hd.usableRows, hd.rows]
    exact h.usable_le
  · rw [hd.cols, hd.rows]
    exact h.fits

end Sized

namespace Draws

/-- Everything but the cells may change. -/
theorem of_eq (hcols : w.cols = v.cols) (hrows : w.rows = v.rows)
    (husable : w.usableRows = v.usableRows) (hcells : w.cells = v.cells)
    (hwritten : w.written = v.written) : Draws v w :=
  ⟨hcols, hrows, husable, fun k _ => congrFun hcells k, fun _ hk => .inl (hwritten ▸ hk)⟩

theorem refl (v : Buf) : Draws v v := of_eq rfl rfl rfl rfl rfl

theorem trans (h : Draws v w) (h' : Draws w u) : Draws v u := by
  refine ⟨h'.cols.trans h.cols, h'.rows.trans h.rows, h'.usableRows.trans h.usableRows,
    fun k hk => ?_, fun k hk => ?_⟩
  · rw [h'.cells k (by rw [h.usableRows, h.cols]; exact hk), h.cells k hk]
  · obtain hk | hk := h'.written k hk
    · exact h.written k hk
    · rw [h.usableRows, h.cols] at hk
      exact .inr hk

/-- Cells of the rows in use are filled. -/
theorem fillCells {ks : List ℕ} (hks : ∀ k ∈ ks, k < v.usableRows * v.cols) (c : Cell) :
    Draws v (v.fillCells ks c) := by
  refine ⟨rfl, rfl, rfl, fun k hk => if_neg fun hmem => ?_, fun k hk => ?_⟩
  · have := hks k hmem
    omega
  · obtain hk | hk := mem_append.1 hk
    · exact .inr (hks k hk)
    · exact .inl hk

/-- What comes before does not change the cells. -/
theorem after (h : Draws w u) (hcols : w.cols = v.cols) (hrows : w.rows = v.rows)
    (husable : w.usableRows = v.usableRows) (hcells : w.cells = v.cells)
    (hwritten : w.written = v.written) : Draws v u :=
  (of_eq hcols hrows husable hcells hwritten).trans h

end Draws

theorem draws_clear (h : v.Sized) : Draws v v.clear := by
  unfold clear
  dsimp only
  split
  · refine Draws.after (Draws.fillCells (fun k hk => ?_) _) rfl rfl rfl rfl rfl
    have hlim : Buf.limitRows { v with curCol := 0, curRow := 0 } = v.usableRows := h.limitRows
    have hk := mem_range.1 hk
    rw [hlim] at hk
    have := mod_le (v.cols * v.usableRows) (2 ^ 32)
    show k < v.usableRows * v.cols
    rw [mul_comm]
    exact lt_of_lt_of_le hk this
  · exact .of_eq rfl rfl rfl rfl rfl

theorem draws_moveUp (hn : n ≤ v.usableRows * v.cols) : Draws v (v.moveUp n) := by
  refine ⟨rfl, rfl, rfl, fun k hk => if_neg (by omega), fun k hk => ?_⟩
  obtain hk | hk := mem_append.1 hk
  · have := mem_range.1 hk
    exact .inr (by omega)
  · exact .inl hk

theorem draws_scrollUp (h : v.Sized) : Draws v v.scrollUp := by
  unfold scrollUp
  simp only [h.limitRows]
  split
  · exact draws_clear h
  · next hrows =>
    have hle : (v.usableRows - 1) * v.cols + v.cols = v.usableRows * v.cols := by
      rw [← succ_mul]
      congr 1
      omega
    have hlast := h.mul_le (sub_le v.usableRows 1)
    have hrow : v.cols * cellBytes % 2 ^ 32 = v.cols * cellBytes := by
      refine mod_eq_of_lt ?_
      have := h.mul_le (n := 1) h.usable
      rwa [one_mul] at this
    have hbytes : (v.usableRows - 1) * (v.cols * cellBytes % 2 ^ 32) % 2 ^ 32 / cellBytes
        = (v.usableRows - 1) * v.cols := by
      rw [hrow, ← Nat.mul_assoc, Nat.mod_eq_of_lt hlast, Nat.mul_div_cancel _ (by decide)]
    rw [hbytes]
    refine (draws_moveUp (n := (v.usableRows - 1) * v.cols) (by omega)).trans
      (Draws.fillCells (fun k hk => ?_) _)
    obtain ⟨c, hc, rfl⟩ := mem_map.1 hk
    have hc : c < v.cols := mem_range.1 hc
    show (v.usableRows - 1) * v.cols % 2 ^ 32 + c < v.usableRows * v.cols
    omega

theorem draws_fillRegion (h : v.Sized) (r0 c0 r1 c1 : ℕ) : Draws v (v.fillRegion r0 c0 r1 c1) := by
  unfold fillRegion
  split
  · refine Draws.fillCells (fun k hk => ?_) _
    obtain ⟨r, hr, hk⟩ := mem_flatMap.1 hk
    obtain ⟨c, hc, rfl⟩ := mem_map.1 hk
    have hr := mem_range.1 (mem_filter.1 hr).1
    rw [h.limitRows] at hr
    exact h.index_lt (mem_range.1 (mem_filter.1 hc).1) hr
  · exact .refl v

/-! ## The invariant -/

/-- **The console is in order**: the cursor is in the rows in use, the parameters have room, and
what has been written is inside the grid. -/
structure Ok (v : Buf) : Prop where
  sized : v.Sized
  col : v.curCol < v.cols
  row : v.curRow < v.usableRows
  nparam : v.escNparam ≤ nparamMax
  param : ∀ i, v.escParam i < 2 ^ 16
  written : ∀ k ∈ v.written, k < v.cols * v.rows

/-- What is drawn is inside the grid; the cursor and the parameters are looked at apart. -/
theorem Ok.draws (h : v.Ok) (hd : Draws v w) (hcol : w.curCol < v.cols)
    (hrow : w.curRow < v.usableRows) (hnparam : w.escNparam ≤ nparamMax)
    (hparam : ∀ i, w.escParam i < 2 ^ 16) : w.Ok := by
  refine ⟨h.sized.draws hd, hd.cols ▸ hcol, hd.usableRows ▸ hrow, hnparam, hparam, fun k hk => ?_⟩
  rw [hd.cols, hd.rows]
  obtain hk | hk := hd.written k hk
  · exact h.written k hk
  · refine lt_of_lt_of_le hk ?_
    rw [mul_comm v.cols]
    exact mul_le_mul_right _ h.sized.usable_le

theorem clamp_lt {bound : ℕ} (h : 0 < bound) (n : ℕ) : clamp bound n < bound := by
  unfold clamp
  split <;> omega

/-- **What a step of `vt_putchar` does**: it draws, and the console is in order after. -/
structure Step (v w : Buf) : Prop where
  draws : Draws v w
  ok : w.Ok

/-- A step that draws nothing. -/
theorem Ok.still (h : v.Ok) (hcols : w.cols = v.cols) (hrows : w.rows = v.rows)
    (husable : w.usableRows = v.usableRows) (hcells : w.cells = v.cells)
    (hwritten : w.written = v.written) (hcol : w.curCol < v.cols) (hrow : w.curRow < v.usableRows)
    (hnparam : w.escNparam ≤ nparamMax) (hparam : ∀ i, w.escParam i < 2 ^ 16) : Step v w := by
  have hd := Draws.of_eq hcols hrows husable hcells hwritten
  exact ⟨hd, h.draws hd hcol hrow hnparam hparam⟩

theorem Step.trans (h : Step v w) (h' : Step w u) : Step v u := ⟨h.draws.trans h'.draws, h'.ok⟩

/-- The state of the escape machine is not part of the invariant. -/
theorem Step.esc (h : Step v w) (e : Esc) : Step v { w with escState := e } :=
  h.trans (h.ok.still rfl rfl rfl rfl rfl h.ok.col h.ok.row h.ok.nparam h.ok.param)

/-- The cursor moves. -/
theorem Ok.cursor (h : v.Ok) (hcol : col < v.cols) (hrow : row < v.usableRows) :
    Step v { v with curCol := col, curRow := row } :=
  h.still rfl rfl rfl rfl rfl hcol hrow h.nparam h.param

theorem Ok.refl (h : v.Ok) : Step v v := ⟨.refl v, h⟩

/-- The parameters are not touched by what draws on the screen. -/
theorem scrollUp_params (v : Buf) :
    v.scrollUp.escNparam = v.escNparam ∧ v.scrollUp.escParam = v.escParam
      ∧ (v.scrollUp.curCol = v.curCol ∨ v.scrollUp.curCol = 0) := by
  unfold scrollUp clear
  dsimp only
  split
  · split <;> exact ⟨rfl, rfl, .inr rfl⟩
  · exact ⟨rfl, rfl, .inl rfl⟩

/-- The rows scroll and the cursor is in the last one. -/
theorem Ok.scrolled (h : v.Ok) : Step v { v.scrollUp with curRow := v.usableRows - 1 } := by
  obtain ⟨hn, hp, hc⟩ := v.scrollUp_params
  have hd : Draws v { v.scrollUp with curRow := v.usableRows - 1 } :=
    (draws_scrollUp h.sized).trans (.of_eq rfl rfl rfl rfl rfl)
  have hpos := h.sized.usable
  have hcol := h.col
  refine ⟨hd, h.draws hd ?_ (show v.usableRows - 1 < v.usableRows by omega) ?_ ?_⟩
  · show v.scrollUp.curCol < v.cols
    obtain hc | hc := hc <;> rw [hc] <;> omega
  · exact (le_of_eq hn).trans h.nparam
  · exact fun i => lt_of_eq_of_lt (congrFun hp i) (h.param i)

/-- **The next row.** -/
theorem Ok.nextRow (h : v.Ok) (s : Bool) : Step v (v.nextRow s).2 := by
  have hlt := h.sized.mul_le (n := v.curRow + 1) h.row
  have hpos := h.sized.cols
  have hsmall : v.curRow + 1 < 2 ^ 32 := by
    refine lt_of_le_of_lt ?_ hlt
    rw [mul_assoc]
    exact Nat.le_mul_of_pos_right _ (Nat.mul_pos hpos (by decide))
  have hlim : Buf.limitRows { v with curRow := (v.curRow + 1) % 2 ^ 32 } = v.usableRows :=
    h.sized.limitRows
  unfold Buf.nextRow
  dsimp only
  rw [hlim]
  split
  · -- the rows scroll up and the cursor is in the last of them
    have hs : Buf.scrollUp { v with curRow := (v.curRow + 1) % 2 ^ 32 }
        = { v.scrollUp with curRow := (Buf.scrollUp
            { v with curRow := (v.curRow + 1) % 2 ^ 32 }).curRow } := by
      unfold Buf.scrollUp Buf.clear
      dsimp only
      have : Buf.limitRows { v with curRow := (v.curRow + 1) % 2 ^ 32 } = v.limitRows := rfl
      rw [this]
      split
      · split <;> rfl
      · rfl
    rw [hs]
    exact h.scrolled
  · next hlt =>
    rw [mod_eq_of_lt hsmall] at hlt ⊢
    exact h.cursor h.col (by omega)

/-- Where the invariant holds there is nothing to bring back. -/
theorem Ok.bringBack (h : v.Ok) : v.bringBack = (false, v) := by
  have h1 := h.col
  have h2 := h.row
  unfold Buf.bringBack
  dsimp only
  rw [if_neg (show ¬v.cols ≤ v.curCol by omega), h.sized.limitRows,
    if_neg (show ¬v.usableRows ≤ v.curRow by omega)]

/-- A cell at the cursor is written. -/
theorem Ok.fillCursor (h : v.Ok) (c : Cell) :
    Step v (v.fillCells [v.index v.curCol v.curRow] c) := by
  have hd : Draws v (v.fillCells [v.index v.curCol v.curRow] c) := Draws.fillCells (fun k hk => by
    rw [mem_singleton.1 hk]
    exact h.sized.index_lt h.col h.row) c
  exact ⟨hd, h.draws hd h.col h.row h.nparam h.param⟩

/-- **Text and control characters.** -/
theorem Ok.putText (h : v.Ok) (b : UInt8) : Step v (v.putText b).2 := by
  have hcols := h.sized.cols
  have hcol := h.col
  unfold Buf.putText
  rw [h.bringBack]
  dsimp only
  split
  · have h0 := h.cursor hcols h.row
    exact h0.trans (h0.ok.nextRow _)
  · split
    · exact h.cursor hcols h.row
    · split
      · have h0 := h.cursor
          (show (if 0 < v.curCol then v.curCol - 1 else v.curCol) < v.cols by split <;> omega) h.row
        exact h0.trans (h0.ok.fillCursor _)
      · have h0 := h.fillCursor ⟨b, 0, v.fg, v.bg⟩
        generalize v.fillCells [v.index v.curCol v.curRow] ⟨b, 0, v.fg, v.bg⟩ = w at *
        have hwcol := h0.ok.col
        have hsmall : w.curCol + 1 < 2 ^ 32 := by
          have := h0.ok.sized.mul_le (n := 1) h0.ok.sized.usable
          unfold cellBytes at this
          omega
        rw [mod_eq_of_lt hsmall]
        split
        · have h1 := h0.ok.cursor h0.ok.sized.cols h0.ok.row
          exact (h0.trans h1).trans (h1.ok.nextRow _)
        · exact h0.trans (h0.ok.cursor (by omega) h0.ok.row)

/-! ## Escape sequences -/

section

variable (h : v.Ok)
include h

/-- Colours are not part of the invariant. -/
theorem Ok.colors (fg bg : UInt32) : Step v { v with fg, bg } :=
  h.still rfl rfl rfl rfl rfl h.col h.row h.nparam h.param

theorem Ok.sgrParam (p : ℕ) : Step v (v.sgrParam p) := by
  unfold Buf.sgrParam
  repeat' split
  all_goals exact h.colors _ _

theorem Ok.sgr : Step v v.sgr := by
  unfold Buf.sgr
  split
  · exact h.colors _ _
  · have hfold : ∀ (ps : List ℕ) (w : Buf), Step v w → Step v (ps.foldl Buf.sgrParam w) := by
      intro ps
      induction ps with
      | nil => exact fun w hw => hw
      | cons p ps ih => exact fun w hw => ih _ (hw.trans (hw.ok.sgrParam p))
    exact hfold _ v h.refl

theorem Ok.up (n : ℕ) : Step v (v.up n) := by
  have := h.row
  refine h.cursor h.col ?_
  split <;> omega

theorem Ok.down (n : ℕ) : Step v (v.down n) :=
  h.cursor h.col (by rw [h.sized.limitRows]; exact clamp_lt h.sized.usable _)

theorem Ok.restore : Step v v.restore :=
  h.cursor (clamp_lt h.sized.cols _) (by rw [h.sized.limitRows]; exact clamp_lt h.sized.usable _)

theorem Ok.fillRegion (r0 c0 r1 c1 : ℕ) : Step v (v.fillRegion r0 c0 r1 c1) := by
  have hd := draws_fillRegion h.sized r0 c0 r1 c1
  refine ⟨hd, h.draws hd ?_ ?_ ?_ ?_⟩ <;> unfold Buf.fillRegion <;> split
  all_goals first
    | exact h.col
    | exact h.row
    | exact h.nparam
    | exact h.param

/-- **A control sequence is carried out.** -/
theorem Ok.csiDispatch (f : UInt8) : Step v (v.csiDispatch f).2 := by
  have hcols := h.sized.cols
  have husable := h.sized.usable
  have hcol := h.col
  have hrows : ∀ n, clamp v.limitRows n < v.usableRows := fun n => by
    rw [h.sized.limitRows]
    exact clamp_lt husable n
  unfold Buf.csiDispatch
  dsimp only
  generalize (if 0 < v.escNparam then v.escParam 0 else 0) = m
  split
  · exact h.up _
  · exact h.down _
  · exact h.cursor (clamp_lt hcols _) h.row
  · exact h.cursor (by split <;> omega) h.row
  · exact (h.down _).trans ((h.down _).ok.cursor hcols (h.down _).ok.row)
  · exact (h.up _).trans ((h.up _).ok.cursor hcols (h.up _).ok.row)
  · exact h.cursor (clamp_lt hcols _) h.row
  · exact h.cursor (clamp_lt hcols _) h.row
  · exact h.cursor hcol (hrows _)
  · exact h.cursor (clamp_lt hcols _) (hrows _)
  · exact h.cursor (clamp_lt hcols _) (hrows _)
  · split
    · exact h.fillRegion _ _ _ _
    · split <;> exact h.fillRegion _ _ _ _
  · split
    · exact h.fillRegion _ _ _ _
    · split <;> exact h.fillRegion _ _ _ _
  · exact h.sgr
  · exact h.still rfl rfl rfl rfl rfl hcol h.row h.nparam h.param
  · exact h.restore
  · exact h.refl

theorem Ok.clear : Step v v.clear := by
  have hd := draws_clear h.sized
  refine ⟨hd, h.draws hd ?_ ?_ ?_ ?_⟩ <;> unfold Buf.clear <;> dsimp only <;> split
  all_goals first
    | exact h.sized.cols
    | exact h.sized.usable
    | exact h.nparam
    | exact h.param

theorem Ok.putEsc (b : UInt8) : Step v (v.putEsc b).2 := by
  unfold Buf.putEsc
  split
  · refine h.still rfl rfl rfl rfl rfl h.col h.row (zero_le _) fun i => ?_
    dsimp only
    split
    · decide
    · exact h.param i
  · exact h.refl.esc _
  · exact h.still rfl rfl rfl rfl rfl h.col h.row h.nparam h.param
  · exact h.restore.esc _
  · exact ((h.colors _ _).trans (h.colors _ _).ok.clear).esc _
  all_goals exact h.refl.esc _

/-- The parameter a digit belongs to is one there is room for. -/
theorem Ok.paramIndex_lt : v.paramIndex < nparamMax := by
  have := h.nparam
  unfold paramIndex nparamMax at *
  split <;> omega

theorem Ok.putCsi (b : UInt8) : Step v (v.putCsi b).2 := by
  have hn := h.nparam
  unfold Buf.putCsi
  split
  · exact h.still rfl rfl rfl rfl rfl h.col h.row hn h.param
  · split
    · refine h.still rfl rfl rfl rfl rfl h.col h.row ?_ fun i => ?_
      · dsimp only
        split
        · decide
        · exact hn
      · dsimp only
        rw [Function.update_apply]
        split
        · exact mod_lt _ (by decide)
        · exact h.param i
    · split
      · refine h.still rfl rfl rfl rfl rfl h.col h.row ?_ h.param
        dsimp only
        unfold nparamMax at *
        split <;> split <;> omega
      · split
        · exact (h.csiDispatch b).esc _
        · exact h.refl

/-- **A byte is written to the console**: it draws on the rows in use, and the console is in order
after. -/
theorem Ok.putchar (b : UInt8) : Step v (v.putchar b).2 := by
  unfold Buf.putchar
  split
  · exact h.refl
  · split
    · exact h.putEsc b
    · exact h.refl.esc _
    · exact h.putCsi b
    · split
      · exact h.refl.esc _
      · split
        · exact h.refl.esc _
        · exact h.refl
    · exact h.refl.esc _
    · split
      · exact h.refl.esc _
      · exact h.putText b

end

/-! ## Runs -/

/-- The calls on a console. -/
inductive Call
  | putchar (b : UInt8)
  | setCursor (col row : UInt32)
  | setUsableRows (rows : UInt32)
  | setColor (fg bg : UInt32)
  | clear
  deriving DecidableEq, Repr

/-- One call. -/
def call (v : Buf) : Call → Buf
  | .putchar b => (v.putchar b).2
  | .setCursor col row => v.setCursor col.toNat row.toNat
  | .setUsableRows rows => v.setUsableRows rows.toNat
  | .setColor fg bg => v.setColor fg bg
  | .clear => v.clear

/-- The rows in use change, and the cursor is brought inside. -/
theorem Ok.setUsableRows (h : v.Ok) (rows : ℕ) :
    (v.setUsableRows rows).Ok ∧ (v.setUsableRows rows).cols = v.cols
      ∧ (v.setUsableRows rows).rows = v.rows := by
  have h1 := h.sized.cols
  have h2 := h.sized.usable
  have h3 := h.sized.usable_le
  have hcol := h.col
  unfold Buf.setUsableRows
  rw [if_neg (by omega)]
  refine ⟨⟨⟨h1, ?_, ?_, h.sized.fits⟩, ?_, ?_, h.nparam, h.param, h.written⟩, rfl, rfl⟩ <;>
    dsimp only
  · split <;> omega
  · split <;> omega
  · rw [if_neg (by omega)]
    exact hcol
  · split <;> split <;> omega

theorem Ok.setCursor (h : v.Ok) (col row : ℕ) : Step v (v.setCursor col row) := by
  unfold Buf.setCursor
  split
  · exact h.refl
  · rw [h.sized.limitRows]
    exact h.cursor (clamp_lt h.sized.cols _) (clamp_lt h.sized.usable _)

/-- **Every call keeps the console in order**, and its sides. -/
theorem Ok.call (h : v.Ok) (c : Call) :
    (v.call c).Ok ∧ (v.call c).cols = v.cols ∧ (v.call c).rows = v.rows := by
  have hstep : ∀ {w}, Step v w → w.Ok ∧ w.cols = v.cols ∧ w.rows = v.rows := fun hs =>
    ⟨hs.ok, hs.draws.cols, hs.draws.rows⟩
  cases c with
  | putchar b => exact hstep (h.putchar b)
  | setCursor col row => exact hstep (h.setCursor _ _)
  | setUsableRows rows => exact h.setUsableRows _
  | setColor fg bg => exact hstep (h.colors fg bg)
  | clear => exact hstep h.clear

/-- Below the rows in use. -/
theorem Sized.le_index (h : v.Sized) (hcol : col < v.cols) (hrow : v.usableRows ≤ row)
    (hlt : row < v.rows) : v.usableRows * v.cols ≤ v.index col row := by
  have h1 : v.usableRows * v.cols ≤ row * v.cols := mul_le_mul_right _ hrow
  have h2 : (row + 1) * v.cols ≤ v.rows * v.cols := mul_le_mul_right _ hlt
  have hfits := h.fits
  rw [succ_mul] at h2
  rw [mul_comm v.cols] at hfits
  unfold cellBytes at hfits
  unfold index
  rw [mod_eq_of_lt (by omega)]
  omega

end Buf

/-- A console is in order when it has been set up. -/
theorem init_ok {cols rows : UInt32} (hcols : 1 ≤ cols.toNat) (hrows : 1 ≤ rows.toNat)
    (hfits : cols.toNat * rows.toNat * cellBytes < 2 ^ 32) (fg bg : UInt32) (found : Bool)
    (mem : ℕ → Cell) : (init cols rows fg bg found mem).2.Ok :=
  ⟨⟨hcols, hrows, Nat.le_refl _, hfits⟩, hcols, hrows, Nat.zero_le _, fun _ => Nat.two_pow_pos 16,
    fun _ hk => absurd hk not_mem_nil⟩

/-- A grid whose size has 32 bits has room. -/
theorem room_eq {cols rows : ℕ} (h : cols * rows * cellBytes < 2 ^ 32) :
    room cols rows = cols * rows := by
  unfold room requested
  have hlt : cols * rows < 2 ^ 32 := by
    unfold cellBytes at h
    omega
  rw [Nat.mod_eq_of_lt hlt, Nat.mod_eq_of_lt h, Nat.mul_div_cancel _ (by decide)]

/-- **The console stays inside its grid.** On a grid whose size in bytes has 32 bits, after any
sequence of calls the cursor is in the rows in use, the parameter that the next digit belongs to is
one of the eight, every cell that was written is one of the grid and of the block that `vt_init`
asked for, and no byte that is written next changes a cell below the rows in use. -/
theorem stays_inside (cols rows fg bg : UInt32) (found : Bool) (mem : ℕ → Cell)
    (hcols : 1 ≤ cols.toNat) (hrows : 1 ≤ rows.toNat)
    (hfits : cols.toNat * rows.toNat * cellBytes < 2 ^ 32) (cs : List Buf.Call) :
    let v := cs.foldl Buf.call (init cols rows fg bg found mem).2
    v.cols = cols.toNat ∧ v.rows = rows.toNat
      ∧ v.curCol < v.cols ∧ v.curRow < v.limitRows ∧ v.limitRows ≤ v.rows
      ∧ v.escNparam ≤ nparamMax ∧ v.paramIndex < nparamMax
      ∧ (∀ k ∈ v.written, k < v.cols * v.rows ∧ k < room cols.toNat rows.toNat)
      ∧ ∀ b col row, v.limitRows ≤ row → row < v.rows → col < v.cols →
        (v.putchar b).2.cells (v.index col row) = v.cells (v.index col row) := by
  intro v
  obtain ⟨hok, hc, hr⟩ : v.Ok ∧ v.cols = cols.toNat ∧ v.rows = rows.toNat := by
    refine foldl_invariant (P := fun v : Buf => v.Ok ∧ v.cols = cols.toNat ∧ v.rows = rows.toNat)
      (fun w c h => ?_) cs ⟨init_ok hcols hrows hfits fg bg found mem, rfl, rfl⟩
    obtain ⟨h1, h2, h3⟩ := h.1.call c
    exact ⟨h1, h2.trans h.2.1, h3.trans h.2.2⟩
  have hlim := hok.sized.limitRows
  refine ⟨hc, hr, hok.col, ?_, ?_, hok.nparam, hok.paramIndex_lt, fun k hk => ?_,
    fun b col row hrow hlt hcol => ?_⟩
  · rw [hlim]
    exact hok.row
  · rw [hlim]
    exact hok.sized.usable_le
  · have := hok.written k hk
    rw [room_eq hfits, ← hc, ← hr]
    exact ⟨this, this⟩
  · rw [hlim] at hrow
    exact (hok.putchar b).draws.cells _ (hok.sized.le_index hcol hrow hlt)

/-- An 80 by 25 console that gives up its last row while the cursor is in it. -/
theorem stays_inside_console :
    let v := [Buf.Call.setCursor 79 24, .setUsableRows 24, .putchar 0x1B, .putchar 0x5B,
      .putchar 0x4A].foldl Buf.call (init 80 25 7 0 true fun _ => ⟨0, 0, 0, 0⟩).2
    v.curRow = 23 ∧ v.curCol = 79 ∧ v.written = [1919]
      ∧ ∀ k ∈ v.written, k < v.cols * v.rows ∧ k < room 80 25 := by
  have h := stays_inside 80 25 7 0 true (fun _ => ⟨0, 0, 0, 0⟩) (by decide) (by decide) (by decide)
    [.setCursor 79 24, .setUsableRows 24, .putchar 0x1B, .putchar 0x5B, .putchar 0x4A]
  exact ⟨by decide +kernel, by decide +kernel, by decide +kernel, h.2.2.2.2.2.2.2.1⟩

/-- **A grid that is too large.** Of 65536 columns and 65537 rows the product has more than 32
bits: the block has room for 65536 cells, `vt_init` returns true, and the first character in the
second row is written behind it. Further down the cells of one row are those of another, so that
what is written in the first row changes the last one, which is not in use. -/
theorem init_short :
    let v := (init 65536 65537 7 0 true fun _ => ⟨0, 0, 0, 0⟩).2
    (init 65536 65537 7 0 true fun _ => ⟨0, 0, 0, 0⟩).1 = true ∧ room 65536 65537 = 65536
      ∧ (65536 ∈ ([Buf.Call.setCursor 0 1, .putchar 0x78].foldl Buf.call v).written)
      ∧ (let w := [Buf.Call.setUsableRows 65536].foldl Buf.call v
        w.limitRows = 65536 ∧ w.cells (w.index 0 65536) = blank 7 0
          ∧ (w.putchar 0x78).2.cells (w.index 0 65536) = ⟨0x78, 0, 7, 0⟩) := by
  decide +kernel

end Vt

end Makar
