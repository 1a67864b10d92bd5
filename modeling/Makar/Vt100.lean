import Makar.Runs

/-!
# The terminal of the user programs

The model of `userspace/vt100.c`: a grid of cells inside an array of a hundred rows and
two hundred columns, a cursor, a scroll region, and a parser of escape sequences whose
parameters are decimal numbers in a 32-bit `int` that wraps. What the cells hold moves no
cursor, so a call gives the new terminal and what it touched: cells, parameters, and lines
of the history. The alternate screen is saved and restored as a whole array, cell by cell
at the same place, and is not entered in that record.

Most sequences bring the cursor back from both sides. Some trust their parameter to be
small and positive, as they clamp on one side only or compare after a sum that may have
wrapped, and leaving the alternate screen trusts the size it was entered with. As long as
that holds, the cursor and the region stay inside the grid and nothing else is touched
(`stays_on_grid`).
-/

namespace Makar

open List

namespace Vt100

/-- `VT_MAXCOLS` -/
def maxCols : ℤ := 200

/-- `VT_MAXROWS` -/
def maxRows : ℤ := 100

/-- `VT_MAXPARAM` -/
def maxParam : ℕ := 16

/-- `VT_SCROLLBACK` -/
def scrollback : ℤ := 500

/-- What an `int` of 32 bits keeps of a value. -/
def wrap (x : ℤ) : ℤ := (x + 2 ^ 31) % 2 ^ 32 - 2 ^ 31

/-- The states of the parser. The last two are `VT_ESC + 100` and `VT_ESC + 200`. -/
inductive Mode
  | ground
  | esc
  | csi
  | osc
  | charset
  | oscEsc
  deriving DecidableEq

/-- The fields of `vt_term` that move a cursor or index an array. -/
structure Term where
  cols : ℤ
  rows : ℤ
  cx : ℤ
  cy : ℤ
  sTop : ℤ
  sBot : ℤ
  savedCx : ℤ
  savedCy : ℤ
  altActive : Bool
  altCx : ℤ
  altCy : ℤ
  state : Mode
  params : ℕ → ℤ
  nparam : ℕ
  priv : Bool
  u8Left : ℕ
  sbHead : ℤ

/-- What a call reads or writes. -/
inductive Touch
  | cell (r c : ℤ)
  | param (i : ℕ)
  | line (i : ℤ)
  /-- `memcpy` between the grid and `alt_save`: so much of both arrays. -/
  | copy (rows cols : ℤ)

/-- The numbers from `a` to `b`. -/
def span (a b : ℤ) : List ℤ := (List.range (b + 1 - a).toNat).map fun i : ℕ => a + (i : ℤ)

/-- A call that leaves a terminal and touches these. -/
abbrev Out := Term × List Touch

namespace Term

variable (t : Term)

/-- The cells of a row. -/
def row (r : ℤ) : List Touch := (span 0 (t.cols - 1)).map (.cell r)

/-- `clear_region` -/
def clearRegion (r0 c0 r1 c1 : ℤ) : List Touch :=
  (span r0 r1).flatMap fun r =>
    if r < t.rows then
      ((span (if r = r0 then c0 else 0) (if r = r1 then c1 else t.cols - 1)).filter (· < t.cols)).map
        (.cell r)
    else []

/-- `sb_push` -/
def sbPush (p : Out) (r : ℤ) : Out :=
  if p.1.altActive then p
  else ({ p.1 with sbHead := (p.1.sbHead + 1) % scrollback }, p.2 ++ .line p.1.sbHead :: p.1.row r)

/-- `scroll_up` -/
def scrollUp (n : ℤ) : Out :=
  if n < 1 then (t, [])
  else
    let p := if t.sTop = 0 ∧ t.sBot = t.rows - 1
      then (span 0 ((if t.rows < n then t.rows else n) - 1)).foldl sbPush (t, []) else (t, [])
    (p.1, p.2 ++ (span t.sTop t.sBot).flatMap fun r =>
      t.row r ++ if wrap (r + n) ≤ t.sBot then t.row (wrap (r + n)) else [])

/-- `scroll_down` -/
def scrollDown (n : ℤ) : List Touch :=
  if n < 1 then []
  else (span t.sTop t.sBot).flatMap fun r =>
    t.row r ++ if t.sTop ≤ wrap (r - n) then t.row (wrap (r - n)) else []

/-- Into the range below a bound, from both sides. -/
def clamp (x bound : ℤ) : ℤ :=
  if bound ≤ (if x < 0 then 0 else x) then bound - 1 else if x < 0 then 0 else x

/-- `clampc`, from a place. -/
def clampc (x y : ℤ) : Term := { t with cx := clamp x t.cols, cy := clamp y t.rows }

/-- `line_feed` -/
def lineFeed : Out :=
  if t.cy = t.sBot then t.scrollUp 1
  else (if t.cy < t.rows - 1 then { t with cy := t.cy + 1 } else t, [])

/-- `put_glyph` -/
def putGlyph : Out :=
  let p := if t.cols ≤ t.cx then { t with cx := 0 }.lineFeed else (t, [])
  ({ p.1 with cx := p.1.cx + 1 }, p.2 ++ [.cell p.1.cy p.1.cx])

/-- A size in the range of the array. -/
def limit (n bound : ℤ) : ℤ := if bound < n then bound else if n < 1 then 1 else n

/-- The rows of a grid. -/
def grid : List Touch := (span 0 (t.rows - 1)).flatMap t.row

/-- The terminal `vt_init` leaves. -/
def fresh (cols rows : ℤ) : Term where
  cols := limit cols maxCols
  rows := limit rows maxRows
  cx := 0
  cy := 0
  sTop := 0
  sBot := limit rows maxRows - 1
  savedCx := 0
  savedCy := 0
  altActive := false
  altCx := 0
  altCy := 0
  state := .ground
  params _ := 0
  nparam := 0
  priv := false
  u8Left := 0
  sbHead := 0

/-- `vt_init` -/
def init (cols rows : ℤ) : Out := (fresh cols rows, (fresh cols rows).grid)

/-- `vt_resize`: the cells that were not in the grid are blanked. -/
def resize (cols rows : ℤ) : Out :=
  let u := { t with
    cols := limit cols maxCols
    rows := limit rows maxRows
    sTop := 0
    sBot := limit rows maxRows - 1 }
  (u.clampc t.cx t.cy, (span 0 (u.rows - 1)).flatMap fun r =>
    ((span 0 (u.cols - 1)).filter fun c => t.rows ≤ r ∨ t.cols ≤ c).map (.cell r))

/-- `pget` -/
def pget (i : ℕ) (d : ℤ) : ℤ :=
  let v := if i < t.nparam then t.params i else 0
  if v ≠ 0 then v else d

/-- What `pget` reads. -/
def reads (i : ℕ) : List Touch := if i < t.nparam then [.param i] else []

/-- The selection parameter of a sequence. -/
def sel : ℤ := if 0 < t.nparam then t.params 0 else 0

/-- `csi_dispatch` -/
def csiDispatch (f : UInt8) : Out :=
  let n := t.pget 0 1
  match f with
  | 0x41 /- A -/ =>
    ({ t with cy := if wrap (t.cy - n) < t.sTop then t.sTop else wrap (t.cy - n) }, t.reads 0)
  | 0x42 /- B -/ =>
    ({ t with cy := if t.sBot < wrap (t.cy + n) then t.sBot else wrap (t.cy + n) }, t.reads 0)
  | 0x43 /- C -/ =>
    ({ t with cx := if t.cols - 1 < wrap (t.cx + n) then t.cols - 1 else wrap (t.cx + n) }, t.reads 0)
  | 0x44 /- D -/ =>
    ({ t with cx := if wrap (t.cx - n) < 0 then 0 else wrap (t.cx - n) }, t.reads 0)
  | 0x45 /- E -/ => (t.clampc 0 (wrap (t.cy + n)), t.reads 0)
  | 0x46 /- F -/ => (t.clampc 0 (wrap (t.cy - n)), t.reads 0)
  | 0x47 | 0x60 /- G, backquote -/ => (t.clampc (wrap (n - 1)) t.cy, t.reads 0)
  | 0x64 /- d -/ => (t.clampc t.cx (wrap (n - 1)), t.reads 0)
  | 0x48 | 0x66 /- H, f -/ =>
    (t.clampc (wrap (t.pget 1 1 - 1)) (wrap (n - 1)), t.reads 0 ++ t.reads 1)
  | 0x4A /- J -/ =>
    (t, t.reads 0 ++
      if t.sel = 0 then t.clearRegion t.cy t.cx (t.rows - 1) (t.cols - 1)
      else if t.sel = 1 then t.clearRegion 0 0 t.cy t.cx
      else t.clearRegion 0 0 (t.rows - 1) (t.cols - 1))
  | 0x4B /- K -/ =>
    (t, t.reads 0 ++
      if t.sel = 0 then t.clearRegion t.cy t.cx t.cy (t.cols - 1)
      else if t.sel = 1 then t.clearRegion t.cy 0 t.cy t.cx
      else t.clearRegion t.cy 0 t.cy (t.cols - 1))
  | 0x53 /- S -/ => ((t.scrollUp n).1, t.reads 0 ++ (t.scrollUp n).2)
  | 0x54 /- T -/ => (t, t.reads 0 ++ t.scrollDown n)
  | 0x4C /- L: insert lines -/ =>
    if t.cy < t.sTop ∨ t.sBot < t.cy then (t, [])
    else (t, t.reads 0 ++ (span 0 (n - 1)).flatMap fun _ =>
      ((span (t.cy + 1) t.sBot).flatMap fun r => t.row r ++ t.row (r - 1)) ++ t.row t.cy)
  | 0x4D /- M: delete lines -/ =>
    if t.cy < t.sTop ∨ t.sBot < t.cy then (t, [])
    else (t, t.reads 0 ++ (span 0 (n - 1)).flatMap fun _ =>
      ((span t.cy (t.sBot - 1)).flatMap fun r => t.row r ++ t.row (r + 1)) ++ t.row t.sBot)
  | 0x40 /- insert blanks -/ =>
    (t, t.reads 0 ++ (span t.cx (t.cols - 1)).flatMap fun c =>
      .cell t.cy c :: if t.cx ≤ wrap (c - n) then [.cell t.cy (wrap (c - n))] else [])
  | 0x50 /- P: delete characters -/ =>
    (t, t.reads 0 ++ (span t.cx (t.cols - 1)).flatMap fun c =>
      .cell t.cy c :: if wrap (c + n) < t.cols then [.cell t.cy (wrap (c + n))] else [])
  | 0x58 /- X: erase characters -/ =>
    (t, t.reads 0 ++ t.clearRegion t.cy t.cx t.cy
      (if wrap (t.cx + n - 1) < t.cols then wrap (t.cx + n - 1) else t.cols - 1))
  | 0x72 /- r: scroll region -/ =>
    let top := if wrap (n - 1) < 0 then 0 else wrap (n - 1)
    let bot := wrap (t.pget 1 t.rows - 1)
    let bot := if t.rows - 1 < bot then t.rows - 1 else bot
    let u := if bot ≤ top then { t with sTop := 0, sBot := t.rows - 1 }
      else { t with sTop := top, sBot := bot }
    ({ u with cx := 0, cy := u.sTop }, t.reads 0 ++ t.reads 1)
  | 0x68 /- h -/ =>
    if t.priv ∧ t.sel = 1049 ∧ t.altActive = false then
      ({ t with altCx := t.cx, altCy := t.cy, altActive := true, cx := 0, cy := 0 },
        t.reads 0 ++ .copy maxRows maxCols :: t.clearRegion 0 0 (t.rows - 1) (t.cols - 1))
    else (t, if t.priv then t.reads 0 else [])
  | 0x6C /- l -/ =>
    if t.priv ∧ t.sel = 1049 ∧ t.altActive then
      ({ t with cx := t.altCx, cy := t.altCy, altActive := false },
        t.reads 0 ++ [.copy maxRows maxCols])
    else (t, if t.priv then t.reads 0 else [])
  | 0x6D /- m -/ => (t, (List.range t.nparam).map .param)
  | _ => (t, [])

/-- The byte after an escape. -/
def putEsc (b : UInt8) : Out :=
  match b with
  | 0x5B /- [ -/ =>
    ({ t with state := .csi, nparam := 0, priv := false, params := fun _ => 0 },
      (List.range maxParam).map .param)
  | 0x5D /- ] -/ => ({ t with state := .osc }, [])
  | 0x37 /- 7 -/ => ({ t with savedCx := t.cx, savedCy := t.cy, state := .ground }, [])
  | 0x38 /- 8 -/ => ({ t.clampc t.savedCx t.savedCy with state := .ground }, [])
  | 0x4D /- M -/ =>
    if t.cy = t.sTop then ({ t with state := .ground }, t.scrollDown 1)
    else ({ t with state := .ground, cy := if 0 < t.cy then t.cy - 1 else t.cy }, [])
  | 0x63 /- c -/ => init t.cols t.rows
  | 0x28 | 0x29 | 0x2A | 0x2B => ({ t with state := .charset }, [])
  | _ => ({ t with state := .ground }, [])

/-- A byte of a control sequence. -/
def putCsi (b : UInt8) : Out :=
  if b = 0x3F then ({ t with priv := true }, [])
  else if 0x30 ≤ b ∧ b ≤ 0x39 then
    let i := if t.nparam ≠ 0 then t.nparam - 1 else 0
    ({ t with
      params := Function.update t.params i (wrap (t.params i * 10 + (b.toNat - 0x30)))
      nparam := if t.nparam = 0 then 1 else t.nparam }, [.param i])
  else if b = 0x3B then
    let n := if t.nparam = 0 then 1 else t.nparam
    ({ t with nparam := if n < maxParam then n + 1 else n }, [])
  else if 0x40 ≤ b ∧ b ≤ 0x7E then
    ({ (t.csiDispatch b).1 with state := .ground }, (t.csiDispatch b).2)
  else (t, [])

/-- Text and control characters. -/
def putText (b : UInt8) : Out :=
  if b = 0x1B then ({ t with state := .esc }, [])
  else if b < 0x20 then
    match b with
    | 0x0A => { t with cx := 0 }.lineFeed
    | 0x0D => ({ t with cx := 0 }, [])
    | 0x08 => ({ t with cx := if 0 < t.cx then t.cx - 1 else t.cx }, [])
    | 0x09 =>
      let x := (t.cx + 8) / 8 * 8
      ({ t with cx := if t.cols - 1 < x then t.cols - 1 else x }, [])
    | _ => (t, [])
  else if b < 0x80 then { t with u8Left := 0 }.putGlyph
  else if b &&& 0xC0 = 0x80 then
    if t.u8Left = 0 then (t, [])
    else if t.u8Left = 1 then { t with u8Left := 0 }.putGlyph
    else ({ t with u8Left := t.u8Left - 1 }, [])
  else if b &&& 0xE0 = 0xC0 then ({ t with u8Left := 1 }, [])
  else if b &&& 0xF0 = 0xE0 then ({ t with u8Left := 2 }, [])
  else if b &&& 0xF8 = 0xF0 then ({ t with u8Left := 3 }, [])
  else ({ t with u8Left := 0 }, [])

/-- `vt_putc` -/
def putc (b : UInt8) : Out :=
  match t.state with
  | .esc => t.putEsc b
  | .charset => ({ t with state := .ground }, [])
  | .csi => t.putCsi b
  | .osc =>
    if b = 0x07 then ({ t with state := .ground }, [])
    else if b = 0x1B then ({ t with state := .oscEsc }, [])
    else (t, [])
  | .oscEsc => ({ t with state := .ground }, [])
  | .ground => t.putText b

end Term

/-! ## Sessions -/

/-- A call. -/
inductive Op
  | putc (b : UInt8)
  | resize (cols rows : ℤ)

/-- The terminal, and what was touched so far, each with the rows and columns of the grid. -/
structure Session where
  term : Term
  log : List (ℤ × ℤ × Touch)

/-- Enter what a call touched in the record. -/
def Session.after (log : List (ℤ × ℤ × Touch)) (p : Out) : Session :=
  ⟨p.1, log ++ p.2.map fun x => (p.1.rows, p.1.cols, x)⟩

/-- One call. -/
def step (s : Session) : Op → Session
  | .putc b => .after s.log (s.term.putc b)
  | .resize cols rows => .after s.log (s.term.resize cols rows)

/-- A session after `vt_init`. -/
def start (cols rows : ℤ) : Session := .after [] (Term.init cols rows)

/-- Inside the grid, or inside its array. -/
def Within (rows cols : ℤ) : Touch → Prop
  | .cell r c => 0 ≤ r ∧ r < rows ∧ 0 ≤ c ∧ c < cols
  | .param i => i < maxParam
  | .line i => 0 ≤ i ∧ i < scrollback
  | .copy r c => r ≤ maxRows ∧ c ≤ maxCols

/-- **The cursor and the region are on the grid, the grid in the array, and nothing outside
was touched.** -/
structure OnGrid (s : Session) : Prop where
  size : 1 ≤ s.term.cols ∧ s.term.cols ≤ maxCols ∧ 1 ≤ s.term.rows ∧ s.term.rows ≤ maxRows
  cursor : 0 ≤ s.term.cx ∧ s.term.cx ≤ s.term.cols ∧ 0 ≤ s.term.cy ∧ s.term.cy < s.term.rows
  region : 0 ≤ s.term.sTop ∧ s.term.sTop ≤ s.term.sBot ∧ s.term.sBot < s.term.rows
  touched : ∀ e ∈ s.log, Within e.1 e.2.1 e.2.2

/-- The sequences that trust their parameter find it small enough and not negative, and the
alternate screen is left with the cursor it was entered with on the grid. -/
def Trusted (t : Term) (f : UInt8) : Prop :=
  let n := t.pget 0 1
  match f with
  | 0x41 | 0x44 | 0x40 => 0 ≤ n
  | 0x42 => 0 ≤ n ∧ t.cy + n < 2 ^ 31
  | 0x43 => 0 ≤ n ∧ t.cx + n < 2 ^ 31
  | 0x53 => t.sBot + n < 2 ^ 31
  | 0x50 => 0 ≤ n ∧ t.cols + n ≤ 2 ^ 31
  | 0x6C => t.priv → t.sel = 1049 → t.altActive → t.altCx ≤ t.cols ∧ t.altCy < t.rows
  | _ => True

/-- The condition on a call: it matters only at the end of a control sequence. -/
def Ok (s : Session) : Op → Prop
  | .putc b => s.term.state = .csi → Trusted s.term b
  | .resize _ _ => True

/-! ## Ranges of cells -/

theorem mem_span {a b x : ℤ} : x ∈ span a b ↔ a ≤ x ∧ x ≤ b := by
  simp only [span, mem_map, mem_range]
  constructor
  · rintro ⟨i, hi, rfl⟩
    omega
  · intro h
    exact ⟨(x - a).toNat, by omega, by omega⟩

/-- **What holds between calls**: what `OnGrid` says of a terminal, and of the rest that
parameters and lines have room, parameters are `int`s, and the cursor of the other screen
is not negative. -/
structure Bounds (t : Term) : Prop where
  size : 1 ≤ t.cols ∧ t.cols ≤ maxCols ∧ 1 ≤ t.rows ∧ t.rows ≤ maxRows
  cursor : 0 ≤ t.cx ∧ t.cx ≤ t.cols ∧ 0 ≤ t.cy ∧ t.cy < t.rows
  region : 0 ≤ t.sTop ∧ t.sTop ≤ t.sBot ∧ t.sBot < t.rows
  nparam : t.nparam ≤ maxParam
  param : ∀ i, -2 ^ 31 ≤ t.params i ∧ t.params i < 2 ^ 31
  alt : 0 ≤ t.altCx ∧ 0 ≤ t.altCy
  sb : 0 ≤ t.sbHead ∧ t.sbHead < scrollback

/-- **A call that keeps to the grid** of a terminal. -/
structure Fine (t : Term) (p : Out) : Prop where
  bounds : Bounds p.1
  cols : p.1.cols = t.cols
  rows : p.1.rows = t.rows
  touched : ∀ x ∈ p.2, Within t.rows t.cols x

section Steps

variable {t u : Term} {n r c x y : ℤ}

theorem within_row (hr : 0 ≤ r ∧ r < t.rows) : ∀ x ∈ t.row r, Within t.rows t.cols x := by
  intro x hx
  obtain ⟨c, hc, rfl⟩ := mem_map.1 hx
  rw [mem_span] at hc
  exact ⟨hr.1, hr.2, hc.1, by omega⟩

theorem within_clearRegion {r0 c0 r1 c1 : ℤ} (hr : 0 ≤ r0) (hc : 0 ≤ c0) :
    ∀ x ∈ t.clearRegion r0 c0 r1 c1, Within t.rows t.cols x := by
  refine forall_mem_flatMap.2 fun r hr' x hx => ?_
  rw [mem_span] at hr'
  split at hx
  next hlt =>
    obtain ⟨c, hc', rfl⟩ := mem_map.1 hx
    rw [mem_filter, mem_span, decide_eq_true_eq] at hc'
    refine ⟨by omega, hlt, ?_, hc'.2⟩
    have := hc'.1.1
    split at this <;> omega
  next => cases hx

theorem Bounds.reads (h : Bounds t) (i : ℕ) : ∀ x ∈ t.reads i, Within t.rows t.cols x := by
  intro x hx
  rw [Term.reads] at hx
  split at hx
  next hi =>
    rw [mem_singleton.1 hx]
    exact hi.trans_le h.nparam
  next => cases hx

theorem Bounds.pget (h : Bounds t) (i : ℕ) {d : ℤ} (hd : -2 ^ 31 ≤ d ∧ d < 2 ^ 31) :
    -2 ^ 31 ≤ t.pget i d ∧ t.pget i d < 2 ^ 31 := by
  rw [Term.pget]
  split
  · split
    · exact h.param i
    · omega
  · exact hd

/-- The cursor moves on the grid. -/
theorem Bounds.move (h : Bounds t) (hx : 0 ≤ x ∧ x ≤ t.cols) (hy : 0 ≤ y ∧ y < t.rows) :
    Bounds { t with cx := x, cy := y } :=
  ⟨h.size, ⟨hx.1, hx.2, hy.1, hy.2⟩, h.region, h.nparam, h.param, h.alt, h.sb⟩

/-- The parser goes to another state. -/
theorem Bounds.setState (h : Bounds t) (m : Mode) : Bounds { t with state := m } :=
  ⟨h.size, h.cursor, h.region, h.nparam, h.param, h.alt, h.sb⟩

/-- A call that touches nothing. -/
theorem Bounds.still (h : Bounds u) (hc : u.cols = t.cols) (hr : u.rows = t.rows) : Fine t (u, []) :=
  ⟨h, hc, hr, fun _ hx => by cases hx⟩

/-- The parser goes to another state, and nothing is touched. -/
theorem Bounds.goTo (h : Bounds t) (m : Mode) : Fine t ({ t with state := m }, []) :=
  (h.setState m).still rfl rfl

theorem clamp_spec {bound : ℤ} (hb : 1 ≤ bound) (x : ℤ) :
    0 ≤ Term.clamp x bound ∧ Term.clamp x bound < bound := by
  rw [Term.clamp]
  split_ifs <;> omega

theorem Bounds.clampc (h : Bounds t) (x y : ℤ) : Bounds (t.clampc x y) := by
  have hs := h.size
  obtain ⟨h1, h2⟩ := clamp_spec hs.1 x
  exact h.move ⟨h1, h2.le⟩ (clamp_spec hs.2.2.1 y)

theorem Fine.sbPush {p : Out} (h : Fine t p) (hr : 0 ≤ r ∧ r < t.rows) : Fine t (Term.sbPush p r) := by
  rw [Term.sbPush]
  split
  · exact h
  · obtain ⟨hb, hc, hrw, ht⟩ := h
    have hsb := hb.sb
    refine ⟨⟨hb.size, hb.cursor, hb.region, hb.nparam, hb.param, hb.alt, ?_⟩, hc, hrw, ?_⟩
    · exact ⟨Int.emod_nonneg _ (by decide), Int.emod_lt_of_pos _ (by decide)⟩
    · refine forall_mem_append.2 ⟨ht, forall_mem_cons.2 ⟨hsb, ?_⟩⟩
      rw [← hrw, ← hc]
      exact within_row (by rwa [hrw])

theorem Bounds.scrollUp (h : Bounds t) (hn : t.sBot + n < 2 ^ 31) : Fine t (t.scrollUp n) := by
  have hreg := h.region
  have hsize := h.size
  unfold maxRows at hsize
  rw [Term.scrollUp]
  split
  · exact h.still rfl rfl
  next hpos =>
    have hfine : Fine t (if t.sTop = 0 ∧ t.sBot = t.rows - 1
        then (span 0 ((if t.rows < n then t.rows else n) - 1)).foldl Term.sbPush (t, []) else (t, [])) := by
      split
      · refine foldl_invariant_mem (P := Fine t) _ (fun p i hi hp => hp.sbPush ?_) (h.still rfl rfl)
        rw [mem_span] at hi
        split at hi <;> omega
      · exact h.still rfl rfl
    dsimp only
    generalize (if t.sTop = 0 ∧ t.sBot = t.rows - 1
      then (span 0 ((if t.rows < n then t.rows else n) - 1)).foldl Term.sbPush (t, []) else (t, [])) = p at *
    refine ⟨hfine.bounds, hfine.cols, hfine.rows, forall_mem_append.2 ⟨hfine.touched,
      forall_mem_flatMap.2 fun r hr => ?_⟩⟩
    rw [mem_span] at hr
    have hwrap : wrap (r + n) = r + n := by unfold wrap; omega
    refine forall_mem_append.2 ⟨within_row (by omega), ?_⟩
    rw [hwrap]
    split
    · exact within_row (by omega)
    · exact fun _ hx => by cases hx

theorem Bounds.scrollDown (h : Bounds t) (hn : n < 2 ^ 31) :
    ∀ x ∈ t.scrollDown n, Within t.rows t.cols x := by
  have hreg := h.region
  have hsize := h.size
  unfold maxRows at hsize
  rw [Term.scrollDown]
  split
  · exact fun _ hx => by cases hx
  next hpos =>
    refine forall_mem_flatMap.2 fun r hr => forall_mem_append.2 ⟨?_, ?_⟩
    · rw [mem_span] at hr
      exact within_row (by omega)
    · rw [mem_span] at hr
      have hwrap : wrap (r - n) = r - n := by unfold wrap; omega
      rw [hwrap]
      split
      · exact within_row (by omega)
      · exact fun _ hx => by cases hx

theorem Bounds.lineFeed (h : Bounds t) : Fine t t.lineFeed := by
  have hs := h.size
  have hc := h.cursor
  unfold maxRows at hs
  rw [Term.lineFeed]
  split
  · exact h.scrollUp (by omega)
  · split
    · exact (h.move (x := t.cx) ⟨hc.1, hc.2.1⟩ (by omega)).still rfl rfl
    · exact h.still rfl rfl

/-- The cursor goes to the next line first when it is behind the last column. -/
theorem Bounds.putGlyph (h : Bounds t) : Fine t t.putGlyph := by
  have hs := h.size
  have hc := h.cursor
  have hfine : Fine t (if t.cols ≤ t.cx then { t with cx := 0 }.lineFeed else (t, []))
      ∧ (if t.cols ≤ t.cx then { t with cx := 0 }.lineFeed else (t, [])).1.cx < t.cols := by
    split
    next =>
      obtain ⟨hb, h1, h2, h3⟩ := (h.move (x := 0) (y := t.cy) (by omega) (by omega)).lineFeed
      refine ⟨⟨hb, h1, h2, h3⟩, ?_⟩
      have hx : ∀ p : Out, ∀ r, (Term.sbPush p r).1.cx = p.1.cx := by
        intro p r
        rw [Term.sbPush]
        split <;> rfl
      have h0 : ({ t with cx := 0 } : Term).lineFeed.1.cx = 0 := by
        rw [Term.lineFeed]
        split
        · rw [Term.scrollUp, if_neg (by decide)]
          dsimp only
          split
          · exact foldl_invariant (P := fun p : Out => p.1.cx = 0) (fun p r hp => (hx p r).trans hp) _ rfl
          · rfl
        · split <;> rfl
      rw [h0]
      omega
    next => exact ⟨h.still rfl rfl, by dsimp only; omega⟩
  rw [Term.putGlyph]
  generalize (if t.cols ≤ t.cx then { t with cx := 0 }.lineFeed else (t, [])) = p at *
  obtain ⟨⟨hb, h1, h2, h3⟩, hlt⟩ := hfine
  have hcp := hb.cursor
  refine ⟨hb.move (x := p.1.cx + 1) (y := p.1.cy) (by omega) (by omega), h1, h2,
    forall_mem_append.2 ⟨h3, fun x hx => ?_⟩⟩
  rw [mem_singleton.1 hx]
  exact ⟨hcp.2.2.1, by omega, hcp.1, hlt⟩

/-! ## Control sequences -/

/-- The cursor moves, after a parameter was read. -/
theorem Bounds.goto (h : Bounds t) (hx : 0 ≤ x ∧ x ≤ t.cols) (hy : 0 ≤ y ∧ y < t.rows) :
    Fine t ({ t with cx := x, cy := y }, t.reads 0) :=
  ⟨h.move hx hy, rfl, rfl, h.reads 0⟩

/-- Cells are touched, after a parameter was read. -/
theorem Bounds.draw (h : Bounds t) {l : List Touch} (hl : ∀ x ∈ l, Within t.rows t.cols x) :
    Fine t (t, t.reads 0 ++ l) :=
  ⟨h, rfl, rfl, forall_mem_append.2 ⟨h.reads 0, hl⟩⟩

/-- Lines are inserted or deleted: pairs of neighbouring rows, and one more. -/
theorem within_lines {a b d : ℤ} (k : List ℤ)
    (hab : ∀ r, a ≤ r → r ≤ b → 0 ≤ r ∧ r < t.rows ∧ 0 ≤ r + d ∧ r + d < t.rows)
    (hr : 0 ≤ r ∧ r < t.rows) :
    ∀ x ∈ k.flatMap fun _ => ((span a b).flatMap fun r => t.row r ++ t.row (r + d)) ++ t.row r,
      Within t.rows t.cols x := by
  refine forall_mem_flatMap.2 fun _ _ => forall_mem_append.2
    ⟨forall_mem_flatMap.2 fun r' hr' => ?_, within_row hr⟩
  rw [mem_span] at hr'
  obtain ⟨h1, h2, h3, h4⟩ := hab r' hr'.1 hr'.2
  exact forall_mem_append.2 ⟨within_row ⟨h1, h2⟩, within_row ⟨h3, h4⟩⟩

/-- Cells of the cursor's row are moved along it. -/
theorem Bounds.shift (h : Bounds t) {p : ℤ → Prop} [DecidablePred p] {g : ℤ → ℤ}
    (hg : ∀ c, t.cx ≤ c → c < t.cols → p c → 0 ≤ g c ∧ g c < t.cols) :
    ∀ x ∈ (span t.cx (t.cols - 1)).flatMap fun c =>
      .cell t.cy c :: if p c then [.cell t.cy (g c)] else [], Within t.rows t.cols x := by
  have hcur := h.cursor
  refine forall_mem_flatMap.2 fun c hc => ?_
  rw [mem_span] at hc
  refine forall_mem_cons.2 ⟨⟨hcur.2.2.1, hcur.2.2.2, by omega, by omega⟩, ?_⟩
  split
  next hp =>
    obtain ⟨h1, h2⟩ := hg c hc.1 (by omega) hp
    exact forall_mem_cons.2 ⟨⟨hcur.2.2.1, hcur.2.2.2, h1, h2⟩, fun _ hx => by cases hx⟩
  next => exact fun _ hx => by cases hx

/-- The scroll region is set, or reset when it would be empty. -/
theorem Bounds.setRegion (h : Bounds t) {top bot : ℤ} (htop : 0 ≤ top) (hbot : bot ≤ t.rows - 1)
    {u : Term} (hu : u = if bot ≤ top then { t with sTop := 0, sBot := t.rows - 1 }
      else { t with sTop := top, sBot := bot }) :
    Bounds { u with cx := 0, cy := u.sTop } ∧ u.cols = t.cols ∧ u.rows = t.rows := by
  have hs := h.size
  subst hu
  split
  · exact ⟨⟨hs, ⟨le_rfl, by dsimp only; omega, le_rfl, by dsimp only; omega⟩,
      ⟨le_rfl, by dsimp only; omega, by dsimp only; omega⟩, h.nparam, h.param, h.alt, h.sb⟩, rfl, rfl⟩
  · exact ⟨⟨hs, ⟨le_rfl, by dsimp only; omega, htop, by dsimp only; omega⟩,
      ⟨htop, by dsimp only; omega, by dsimp only; omega⟩, h.nparam, h.param, h.alt, h.sb⟩, rfl, rfl⟩

/-- **A control sequence is carried out**, and keeps to the grid if it is not one that trusts
its parameter in vain. -/
theorem Bounds.csiDispatch (h : Bounds t) {f : UInt8} (hok : Trusted t f) :
    Fine t (t.csiDispatch f) := by
  have hs := h.size
  have hc := h.cursor
  have hr := h.region
  have hn := h.pget 0 (d := 1) (by decide)
  have hx : 0 ≤ t.cx ∧ t.cx ≤ t.cols := ⟨hc.1, hc.2.1⟩
  have hy : 0 ≤ t.cy ∧ t.cy < t.rows := ⟨hc.2.2.1, hc.2.2.2⟩
  have hnil : ∀ x ∈ ([] : List Touch), Within t.rows t.cols x := fun _ hx => by cases hx
  have hpriv : ∀ x ∈ (if t.priv then t.reads 0 else []), Within t.rows t.cols x := by
    split
    · exact h.reads 0
    · exact hnil
  have hclamp : ∀ x y, Fine t (t.clampc x y, t.reads 0) := fun x y =>
    ⟨h.clampc x y, rfl, rfl, h.reads 0⟩
  have htwo : ∀ x ∈ t.reads 0 ++ t.reads 1, Within t.rows t.cols x :=
    forall_mem_append.2 ⟨h.reads 0, h.reads 1⟩
  unfold maxRows maxCols at hs
  unfold Term.csiDispatch
  generalize hv : t.pget 0 1 = n at hn
  unfold Trusted at hok
  rw [hv] at hok
  dsimp only
  split
  · -- A
    have hok : 0 ≤ n := hok
    exact h.goto hx (by unfold wrap; split <;> omega)
  · -- B
    have hok : 0 ≤ n ∧ t.cy + n < 2 ^ 31 := hok
    exact h.goto hx (by unfold wrap; split <;> omega)
  · -- C
    have hok : 0 ≤ n ∧ t.cx + n < 2 ^ 31 := hok
    exact h.goto (by unfold wrap; split <;> omega) hy
  · -- D
    have hok : 0 ≤ n := hok
    exact h.goto (by unfold wrap; split <;> omega) hy
  · exact hclamp _ _
  · exact hclamp _ _
  · exact hclamp _ _
  · exact hclamp _ _
  · exact hclamp _ _
  · exact ⟨h.clampc _ _, rfl, rfl, htwo⟩
  · exact ⟨h.clampc _ _, rfl, rfl, htwo⟩
  · -- J
    refine h.draw ?_
    split
    · exact within_clearRegion hy.1 hx.1
    · split <;> exact within_clearRegion le_rfl le_rfl
  · -- K
    refine h.draw ?_
    split
    · exact within_clearRegion hy.1 hx.1
    · split <;> exact within_clearRegion hy.1 le_rfl
  · -- S
    obtain ⟨h1, h2, h3, h4⟩ := h.scrollUp (n := n) hok
    exact ⟨h1, h2, h3, forall_mem_append.2 ⟨h.reads 0, h4⟩⟩
  · exact h.draw (h.scrollDown hn.2)
  · -- L
    split
    · exact h.still rfl rfl
    · refine h.draw (within_lines (d := -1) _ (fun r h1 h2 => ?_) hy)
      exact ⟨by omega, by omega, by omega, by omega⟩
  · -- M
    split
    · exact h.still rfl rfl
    · refine h.draw (within_lines (d := 1) _ (fun r h1 h2 => ?_) ⟨by omega, by omega⟩)
      exact ⟨by omega, by omega, by omega, by omega⟩
  · -- insert blanks
    have hok : 0 ≤ n := hok
    refine h.draw (h.shift fun c h1 h2 hp => ?_)
    unfold wrap at hp ⊢
    omega
  · -- P
    have hok : 0 ≤ n ∧ t.cols + n ≤ 2 ^ 31 := hok
    refine h.draw (h.shift fun c h1 h2 hp => ?_)
    unfold wrap at hp ⊢
    omega
  · exact h.draw (within_clearRegion hy.1 hx.1)
  · -- r
    have htop : 0 ≤ if wrap (n - 1) < 0 then 0 else wrap (n - 1) := by split <;> omega
    have hbot : (if t.rows - 1 < wrap (t.pget 1 t.rows - 1) then t.rows - 1
        else wrap (t.pget 1 t.rows - 1)) ≤ t.rows - 1 := by split <;> omega
    obtain ⟨h1, h2, h3⟩ := h.setRegion htop hbot rfl
    exact ⟨h1, h2, h3, htwo⟩
  · -- h
    split
    · refine ⟨⟨h.size, ⟨le_rfl, by dsimp only; omega, le_rfl, by dsimp only; omega⟩, hr, h.nparam,
        h.param, ⟨hx.1, hy.1⟩, h.sb⟩, rfl, rfl, ?_⟩
      exact forall_mem_append.2 ⟨h.reads 0,
        forall_mem_cons.2 ⟨⟨le_rfl, le_rfl⟩, within_clearRegion le_rfl le_rfl⟩⟩
    · exact ⟨h, rfl, rfl, hpriv⟩
  · -- l
    split
    next hl =>
      obtain ⟨h1, h2⟩ := hok hl.1 hl.2.1 hl.2.2
      have halt := h.alt
      exact ⟨⟨h.size, ⟨halt.1, h1, halt.2, h2⟩, hr, h.nparam, h.param, h.alt, h.sb⟩, rfl, rfl,
        forall_mem_append.2 ⟨h.reads 0, forall_mem_singleton.2 ⟨le_rfl, le_rfl⟩⟩⟩
    next => exact ⟨h, rfl, rfl, hpriv⟩
  · -- m
    refine ⟨h, rfl, rfl, fun x hx => ?_⟩
    obtain ⟨i, hi, rfl⟩ := mem_map.1 hx
    exact (mem_range.1 hi).trans_le h.nparam
  · exact h.still rfl rfl

/-! ## Bytes -/

theorem limit_eq {m : ℤ} (hx : 1 ≤ x ∧ x ≤ m) : Term.limit x m = x := by
  rw [Term.limit]
  split_ifs <;> omega

theorem limit_spec {m : ℤ} (hm : 1 ≤ m) (x : ℤ) : 1 ≤ Term.limit x m ∧ Term.limit x m ≤ m := by
  rw [Term.limit]
  split_ifs <;> omega

theorem limit_size (cols rows : ℤ) :
    1 ≤ Term.limit cols maxCols ∧ Term.limit cols maxCols ≤ maxCols ∧
      1 ≤ Term.limit rows maxRows ∧ Term.limit rows maxRows ≤ maxRows := by
  obtain ⟨h1, h2⟩ := limit_spec (m := maxCols) (by decide) cols
  obtain ⟨h3, h4⟩ := limit_spec (m := maxRows) (by decide) rows
  exact ⟨h1, h2, h3, h4⟩

theorem zero_int : -2 ^ 31 ≤ (0 : ℤ) ∧ (0 : ℤ) < 2 ^ 31 := by decide

/-- A fresh terminal is in bounds, and blanking it keeps to its grid. -/
theorem fine_init (cols rows : ℤ) : Fine (Term.fresh cols rows) (Term.init cols rows) := by
  have hs := limit_size cols rows
  refine ⟨⟨hs, ?_, ?_, Nat.zero_le _, fun _ => zero_int, ⟨le_rfl, le_rfl⟩,
    ⟨le_rfl, (by decide : (0 : ℤ) < scrollback)⟩⟩, rfl, rfl, ?_⟩
  · exact ⟨le_rfl, by dsimp only [Term.init, Term.fresh]; omega, le_rfl,
      by dsimp only [Term.init, Term.fresh]; omega⟩
  · exact ⟨le_rfl, by dsimp only [Term.init, Term.fresh]; omega,
      by dsimp only [Term.init, Term.fresh]; omega⟩
  · refine forall_mem_flatMap.2 fun r hr => within_row ?_
    rw [mem_span] at hr
    omega

theorem Bounds.putEsc (h : Bounds t) (b : UInt8) : Fine t (t.putEsc b) := by
  have hc := h.cursor
  unfold Term.putEsc
  split
  · refine ⟨⟨h.size, hc, h.region, Nat.zero_le _, fun _ => zero_int, h.alt, h.sb⟩,
      rfl, rfl, fun x hx => ?_⟩
    obtain ⟨i, hi, rfl⟩ := mem_map.1 hx
    exact mem_range.1 hi
  · exact h.goTo _
  · exact Bounds.still (u := { t with savedCx := t.cx, savedCy := t.cy, state := .ground })
      ⟨h.size, hc, h.region, h.nparam, h.param, h.alt, h.sb⟩ rfl rfl
  · exact ((h.clampc _ _).setState _).still rfl rfl
  · split
    · exact ⟨h.setState _, rfl, rfl, h.scrollDown (n := 1) (by decide)⟩
    · have hy : 0 ≤ (if 0 < t.cy then t.cy - 1 else t.cy) ∧
          (if 0 < t.cy then t.cy - 1 else t.cy) < t.rows := by
        split <;> omega
      exact ((h.move ⟨hc.1, hc.2.1⟩ hy).setState _).still rfl rfl
  · -- the size is within the limits already
    have hs := h.size
    obtain ⟨h1, h2, h3, h4⟩ := fine_init t.cols t.rows
    have hcols : (Term.fresh t.cols t.rows).cols = t.cols := limit_eq ⟨hs.1, hs.2.1⟩
    have hrows : (Term.fresh t.cols t.rows).rows = t.rows := limit_eq hs.2.2
    rw [hcols] at h2 h4
    rw [hrows] at h3 h4
    exact ⟨h1, h2, h3, h4⟩
  · exact h.goTo _
  · exact h.goTo _
  · exact h.goTo _
  · exact h.goTo _
  · exact h.goTo _

theorem wrap_spec (x : ℤ) : -2 ^ 31 ≤ wrap x ∧ wrap x < 2 ^ 31 := by
  unfold wrap
  omega

section

variable (h : Bounds t)
include h

theorem Bounds.putCsi {b : UInt8} (hok : Trusted t b) : Fine t (t.putCsi b) := by
  have hp := h.nparam
  unfold Term.putCsi
  split
  · exact Bounds.still (u := { t with priv := true })
      ⟨h.size, h.cursor, h.region, hp, h.param, h.alt, h.sb⟩ rfl rfl
  split
  · -- a digit of the last parameter, or of the first one
    dsimp only
    generalize hi : (if t.nparam ≠ 0 then t.nparam - 1 else 0) = i
    have hlt : i < maxParam := by
      have : 0 < maxParam := by decide
      split at hi <;> omega
    refine ⟨⟨h.size, h.cursor, h.region, ?_, fun j => ?_, h.alt, h.sb⟩, rfl, rfl, ?_⟩
    · dsimp only
      split
      · decide
      · exact hp
    · dsimp only
      rw [Function.update_apply]
      split
      · exact wrap_spec _
      · exact h.param j
    · exact fun x hx => by rw [mem_singleton.1 hx]; exact hlt
  split
  · have hn : (if t.nparam = 0 then 1 else t.nparam) ≤ maxParam := by
      split
      · decide
      · exact hp
    dsimp only
    generalize (if t.nparam = 0 then 1 else t.nparam) = n at hn
    refine ⟨⟨h.size, h.cursor, h.region, ?_, h.param, h.alt, h.sb⟩, rfl, rfl,
      fun _ hx => by cases hx⟩
    dsimp only
    split <;> omega
  split
  · obtain ⟨h1, h2, h3, h4⟩ := h.csiDispatch hok
    exact ⟨h1.setState _, h2, h3, h4⟩
  · exact h.still rfl rfl

theorem Bounds.setLeft (k : ℕ) : Bounds { t with u8Left := k } :=
  ⟨h.size, h.cursor, h.region, h.nparam, h.param, h.alt, h.sb⟩

theorem Bounds.putText (b : UInt8) : Fine t (t.putText b) := by
  have hs := h.size
  have hc := h.cursor
  have hx0 : Bounds { t with cx := 0 } := h.move ⟨le_rfl, by omega⟩ ⟨hc.2.2.1, hc.2.2.2⟩
  have hcol : ∀ {x}, 0 ≤ x ∧ x ≤ t.cols → Fine t ({ t with cx := x }, []) := fun hx =>
    (h.move hx ⟨hc.2.2.1, hc.2.2.2⟩).still rfl rfl
  have hleft : ∀ k, Fine t ({ t with u8Left := k }, []) := fun k => (h.setLeft k).still rfl rfl
  have hglyph : Fine t { t with u8Left := 0 }.putGlyph := by
    obtain ⟨h1, h2, h3, h4⟩ := (h.setLeft 0).putGlyph
    exact ⟨h1, h2, h3, h4⟩
  unfold Term.putText
  split
  · exact h.goTo _
  split
  · split
    · obtain ⟨h1, h2, h3, h4⟩ := hx0.lineFeed
      exact ⟨h1, h2, h3, h4⟩
    · exact hcol ⟨le_rfl, by omega⟩
    · exact hcol (by split <;> omega)
    · exact hcol (by split <;> omega)
    · exact h.still rfl rfl
  split_ifs
  · exact hglyph
  · exact h.still rfl rfl
  · exact hglyph
  · exact hleft _
  · exact hleft _
  · exact hleft _
  · exact hleft _
  · exact hleft _

/-- **A byte keeps to the grid.** -/
theorem Bounds.putc {b : UInt8} (hok : t.state = .csi → Trusted t b) : Fine t (t.putc b) := by
  unfold Term.putc
  split
  · exact h.putEsc b
  · exact h.goTo _
  next hcsi => exact h.putCsi (hok hcsi)
  · split_ifs
    · exact h.goTo _
    · exact h.goTo _
    · exact h.still rfl rfl
  · exact h.goTo _
  · exact h.putText b

/-- **A resize keeps to the new grid.** -/
theorem Bounds.resize (cols rows : ℤ) : Fine (t.resize cols rows).1 (t.resize cols rows) := by
  have hs := limit_size cols rows
  have hu : Bounds { t with
      cols := Term.limit cols maxCols
      rows := Term.limit rows maxRows
      cx := 0
      cy := 0
      sTop := 0
      sBot := Term.limit rows maxRows - 1 } :=
    ⟨hs, ⟨le_rfl, by dsimp only; omega, le_rfl, by dsimp only; omega⟩,
      ⟨le_rfl, by dsimp only; omega, by dsimp only; omega⟩, h.nparam, h.param, h.alt, h.sb⟩
  refine ⟨hu.clampc t.cx t.cy, rfl, rfl, ?_⟩
  refine forall_mem_flatMap.2 fun r hr x hx => ?_
  obtain ⟨c, hc, rfl⟩ := mem_map.1 hx
  rw [mem_span] at hr
  rw [mem_filter, mem_span] at hc
  exact ⟨hr.1, Int.lt_of_le_sub_one hr.2, hc.1.1, Int.lt_of_le_sub_one hc.1.2⟩

end

end Steps

/-! ## Whole sessions -/

/-- **What holds along a session.** -/
structure Sound (s : Session) : Prop where
  bounds : Bounds s.term
  touched : ∀ e ∈ s.log, Within e.1 e.2.1 e.2.2

/-- What a call touched is entered. -/
theorem Sound.after {log : List (ℤ × ℤ × Touch)} (h : ∀ e ∈ log, Within e.1 e.2.1 e.2.2)
    {t : Term} {p : Out} (hp : Fine t p) : Sound (.after log p) := by
  refine ⟨hp.bounds, forall_mem_append.2 ⟨h, fun e he => ?_⟩⟩
  obtain ⟨x, hx, rfl⟩ := mem_map.1 he
  have hw := hp.touched x hx
  rwa [← hp.rows, ← hp.cols] at hw

/-- One call. -/
theorem Sound.step {s : Session} (h : Sound s) {o : Op} (hok : Ok s o) : Sound (step s o) := by
  cases o with
  | putc b => exact .after h.touched (h.bounds.putc hok)
  | resize cols rows => exact .after h.touched (h.bounds.resize cols rows)

/-- **A terminal keeps to its grid**, whatever it is sent and however it is resized, as long
as the sequences that trust their parameter may. -/
theorem stays_on_grid (cols rows : ℤ) (ops : List Op) (h : Meets Ok step (start cols rows) ops) :
    OnGrid (ops.foldl step (start cols rows)) := by
  have hstart : Sound (start cols rows) := .after (fun _ he => by cases he) (fine_init cols rows)
  obtain ⟨hb, ht⟩ := Meets.invariant (P := Sound) (fun _ _ hs => hs.step) hstart h
  exact ⟨hb.size, hb.cursor, hb.region, ht⟩

/-- A letter, `ESC [ 3 B`, and a resize. -/
theorem stays_on_grid_moved :
    Meets Ok step (start 4 3) [.putc 0x41, .putc 0x1B, .putc 0x5B, .putc 0x33, .putc 0x42,
      .resize 2 2] ∧
    OnGrid ([.putc 0x41, .putc 0x1B, .putc 0x5B, .putc 0x33, .putc 0x42,
      .resize 2 2].foldl step (start 4 3)) := by
  refine ⟨?ok, stays_on_grid 4 3 _ ?ok⟩
  refine ⟨fun h => ?_, fun h => ?_, fun h => ?_, fun _ => trivial, fun _ => ?_, trivial, trivial⟩
  · cases h
  · cases h
  · cases h
  · exact ⟨by decide +kernel, by decide +kernel⟩

/-- The parameter of `ESC [ 4294967196 A` becomes −100, and the cursor goes down to row 100
of 25. -/
theorem leaves_grid :
    ¬ OnGrid (([0x1B, 0x5B, 0x34, 0x32, 0x39, 0x34, 0x39, 0x36, 0x37, 0x31, 0x39, 0x36, 0x41].map
      Op.putc).foldl step (start 80 25)) := by
  intro h
  have hcy := h.cursor.2.2.2
  revert hcy
  decide +kernel

end Vt100

end Makar
