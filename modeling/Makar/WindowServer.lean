import Makar.Vt100

/-!
# The surfaces of the window server

The window server maps a surface for each window and draws from it what the client has put
there; a client can also hand it a surface as the wallpaper, or one with a path to open. It
takes the sizes, the surface numbers and the flags from the messages of its clients, and
`gfx_blit` and `gfx_blit_scaled` compute from them which pixels they read.

The kernel is modelled by the mappings the server holds: a surface has four slots, a new
mapping goes to one of them, and `sys_surface_unmap` takes back the first one that the server
holds, whichever of its mappings that is. What else the kernel answers is open, within what a
call can answer at all. So is what becomes of the reply that ends the service of a message:
`sys_ipc_send` waits until the client receives it or is gone. Where a window is and how large
is open too, since the user moves windows; so the loop that chooses a size for a game leaves no
trace but the question whether it stops, and it is noted in `loops`.

`reads_inside` says that along a run every pixel and byte is read from a mapped page, every
loop stops and every reply comes to an end, if no client leaves a reply waiting or names a
surface the server has mapped already, a wallpaper has the size its sender claims, a game has a
size, and no product in the drawing overflows.
-/

namespace Makar

open Option

namespace WindowServer

open Vt100 (wrap span mem_span)
open Function (update update_self update_of_ne)

/-- `MAXWIN` -/
def maxWin : ℕ := 8

/-- `SURFACE_MAP_SLOTS` -/
def mapSlots : ℕ := 4

/-- `SURFACE_MAX_PAGES`, in bytes. -/
def maxBytes : ℕ := 960 * 4096

/-- The framebuffer: `FBW` and `FBH`, in a run without `wm_reinit_display`. -/
structure Screen where
  w : ℤ
  h : ℤ
  small : w < 2 ^ 30 ∧ h < 2 ^ 30

/-! ## Mappings -/

/-- A mapping of a surface in the server, by its number. -/
structure Mapping where
  id : ℕ
  bytes : ℕ

/-- What the server draws from: a surface, its mapping (`px`) and the size in `surf`. -/
structure View where
  sid : ℤ
  px : ℕ
  w : ℤ
  h : ℤ

/-- Who has a view. -/
inductive User
  | win (i : Fin maxWin)
  | wallpaper
  deriving DecidableEq

/-- A window, without its view. -/
structure Win where
  inUse : Bool
  client : ℤ
  isDialog : Bool
  resizable : Bool
  sw : ℤ
  sh : ℤ

/-- What is read: how many bytes are mapped at the pointer, if any, and which of them. -/
structure Read where
  mapped : Option ℕ
  off : ℤ
  len : ℤ

/-- What becomes of a reply: the client takes it, or is gone, or it waits. -/
inductive Reply
  | taken
  | gone
  | waits
  deriving DecidableEq

/-- The server: the slots it holds of each surface, the number of the next mapping, windows
and views; and the pixels read, the loops entered and the replies sent so far. -/
structure State where
  held : ℤ → ℕ → Option Mapping
  next : ℕ
  win : Fin maxWin → Win
  view : User → Option View
  reads : List Read
  loops : List (ℤ × ℤ)
  replies : List Reply

/-- What the kernel answers while a message is served: the surface created and its size,
the slot of a mapping and the size of what is mapped, and the end of the reply. -/
structure Answer where
  created : Option (ℤ × ℕ)
  mapped : Option (ℕ × ℕ)
  reply : Reply

/-- A message, with its data words. -/
inductive Msg
  | hello (w h : ℤ) (rawkeys dialog resizable : Bool)
  | resize (i w h : ℤ)
  | bye (i : ℤ)
  | wallpaper (sid w h : ℤ)
  | openPath (sid len : ℤ)
  /-- `MX_PRESENT`, `MX_POLL`, `MX_RELOAD_PREFS`, or no known type. -/
  | other

/-- No slot of the surface is held. -/
def State.Unmapped (s : State) (sid : ℤ) : Prop := ∀ j < mapSlots, s.held sid j = none

instance (s : State) (sid : ℤ) : Decidable (s.Unmapped sid) := Nat.decidableBallLT _ _

namespace State

variable (s : State)

/-- A mapping is entered in a slot. -/
def enter (sid : ℤ) (slot bytes : ℕ) : State :=
  { s with
    held := update s.held sid (update (s.held sid) slot (some ⟨s.next, bytes⟩))
    next := s.next + 1 }

/-- `sys_surface_map`, as the server sees it (`Machine.surfaceMap` has the frames): some slot is
free, and the pages of the surface are mapped. -/
def surfaceMap (sid : ℤ) (a : Answer) : Option State :=
  a.mapped.bind fun (slot, bytes) =>
    if 0 ≤ sid ∧ slot < mapSlots ∧ s.held sid slot = none ∧ 4096 ≤ bytes ∧ bytes ≤ maxBytes
    then some (s.enter sid slot bytes) else none

/-- `sys_surface_create` and `sys_surface_map` of a surface nobody has yet. -/
def createMap (w h : ℤ) (a : Answer) : Option (State × View) :=
  a.created.bind fun (sid, bytes) => a.mapped.bind fun (slot, _) =>
    if 0 ≤ sid ∧ 0 < w ∧ 0 < h ∧ 4 * (w * h) ≤ bytes ∧ bytes ≤ maxBytes ∧ slot < mapSlots ∧ s.Unmapped sid
    then some (s.enter sid slot bytes, ⟨sid, s.next, w, h⟩) else none

/-- `sys_surface_unmap`: the first slot the server holds. -/
def surfaceUnmap (sid : ℤ) : State :=
  match (List.range mapSlots).find? fun j => (s.held sid j).isSome with
  | none => s
  | some j => { s with held := update s.held sid (update (s.held sid) j none) }

/-- A user gives its view up and unmaps its surface. -/
def dropView (u : User) : State :=
  match s.view u with
  | none => s
  | some v => { s with view := update s.view u none }.surfaceUnmap v.sid

def setView (u : User) (v : View) : State := { s with view := update s.view u (some v) }

def setWin (i : Fin maxWin) (w : Win) : State := { s with win := update s.win i w }

/-- `win_free`: the surface is destroyed, its mapping stays. -/
def winFree (i : Fin maxWin) : State :=
  { s.setWin i { s.win i with inUse := false, client := -1 } with
    view := update s.view (.win i) none }

/-! ## Requests -/

/-- `win_valid` -/
def winValid (i src : ℤ) : Option (Fin maxWin) :=
  (List.finRange maxWin).find? fun k => k = i ∧ (s.win k).inUse ∧ (s.win k).client = src

/-- `MX_HELLO`, for a window that was found or allocated: an old surface is dropped, and a new
one created. -/
def helloOn (i : Fin maxWin) (w h : ℤ) (rawkeys resizable : Bool) (a : Answer) : State :=
  let s := if (s.view (.win i)).isSome ∧ rawkeys then { s with loops := s.loops ++ [(w, h)] } else s
  let s := s.dropView (.win i)
  match s.createMap w h a with
  | none => s
  | some (s, v) =>
    (s.setView (.win i) v).setWin i { s.win i with resizable := resizable, sw := w, sh := h }

/-- `MX_HELLO` -/
def hello (src w h : ℤ) (rawkeys dialog resizable : Bool) (a : Answer) : State :=
  match (List.finRange maxWin).find? fun k =>
    dialog = false ∧ (s.win k).inUse ∧ (s.win k).client = src ∧ (s.win k).isDialog = false with
  | some i => s.helloOn i w h rawkeys resizable a
  | none =>
    match (List.finRange maxWin).find? fun k => (s.win k).inUse = false with
    | none => s
    | some i =>
      -- `win_alloc`, and the size of the new window
      let s := { s.setWin i ⟨true, src, dialog, false, 0, 0⟩ with
        view := update s.view (.win i) none
        loops := if rawkeys then s.loops ++ [(w, h)] else s.loops }
      s.helloOn i w h rawkeys resizable a

/-- `MX_RESIZE` -/
def resize (src i w h : ℤ) (a : Answer) : State :=
  match s.winValid i src with
  | none => s
  | some k =>
    if 0 < w ∧ 0 < h then
      match s.createMap w h a with
      | none => s
      | some (t, v) =>
        ((t.dropView (.win k)).setView (.win k) v).setWin k { s.win k with sw := w, sh := h }
    else s

/-- The bytes mapped at the pointer of a view. -/
def mappedAt (v : View) : Option ℕ :=
  (List.range mapSlots).findSome? fun j =>
    (s.held v.sid j).bind fun m => if m.id = v.px then some m.bytes else none

/-- Bytes are read through a view. -/
def note (v : View) (len : ℤ) (offs : List ℤ) : State :=
  { s with reads := s.reads ++ offs.map fun o => ⟨s.mappedAt v, o, len⟩ }

/-- What `serve_requests` does with a message before it replies. -/
def handle (src : ℤ) (a : Answer) : Msg → State
  | .hello w h rawkeys dialog resizable => s.hello src w h rawkeys dialog resizable a
  | .resize i w h => s.resize src i w h a
  | .bye i =>
    match s.winValid i src with
    | some k => if (s.win k).isDialog then s.winFree k else s
    | none => s
  | .wallpaper sid w h =>
    if 0 < w ∧ 0 < h then
      match s.surfaceMap sid a with
      | some t => (t.dropView .wallpaper).setView .wallpaper ⟨sid, s.next, w, h⟩
      | none => s
    else s
  | .openPath sid len =>
    match s.surfaceMap sid a with
    | some t => (t.note ⟨sid, s.next, 0, 0⟩ 1 (span 0 ((if 255 < len then 255 else len) - 1))).surfaceUnmap
        sid
    | none => s
  | .other => s

/-- A client's message is served, one of at most `4 * MAXWIN` in a call of `serve_requests`. -/
def serve (src : ℤ) (a : Answer) (msg : Msg) : State :=
  { s.handle src a msg with replies := s.replies ++ [a.reply] }

end State

/-- The loop for the size of a game, from a factor on. -/
def scale (scr : Screen) (w h : ℤ) : ℕ → ℤ → Option ℤ
  | 0, _ => none
  | fuel + 1, sc =>
    if wrap (w * (sc + 1)) ≤ scr.w - 6 ∧ wrap (h * (sc + 1)) ≤ scr.h - 34 - 22 - 6
    then scale scr w h fuel (wrap (sc + 1)) else some sc

/-! ## Drawing -/

/-- The pixels `gfx_blit` reads of a surface, from its corner. -/
def gfxBlit (scr : Screen) (dx dy : ℤ) (v : View) (w h : ℤ) : List ℤ :=
  ((span 0 (h - 1)).filter fun yy => 0 ≤ dy + yy ∧ dy + yy < scr.h ∧ yy < v.h).flatMap fun yy =>
    ((span 0 (w - 1)).filter fun xx => 0 ≤ dx + xx ∧ dx + xx < scr.w ∧ xx < v.w).map fun xx =>
      (yy * v.w + xx) % 2 ^ 32

/-- The pixels `gfx_blit_scaled` reads. -/
def gfxBlitScaled (scr : Screen) (dx dy dw dh : ℤ) (v : View) : List ℤ :=
  if dw ≤ 0 ∨ dh ≤ 0 ∨ v.w ≤ 0 ∨ v.h ≤ 0 then []
  else ((span 0 (dh - 1)).filter fun yy => 0 ≤ dy + yy ∧ dy + yy < scr.h).flatMap fun yy =>
    ((span 0 (dw - 1)).filter fun xx => 0 ≤ dx + xx ∧ dx + xx < scr.w).map fun xx =>
      (wrap (yy * v.h)).tdiv dh * v.w % 2 ^ 32 + (wrap (xx * v.w)).tdiv dw

/-- The size of a picture that keeps its proportions. -/
def fit (sw sh cw ch : ℤ) : ℤ × ℤ :=
  let dh := (wrap (cw * sh)).tdiv sw
  let d := if ch < dh then ((wrap (ch * sw)).tdiv sh, ch) else (cw, dh)
  (if d.1 < 1 then 1 else d.1, if d.2 < 1 then 1 else d.2)

/-- `draw_window_frame`, for a client area: the pixels of the surface. -/
def drawWindow (scr : Screen) (n : Win) (v : View) (cx cy cw ch : ℤ) : List ℤ :=
  if n.resizable then
    gfxBlit scr cx cy v (if cw < n.sw then cw else n.sw) (if ch < n.sh then ch else n.sh)
  else if cw = n.sw ∧ ch = n.sh then gfxBlit scr cx cy v n.sw n.sh
  else
    let d := fit n.sw n.sh cw ch
    gfxBlitScaled scr (cx + (cw - d.1).tdiv 2) (cy + (ch - d.2).tdiv 2) d.1 d.2 v

/-- What happens to the server. -/
inductive Op
  | serve (src : ℤ) (msg : Msg) (a : Answer)
  | drawWindow (i : Fin maxWin) (cx cy cw ch : ℤ)
  | drawWallpaper
  /-- `win_toggle_max`, in a window of this size. -/
  | toggleMax (i : Fin maxWin) (w h : ℤ)
  /-- A program is started in a free window. -/
  | launch (i : Fin maxWin) (pid : ℤ)
  /-- A client is gone. -/
  | reap (i : Fin maxWin)

def step (scr : Screen) (s : State) : Op → State
  | .serve src msg a => s.serve src a msg
  | .drawWindow i cx cy cw ch =>
    match s.view (.win i) with
    | some v => s.note v 4 ((drawWindow scr (s.win i) v cx cy cw ch).map (4 * ·))
    | none => s
  | .drawWallpaper =>
    match s.view .wallpaper with
    | some v => s.note v 4 ((gfxBlitScaled scr 0 0 scr.w scr.h v).map (4 * ·))
    | none => s
  | .toggleMax i w h => s.setWin i { s.win i with sw := w, sh := h }
  | .launch i pid =>
    if (s.win i).inUse then s
    else { s.setWin i ⟨true, pid, false, false, 0, 0⟩ with
      view := update s.view (.win i) none }
  | .reap i => s.winFree i

/-- The server at its start. -/
def start : State where
  held _ _ := none
  next := 0
  win _ := ⟨false, -1, false, false, 0, 0⟩
  view _ := none
  reads := []
  loops := []
  replies := []

/-- **Every read is from a mapped page, every loop stops and no reply waits.** -/
structure Safe (scr : Screen) (s : State) : Prop where
  reads : ∀ r ∈ s.reads, ∃ bytes, r.mapped = some bytes ∧ 0 ≤ r.off ∧ r.off + r.len ≤ bytes
  loops : ∀ l ∈ s.loops, ∃ fuel, (scale scr l.1 l.2 fuel 1).isSome
  replies : Reply.waits ∉ s.replies

/-- A number that is not zero, and small enough not to overflow at once. -/
def Size (n : ℤ) : Prop := 0 < n ∧ n < 2 ^ 30

/-- **The condition**: a client takes its reply or is gone; a game has a size; a wallpaper is as
large as its sender says; a wallpaper and a path come in surfaces that the server has not mapped;
and in a drawing that scales, no product overflows. -/
def Ok (scr : Screen) (s : State) : Op → Prop
  | .serve _ msg a => a.reply ≠ .waits ∧
    match msg with
    | .hello w h rawkeys _ _ => rawkeys → Size w ∨ Size h
    | .wallpaper sid w h => s.Unmapped sid ∧ ∀ m ∈ a.mapped, 4 * (w * h) ≤ m.2
    | .openPath sid _ => s.Unmapped sid
    | _ => True
  | .drawWindow i _ _ cw ch => ∀ v ∈ s.view (.win i), (s.win i).resizable = false →
      0 < (s.win i).sw ∧ 0 < (s.win i).sh
      ∧ -2 ^ 31 ≤ cw * (s.win i).sh ∧ cw * (s.win i).sh < 2 ^ 31
      ∧ -2 ^ 31 ≤ ch * (s.win i).sw ∧ ch * (s.win i).sw < 2 ^ 31
      ∧ cw * v.w < 2 ^ 31 ∧ ch * v.h < 2 ^ 31
  | .drawWallpaper => ∀ v ∈ s.view .wallpaper, scr.w * v.w < 2 ^ 31 ∧ scr.h * v.h < 2 ^ 31
  | _ => True

/-! ## Mappings and views -/

section Mappings

variable {scr : Screen} {s t : State} {u u' : User} {v : View} {sid : ℤ} {slot bytes : ℕ} {a : Answer}
  {m : Mapping}

/-- A mapping has room for the picture of a view. -/
structure Fits (v : View) (m : Mapping) : Prop where
  id : m.id = v.px
  size : 0 < v.w ∧ 0 < v.h
  room : 4 * (v.w * v.h) ≤ m.bytes
  bound : m.bytes ≤ maxBytes

/-- **What holds between two steps**: a surface has one mapping at most, each view has one with
room for it, and no two views have the same surface. -/
structure Inv (scr : Screen) (s : State) : Prop extends Safe scr s where
  slot : ∀ sid j, (s.held sid j).isSome → j < mapSlots
  one : ∀ sid j k, (s.held sid j).isSome → (s.held sid k).isSome → j = k
  live : ∀ u v, s.view u = some v → ∃ j m, s.held v.sid j = some m ∧ Fits v m
  apart : ∀ u u' v v', s.view u = some v → s.view u' = some v' → v.sid = v'.sid → u = u'

/-- A surface without a mapping is nobody's. -/
theorem Inv.ne_of_unmapped (h : Inv scr s) (hn : s.Unmapped sid) (hv : s.view u = some v) :
    v.sid ≠ sid := by
  rintro rfl
  obtain ⟨j, m, hj, -⟩ := h.live u v hv
  rw [hn j (h.slot _ j (by rw [hj]; rfl))] at hj
  cases hj

theorem enter_held : (s.enter sid slot bytes).held
    = update s.held sid (update (s.held sid) slot (some ⟨s.next, bytes⟩)) := rfl

theorem enter_held_self : (s.enter sid slot bytes).held sid slot = some ⟨s.next, bytes⟩ := by
  rw [enter_held, update_self, update_self]

theorem enter_held_of_ne {x : ℤ} (h : x ≠ sid) (j : ℕ) :
    (s.enter sid slot bytes).held x j = s.held x j := by
  rw [enter_held, update_of_ne h]

/-- A surface that has no mapping gets one. -/
theorem Inv.enter (h : Inv scr s) (hn : s.Unmapped sid) (hslot : slot < mapSlots) :
    Inv scr (s.enter sid slot bytes) := by
  have hsid : ∀ j, ((s.enter sid slot bytes).held sid j).isSome → j = slot := by
    intro j hj
    by_contra hne
    rw [enter_held, update_self, update_of_ne hne] at hj
    rw [hn j (h.slot sid j hj)] at hj
    cases hj
  refine ⟨⟨h.reads, h.loops, h.replies⟩, fun x j hj => ?_, fun x j k hj hk => ?_,
    fun u v hv => ?_, h.apart⟩
  · by_cases hx : x = sid
    · subst hx
      exact hsid j hj ▸ hslot
    · rw [enter_held_of_ne hx] at hj
      exact h.slot x j hj
  · by_cases hx : x = sid
    · subst hx
      exact (hsid j hj).trans (hsid k hk).symm
    · rw [enter_held_of_ne hx] at hj hk
      exact h.one x j k hj hk
  · obtain ⟨j, m, hj, hm⟩ := h.live u v hv
    exact ⟨j, m, by rwa [enter_held_of_ne (h.ne_of_unmapped hn hv)], hm⟩

/-- The only mapping of a surface is the one that is taken back. -/
theorem Inv.unmap_held (h : Inv scr s) (x : ℤ) (j : ℕ) :
    (s.surfaceUnmap sid).held x j = if x = sid then none else s.held x j := by
  unfold State.surfaceUnmap
  split
  next hnone =>
    split
    next hx =>
      subst hx
      by_contra hj
      have hsome := isSome_iff_ne_none.2 hj
      exact List.find?_eq_none.1 hnone j (List.mem_range.2 (h.slot x j hsome)) hsome
    next => rfl
  next k hk =>
    have hsome := List.find?_some hk
    dsimp only
    split
    next hx =>
      subst hx
      rw [update_self]
      by_cases hjk : j = k
      · rw [hjk, update_self]
      · rw [update_of_ne hjk]
        by_contra hj
        exact hjk (h.one x j k (isSome_iff_ne_none.2 hj) hsome)
    next hx => rw [update_of_ne hx]

theorem unmap_same (s : State) (sid : ℤ) :
    (s.surfaceUnmap sid).view = s.view ∧ (s.surfaceUnmap sid).reads = s.reads
    ∧ (s.surfaceUnmap sid).loops = s.loops ∧ (s.surfaceUnmap sid).replies = s.replies
    ∧ (s.surfaceUnmap sid).win = s.win := by
  unfold State.surfaceUnmap
  split <;> exact ⟨rfl, rfl, rfl, rfl, rfl⟩

theorem update_none_eq_some {x : User} (h : update s.view u none x = some v) :
    x ≠ u ∧ s.view x = some v := by
  by_cases hx : x = u
  · rw [hx, update_self] at h
    cases h
  · exact ⟨hx, by rwa [update_of_ne hx] at h⟩

section

variable (h : Inv scr s)
include h

/-- A surface that is nobody's is unmapped. -/
theorem Inv.unmap (hn : ∀ u v, s.view u = some v → v.sid ≠ sid) : Inv scr (s.surfaceUnmap sid) := by
  obtain ⟨hview, hreads, hloops, hreplies, -⟩ := unmap_same s sid
  have hheld : ∀ x j, ((s.surfaceUnmap sid).held x j).isSome → (s.held x j).isSome := by
    intro x j hj
    rw [h.unmap_held] at hj
    split at hj
    · cases hj
    · exact hj
  refine ⟨⟨hreads ▸ h.reads, hloops ▸ h.loops, hreplies ▸ h.replies⟩,
    fun x j hj => h.slot x j (hheld x j hj),
    fun x j k hj hk => h.one x j k (hheld x j hj) (hheld x k hk), fun u v hv => ?_, ?_⟩
  · rw [hview] at hv
    obtain ⟨j, m, hj, hm⟩ := h.live u v hv
    exact ⟨j, m, by rwa [h.unmap_held, if_neg (hn u v hv)], hm⟩
  · rw [hview]
    exact h.apart

/-- A view is forgotten; its mapping stays. -/
theorem Inv.forget (u : User) : Inv scr { s with view := update s.view u none } :=
  ⟨⟨h.reads, h.loops, h.replies⟩, h.slot, h.one, fun x v hv => h.live x v (update_none_eq_some hv).2,
    fun x y v w hv hw =>
      h.apart x y v w (update_none_eq_some hv).2 (update_none_eq_some hw).2⟩

/-- **A view is given up** with its mapping; the mappings of other surfaces stay. -/
theorem Inv.dropView (u : User) :
    Inv scr (s.dropView u) ∧ (s.dropView u).view = update s.view u none
      ∧ ∀ x, (∀ v, s.view u = some v → v.sid ≠ x) → (s.dropView u).held x = s.held x := by
  unfold State.dropView
  cases hu : s.view u with
  | none => exact ⟨h, (Function.update_eq_self_iff.2 hu.symm).symm, fun _ _ => rfl⟩
  | some v =>
    have hothers : ∀ x w, update s.view u none x = some w → w.sid ≠ v.sid := by
      intro x w hw hsid
      obtain ⟨hx, hw⟩ := update_none_eq_some hw
      exact hx (h.apart x u w v hw hu hsid)
    refine ⟨(h.forget u).unmap hothers, (unmap_same _ _).1, fun x hx => funext fun j => ?_⟩
    exact ((h.forget u).unmap_held x j).trans (if_neg (Ne.symm (hx v rfl)))

/-- **A user gets a view** of a surface that is nobody's. -/
theorem Inv.setView (hn : ∀ u' v', s.view u' = some v' → v'.sid ≠ v.sid) {j : ℕ}
    (hj : s.held v.sid j = some m) (hm : Fits v m) (u : User) : Inv scr (s.setView u v) := by
  have hcases : ∀ {x w}, (s.setView u v).view x = some w → x = u ∧ w = v ∨ s.view x = some w := by
    intro x w hw
    have hset : (s.setView u v).view = update s.view u (some v) := rfl
    rw [hset] at hw
    by_cases hx : x = u
    · rw [hx, update_self] at hw
      exact .inl ⟨hx, (some.inj hw).symm⟩
    · rw [update_of_ne hx] at hw
      exact .inr hw
  refine ⟨⟨h.reads, h.loops, h.replies⟩, h.slot, h.one, fun x w hw => ?_, fun x y w w' hw hw' hs => ?_⟩
  · rcases hcases hw with ⟨-, rfl⟩ | hw
    · exact ⟨j, m, hj, hm⟩
    · exact h.live x w hw
  · rcases hcases hw with ⟨hx, rfl⟩ | hx <;> rcases hcases hw' with ⟨hy, rfl⟩ | hy
    · exact hx.trans hy.symm
    · exact absurd hs.symm (hn y w' hy)
    · exact absurd hs (hn x w hx)
    · exact h.apart x y w w' hx hy hs

/-- **A surface takes the place of another**: it is mapped, and the old one given up. -/
theorem Inv.replace (hn : s.Unmapped v.sid) (hslot : slot < mapSlots) (hm : Fits v ⟨s.next, bytes⟩)
    (u : User) : Inv scr (((s.enter v.sid slot bytes).dropView u).setView u v) := by
  have henter : Inv scr (s.enter v.sid slot bytes) := h.enter hn hslot
  obtain ⟨hinv, hview, hheld⟩ := henter.dropView u
  have hne : ∀ {x w}, s.view x = some w → w.sid ≠ v.sid := h.ne_of_unmapped hn
  refine hinv.setView (fun x w hw => ?_) (j := slot) ?_ hm u
  · rw [hview] at hw
    exact hne (update_none_eq_some hw).2
  · rw [hheld v.sid fun w hw => hne hw]
    exact enter_held_self

section

variable {j : ℕ} (hj : s.held v.sid j = some m) (hm : m.id = v.px)
include hj hm

/-- What is mapped at a pointer is its mapping. -/
theorem Inv.mappedAt : s.mappedAt v = some m.bytes := by
  have hsome : (s.held v.sid j).isSome := by rw [hj]; rfl
  have hmem := List.mem_range.2 (h.slot v.sid j hsome)
  unfold State.mappedAt
  obtain ⟨b, hb⟩ : ∃ b, (List.range mapSlots).findSome? (fun j =>
      (s.held v.sid j).bind fun m => if m.id = v.px then some m.bytes else none) = some b := by
    refine isSome_iff_exists.1 (List.findSome?_isSome_iff.2 ⟨j, hmem, ?_⟩)
    rw [hj, bind_some, if_pos hm]
    rfl
  obtain ⟨k, -, hk⟩ := List.exists_of_findSome?_eq_some hb
  have hkj : (s.held v.sid k).isSome := by
    cases hx : s.held v.sid k with
    | none => rw [hx] at hk; cases hk
    | some _ => rfl
  obtain rfl := h.one _ _ _ hkj hsome
  rw [hj, bind_some, if_pos hm] at hk
  rw [hb, hk]

/-- **Bytes inside the mapping are read.** -/
theorem Inv.note {n : ℤ} {l : List ℤ} (hl : ∀ o ∈ l, 0 ≤ o ∧ o + n ≤ m.bytes) :
    Inv scr (s.note v n l) := by
  refine ⟨⟨List.forall_mem_append.2 ⟨h.reads, fun r hr => ?_⟩, h.loops, h.replies⟩, h.slot, h.one,
    h.live, h.apart⟩
  obtain ⟨o, ho, rfl⟩ := List.mem_map.1 hr
  exact ⟨m.bytes, h.mappedAt hj hm, hl o ho⟩

end

end

end Mappings

/-! ## Pixels -/

section Pixels

variable {scr : Screen} {v : View} {m : Mapping} {dx dy dw dh w h x y : ℤ}

/-- A pixel of a picture is in its mapping. -/
theorem Fits.pixel (hv : Fits v m) (hx : 0 ≤ x ∧ x < v.w) (hy : 0 ≤ y ∧ y < v.h) :
    0 ≤ y * v.w ∧ 0 ≤ y * v.w + x ∧ 4 * (y * v.w + x) + 4 ≤ m.bytes ∧ y * v.w + x < 2 ^ 32 := by
  have hrow : (y + 1) * v.w ≤ v.h * v.w := Int.mul_le_mul_of_nonneg_right hy.2 hv.size.1.le
  have hnonneg : 0 ≤ y * v.w := Int.mul_nonneg hy.1 hv.size.1.le
  have hroom := hv.room
  have hbound : m.bytes ≤ 960 * 4096 := hv.bound
  rw [Int.mul_comm v.w] at hroom
  rw [Int.add_mul, Int.one_mul] at hrow
  omega

theorem gfxBlit_inside (hv : Fits v m) {k : ℤ} (hk : k ∈ gfxBlit scr dx dy v w h) :
    0 ≤ 4 * k ∧ 4 * k + 4 ≤ m.bytes := by
  obtain ⟨y, hy, hk⟩ := List.mem_flatMap.1 hk
  obtain ⟨x, hx, rfl⟩ := List.mem_map.1 hk
  simp only [List.mem_filter, mem_span, decide_eq_true_eq] at hx hy
  obtain ⟨-, hnonneg, hroom, hlt⟩ := hv.pixel ⟨hx.1.1, hx.2.2.2⟩ ⟨hy.1.1, hy.2.2.2⟩
  rw [Int.emod_eq_of_lt hnonneg hlt]
  omega

/-- A row or column of a scaled picture, if the product does not overflow. -/
theorem scaled_lt {n d : ℤ} (hx : 0 ≤ x ∧ x < d) (hn : 0 < n) (hlt : x * n < 2 ^ 31) :
    0 ≤ (wrap (x * n)).tdiv d ∧ (wrap (x * n)).tdiv d < n := by
  have hnonneg : 0 ≤ x * n := Int.mul_nonneg hx.1 hn.le
  have hwrap : wrap (x * n) = x * n := by
    unfold wrap
    omega
  rw [hwrap, Int.tdiv_eq_ediv_of_nonneg hnonneg]
  have hd : 0 < d := by omega
  refine ⟨Int.ediv_nonneg hnonneg hd.le, Int.ediv_lt_of_lt_mul hd ?_⟩
  rw [Int.mul_comm n]
  exact Int.mul_lt_mul_of_pos_right hx.2 hn

theorem gfxBlitScaled_inside (hv : Fits v m) (hw : ∀ x, 0 ≤ x → x < dw → x * v.w < 2 ^ 31)
    (hh : ∀ y, 0 ≤ y → y < dh → y * v.h < 2 ^ 31) {k : ℤ}
    (hk : k ∈ gfxBlitScaled scr dx dy dw dh v) : 0 ≤ 4 * k ∧ 4 * k + 4 ≤ m.bytes := by
  unfold gfxBlitScaled at hk
  split at hk
  · cases hk
  obtain ⟨y, hy, hk⟩ := List.mem_flatMap.1 hk
  obtain ⟨x, hx, rfl⟩ := List.mem_map.1 hk
  rw [List.mem_filter, mem_span] at hx hy
  have hxd : 0 ≤ x ∧ x < dw := ⟨hx.1.1, by omega⟩
  have hyd : 0 ≤ y ∧ y < dh := ⟨hy.1.1, by omega⟩
  obtain ⟨hrow, hnonneg, hroom, hlt⟩ := hv.pixel (scaled_lt hxd hv.size.1 (hw x hxd.1 hxd.2))
    (scaled_lt hyd hv.size.2 (hh y hyd.1 hyd.2))
  have hx0 := (scaled_lt hxd hv.size.1 (hw x hxd.1 hxd.2)).1
  rw [Int.emod_eq_of_lt hrow (by omega)]
  omega

theorem tdiv_nonpos {a b : ℤ} (ha : a ≤ 0) (hb : 0 ≤ b) : a.tdiv b ≤ 0 := by
  have := Int.tdiv_nonneg (Int.neg_nonneg_of_nonpos ha) hb
  rw [Int.neg_tdiv] at this
  omega

/-- A picture that keeps its proportions fits the client area, or is one pixel wide or high. -/
theorem fit_le {sw sh cw ch : ℤ} (hsw : 0 < sw) (hsh : 0 < sh)
    (h1 : -2 ^ 31 ≤ cw * sh ∧ cw * sh < 2 ^ 31) (h2 : -2 ^ 31 ≤ ch * sw ∧ ch * sw < 2 ^ 31) :
    ((fit sw sh cw ch).1 ≤ cw ∨ (fit sw sh cw ch).1 = 1)
      ∧ ((fit sw sh cw ch).2 ≤ ch ∨ (fit sw sh cw ch).2 = 1) := by
  have hw1 : wrap (cw * sh) = cw * sh := by unfold wrap; omega
  have hw2 : wrap (ch * sw) = ch * sw := by unfold wrap; omega
  have hwide : ch < (cw * sh).tdiv sw → (ch * sw).tdiv sh ≤ cw ∨ (ch * sw).tdiv sh < 1 := by
    intro hlt
    by_cases hch : ch ≤ 0
    · right
      have hle : ch * sw ≤ 0 := Int.mul_nonpos_of_nonpos_of_nonneg hch hsw.le
      have := tdiv_nonpos hle hsh.le
      omega
    · left
      have hcw : 0 ≤ cw * sh := by
        by_contra hneg
        have := tdiv_nonpos (Int.not_le.1 hneg).le hsw.le
        omega
      rw [Int.tdiv_eq_ediv_of_nonneg hcw] at hlt
      have hmul : ch * sw ≤ cw * sh := (Int.le_ediv_iff_mul_le hsw).1 hlt.le
      rw [Int.tdiv_eq_ediv_of_nonneg (Int.mul_nonneg (by omega) hsw.le)]
      exact Int.ediv_le_of_le_mul hsh hmul
  unfold fit
  rw [hw1, hw2]
  dsimp only
  generalize (cw * sh).tdiv sw = dh at hwide
  generalize (ch * sw).tdiv sh = dw at hwide
  split
  next hlt =>
    dsimp only
    split_ifs <;> omega
  next =>
    dsimp only
    split_ifs <;> omega

/-- **The loop stops** on the side that has a size. -/
theorem scale_isSome {x lim : ℤ} (hx : Size x) (hlim : lim < 2 ^ 30)
    (htest : ∀ sc, wrap (w * (sc + 1)) ≤ scr.w - 6 ∧ wrap (h * (sc + 1)) ≤ scr.h - 34 - 22 - 6 →
      wrap (x * (sc + 1)) ≤ lim) (fuel : ℕ) {sc : ℤ} (hsc : 1 ≤ sc) (hlt : x * sc < 2 ^ 30)
    (hfuel : 2 ^ 30 - sc ≤ fuel) : (scale scr w h (fuel + 1) sc).isSome := by
  obtain ⟨hpos, hsmall⟩ := hx
  have hle : sc ≤ x * sc := by
    have := Int.mul_le_mul_of_nonneg_right (show (1 : ℤ) ≤ x from hpos) (by omega : 0 ≤ sc)
    omega
  induction fuel generalizing sc with
  | zero => omega
  | succ fuel ih =>
    rw [scale]
    split
    next hgo =>
      have hstep := htest sc hgo
      have hmul : x * (sc + 1) = x * sc + x := by rw [Int.mul_add, Int.mul_one]
      have hexact : wrap (x * (sc + 1)) = x * (sc + 1) := by
        unfold wrap
        omega
      have hnext : wrap (sc + 1) = sc + 1 := by
        unfold wrap
        omega
      rw [hexact] at hstep
      rw [hnext]
      exact ih (by omega) (by omega) (by omega) (by omega)
    next => rfl

/-- A game with a size. -/
theorem scale_stops (hsize : Size w ∨ Size h) : ∃ fuel, (scale scr w h fuel 1).isSome := by
  have hscr := scr.small
  refine ⟨2 ^ 30 + 1, ?_⟩
  rcases hsize with hw | hh
  · exact scale_isSome hw (by omega : scr.w - 6 < 2 ^ 30) (fun _ h => h.1) _ le_rfl
      (by rw [Int.mul_one]; exact hw.2) (by norm_num)
  · exact scale_isSome hh (by omega : scr.h - 34 - 22 - 6 < 2 ^ 30) (fun _ h => h.2) _ le_rfl
      (by rw [Int.mul_one]; exact hh.2) (by norm_num)

end Pixels

/-! ## Requests and drawings -/

section Steps

variable {scr : Screen} {s t : State} {v : View} {w h : ℤ} {a : Answer}

theorem createMap_spec (hc : s.createMap w h a = some (t, v)) :
    s.Unmapped v.sid ∧ ∃ slot bytes, slot < mapSlots ∧ t = s.enter v.sid slot bytes
      ∧ Fits v ⟨s.next, bytes⟩ := by
  obtain ⟨⟨sid, bytes⟩, -, hc⟩ := bind_eq_some_iff.1 hc
  obtain ⟨⟨slot, _⟩, -, hc⟩ := bind_eq_some_iff.1 hc
  dsimp only at hc
  split at hc
  next hok =>
    obtain ⟨rfl, rfl⟩ := Prod.mk.inj (some.inj hc)
    obtain ⟨-, hw, hh, hroom, hbound, hslot, hn⟩ := hok
    exact ⟨hn, slot, bytes, hslot, rfl, rfl, ⟨hw, hh⟩, hroom, hbound⟩
  next => cases hc

theorem surfaceMap_spec {sid : ℤ} (hs : s.surfaceMap sid a = some t) :
    ∃ slot bytes, (slot, bytes) ∈ a.mapped ∧ slot < mapSlots ∧ 4096 ≤ bytes ∧ bytes ≤ maxBytes
      ∧ t = s.enter sid slot bytes := by
  obtain ⟨⟨slot, bytes⟩, hm, hs⟩ := bind_eq_some_iff.1 hs
  dsimp only at hs
  split at hs
  next hok => exact ⟨slot, bytes, hm, hok.2.1, hok.2.2.2.1, hok.2.2.2.2, (some.inj hs).symm⟩
  next => cases hs

section

variable (hi : Inv scr s)
include hi

theorem Inv.loop (hsize : Size w ∨ Size h) : Inv scr { s with loops := s.loops ++ [(w, h)] } :=
  ⟨⟨hi.reads, List.forall_mem_append.2 ⟨hi.loops, List.forall_mem_singleton.2 (scale_stops hsize)⟩,
    hi.replies⟩, hi.slot, hi.one, hi.live, hi.apart⟩

theorem Inv.setWin (i : Fin maxWin) (n : Win) : Inv scr (s.setWin i n) :=
  ⟨⟨hi.reads, hi.loops, hi.replies⟩, hi.slot, hi.one, hi.live, hi.apart⟩

theorem Inv.winFree (i : Fin maxWin) : Inv scr (s.winFree i) :=
  (hi.setWin i _).forget (.win i)

theorem Inv.helloOn (i : Fin maxWin) {rawkeys : Bool} (resizable : Bool)
    (hsize : rawkeys → Size w ∨ Size h) : Inv scr (s.helloOn i w h rawkeys resizable a) := by
  have hloop : Inv scr (if (s.view (.win i)).isSome ∧ rawkeys
      then { s with loops := s.loops ++ [(w, h)] } else s) := by
    split
    next hr => exact hi.loop (hsize hr.2)
    next => exact hi
  unfold State.helloOn
  dsimp only
  generalize (if (s.view (.win i)).isSome ∧ rawkeys
      then { s with loops := s.loops ++ [(w, h)] } else s) = s₁ at hloop
  obtain ⟨hdrop, hview, -⟩ := hloop.dropView (.win i)
  generalize s₁.dropView (.win i) = s₂ at hdrop hview
  split
  next => exact hdrop
  next t v hc =>
    obtain ⟨hn, slot, bytes, hslot, rfl, hfits⟩ := createMap_spec hc
    -- there is no view left to give up
    have hsame : (s₂.enter v.sid slot bytes).dropView (.win i) = s₂.enter v.sid slot bytes := by
      have hnone : (s₂.enter v.sid slot bytes).view (.win i) = none := by
        show s₂.view (.win i) = none
        rw [hview, update_self]
      rw [State.dropView, hnone]
    have hset := hdrop.replace hn hslot hfits (.win i)
    rw [hsame] at hset
    exact hset.setWin i _

theorem Inv.hello (src : ℤ) {rawkeys : Bool} (dialog resizable : Bool)
    (hsize : rawkeys → Size w ∨ Size h) : Inv scr (s.hello src w h rawkeys dialog resizable a) := by
  unfold State.hello
  split
  next => exact hi.helloOn _ _ hsize
  next =>
    split
    next => exact hi
    next i _ =>
      refine Inv.helloOn ?_ i _ hsize
      have halloc := (hi.setWin i ⟨true, src, dialog, false, 0, 0⟩).forget (.win i)
      split
      next hr => exact halloc.loop (hsize hr)
      next => exact halloc

theorem Inv.resize (src i : ℤ) : Inv scr (s.resize src i w h a) := by
  unfold State.resize
  split
  next => exact hi
  next k _ =>
    split
    next =>
      split
      next => exact hi
      next t v hc =>
        obtain ⟨hn, slot, bytes, hslot, rfl, hfits⟩ := createMap_spec hc
        exact (hi.replace hn hslot hfits (.win k)).setWin k _
    next => exact hi

/-- **A message is handled.** -/
theorem Inv.handle {src : ℤ} {msg : Msg} (hok : Ok scr s (.serve src msg a)) :
    Inv scr (s.handle src a msg) := by
  cases msg with
  | other => exact hi
  | hello w h rawkeys dialog resizable => exact hi.hello src dialog resizable hok.2
  | resize i w h => exact hi.resize src i
  | bye i =>
    unfold State.handle
    dsimp only
    split
    next k _ =>
      split
      next => exact hi.winFree k
      next => exact hi
    next => exact hi
  | wallpaper sid w h =>
    obtain ⟨-, hn, hroom⟩ := hok
    unfold State.handle
    dsimp only
    split
    next hsize =>
      split
      next t ht =>
        obtain ⟨slot, bytes, hm, hslot, -, hbound, rfl⟩ := surfaceMap_spec ht
        exact hi.replace (v := ⟨sid, s.next, w, h⟩) hn hslot ⟨rfl, hsize, hroom _ hm, hbound⟩
          .wallpaper
      next => exact hi
    next => exact hi
  | openPath sid len =>
    have hn : s.Unmapped sid := hok.2
    unfold State.handle
    dsimp only
    split
    next t ht =>
      obtain ⟨slot, bytes, -, hslot, hbytes, -, rfl⟩ := surfaceMap_spec ht
      refine ((hi.enter hn hslot).note enter_held_self rfl fun o ho => ?_).unmap
        fun u v hv => hi.ne_of_unmapped hn hv
      rw [mem_span] at ho
      split at ho <;> dsimp only <;> omega
    next => exact hi

/-- **A message is served** and its sender answered. -/
theorem Inv.serve {src : ℤ} {msg : Msg} (hok : Ok scr s (.serve src msg a)) :
    Inv scr (s.serve src a msg) := by
  have h := hi.handle hok
  refine ⟨⟨h.reads, h.loops, fun hw => ?_⟩, h.slot, h.one, h.live, h.apart⟩
  rcases List.mem_append.1 hw with hw | hw
  · exact hi.replies hw
  · exact hok.1 (List.mem_singleton.1 hw).symm

/-- **A drawing keeps to the mapping.** -/
theorem Inv.draw {u : User} (hv : s.view u = some v) {l : List ℤ}
    (hl : ∀ m, Fits v m → ∀ k ∈ l, 0 ≤ 4 * k ∧ 4 * k + 4 ≤ m.bytes) :
    Inv scr (s.note v 4 (l.map (4 * ·))) := by
  obtain ⟨j, m, hj, hm⟩ := hi.live u v hv
  refine hi.note hj hm.id fun o ho => ?_
  obtain ⟨k, hk, rfl⟩ := List.mem_map.1 ho
  exact hl m hm k hk

end

/-- A product with a factor that is below a bound, or zero. -/
theorem mul_lt_of_le {x d c n : ℤ} (hx : 0 ≤ x ∧ x < d) (hd : d ≤ c ∨ d = 1) (hn : 0 ≤ n)
    (hlt : c * n < 2 ^ 31) : x * n < 2 ^ 31 := by
  rcases hd with hd | rfl
  · exact (Int.mul_le_mul_of_nonneg_right (by omega) hn).trans_lt hlt
  · obtain rfl : x = 0 := by omega
    rw [Int.zero_mul]
    decide

/-- **One step.** -/
theorem Inv.step (hi : Inv scr s) {o : Op} (hok : Ok scr s o) : Inv scr (step scr s o) := by
  cases o with
  | serve src msg a => exact hi.serve hok
  | toggleMax i w h => exact hi.setWin i _
  | reap i => exact hi.winFree i
  | launch i pid =>
    unfold WindowServer.step
    dsimp only
    split
    next => exact hi
    next => exact (hi.setWin i _).forget (.win i)
  | drawWallpaper =>
    unfold WindowServer.step
    dsimp only
    split
    next v hv =>
      obtain ⟨hw, hh⟩ := hok v hv
      exact hi.draw hv fun m hm k hk => gfxBlitScaled_inside hm
        (fun x h0 hx => mul_lt_of_le ⟨h0, hx⟩ (.inl le_rfl) hm.size.1.le hw)
        (fun y h0 hy => mul_lt_of_le ⟨h0, hy⟩ (.inl le_rfl) hm.size.2.le hh) hk
    next => exact hi
  | drawWindow i cx cy cw ch =>
    unfold WindowServer.step
    dsimp only
    split
    next v hv =>
      refine hi.draw hv fun m hm k hk => ?_
      unfold drawWindow at hk
      split at hk
      next => exact gfxBlit_inside hm hk
      next hfixed =>
        split at hk
        next => exact gfxBlit_inside hm hk
        next =>
          obtain ⟨hsw, hsh, h1, h2, h3, h4, hw, hh⟩ := hok v hv (Bool.eq_false_iff.2 hfixed)
          obtain ⟨hdw, hdh⟩ := fit_le hsw hsh ⟨h1, h2⟩ ⟨h3, h4⟩
          exact gfxBlitScaled_inside hm
            (fun x h0 hx => mul_lt_of_le ⟨h0, hx⟩ hdw hm.size.1.le hw)
            (fun y h0 hy => mul_lt_of_le ⟨h0, hy⟩ hdh hm.size.2.le hh) hk
    next => exact hi

end Steps

/-- **The server reads what is mapped, and its loops and replies end**, along every run whose
steps meet the condition. -/
theorem reads_inside (scr : Screen) (ops : List Op) (h : Meets (Ok scr) (step scr) start ops) :
    Safe scr (ops.foldl (step scr) start) := by
  have hstart : Inv scr start := by
    refine ⟨⟨fun _ hr => ?_, fun _ hl => ?_, fun hw => ?_⟩, fun _ _ hj => ?_, fun _ _ _ hj => ?_,
      fun _ _ hv => ?_, fun _ _ _ _ hv => ?_⟩
    · cases hr
    · cases hl
    · cases hw
    · cases hj
    · cases hj
    · cases hv
    · cases hv
  exact (Meets.invariant (P := Inv scr) (fun _ _ hs => hs.step) hstart h).toSafe

/-- A screen. -/
def desk : Screen := ⟨1024, 768, by decide, by decide⟩

/-- A game opens a window of two pixels, which is drawn larger, and asks to open a path. -/
def game : List Op :=
  [.serve 7 (.hello 2 1 true false false) ⟨some (0, 4096), some (0, 4096), .taken⟩,
    .drawWindow ⟨0, by decide⟩ 0 0 4 2, .serve 7 (.openPath 1 3) ⟨none, some (0, 4096), .gone⟩]

theorem reads_inside_game :
    Meets (Ok desk) (step desk) start game ∧ Safe desk (game.foldl (step desk) start) := by
  have h : Meets (Ok desk) (step desk) start game := by
    refine ⟨⟨by decide, fun _ => .inl ⟨by decide, by decide⟩⟩, fun v hv _ => ?_, ⟨by decide, ?_⟩,
      trivial⟩
    · obtain rfl : ⟨0, 0, 2, 1⟩ = v := some.inj hv
      decide +kernel
    · show State.Unmapped _ 1
      decide +kernel
  exact ⟨h, reads_inside desk game h⟩

/-- A game without a size: the loop for the size of its window never stops. -/
theorem hello_hangs :
    ¬ Safe desk (step desk start (.serve 7 (.hello 0 0 true false false) ⟨none, none, .taken⟩)) := by
  intro h
  have hnone : ∀ fuel sc, scale desk 0 0 fuel sc = none := by
    intro fuel
    induction fuel with
    | zero => exact fun _ => rfl
    | succ fuel ih =>
      intro sc
      rw [scale, Int.zero_mul, if_pos (by decide)]
      exact ih _
  obtain ⟨fuel, hfuel⟩ := h.loops (0, 0) List.mem_cons_self
  rw [hnone] at hfuel
  cases hfuel

/-! ## Maximising a window and back

`win_toggle_max` keeps the place of a window in `sx` and `sy`, but its size in `sw` and `sh`, where
`MX_HELLO` and `MX_RESIZE` record the size of the surface. So maximising overwrites the recorded
size; and the client, which is then asked to resize its surface and does, overwrites the saved
one. -/

/-- Where a window is, whether it is maximised, and the place saved. No message changes it but the
`MX_HELLO` of a client that has the window already. -/
structure Frame where
  x : ℤ
  y : ℤ
  w : ℤ
  h : ℤ
  maximized : Bool
  sx : ℤ
  sy : ℤ

/-- The outer rectangle. -/
def Frame.rect (f : Frame) : ℤ × ℤ × ℤ × ℤ := (f.x, f.y, f.w, f.h)

/-- A message with its sender and what the kernel answers. -/
abbrev Request := ℤ × Answer × Msg

namespace State

/-- The size recorded for the surface of a window. -/
def size (s : State) (i : Fin maxWin) : ℤ × ℤ := ((s.win i).sw, (s.win i).sh)

/-- `win_toggle_max`; the event for the client is left out. -/
def toggleMax (scr : Screen) (i : Fin maxWin) (s : State) (f : Frame) : State × Frame :=
  if f.maximized then
    (s, { f with x := f.sx, y := f.sy, w := (s.win i).sw, h := (s.win i).sh, maximized := false })
  else
    (s.setWin i { s.win i with sw := f.w, sh := f.h },
      ⟨0, 22, scr.w, scr.h - 22 - 34, true, f.x, f.y⟩)

/-- The messages that `serve_requests` handles. -/
def served (s : State) (msgs : List Request) : State :=
  msgs.foldl (fun s m => s.serve m.1 m.2.1 m.2.2) s

/-- The size that comes with an `MX_RESIZE` of the window, if it is accepted. -/
def accepted (s : State) (i : Fin maxWin) : Request → Option (ℤ × ℤ)
  | (src, a, .resize j w h) =>
    if s.winValid j src = some i ∧ (0 < w ∧ 0 < h) ∧ (s.createMap w h a).isSome then some (w, h)
    else none
  | _ => none

/-- The size in the last `MX_RESIZE` of the window that is accepted. -/
def resized (i : Fin maxWin) : State → List Request → Option (ℤ × ℤ)
  | _, [] => none
  | s, m :: msgs => (resized i (s.serve m.1 m.2.1 m.2.2) msgs).or (s.accepted i m)

end State

/-- **What is asked of two calls** with messages in between: the window is where it was, and
neither call changes the recorded size. -/
def Restores (scr : Screen) (i : Fin maxWin) (s : State) (f : Frame) (msgs : List Request) : Prop :=
  let first := s.toggleMax scr i f
  let between := first.1.served msgs
  let second := between.toggleMax scr i first.2
  second.2.rect = f.rect ∧ first.1.size i = s.size i ∧ second.1.size i = between.size i

/-- The message is no new `MX_HELLO` for the window of that client, and no `MX_BYE` that ends it. -/
def Stays (i : Fin maxWin) (client : ℤ) (isDialog : Bool) : Request → Prop
  | (src, _, .hello _ _ _ dialog _) => src = client → dialog = true ∨ isDialog = true
  | (src, _, .bye j) => src = client → isDialog = true → j ≠ i
  | _ => True

variable {s : State} {i k : Fin maxWin}

/-! ### What a message does to a window -/

theorem dropView_win (s : State) (u : User) : (s.dropView u).win = s.win := by
  unfold State.dropView
  split
  next => rfl
  next v _ => exact (unmap_same _ v.sid).2.2.2.2

theorem setWin_win_of_ne (hk : i ≠ k) (n : Win) : (s.setWin k n).win i = s.win i :=
  update_of_ne hk ..

theorem createMap_win {w h : ℤ} {a : Answer} {t : State} {v : View}
    (hc : s.createMap w h a = some (t, v)) : t.win = s.win := by
  obtain ⟨-, slot, bytes, -, rfl, -⟩ := createMap_spec hc
  rfl

theorem winValid_spec {j src : ℤ} (h : s.winValid j src = some k) :
    (k : ℤ) = j ∧ (s.win k).client = src := by
  have hk := List.find?_some h
  rw [decide_eq_true_eq] at hk
  exact ⟨hk.1, hk.2.2⟩

theorem helloOn_win (hk : i ≠ k) (w h : ℤ) (rawkeys resizable : Bool) (a : Answer) :
    (s.helloOn k w h rawkeys resizable a).win i = s.win i := by
  have hdrop : ((if (s.view (.win k)).isSome ∧ rawkeys
      then { s with loops := s.loops ++ [(w, h)] } else s).dropView (.win k)).win = s.win := by
    rw [dropView_win]
    split <;> rfl
  unfold State.helloOn
  dsimp only
  split
  next => rw [hdrop]
  next t v hc =>
    rw [setWin_win_of_ne hk, ← hdrop, ← createMap_win hc]
    rfl

/-- An `MX_HELLO` of another client, or for another window, leaves the window alone. -/
theorem hello_win (hu : (s.win i).inUse = true) {src : ℤ} {dialog : Bool}
    (hm : src = (s.win i).client → dialog = true ∨ (s.win i).isDialog = true) (w h : ℤ)
    (rawkeys resizable : Bool) (a : Answer) :
    (s.hello src w h rawkeys dialog resizable a).win i = s.win i := by
  unfold State.hello
  split
  next k hk =>
    have hk := List.find?_some hk
    rw [decide_eq_true_eq] at hk
    refine helloOn_win ?_ ..
    rintro rfl
    rcases hm hk.2.2.1.symm with hd | hd
    · rw [hd] at hk
      cases hk.1
    · rw [hd] at hk
      cases hk.2.2.2
  next =>
    split
    next => rfl
    next k hk =>
      have hk : (s.win k).inUse = false := by simpa using List.find?_some hk
      have hne : i ≠ k := by
        rintro rfl
        rw [hu] at hk
        cases hk
      exact (helloOn_win hne ..).trans (setWin_win_of_ne hne _)

/-- **A message records a size for the window if it is an accepted `MX_RESIZE`**, and leaves the
window alone otherwise. -/
theorem serve_win (hu : (s.win i).inUse = true) {m : Request}
    (hm : Stays i (s.win i).client (s.win i).isDialog m) :
    (s.serve m.1 m.2.1 m.2.2).win i
      = (s.accepted i m).elim (s.win i) fun n => { s.win i with sw := n.1, sh := n.2 } := by
  obtain ⟨src, a, msg⟩ := m
  show (s.handle src a msg).win i = _
  cases msg with
  | other => rfl
  | hello w h rawkeys dialog resizable => exact hello_win hu hm ..
  | resize j w h =>
    simp only [State.handle, State.resize, State.accepted]
    cases s.winValid j src with
    | none => simp
    | some k =>
      by_cases hsize : 0 < w ∧ 0 < h
      · cases hc : s.createMap w h a with
        | none => simp [hsize]
        | some c =>
          by_cases hki : k = i
          · subst hki
            simp [hsize, State.setWin]
          · rw [if_neg (fun hn => hki (some.inj hn.1))]
            dsimp only [elim_none]
            rw [if_pos hsize, setWin_win_of_ne (Ne.symm hki), ← createMap_win (v := c.2) hc]
            exact congrFun (dropView_win c.1 _) i
      · simp [hsize]
  | bye j =>
    dsimp only [State.handle, State.accepted, elim_none]
    split
    next k hk =>
      obtain ⟨hkj, hc⟩ := winValid_spec hk
      split
      next hd =>
        refine setWin_win_of_ne ?_ _
        rintro rfl
        exact hm hc.symm hd hkj.symm
      next => rfl
    next => rfl
  | wallpaper sid w h =>
    dsimp only [State.handle, State.accepted, elim_none]
    split
    next =>
      split
      next t ht =>
        obtain ⟨slot, bytes, -, -, -, -, rfl⟩ := surfaceMap_spec ht
        exact congrFun (dropView_win _ _) i
      next => rfl
    next => rfl
  | openPath sid len =>
    dsimp only [State.handle, State.accepted, elim_none]
    split
    next t ht =>
      obtain ⟨slot, bytes, -, -, -, -, rfl⟩ := surfaceMap_spec ht
      exact congrFun (unmap_same _ sid).2.2.2.2 i
    next => rfl

/-- **Messages record the size of the last accepted `MX_RESIZE`**, or none. -/
theorem served_size {msgs : List Request} {client : ℤ} {isDialog : Bool}
    (hu : (s.win i).inUse = true) (hc : (s.win i).client = client)
    (hd : (s.win i).isDialog = isDialog) (hm : ∀ m ∈ msgs, Stays i client isDialog m) :
    (s.served msgs).size i = (State.resized i s msgs).getD (s.size i) := by
  induction msgs generalizing s with
  | nil => rfl
  | cons m msgs ih =>
    have hwin := serve_win hu (m := m) (by rw [hc, hd]; exact hm m List.mem_cons_self)
    have hnext : ((s.serve m.1 m.2.1 m.2.2).win i).inUse = true
        ∧ ((s.serve m.1 m.2.1 m.2.2).win i).client = client
        ∧ ((s.serve m.1 m.2.1 m.2.2).win i).isDialog = isDialog
        ∧ (s.serve m.1 m.2.1 m.2.2).size i = (s.accepted i m).getD (s.size i) := by
      unfold State.size
      rw [hwin]
      cases s.accepted i m with
      | none => exact ⟨hu, hc, hd, rfl⟩
      | some n => exact ⟨hu, hc, hd, rfl⟩
    have hrest := ih hnext.1 hnext.2.1 hnext.2.2.1 fun x hx => hm x (List.mem_cons_of_mem m hx)
    rw [hnext.2.2.2] at hrest
    refine hrest.trans ?_
    rw [State.resized]
    cases State.resized i (s.serve m.1 m.2.1 m.2.2) msgs with
    | none => rfl
    | some n => rfl

/-! ### Two calls -/

theorem setWin_size (s : State) (i : Fin maxWin) (n : Win) :
    (s.setWin i n).size i = (n.sw, n.sh) := by
  simp [State.size, State.setWin]

theorem setWin_eq_self {w h : ℤ} (hsize : (w, h) = s.size i) :
    s.setWin i { s.win i with sw := w, sh := h } = s := by
  obtain ⟨rfl, rfl⟩ := Prod.mk.inj hsize
  simp [State.setWin]

instance (scr : Screen) (i : Fin maxWin) (s : State) (f : Frame) (msgs : List Request) :
    Decidable (Restores scr i s f msgs) :=
  inferInstanceAs (Decidable (_ ∧ _ ∧ _))

/-- A window comes back if the calls do not change the recorded size, and neither do the
messages. -/
theorem restores_iff_size (scr : Screen) (i : Fin maxWin) (s : State) (f : Frame)
    (msgs : List Request) : Restores scr i s f msgs ↔
      (if f.maximized then f.rect = (0, 22, scr.w, scr.h - 22 - 34) else s.size i = (f.w, f.h))
      ∧ (s.served msgs).size i = s.size i := by
  unfold Restores State.toggleMax
  cases hmax : f.maximized with
  | true =>
    simp only [if_true, Bool.false_eq_true, if_false, setWin_size, Frame.rect]
    exact ⟨fun h => ⟨h.1.symm, h.2.2.symm⟩, fun h => ⟨h.1.symm, trivial, h.2.symm⟩⟩
  | false =>
    simp only [if_true, Bool.false_eq_true, if_false, setWin_size, and_true]
    constructor
    · rintro ⟨hrect, hsize⟩
      rw [setWin_eq_self hsize] at hrect
      refine ⟨hsize.symm, ?_⟩
      rw [← hsize]
      simpa [Frame.rect, State.size] using hrect
    · rintro ⟨hsize, hkeep⟩
      rw [setWin_eq_self hsize.symm]
      simp only [State.size, Prod.mk.injEq] at hsize hkeep
      simp [Frame.rect, State.size, hsize, hkeep]

/-- **When a window comes back**: if it was as large as the size recorded for its surface, or
maximised and as large as that makes it, and the last `MX_RESIZE` of it that is accepted, if there
is one, has the recorded size. -/
theorem restores_iff (scr : Screen) (i : Fin maxWin) (s : State) (f : Frame) (msgs : List Request)
    (hu : (s.win i).inUse = true)
    (hm : ∀ m ∈ msgs, Stays i (s.win i).client (s.win i).isDialog m) : Restores scr i s f msgs ↔
      (if f.maximized then f.rect = (0, 22, scr.w, scr.h - 22 - 34) else s.size i = (f.w, f.h))
      ∧ ∀ n ∈ State.resized i s msgs, n = s.size i := by
  rw [restores_iff_size, served_size hu rfl rfl hm]
  refine and_congr_right fun _ => ?_
  cases State.resized i s msgs with
  | none => simp
  | some n => simp

/-- A client has got a window for its 300 by 200 pixels. -/
def shown : State :=
  start.served
    [(7, ⟨some (1, 241664), some (0, 241664), .taken⟩, .hello 300 200 false false true)]

/-- The client gives its surface another size and the first one again. -/
theorem restores_back : Restores desk ⟨0, by decide⟩ shown ⟨140, 62, 300, 200, false, 0, 0⟩
    [(7, ⟨some (2, 4096), some (0, 4096), .taken⟩, .resize 0 30 20),
      (7, ⟨some (3, 241664), some (0, 241664), .taken⟩, .resize 0 300 200)] := by
  refine (restores_iff desk _ shown _ _ (by decide) fun m hm => ?_).2 ⟨by decide, by decide⟩
  rcases List.mem_pair.1 hm with rfl | rfl <;> trivial

/-- **It resizes its surface to the maximised window**, as it is asked to, and the window keeps the
size of that surface. -/
theorem not_restores_resized : ¬ Restores desk ⟨0, by decide⟩ shown
    ⟨140, 62, 300, 200, false, 0, 0⟩
    [(7, ⟨some (2, 2826240), some (0, 2826240), .taken⟩, .resize 0 1022 691)] := by
  decide

end WindowServer

end Makar
