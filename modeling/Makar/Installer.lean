import Mathlib

/-!
# The copy of an installation

The installer copies the selected trees of the installation disc to the new file system, a
file with each call of `install_exec_step`, so that the window on the screen can be drawn
between two of them. The trees are walked in breadth: a directory is taken from a queue, its
entries are noted in a table, and then one after the other is copied, or queued if it is a
directory itself. The queue, the table, the names in it, the paths and the buffer for a file
have fixed sizes, and what does not fit is dropped or cut short; nobody looks at what
`copy_file`, `iso9660_complete` and `rfs_mkdir` return.

The disc is modelled by its directory tree, with the names as they are recorded, and by the
way a path is looked up in it: `iso_namecmp` does not tell capital letters from small ones,
and it takes a version and a last dot off a name even where they are part of it. Sectors are
left out: a read fails or not, and a directory whose sectors cannot all be read is listed up
to some entry. The target is what its driver reads back at each path; what `rfs_write` and
`rfs_mkdir` make of it is open, since `fat32.c` has other names for a file than its path.

`complete_of_calls` says that a run of calls that ends with `done` has copied every file, if
nothing failed and everything fitted along the way.
-/

namespace Makar

open List

namespace Installer

/-- A name or a path, without the closing NUL. -/
abbrev Text := List UInt8

/-- `/` -/
def slash : UInt8 := 0x2F

/-- `ISO_MAX_COMPONENT_LEN` -/
def maxComponent : ℕ := 220

/-- `COPYQ_MAX`; one place of the ring stays free. -/
def copyqMax : ℕ := 256

/-- `PATH_MAX_`, with the NUL. -/
def pathMax : ℕ := 192

/-- `ENTS_MAX` -/
def entsMax : ℕ := 160

/-- The size of a name in `s_ents`, with the NUL. -/
def nameMax : ℕ := 64

/-- `INST_MAX_FILE_SIZE` -/
def maxFile : ℕ := 32 * 1024 * 1024

/-! ## The disc -/

/-- An identifier without `;N` and a last dot. -/
def strip (n : Text) : Text :=
  let n := if 2 ≤ n.length ∧ n[n.length - 2]? = some 0x3B then n.take (n.length - 2) else n
  if n.getLast? = some 0x2E then n.dropLast else n

/-- The names of a directory record: the identifier, and the Rock Ridge name if there is one. -/
structure Label where
  ident : Text
  rockRidge : Text

namespace Label

variable (l : Label)

/-- The name of the file. -/
def name : Text := if l.rockRidge ≠ [] then l.rockRidge else strip l.ident

/-- The name `iso9660_complete` reports. -/
def reported : Text := l.name.take maxComponent

/-- `iso_namecmp` as `dir_find` calls it. -/
def found (c : Text) : Bool :=
  (strip (if l.rockRidge ≠ [] then l.rockRidge.take maxComponent else l.ident)).map upper = c.map upper
where
  /-- A small letter made a capital. -/
  upper (b : UInt8) : UInt8 := if 0x61 ≤ b ∧ b ≤ 0x7A then b - 32 else b

/-- A name that a path can hold. -/
structure Legal : Prop where
  nonempty : l.name ≠ []
  noSlash : slash ∉ l.name
  noNul : 0 ∉ l.name
  notDot : l.name ≠ [0x2E]
  notDots : l.name ≠ [0x2E, 0x2E]

end Label

/-- What a record stands for: a file, or a directory. `.` and `..` are not listed. -/
inductive Node
  | file (data : List UInt8)
  | dir (ents : List ({ l : Label // l.Legal } × Node))

/-- A record of a directory. -/
abbrev Record := { l : Label // l.Legal } × Node

namespace Node

/-- Whether the directory flag is set. -/
def isDir : Node → Bool
  | .file _ => false
  | .dir _ => true

/-- The way `path_resolve` takes from component to component: `dir_find` at each. -/
def walk : Node → List Text → Option Node
  | n, [] => some n
  | .file _, _ :: _ => none
  | .dir es, c :: cs => (es.find? fun e => e.1.1.found c).bind fun e => e.2.walk cs

end Node

/-- The components of a path, each cut at its limit; `comp` is the one being read. -/
def components (comp : Text) : Text → List Text
  | [] => if comp = [] then [] else [comp]
  | b :: bs =>
    if b = slash then (if comp = [] then [] else [comp]) ++ components [] bs
    else components (if comp.length < maxComponent then comp ++ [b] else comp) bs

/-- `path_resolve` -/
def resolve (iso : Node) (path : Text) : Option Node := iso.walk (components [] path)

/-! ## The copy -/

/-- What is read at each path of the target. -/
abbrev Target := Text → Option (List UInt8)

/-- What becomes of the disc accesses of a round: how much of a listing is seen if it fails,
whether a file is read, and what `rfs_write` and `rfs_mkdir` make of the target. -/
structure Env where
  listed : Option ℕ
  read : Bool
  write : Text → List UInt8 → Target → Target
  mkdir : Text → Target → Target

/-- The state between rounds. -/
structure Inst where
  trees : List Text
  treeI : ℕ
  queue : List Text
  dir : Text
  ents : List (Text × Bool)
  entI : ℕ
  target : Target

/-- `enum_cb` -/
def enumCb (ents : List (Text × Bool)) (e : Record) : List (Text × Bool) :=
  let name := e.1.1.reported
  if name = [0x2E] ∨ name = [0x2E, 0x2E] ∨ entsMax ≤ ents.length then ents
  else ents ++ [(name.take (nameMax - 1), e.2.isDir)]

/-- `iso9660_complete` with `enum_cb`, up to a record that cannot be read. -/
def listing (iso : Node) (path : Text) (listed : Option ℕ) : List (Text × Bool) :=
  match resolve iso path with
  | some (.dir es) => (match listed with | none => es | some k => es.take k).foldl enumCb []
  | _ => []

/-- `q_push` -/
def qPush (q : List Text) (p : Text) : List Text :=
  if q.length + 1 = copyqMax then q else q ++ [p.take (pathMax - 1)]

/-- The path of an entry, in a buffer of `PATH_MAX_`. -/
def childPath (dir name : Text) : Text :=
  (if dir = [slash] then dir ++ name else dir ++ slash :: name).take (pathMax - 1)

/-- `copy_file` from a path to the same one: what it leaves in the target. -/
def copyFile (iso : Node) (target : Target) (p : Text) (e : Env) : Target :=
  match resolve iso p with
  | some (.file d) => if e.read then e.write p (d.take maxFile) target else target
  | _ => target

/-- How a round of the loop ends: it goes on, or the call returns 1, or 0 with `done` set. -/
inductive Out
  | again
  | copied
  | done
  deriving DecidableEq

/-- A round of the loop of `install_exec_step`. -/
def round (iso : Node) (s : Inst) (e : Env) : Inst × Out :=
  match s.ents[s.entI]? with
  | none =>
    match s.queue with
    | p :: q =>
      ({ s with dir := p, queue := q, ents := listing iso p e.listed, entI := 0 }, .again)
    | [] =>
      match s.trees[s.treeI + 1]? with
      | none => ({ s with treeI := s.treeI + 1 }, .done)
      | some t =>
        ({ s with
          treeI := s.treeI + 1
          queue := qPush [] t
          ents := []
          entI := 0
          target := e.mkdir t s.target }, .again)
  | some (name, true) =>
    ({ s with
      entI := s.entI + 1
      queue := qPush s.queue (childPath s.dir name)
      target := e.mkdir (childPath s.dir name) s.target }, .again)
  | some (name, false) =>
    ({ s with
      entI := s.entI + 1
      target := copyFile iso s.target (childPath s.dir name) e }, .copied)

/-- `install_exec_step`, with rounds that meet a condition: what it returns, and the state then. -/
inductive Call (iso : Node) (ok : Inst → Env → Prop) : Inst → Out → Inst → Prop
  | returns {s : Inst} (e : Env) (hok : ok s e) (h : (round iso s e).2 ≠ .again) :
    Call iso ok s (round iso s e).2 (round iso s e).1
  | goesOn {s t : Inst} {o : Out} (e : Env) (hok : ok s e) (h : (round iso s e).2 = .again)
    (rest : Call iso ok (round iso s e).1 o t) : Call iso ok s o t

/-- A run of calls, what the last of them returns, and the state then. -/
inductive Calls (iso : Node) (ok : Inst → Env → Prop) : Inst → Out → Inst → Prop
  | last {s t : Inst} {o : Out} (h : Call iso ok s o t) : Calls iso ok s o t
  | cons {s t u : Inst} {o o' : Out} (h : Call iso ok s o t) (rest : Calls iso ok t o' u) :
    Calls iso ok s o' u

/-- The names of the selected trees: `apps`, `docs`, `src` and `usr`. -/
def selected (docs src : Bool) : List Text :=
  [[0x61, 0x70, 0x70, 0x73]] ++ (if docs then [[0x64, 0x6F, 0x63, 0x73]] else []) ++
    (if src then [[0x73, 0x72, 0x63]] else []) ++ [[0x75, 0x73, 0x72]]

/-- The path with these components. -/
def pathOf (p : List Text) : Text := p.flatMap (slash :: ·)

/-- What `install_exec_begin` leaves, on a target with anything on it. -/
def start (docs src : Bool) (target : Target) : Inst where
  trees := (selected docs src).map fun t => pathOf [t]
  treeI := 0
  queue := qPush [] (pathOf [[0x61, 0x70, 0x70, 0x73]])
  dir := []
  ents := []
  entI := 0
  target := target

/-! ## What a copy should do -/

/-- **What is where on a disc**, by the names of the files. -/
inductive Under : Node → List Text → Node → Prop
  | here (n : Node) : Under n [] n
  | into {es : List Record} {e : Record} {p : List Text} {m : Node} (he : e ∈ es)
    (h : Under e.2 p m) : Under (.dir es) (e.1.1.name :: p) m

/-- **Every file of a selected tree is in the target**, under its path and with its contents. -/
def Complete (iso : Node) (docs src : Bool) (s : Inst) : Prop :=
  ∀ t ∈ selected docs src, ∀ p d, p ≠ [] → Under iso (t :: p) (.file d) →
    s.target (pathOf (t :: p)) = some d

/-- The names in a directory can be told apart: each leads to its own record. -/
def Apart (iso : Node) : Prop :=
  ∀ p es, Under iso p (.dir es) → ∀ e ∈ es, es.find? (fun x => x.1.1.found e.1.1.name) = some e

/-- What was copied to the target is still there. -/
def Keeps (iso : Node) (target left : Target) : Prop :=
  ∀ p d, resolve iso p = some (.file d) → target p = some d → left p = some d

/-- **Nothing fails and everything fits** in a round: no file is lost that was copied; a
directory is listed to its end, has room in the table and names that fit; the path of an entry
fits, and the queue has room if it is a directory; a file fits the buffer, is read, and is read
back from the target after it is written. -/
def Ok (iso : Node) (s : Inst) (e : Env) : Prop :=
  Keeps iso s.target (round iso s e).1.target ∧
  match s.ents[s.entI]? with
  | none => ∀ p ∈ s.queue.head?, e.listed = none ∧ ∀ es, resolve iso p = some (.dir es) →
      es.length ≤ entsMax ∧ ∀ x ∈ es, x.1.1.name.length < nameMax
  | some (name, isDir) => s.dir.length + 1 + name.length < pathMax ∧
      if isDir then s.queue.length + 1 < copyqMax
      else e.read ∧ ∀ d, resolve iso (childPath s.dir name) = some (.file d) →
        d.length ≤ maxFile ∧ e.write (childPath s.dir name) d s.target (childPath s.dir name) = some d

/-! ## Paths -/

section Paths

variable {iso n m k : Node} {p q a b : List Text} {c : Text}

theorem Under.append (h : Under n (a ++ b) m) : ∃ k, Under n a k ∧ Under k b m := by
  induction a generalizing n with
  | nil => exact ⟨n, .here n, h⟩
  | cons c a ih =>
    cases h with
    | into he h =>
      obtain ⟨k, hk, hm⟩ := ih h
      exact ⟨k, .into he hk, hm⟩

theorem Under.trans (h : Under n a k) (h' : Under k b m) : Under n (a ++ b) m := by
  induction h with
  | here => exact h'
  | into he _ ih => exact .into he (ih h')

/-- The names on the way to a file are legal. -/
theorem Under.legal (h : Under n p m) : ∀ c ∈ p, c ≠ [] ∧ slash ∉ c := by
  induction h with
  | here => exact fun _ hc => by cases hc
  | @into _ e _ _ _ _ ih => exact forall_mem_cons.2 ⟨⟨e.1.2.nonempty, e.1.2.noSlash⟩, ih⟩

/-- A name is read to its end. -/
theorem components_append (hc : slash ∉ c) {comp : Text}
    (hlen : (comp ++ c).length ≤ maxComponent) (rest : Text) :
    components comp (c ++ rest) = components (comp ++ c) rest := by
  induction c generalizing comp with
  | nil => rw [nil_append, append_nil]
  | cons b c ih =>
    have hb : b ≠ slash := fun h => hc (h ▸ mem_cons_self)
    have hlt : comp.length < maxComponent := by
      rw [length_append, length_cons] at hlen
      omega
    rw [append_cons] at hlen ⊢
    rw [cons_append, components, if_neg hb, if_pos hlt]
    exact ih (fun h => hc (mem_cons_of_mem _ h)) hlen

/-- **A path comes apart again** into its components. -/
theorem components_pathOf (hp : ∀ c ∈ p, c ≠ [] ∧ slash ∉ c)
    (hlen : ∀ c ∈ p, c.length ≤ maxComponent) (comp : Text) :
    components comp (pathOf p) = (if comp = [] then [] else [comp]) ++ p := by
  induction p generalizing comp with
  | nil => rw [append_nil]; rfl
  | cons c p ih =>
    obtain ⟨hc, hp⟩ := forall_mem_cons.1 hp
    obtain ⟨hcl, hlen⟩ := forall_mem_cons.1 hlen
    have hsplit : pathOf (c :: p) = slash :: (c ++ pathOf p) := rfl
    rw [hsplit, components, if_pos rfl, components_append hc.2 (by rwa [nil_append]),
      nil_append, ih hp hlen, if_neg hc.1]
    rfl

/-- The way to what is there, from a directory on the way. -/
theorem Under.walk (hiso : Apart iso) (hq : Under iso q n) (h : Under n p m) :
    n.walk p = some m := by
  induction h generalizing q with
  | here n => cases n <;> rfl
  | @into es e p m he _ ih =>
    rw [Node.walk, hiso q es hq e he]
    exact ih (hq.trans (.into he (.here _)))

/-- A name that fits the table. -/
def Short (p : List Text) : Prop := ∀ c ∈ p, c.length < nameMax

/-- **A path leads to what is there.** -/
theorem resolve_pathOf (hiso : Apart iso) (h : Under iso p m) (hp : Short p) :
    resolve iso (pathOf p) = some m := by
  have hlen : ∀ c ∈ p, c.length ≤ maxComponent := fun c hc =>
    Nat.le_trans (Nat.le_of_lt (hp c hc)) (by decide)
  rw [resolve, components_pathOf h.legal hlen]
  exact Under.walk hiso (.here iso) h

/-- The path of an entry, if it fits. -/
theorem childPath_pathOf {dir : Text} (h : Under n (a ++ [c]) m) (hdir : dir = pathOf a)
    (hfit : dir.length + 1 + c.length < pathMax) :
    childPath dir c = pathOf (a ++ [c]) ∧ (pathOf (a ++ [c])).length < pathMax := by
  subst hdir
  have hroot : pathOf a ≠ [slash] := by
    cases a with
    | nil => exact fun h => by cases h
    | cons n a =>
      intro hroot
      obtain ⟨hn, -⟩ := append_eq_nil_iff.1 (cons.inj hroot).2
      exact (h.legal n mem_cons_self).1 hn
  have hsplit : pathOf (a ++ [c]) = pathOf a ++ slash :: c := by
    simp only [pathOf, flatMap_append, flatMap_cons, flatMap_nil, append_nil]
  have hlen : (pathOf a ++ slash :: c).length < pathMax := by
    rw [length_append, length_cons]
    omega
  rw [hsplit]
  refine ⟨?_, hlen⟩
  rw [childPath, if_neg hroot]
  exact take_of_length_le (Nat.le_sub_one_of_lt hlen)

theorem qPush_of_fits {l : List Text} {t : Text} (hl : l.length + 1 < copyqMax)
    (ht : t.length < pathMax) : qPush l t = l ++ [t] := by
  rw [qPush, if_neg (Nat.ne_of_lt hl), take_of_length_le (Nat.le_sub_one_of_lt ht)]

/-- **A directory that fits is listed whole**, after what is in the table. -/
theorem foldl_enumCb {es : List Record} {l : List (Text × Bool)}
    (hl : l.length + es.length ≤ entsMax) (hes : ∀ x ∈ es, x.1.1.name.length < nameMax) :
    es.foldl enumCb l = l ++ es.map fun x => (x.1.1.name, x.2.isDir) := by
  induction es generalizing l with
  | nil => rw [map_nil, append_nil]; rfl
  | cons e es ih =>
    obtain ⟨he, hes⟩ := forall_mem_cons.1 hes
    rw [length_cons] at hl
    have hrep : e.1.1.reported = e.1.1.name :=
      take_of_length_le (Nat.le_trans (Nat.le_of_lt he) (by decide))
    have hcb : enumCb l e = l ++ [(e.1.1.name, e.2.isDir)] := by
      have hno : ¬ (e.1.1.name = [0x2E] ∨ e.1.1.name = [0x2E, 0x2E] ∨ entsMax ≤ l.length) := by
        rintro (h | h | h)
        · exact e.1.2.notDot h
        · exact e.1.2.notDots h
        · omega
      rw [enumCb, hrep, if_neg hno, take_of_length_le (Nat.le_sub_one_of_lt he)]
    rw [foldl_cons, hcb, ih (by rw [length_append, length_singleton]; omega) hes,
      append_assoc]
    rfl

end Paths

/-! ## The walk -/

/-- **A file or directory is still to be taken up**: it is queued, or it is an entry after the
present one. -/
inductive Waiting (s : Inst) : List Text → Node → Prop
  | queued {a : List Text} {k : Node} (hq : pathOf a ∈ s.queue) (hk : k.isDir = true) : Waiting s a k
  | noted {a : List Text} {c : Text} {k : Node} (hd : s.dir = pathOf a)
    (he : (c, k.isDir) ∈ s.ents.drop s.entI) : Waiting s (a ++ [c]) k

/-- **A file is not forgotten**: it is copied, or it is below something that waits, or in a tree
whose turn has not come. -/
inductive Settled (iso : Node) (s : Inst) (d : List UInt8) : List Text → Prop
  | copied {p : List Text} (hp : s.target (pathOf p) = some d)
    (hr : resolve iso (pathOf p) = some (.file d)) : Settled iso s d p
  | pending {a b : List Text} {k : Node} (ha : Under iso a k) (hb : Under k b (.file d))
    (hs : Short a) (hw : Waiting s a k) : Settled iso s d (a ++ b)
  | later {t : Text} {b : List Text} (ht : pathOf [t] ∈ s.trees.drop (s.treeI + 1))
    (hs : Short [t]) (hb : b ≠ []) (hu : Under iso (t :: b) (.file d)) : Settled iso s d (t :: b)

/-- A file below a directory is below one of its entries. -/
theorem Under.entry {k : Node} {b : List Text} {d : List UInt8} (hk : k.isDir = true)
    (h : Under k b (.file d)) : ∃ es, k = .dir es ∧ ∃ e ∈ es, ∃ b', b = e.1.1.name :: b' ∧
      Under e.2 b' (.file d) := by
  cases h with
  | here => cases hk
  | @into es e p _ he h => exact ⟨es, rfl, e, he, p, rfl, h⟩

/-- The directory above a file that has one is a directory. -/
theorem Under.isDir {k : Node} {b : List Text} {m : Node} (hb : b ≠ []) (h : Under k b m) :
    k.isDir = true := by
  cases h with
  | here => exact absurd rfl hb
  | into => rfl

section Rounds

variable {iso : Node} {s : Inst} {e : Env} {d : List UInt8} {p : List Text}

/-- A file is copied to its path. -/
theorem copyFile_self {t : Text} {target : Target} (hr : resolve iso t = some (.file d))
    (hread : e.read = true) (hd : d.length ≤ maxFile) (hwrite : e.write t d target t = some d) :
    copyFile iso target t e t = some d := by
  rw [copyFile, hr]
  dsimp only
  rw [if_pos hread, take_of_length_le hd, hwrite]

/-- An entry that waits is the present one or a later one. -/
theorem Waiting.next {name : Text} {isDir : Bool} (hent : s.ents[s.entI]? = some (name, isDir))
    {t : Inst} (hq : ∀ x ∈ s.queue, x ∈ t.queue) (hd : t.dir = s.dir) (he : t.ents = s.ents)
    (hi : t.entI = s.entI + 1) {a : List Text} {k : Node} (h : Waiting s a k) :
    Waiting t a k ∨ k.isDir = isDir ∧ ∃ a', a = a' ++ [name] ∧ s.dir = pathOf a' := by
  cases h with
  | queued hm hk => exact .inl (.queued (hq _ hm) hk)
  | @noted a' c _ hdir hm =>
    obtain ⟨hlt, hget⟩ := List.getElem?_eq_some_iff.1 hent
    rw [drop_eq_getElem_cons hlt, hget, mem_cons] at hm
    rcases hm with hm | hm
    · obtain ⟨rfl, hk⟩ := Prod.mk.inj hm
      exact .inr ⟨hk, a', rfl, hdir⟩
    · exact .inl (.noted (hd.trans hdir) (by rwa [he, hi]))

/-- A file that is not copied yet stays settled when what waits is dealt with. -/
theorem Settled.of_waiting {t : Inst} (h : Settled iso s d p)
    (hcopied : ¬ (resolve iso (pathOf p) = some (.file d) ∧ s.target (pathOf p) = some d))
    (htrees : t.trees.drop (t.treeI + 1) = s.trees.drop (s.treeI + 1))
    (hw : ∀ a b k, Under iso a k → Under k b (.file d) → Short a → Waiting s a k →
      Settled iso t d (a ++ b)) : Settled iso t d p := by
  cases h with
  | copied hp hr => exact absurd ⟨hr, hp⟩ hcopied
  | pending ha hb hs h => exact hw _ _ _ ha hb hs h
  | later ht hs hb hu => exact .later (htrees ▸ ht) hs hb hu

/-- **A round forgets no file**, if nothing fails and everything fits. -/
theorem Settled.round (hiso : Apart iso) (h : Settled iso s d p) (hok : Ok iso s e) :
    Settled iso (round iso s e).1 d p := by
  obtain ⟨hkeeps, hok⟩ := hok
  -- a file that was copied is dealt with, whatever the round does
  by_cases hcopied : resolve iso (pathOf p) = some (.file d) ∧ s.target (pathOf p) = some d
  · exact .copied (hkeeps _ _ hcopied.1 hcopied.2) hcopied.1
  unfold Installer.round
  cases hent : s.ents[s.entI]? with
  | none =>
    rw [hent] at hok
    have hdrop : s.ents.drop s.entI = [] :=
      drop_eq_nil_of_le (getElem?_eq_none_iff.1 hent)
    cases hqueue : s.queue with
    | nil =>
      -- nothing waits: the file is copied, or in a tree that comes later
      cases h with
      | pending _ _ _ hw =>
        cases hw with
        | queued hm => rw [hqueue] at hm; cases hm
        | noted _ hm => rw [hdrop] at hm; cases hm
      | copied hp hr => exact absurd ⟨hr, hp⟩ hcopied
      | @later t b ht hs hb hu =>
        dsimp only
        split
        next hnone =>
          rw [drop_eq_nil_of_le (getElem?_eq_none_iff.1 hnone)] at ht
          cases ht
        next t' hsome =>
          obtain ⟨hlt, hget⟩ := List.getElem?_eq_some_iff.1 hsome
          rw [drop_eq_getElem_cons hlt, hget, mem_cons] at ht
          rcases ht with ht | ht
          · obtain ⟨k, hk, hrest⟩ := Under.append (a := [t]) hu
            refine .pending hk hrest hs (.queued ?_ (hrest.isDir hb))
            have hfit : (pathOf [t]).length < pathMax := by
              have hlen := hs t (mem_singleton_self t)
              simp only [pathOf, flatMap_singleton, length_cons]
              unfold nameMax at hlen
              unfold pathMax
              omega
            rw [← ht, qPush_of_fits (by decide) hfit]
            exact mem_append_right _ (mem_singleton_self _)
          · exact .later ht hs hb hu
    | cons q rest =>
      rw [hqueue] at hok
      obtain ⟨hlisted, hfits⟩ := hok q rfl
      refine h.of_waiting hcopied rfl fun a b k ha hb hs hw => ?_
      cases hw with
      | noted _ hm => rw [hdrop] at hm; cases hm
      | queued hm hk =>
        rw [hqueue, mem_cons] at hm
        rcases hm with rfl | hm
        · -- the directory is taken up: the file is below one of its entries
          obtain ⟨es, rfl, x, hx, b, rfl, hfile⟩ := hb.entry hk
          have hres := resolve_pathOf hiso ha hs
          obtain ⟨hroom, hnames⟩ := hfits es hres
          have hlist : listing iso (pathOf a) e.listed
              = es.map fun x => (x.1.1.name, x.2.isDir) := by
            rw [listing, hres, hlisted]
            exact foldl_enumCb (by rwa [length_nil, Nat.zero_add]) hnames
          rw [append_cons]
          refine .pending (ha.trans (.into hx (.here _))) hfile ?_ (.noted rfl ?_)
          · exact forall_mem_append.2 ⟨hs, forall_mem_singleton.2 (hnames x hx)⟩
          · dsimp only
            rw [drop_zero, hlist]
            exact mem_map_of_mem hx
        · exact .pending ha hb hs (.queued hm hk)
  | some x =>
    obtain ⟨name, isDir⟩ := x
    rw [hent] at hok
    obtain ⟨hfit, hok⟩ := hok
    cases isDir with
    | true =>
      refine h.of_waiting hcopied rfl fun a b k ha hb hs hw => ?_
      have hpush : ∀ x ∈ s.queue, x ∈ qPush s.queue (childPath s.dir name) := by
        intro x hx
        rw [qPush]
        split
        · exact hx
        · exact mem_append_left _ hx
      rcases hw.next (t := { s with
          entI := s.entI + 1
          queue := qPush s.queue (childPath s.dir name)
          target := e.mkdir (childPath s.dir name) s.target }) hent hpush
          rfl rfl rfl with hw | ⟨hk, a, rfl, hdir⟩
      · exact .pending ha hb hs hw
      · -- the entry is queued
        obtain ⟨hchild, hlen⟩ := childPath_pathOf ha hdir hfit
        refine .pending ha hb hs (.queued ?_ hk)
        dsimp only
        rw [hchild, qPush_of_fits hok hlen]
        exact mem_append_right _ (mem_singleton_self _)
    | false =>
      obtain ⟨hread, hwrite⟩ := hok
      refine h.of_waiting hcopied rfl fun a b k ha hb hs hw => ?_
      rcases hw.next (t := { s with
          entI := s.entI + 1
          target := copyFile iso s.target (childPath s.dir name) e }) hent (fun _ hx => hx)
          rfl rfl rfl with hw | ⟨hk, a, rfl, hdir⟩
      · exact .pending ha hb hs hw
      · -- the entry is the file itself
        cases hb with
        | into => cases hk
        | here =>
          rw [append_nil]
          have hr := resolve_pathOf hiso ha hs
          dsimp only
          rw [(childPath_pathOf ha hdir hfit).1] at hwrite ⊢
          exact .copied (copyFile_self hr hread (hwrite d hr).1 (hwrite d hr).2) hr

/-- **At the end nothing waits**, so every file is copied. -/
theorem Settled.done (h : Settled iso s d p) (hdone : (Installer.round iso s e).2 = .done) :
    s.target (pathOf p) = some d := by
  unfold Installer.round at hdone
  cases hent : s.ents[s.entI]? with
  | some x =>
    rw [hent] at hdone
    obtain ⟨name, _ | _⟩ := x <;> cases hdone
  | none =>
    rw [hent] at hdone
    cases hqueue : s.queue with
    | cons q rest => rw [hqueue] at hdone; cases hdone
    | nil =>
      rw [hqueue] at hdone
      dsimp only at hdone
      split at hdone
      next hnone =>
        cases h with
        | copied hp _ => exact hp
        | pending _ _ _ hw =>
          cases hw with
          | queued hm => rw [hqueue] at hm; cases hm
          | noted _ hm =>
            rw [drop_eq_nil_of_le (getElem?_eq_none_iff.1 hent)] at hm
            cases hm
        | later ht =>
          rw [drop_eq_nil_of_le (getElem?_eq_none_iff.1 hnone)] at ht
          cases ht
      next => cases hdone

theorem round_target_of_done (hdone : (Installer.round iso s e).2 = .done) :
    (Installer.round iso s e).1.target = s.target := by
  unfold Installer.round at hdone ⊢
  split at hdone
  · split at hdone
    · rfl
    · split at hdone
      · rfl
      · cases hdone
  · cases hdone
  · cases hdone

end Rounds

/-! ## Whole installations -/

/-- **No file is forgotten.** -/
def Kept (iso : Node) (docs src : Bool) (s : Inst) : Prop :=
  ∀ t ∈ selected docs src, ∀ p d, p ≠ [] → Under iso (t :: p) (.file d) → Settled iso s d (t :: p)

section Run

variable {iso : Node} {docs src : Bool} {s t : Inst} {o : Out}

theorem Kept.round (hiso : Apart iso) (h : Kept iso docs src s) {e : Env} (hok : Ok iso s e) :
    Kept iso docs src (round iso s e).1 :=
  fun t ht p d hp hu => (h t ht p d hp hu).round hiso hok

/-- A call keeps every file in mind, and has copied all of them if it sets `done`. -/
theorem Call.kept (hiso : Apart iso) (h : Call iso (Ok iso) s o t) (hs : Kept iso docs src s) :
    Kept iso docs src t ∧ (o = .done → Complete iso docs src t) := by
  induction h with
  | returns e hok _ =>
    refine ⟨hs.round hiso hok, fun hdone n hn p d hp hu => ?_⟩
    rw [round_target_of_done hdone]
    exact (hs n hn p d hp hu).done hdone
  | goesOn e hok _ _ ih => exact ih (hs.round hiso hok)

theorem Calls.kept (hiso : Apart iso) (h : Calls iso (Ok iso) s o t) (hs : Kept iso docs src s) :
    o = .done → Complete iso docs src t := by
  induction h with
  | last h => exact (h.kept hiso hs).2
  | cons h _ ih => exact ih (h.kept hiso hs).1

/-- The names of the trees fit the table, and the first of them is `apps`. -/
theorem selected_spec (docs src : Bool) : Short (selected docs src) ∧
    ∃ rest, selected docs src = [0x61, 0x70, 0x70, 0x73] :: rest := by
  cases docs <;> cases src <;> exact ⟨by unfold Short; decide, _, rfl⟩

/-- At the start every file is in the first tree, which is queued, or in a later one. -/
theorem Kept.start (docs src : Bool) (target : Target) :
    Kept iso docs src (start docs src target) := by
  intro t ht p d hp hu
  obtain ⟨hshort, rest, hsel⟩ := selected_spec docs src
  have hs : Short [t] := forall_mem_singleton.2 (hshort t ht)
  rw [hsel, mem_cons] at ht
  rcases ht with rfl | ht
  · obtain ⟨k, hk, hrest⟩ := Under.append (a := [[0x61, 0x70, 0x70, 0x73]]) hu
    exact .pending hk hrest hs (.queued mem_cons_self (hrest.isDir hp))
  · refine .later ?_ hs hp hu
    have htrees : (Installer.start docs src target).trees
        = (selected docs src).map fun t => pathOf [t] := rfl
    rw [htrees, hsel]
    exact mem_map_of_mem ht

/-- **An installation is complete when it says so**, if nothing failed and everything fitted
along the way and the names on the disc can be told apart. -/
theorem complete_of_calls (iso : Node) (docs src : Bool) (target : Target) (s : Inst) (hiso : Apart iso)
    (h : Calls iso (Ok iso) (start docs src target) .done s) : Complete iso docs src s :=
  h.kept hiso (Kept.start docs src target) rfl

end Run

/-- The record of the file `x`. -/
def recordX : Record :=
  (⟨⟨[], [0x78]⟩, by decide, by decide, by decide, by decide, by decide⟩, .file [7])

/-- The record of the directory `apps` with it. -/
def recordApps : Record :=
  (⟨⟨[], [0x61, 0x70, 0x70, 0x73]⟩, by decide, by decide, by decide, by decide, by decide⟩,
    .dir [recordX])

/-- An empty target. -/
def empty : Inst := start false false fun _ => none

/-- The state after these rounds on a disc with the file `/apps/x`. -/
def rounds (es : List Env) : Inst :=
  es.foldl (fun s e => (round (.dir [recordApps]) s e).1) empty

/-- A round in which nothing fails, or only the write does. -/
def fine (wrote : Bool) : Env :=
  ⟨none, true, fun p d target => if wrote then Function.update target p (some d) else target,
    fun _ target => target⟩

/-- The two calls that copy `/apps/x`: in the second round the file is copied. -/
theorem calls_oneFile {ok : Inst → Env → Prop} (w : Bool) (h1 : ok empty (fine true))
    (h2 : ok (rounds [fine true]) (fine w)) (h3 : ok (rounds [fine true, fine w]) (fine true))
    (h4 : ok (rounds [fine true, fine w, fine true]) (fine true))
    (h5 : ok (rounds [fine true, fine w, fine true, fine true]) (fine true)) :
    Calls (.dir [recordApps]) ok empty .done
      (rounds [fine true, fine w, fine true, fine true, fine true]) :=
  .cons (.goesOn _ h1 rfl (.returns _ h2 (fun h => by cases h)))
    (.last (.goesOn _ h3 rfl (.goesOn _ h4 rfl (.returns _ h5 (fun h => by cases h)))))

theorem apart_oneFile : Apart (.dir [recordApps]) := by
  intro p es h
  cases h with
  | here => exact forall_mem_singleton.2 rfl
  | into he h =>
    rw [mem_singleton.1 he] at h
    cases h with
    | here => exact forall_mem_singleton.2 rfl
    | into he h =>
      rw [mem_singleton.1 he] at h
      cases h

/-- The file is read and written. -/
theorem complete_of_calls_oneFile : Complete (.dir [recordApps]) false false
    (rounds [fine true, fine true, fine true, fine true, fine true]) := by
  have hsame : ∀ target, Keeps (.dir [recordApps]) target target := fun _ _ _ _ h => h
  refine complete_of_calls _ false false (fun _ => none) _ apart_oneFile (calls_oneFile true
    ⟨hsame _, ?_⟩ ⟨fun _ _ _ h => (by cases h), ?_⟩ ⟨hsame _, fun p hp => by cases hp⟩
    ⟨hsame _, ?_⟩ ⟨hsame _, fun p hp => by cases hp⟩)
  · intro p hp
    obtain rfl := Option.some.inj hp
    refine ⟨rfl, fun es hes => ?_⟩
    obtain rfl : [recordX] = es := Node.dir.inj (Option.some.inj hes)
    exact ⟨by decide, forall_mem_singleton.2 (by decide)⟩
  · refine ⟨by decide, rfl, fun d hd => ?_⟩
    obtain rfl : [7] = d := Node.file.inj (Option.some.inj hd)
    exact ⟨by decide, rfl⟩
  · intro p hp
    obtain rfl := Option.some.inj hp
    exact ⟨rfl, fun es hes => by cases hes⟩

/-- The file is read and cannot be written, and the installer says it is done. -/
theorem done_without_file : Calls (.dir [recordApps]) (fun _ _ => True) empty .done
      (rounds [fine true, fine false, fine true, fine true, fine true]) ∧
    ¬ Complete (.dir [recordApps]) false false
      (rounds [fine true, fine false, fine true, fine true, fine true]) := by
  refine ⟨calls_oneFile _ trivial trivial trivial trivial trivial, fun h => ?_⟩
  have hx : Under (.dir [recordApps]) [[0x61, 0x70, 0x70, 0x73], [0x78]] (.file [7]) :=
    .into mem_cons_self (.into mem_cons_self (.here _))
  have hcopy := h _ mem_cons_self _ _ (cons_ne_nil _ _) hx
  cases hcopy

end Installer

end Makar
