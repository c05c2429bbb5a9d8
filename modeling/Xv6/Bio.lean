import Xv6.IdeRefines
import Xv6.Layout

/-!
# The buffer cache

`bio.c` and `log_write`, by their single instructions, for any number of processes. The code that
holds `bcache.lock` is interleaved with processes that use the buffers they own, change their
flags in `bwrite` and `log_write` or wait for the disk. A process that sleeps in `bget` may be woken up
at any time.

The disk is a sector store for each device. `iderw` executes its request at some moment between
its call and its return, which is what both drivers do (`iderw_mem`, `ideExec_eq_iderw`).

Processes use the cache as `bio.c` asks them to: they touch a buffer only between `bread` and
`brelse`, and after changing its data they call `bwrite` or `log_write` before `brelse`.
-/

open Function

namespace Xv6

namespace Bio

open Ide (Buf)

variable {α : Type} {n : Nat}

/-! ### The disk -/

/-- The sector that a buffer is for. -/
def key (b : Buf α) : Nat × Nat := (b.dev, b.sector)

/-- `b->dev = -1`: the buffer has not been used yet. -/
def NODEV : Nat := 2 ^ 32 - 1

/-- A request, on disks with `size dev` sectors each. -/
def iderw (size : Nat → Nat) (disk : Nat × Nat → α) (b : Buf α) :
    Except String ((Nat × Nat → α) × Buf α) :=
  if b.busy = false then .error "iderw: buf not busy"
  else if b.synced then .error "iderw: nothing to do"
  else if size b.dev ≤ b.sector then .error "iderw: sector out of range"
  else if b.dirty then
    .ok (update disk (key b) b.data, { b with valid := true, dirty := false })
  else .ok (disk, { b with data := disk (key b), valid := true })

/-! ### The state -/

/-- A pointer to a buffer, or to `bcache.head`, which is `none`. -/
abbrev Node (n : Nat) := Option (Fin n)

/-- The pointers of the list of buffers. -/
structure Links (n : Nat) where
  next : Node n → Node n
  prev : Node n → Node n

namespace Links

/-- `b->next->prev = b->prev; b->prev->next = b->next` -/
def remove (L : Links n) (b : Node n) : Links n :=
  let L := { L with prev := update L.prev (L.next b) (L.prev b) }
  { L with next := update L.next (L.prev b) (L.next b) }

/-- `b->next = head.next; b->prev = &head; head.next->prev = b; head.next = b` -/
def insert (L : Links n) (b : Node n) : Links n :=
  let L := { L with next := update L.next b (L.next none) }
  let L := { L with prev := update L.prev b none }
  let L := { L with prev := update L.prev (L.next none) b }
  { L with next := update L.next none b }

end Links

/-- The list that `binit` makes. -/
def binit (n : Nat) : Links n :=
  (List.finRange n).foldl (fun L b => L.insert (some b)) ⟨fun _ => none, fun _ => none⟩

/-- What `log_write` uses of `struct log`. -/
structure Log where
  start : Nat
  size : Nat
  busy : Bool
  n : Nat
  sector : Nat → Nat

/-- Who has called `bread`, `bwrite` or `brelse`: a user of the cache, or `log_write(b)` for the log
slot `i`. -/
inductive Caller (n : Nat) where
  | user
  | logWrite (b : Fin n) (i : Nat)
  deriving DecidableEq, Repr

/-- Where a process is. -/
inductive Pc (n : Nat) where
  | user
  /-- `acquire(&bcache.lock)` of `bget`, or of `sleep` in it. -/
  | enter (dev sector : Nat) (k : Caller n)
  /-- The loop that looks for the sector, at `c`. -/
  | find (dev sector : Nat) (c : Node n) (k : Caller n)
  | asleep (b : Fin n) (dev sector : Nat) (k : Caller n)
  /-- The loop that looks for a buffer to recycle, at `c`. -/
  | recycle (dev sector : Nat) (c : Node n) (k : Caller n)
  /-- `release(&bcache.lock); return b` -/
  | got (dev sector : Nat) (b : Fin n) (k : Caller n)
  /-- `if(!(b->flags & B_VALID))` -/
  | fill (dev sector : Nat) (b : Fin n) (k : Caller n)
  /-- In `iderw(b)`, called by `bread`. -/
  | reading (dev sector : Nat) (b : Fin n) (k : Caller n)
  /-- `bread` returns `b`. -/
  | ret (dev sector : Nat) (b : Fin n) (k : Caller n)
  /-- `bwrite(b)`: the check, and `b->flags |= B_DIRTY`. -/
  | bwrite (b : Fin n) (k : Caller n)
  /-- In `iderw(b)`, called by `bwrite`. -/
  | writing (b : Fin n) (k : Caller n)
  /-- `brelse(b)`: the check, and `acquire(&bcache.lock)`. -/
  | brelse (b : Fin n) (k : Caller n)
  | relink (b : Fin n) (k : Caller n)
  /-- `b->flags &= ~B_BUSY` -/
  | clearBusy (b : Fin n) (k : Caller n)
  | wakeup (b : Fin n) (k : Caller n)
  /-- `release(&bcache.lock)` of `brelse`. -/
  | leave (k : Caller n)
  /-- `log_write(b)`: the checks. -/
  | logCheck (b : Fin n)
  /-- The loop of `log_write`. -/
  | logFind (b : Fin n) (i : Nat)
  /-- `memmove(lbuf->data, b->data, BSIZE)` -/
  | logCopy (b : Fin n) (i : Nat) (lbuf : Fin n)
  /-- `if (i == log.lh.n) log.lh.n++` -/
  | logCount (b : Fin n) (i : Nat)
  /-- `b->flags |= B_DIRTY` of `log_write`. -/
  | logDirty (b : Fin n)
  deriving DecidableEq, Repr

/-- The state of the cache. The last fields are there for the statements: the buffers that
each process has got from `bget` and not given back; which buffers were changed since `bread`,
`bwrite` or `log_write`; and all contents that were given to sectors by `bwrite` and `log_write`,
the latest first. -/
structure State (n : Nat) (α : Type) where
  lock : Option Nat
  buf : Fin n → Buf α
  links : Links n
  disk : Nat × Nat → α
  log : Log
  pc : Nat → Pc n
  holds : Nat → List (Fin n)
  changed : Fin n → Bool
  given : List ((Nat × Nat) × α)

/-- The contents given to a sector last; at first it has those of the disk. -/
def lastGiven (disk : Nat × Nat → α) : List ((Nat × Nat) × α) → Nat × Nat → α
  | [], x => disk x
  | (y, d) :: given, x => if y = x then d else lastGiven disk given x

namespace State

def goto (s : State n α) (p : Nat) (c : Pc n) : State n α :=
  { s with pc := update s.pc p c }

def setBuf (s : State n α) (b : Fin n) (x : Buf α) : State n α :=
  { s with buf := update s.buf b x }

/-- The process gets the buffer, as `x`. -/
def take (s : State n α) (p : Nat) (b : Fin n) (x : Buf α) : State n α :=
  { s.setBuf b x with holds := update s.holds p (b :: s.holds p) }

/-- The owner changes the data of its buffer. -/
def write (s : State n α) (b : Fin n) (d : α) : State n α :=
  { s.setBuf b { s.buf b with data := d } with changed := update s.changed b true }

/-- The data of the buffer becomes the contents of its sector. -/
def give (s : State n α) (b : Fin n) : State n α :=
  { s with
    given := (key (s.buf b), (s.buf b).data) :: s.given
    changed := update s.changed b false }

end State

/-- `wakeup(b)` -/
def Pc.wake (b : Fin n) : Pc n → Pc n
  | .asleep c dev sector k => if c = b then .enter dev sector k else .asleep c dev sector k
  | c => c

/-! ### The steps -/

/-- What the next instruction of a process does. -/
inductive Result (σ : Type) where
  | next (s : σ)
  | wait
  | panic (msg : String)

/-- One instruction of process `p`. -/
def exec (size : Nat → Nat) (s : State n α) (p : Nat) : Result (State n α) :=
  match s.pc p with
  | .user => .wait
  | .enter dev sector k =>
    if s.lock = none then
      .next ({ s with lock := some p }.goto p (.find dev sector (s.links.next none) k))
    else .wait
  | .find dev sector (some b) k =>
    if key (s.buf b) = (dev, sector) then
      if (s.buf b).busy then .next ({ s with lock := none }.goto p (.asleep b dev sector k))
      else .next ((s.take p b { s.buf b with busy := true }).goto p (.got dev sector b k))
    else .next (s.goto p (.find dev sector (s.links.next (some b)) k))
  | .find dev sector none k => .next (s.goto p (.recycle dev sector (s.links.prev none) k))
  | .asleep _ _ _ _ => .wait
  | .recycle dev sector (some b) k =>
    if (s.buf b).busy = false ∧ (s.buf b).dirty = false then
      .next ((s.take p b { s.buf b with
        dev := dev, sector := sector, busy := true, valid := false, dirty := false }).goto p
          (.got dev sector b k))
    else .next (s.goto p (.recycle dev sector (s.links.prev (some b)) k))
  | .recycle _ _ none _ => .panic "bget: no buffers"
  | .got dev sector b k => .next ({ s with lock := none }.goto p (.fill dev sector b k))
  | .fill dev sector b k =>
    if (s.buf b).valid then .next (s.goto p (.ret dev sector b k))
    else .next (s.goto p (.reading dev sector b k))
  | .reading dev sector b k =>
    match iderw size s.disk (s.buf b) with
    | .error msg => .panic msg
    | .ok (disk, x) => .next (({ s with disk := disk }.setBuf b x).goto p (.ret dev sector b k))
  | .ret _ _ _ .user => .next (s.goto p .user)
  | .ret _ _ lbuf (.logWrite b i) => .next (s.goto p (.logCopy b i lbuf))
  | .bwrite b k =>
    if (s.buf b).busy = false then .panic "bwrite"
    else .next ((s.setBuf b { s.buf b with dirty := true }).goto p (.writing b k))
  | .writing b k =>
    match iderw size s.disk (s.buf b) with
    | .error msg => .panic msg
    | .ok (disk, x) =>
      .next (({ s.give b with disk := disk }.setBuf b x).goto p
        (match k with
        | .user => .user
        | .logWrite b' i => .brelse b (.logWrite b' i)))
  | .brelse b k =>
    if (s.buf b).busy = false then .panic "brelse"
    else if s.lock = none then .next ({ s with lock := some p }.goto p (.relink b k))
    else .wait
  | .relink b k =>
    .next ({ s with links := (s.links.remove (some b)).insert (some b) }.goto p (.clearBusy b k))
  | .clearBusy b k =>
    .next ({ s.setBuf b { s.buf b with busy := false } with
      holds := update s.holds p ((s.holds p).erase b) }.goto p (.wakeup b k))
  | .wakeup b k => .next ({ s with pc := fun q => (s.pc q).wake b }.goto p (.leave k))
  | .leave k =>
    .next ({ s with lock := none }.goto p
      (match k with
      | .user => .user
      | .logWrite b i => .logCount b i))
  | .logCheck b =>
    if LOGSIZE ≤ s.log.n ∨ s.log.size - 1 ≤ s.log.n then .panic "too big a transaction"
    else if s.log.busy = false then .panic "write outside of trans"
    else .next (s.goto p (.logFind b 0))
  | .logFind b i =>
    if i < s.log.n ∧ s.log.sector i ≠ (s.buf b).sector then .next (s.goto p (.logFind b (i + 1)))
    else
      .next ({ s with log := { s.log with
        sector := update s.log.sector i (s.buf b).sector } }.goto p
          (.enter (s.buf b).dev (s.log.start + i + 1) (.logWrite b i)))
  | .logCopy b i lbuf =>
    .next ((s.write lbuf (s.buf b).data).goto p (.bwrite lbuf (.logWrite b i)))
  | .logCount b i =>
    .next ({ s with log := if i = s.log.n then { s.log with n := s.log.n + 1 } else s.log }.goto p
      (.logDirty b))
  | .logDirty b => .next (((s.give b).setBuf b { s.buf b with dirty := true }).goto p .user)

/-- The steps: a process calls a function of the cache for a buffer it owns, or changes its data; it
executes an instruction or is woken up; the rest of `log.c` changes `struct log`. -/
inductive Act (n : Nat) (α : Type) where
  | bread (p dev sector : Nat)
  | modify (p : Nat) (b : Fin n) (d : α)
  | bwrite (p : Nat) (b : Fin n)
  | logWrite (p : Nat) (b : Fin n)
  | brelse (p : Nat) (b : Fin n)
  | exec (p : Nat)
  | wake (p : Nat)
  | log (l : Log)

def step (size : Nat → Nat) (s : State n α) : Act n α → Option (State n α)
  | .bread p dev sector =>
    if s.pc p = .user then some (s.goto p (.enter dev sector .user)) else none
  | .modify p b d => if s.pc p = .user ∧ b ∈ s.holds p then some (s.write b d) else none
  | .bwrite p b => if s.pc p = .user ∧ b ∈ s.holds p then some (s.goto p (.bwrite b .user)) else none
  | .logWrite p b => if s.pc p = .user ∧ b ∈ s.holds p then some (s.goto p (.logCheck b)) else none
  | .brelse p b =>
    if s.pc p = .user ∧ b ∈ s.holds p ∧ s.changed b = false then
      some (s.goto p (.brelse b .user))
    else none
  | .exec p =>
    match exec size s p with
    | .next s' => some s'
    | _ => none
  | .wake p =>
    match s.pc p with
    | .asleep _ dev sector k => some (s.goto p (.enter dev sector k))
    | _ => none
  | .log l => some { s with log := l }

/-- The cache after `binit`; the buffers hold anything. -/
def init (disk : Nat × Nat → α) (data : Fin n → α) (log : Log) : State n α where
  lock := none
  buf b := { busy := false, valid := false, dirty := false, dev := NODEV, sector := 0, data := data b }
  links := binit n
  disk := disk
  log := log
  pc _ := .user
  holds _ := []
  changed _ := false
  given := []

def runActs (size : Nat → Nat) : List (Act n α) → State n α → Option (State n α)
  | [], s => some s
  | a :: as, s => (step size s a).bind (runActs size as)

/-! ### The two drivers -/

/-- `memide.c` is this disk, with device 1 only. -/
theorem iderw_mem {bytes : UInt32} {mem mem' : Nat → α} {disk : Nat × Nat → α} {b x : Buf α}
    (h : Ide.memIderw bytes mem b = .ok (mem', x)) (hd : ∀ i, disk (1, i) = mem i) :
    ∃ disk', iderw (fun dev => if dev = 1 then Ide.disksize bytes else 0) disk b = .ok (disk', x) ∧
      ∀ i, disk' (1, i) = mem' i := by
  rw [Ide.memIderw] at h
  split at h
  · cases h
  next hbusy =>
  split at h
  · cases h
  next hsync =>
  split at h
  · cases h
  next hdev =>
  split at h
  · cases h
  next hsec =>
  have hdev : b.dev = 1 := not_not.mp hdev
  have hkey : key b = (1, b.sector) := by rw [key, hdev]
  rw [iderw, if_neg hbusy, if_neg hsync, if_neg (by rw [hdev]; exact hsec), hkey]
  split at h
  · next hdirty =>
    cases h
    refine ⟨_, by rw [if_pos hdirty], fun i => ?_⟩
    by_cases e : i = b.sector
    · rw [e, update_self, update_self]
    · rw [update_of_ne e, update_of_ne fun e' => e (Prod.ext_iff.mp e').2, hd]
  · next hclean =>
    cases h
    exact ⟨disk, by rw [if_neg hclean, hd], hd⟩

/-- `ide.c` is this disk, for two drives with sector numbers of 28 bits. -/
theorem ideExec_eq_iderw {size : Nat → Nat} {disk disk' : Nat × Nat → α} {b x : Buf α}
    (h : iderw size disk b = .ok (disk', x)) (hsize : ∀ dev, size dev ≤ 2 ^ 28)
    (hdrives : ∀ dev, 2 ≤ dev → size dev = 0) :
    Ide.ideExec (Function.curry disk) b = (Function.curry disk', x) := by
  rw [iderw] at h
  split at h
  · cases h
  split at h
  · cases h
  split at h
  · cases h
  next hsec =>
  have hdrive : b.dev % 2 = b.dev := by
    by_contra e
    have := hdrives b.dev (by omega)
    omega
  have hlba : Ide.lba b.sector = b.sector := Ide.lba_of_lt (by have := hsize b.dev; omega)
  rw [Ide.ideExec, hdrive, hlba]
  split at h
  · next hdirty =>
    cases h
    rw [if_pos hdirty]
    refine Prod.ext (funext fun dev => funext fun i => ?_) rfl
    simp only [update_apply, Function.curry, key, Prod.mk.injEq]
    split
    · next e => simp only [e, true_and, update_apply, Function.curry]
    · next e =>
      simp only [e, false_and, if_false]
      rfl
  · next hclean =>
    cases h
    rw [if_neg hclean]
    rfl

end Bio

end Xv6
