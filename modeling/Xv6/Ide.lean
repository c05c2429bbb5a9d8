import Xv6.Lib.Linked

/-!
# The disk drivers

The interrupt driven driver `ide.c` and the memory disk `memide.c`.

`ide.c` is modelled by its single instructions, executed by any number of processes that call `iderw`
and by the interrupt handler `ideintr`, next to the disk. The disk takes one command at a time,
executes it at some later moment and then raises one interrupt; the handler runs some time
after that. Buffers that nobody has given to `iderw` may change at any time. `sleep` gives up
`idelock`, and a sleeper may be woken up at any time.

`memide.c` executes a request at once.
-/

open Function

namespace Xv6

namespace Ide

/-- `struct buf` without its links; `flags` as three bits. -/
structure Buf (α : Type) where
  busy : Bool
  valid : Bool
  dirty : Bool
  dev : Nat
  sector : Nat
  data : α

variable {α : Type}

/-- `(b->flags & (B_VALID|B_DIRTY)) == B_VALID` -/
def Buf.synced (b : Buf α) : Bool := b.valid && !b.dirty

/-! ### `memide.c` -/

/-- The number of sectors of a disk image of `size` bytes. -/
def disksize (size : UInt32) : Nat := size.toNat / 512

/-- `iderw` of `memide.c`, on a disk image of `size` bytes. -/
def memIderw (size : UInt32) (disk : Nat → α) (b : Buf α) :
    Except String ((Nat → α) × Buf α) :=
  if b.busy = false then .error "iderw: buf not busy"
  else if b.synced then .error "iderw: nothing to do"
  else if b.dev ≠ 1 then .error "iderw: request not for disk 1"
  else if disksize size ≤ b.sector then .error "iderw: sector out of range"
  else if b.dirty then
    .ok (update disk b.sector b.data, { b with dirty := false, valid := true })
  else .ok (disk, { b with data := disk b.sector, valid := true })

/-- Requests one after another, with the buffers they leave. -/
def memRun (size : UInt32) : (Nat → α) → List (Buf α) → Except String ((Nat → α) × List (Buf α))
  | disk, [] => .ok (disk, [])
  | disk, b :: bs =>
    match memIderw size disk b with
    | .error e => .error e
    | .ok (disk', b') =>
      match memRun size disk' bs with
      | .error e => .error e
      | .ok (disk'', bs') => .ok (disk'', b' :: bs')

/-! ### `ide.c` -/

/-- A command to the disk: which drive, which sector, and what to write there. -/
structure Cmd (α : Type) where
  drive : Nat
  lba : Nat
  write : Option α

/-- The sector number that the disk reads from its four registers. -/
def lba (sector : Nat) : Nat :=
  sector % 256 + 2 ^ 8 * (sector / 2 ^ 8 % 256) + 2 ^ 16 * (sector / 2 ^ 16 % 256) +
    2 ^ 24 * (sector / 2 ^ 24 % 16)

/-- What `idestart` tells the disk. -/
def Buf.cmd (b : Buf α) : Cmd α where
  drive := b.dev % 2
  lba := lba b.sector
  write := if b.dirty then some b.data else none

/-- The disk waits, with its last data to be read, or executes a command. -/
inductive Device (α : Type) where
  | ready (d : α)
  | busy (c : Cmd α)

/-- Who can hold `idelock`. -/
inductive Who where
  | proc (p : Nat)
  | intr
  deriving DecidableEq, Repr

/-- The pointer `pp` of `iderw`: `&idequeue` or `&b->qnext`. -/
inductive Link where
  | queue
  | next (b : Nat)
  deriving DecidableEq, Repr

/-- Where a process is in `iderw(b)`. -/
inductive Pc where
  | out
  /-- Before `acquire(&idelock)`. -/
  | enter (b : Nat)
  /-- `b->qnext = 0` -/
  | unlink (b : Nat)
  /-- The loop that looks for the end of the queue. -/
  | walk (b : Nat) (pp : Link)
  /-- `if(idequeue == b) idestart(b)` -/
  | start (b : Nat)
  /-- The condition of the loop that waits. -/
  | test (b : Nat)
  | asleep (b : Nat)
  /-- In `sleep`, before it takes `idelock` again. -/
  | wake (b : Nat)
  /-- `release(&idelock)` -/
  | leave (b : Nat)
  deriving DecidableEq, Repr

/-- Where the interrupt handler is in `ideintr`. -/
inductive IntrPc where
  | off
  /-- Before `acquire(&idelock)`. -/
  | enter
  /-- `idequeue = b->qnext` -/
  | pop
  /-- Read the data if `b` is not dirty. -/
  | fetch (b : Nat)
  /-- `b->flags |= B_VALID` -/
  | setValid (b : Nat)
  /-- `b->flags &= ~B_DIRTY` -/
  | clearDirty (b : Nat)
  | wakeup (b : Nat)
  /-- `if(idequeue != 0) idestart(idequeue)` -/
  | next
  /-- `release(&idelock)` -/
  | leave
  deriving DecidableEq, Repr

/-- The state of the driver and the disk. The last fields are there for the statements: which
buffers are in a call of `iderw`; all requests in the order in which they were queued, each with
its buffer as it was; the buffers for which `idestart` was called; how many commands the disk
has executed, and how many requests `ideintr` has taken off the queue; and the number of the
request that a process waits for. -/
structure State (α : Type) where
  lock : Option Who
  buf : Nat → Buf α
  qnext : Nat → Option Nat
  idequeue : Option Nat
  disk : Nat → Nat → α
  device : Device α
  irq : Bool
  pc : Nat → Pc
  ipc : IntrPc
  active : Nat → Bool
  reqs : List (Nat × Buf α)
  started : List Nat
  served : Nat
  done : Nat
  idx : Nat → Nat

/-- What `iderw` checks first. -/
def check (havedisk1 : Bool) (b : Buf α) : Except String Unit :=
  if b.busy = false then .error "iderw: buf not busy"
  else if b.synced then .error "iderw: nothing to do"
  else if b.dev ≠ 0 ∧ havedisk1 = false then .error "iderw: ide disk 1 not present"
  else .ok ()

namespace State

def goto (s : State α) (p : Nat) (c : Pc) : State α := { s with pc := update s.pc p c }

/-- `*pp` -/
def load (s : State α) : Link → Option Nat
  | .queue => s.idequeue
  | .next b => s.qnext b

/-- `*pp = b`; this is where the request becomes part of the queue. -/
def append (s : State α) (p b : Nat) (pp : Link) : State α :=
  let s := { s with
    reqs := s.reqs ++ [(b, s.buf b)]
    idx := update s.idx p s.reqs.length }
  match pp with
  | .queue => { s with idequeue := some b }
  | .next c => { s with qnext := update s.qnext c (some b) }

/-- `idestart(b)` -/
def idestart (s : State α) (b : Nat) : State α :=
  { s with device := .busy (s.buf b).cmd, started := s.started ++ [b] }

def setBuf (s : State α) (b : Nat) (x : Buf α) : State α :=
  { s with buf := update s.buf b x }

end State

/-- One instruction of process `p`. A lock that is not free is not taken; `idewait` waits for the
disk. -/
def exec (s : State α) (p : Nat) : Option (State α) :=
  match s.pc p with
  | .out => none
  | .enter b =>
    if s.lock = none then some ({ s with lock := some (.proc p) }.goto p (.unlink b)) else none
  | .unlink b => some ({ s with qnext := update s.qnext b none }.goto p (.walk b .queue))
  | .walk b pp =>
    match s.load pp with
    | some c => some (s.goto p (.walk b (.next c)))
    | none => some ((s.append p b pp).goto p (.start b))
  | .start b =>
    if s.idequeue = some b then
      match s.device with
      | .ready _ => some ((s.idestart b).goto p (.test b))
      | .busy _ => none
    else some (s.goto p (.test b))
  | .test b =>
    if (s.buf b).synced then some (s.goto p (.leave b))
    else some ({ s with lock := none }.goto p (.asleep b))
  | .asleep _ => none
  | .wake b =>
    if s.lock = none then some ({ s with lock := some (.proc p) }.goto p (.test b)) else none
  | .leave b =>
    some ({ s with lock := none, active := update s.active b false }.goto p .out)

/-- One instruction of the interrupt handler. -/
def intr (s : State α) : Option (State α) :=
  match s.ipc with
  | .off => none
  | .enter => if s.lock = none then some { s with lock := some .intr, ipc := .pop } else none
  | .pop =>
    match s.idequeue with
    | none => some { s with ipc := .leave }
    | some b => some { s with idequeue := s.qnext b, done := s.done + 1, ipc := .fetch b }
  | .fetch b =>
    if (s.buf b).dirty then some { s with ipc := .setValid b }
    else
      match s.device with
      | .ready d => some { s.setBuf b { s.buf b with data := d } with ipc := .setValid b }
      | .busy _ => none
  | .setValid b => some { s.setBuf b { s.buf b with valid := true } with ipc := .clearDirty b }
  | .clearDirty b => some { s.setBuf b { s.buf b with dirty := false } with ipc := .wakeup b }
  | .wakeup b =>
    some { s with pc := fun p => if s.pc p = .asleep b then .wake b else s.pc p, ipc := .next }
  | .next =>
    match s.idequeue with
    | none => some { s with ipc := .leave }
    | some b =>
      match s.device with
      | .ready _ => some { s.idestart b with ipc := .leave }
      | .busy _ => none
  | .leave => some { s with lock := none, ipc := .off }

/-- The disk executes its command and raises an interrupt. -/
def complete (s : State α) (c : Cmd α) : State α :=
  match c.write with
  | some x => { s with
      disk := update s.disk c.drive (update (s.disk c.drive) c.lba x)
      device := .ready x, irq := true, served := s.served + 1 }
  | none => { s with
      device := .ready (s.disk c.drive c.lba), irq := true, served := s.served + 1 }

/-- The steps: a process calls `iderw`, executes an instruction or is woken up early; the disk
executes its command; the handler is called, or executes an instruction; the owner of a buffer
that is in no call changes it. -/
inductive Act (α : Type) where
  | call (p b : Nat)
  | exec (p : Nat)
  | wake (p : Nat)
  | complete
  | interrupt
  | intr
  | own (b : Nat) (x : Buf α)

def step (havedisk1 : Bool) (s : State α) : Act α → Option (State α)
  | .call p b =>
    if s.pc p = .out ∧ s.active b = false then
      match check havedisk1 (s.buf b) with
      | .error _ => none
      | .ok _ => some ({ s with active := update s.active b true }.goto p (.enter b))
    else none
  | .exec p => exec s p
  | .wake p =>
    match s.pc p with
    | .asleep b => some (s.goto p (.wake b))
    | _ => none
  | .complete =>
    match s.device with
    | .busy c => some (complete s c)
    | .ready _ => none
  | .interrupt =>
    if s.irq = true ∧ s.ipc = .off then some { s with irq := false, ipc := .enter } else none
  | .intr => intr s
  | .own b x => if s.active b = false then some (s.setBuf b x) else none

/-- Nobody has called `iderw` yet. -/
def init (disk : Nat → Nat → α) (buf : Nat → Buf α) (d : α) : State α where
  lock := none
  buf := buf
  qnext _ := none
  idequeue := none
  disk := disk
  device := .ready d
  irq := false
  pc _ := .out
  ipc := .off
  active _ := false
  reqs := []
  started := []
  served := 0
  done := 0
  idx _ := 0

def runActs (havedisk1 : Bool) : List (Act α) → State α → Option (State α)
  | [], s => some s
  | a :: as, s => (step havedisk1 s a).bind (runActs havedisk1 as)

end Ide

end Xv6
