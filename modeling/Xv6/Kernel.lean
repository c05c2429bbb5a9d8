import Xv6.Layout
import Xv6.Lib.Wp

/-!
# The kernel's memory and what it reports

The in-memory state the file system works on: the log (`struct log`), the inode
cache, the file table and, of each process, its current directory and descriptors.
The only device is `ROOTDEV`, so inodes and buffers carry no device number. A
pointer to an inode or to a file is the index of its slot.

`Event` lists what the code reports while it runs, for statements about whole runs. Events are
ghost: no code reads them.
-/

open Bytes Device

namespace Xv6

/-- `struct log`. `lh` lists the sectors of the header, `lh.length` being its `n`.
`owner` is ghost: the process that is between `begin_trans` and `commit_trans`. -/
structure LogState where
  start : Nat
  size : Nat
  busy : Bool
  lh : List Nat
  owner : Option Nat

/-- `struct inode`, an entry of the inode cache. `busy` and `valid` are the flags
`I_BUSY` and `I_VALID`, `din` the copy of the on-disk inode. -/
structure Inode where
  inum : Nat
  ref : Nat
  busy : Bool
  valid : Bool
  din : Dinode

/-- The kinds of open file. -/
inductive FileType where
  | FD_NONE
  | FD_PIPE
  | FD_INODE
  deriving DecidableEq, Repr

/-- `struct file`; `pipe` numbers the pipes in the order of their allocation, `ip` is a slot of
the inode cache. -/
structure File where
  type : FileType
  ref : Nat
  readable : Bool
  writable : Bool
  pipe : Nat
  ip : Nat
  off : Nat

/-- The part of `struct pipe` that says when its page is freed. `frees` is ghost: how often the
page was given to `kfree`. -/
structure Pipe where
  readopen : Bool
  writeopen : Bool
  frees : Nat

/-- The part of `struct proc` the file system reads: the current directory, a slot
of the inode cache, and the descriptors, slots of the file table. A process that is
being created is not yet `runnable`. -/
structure Proc where
  runnable : Bool
  cwd : Option Nat
  ofile : Nat → Option Nat

/-- The kernel's memory. `procs` is the process table, without the slots that are unused
or hold a zombie, and `proc` is the process running. The pipes allocated so far, freed ones
among them, are those below `npipe`. `input` is what the console and the pipes answer to the
next calls of their drivers, the first answer first. -/
structure Mem where
  log : LogState
  icache : Nat → Inode
  ftable : Nat → File
  pipes : Nat → Pipe
  npipe : Nat
  procs : Nat → Option Proc
  proc : Nat
  input : Nat → Option (Nat × (Nat → UInt8))

/-- What the code reports. -/
inductive Event where
  /-- `log_write` by `proc` while the transaction belongs to `owner`. -/
  | logWrite (proc : Nat) (owner : Option Nat)
  /-- `commit_trans` with `n` sectors in the log. -/
  | commit (n : Nat)
  /-- `balloc` hands out `b`; `free` says whether a data block was free in the bitmap. -/
  | balloc (free : Bool) (b : Nat)
  /-- `iput` frees an inode; `own` says whether the transaction is the caller's. -/
  | ifree (own : Bool)
  /-- A link count of `n` is incremented. -/
  | nlinkInc (n : Int)
  /-- `sys_unlink` removes the directory `inum`; `cwd` says whether it is the current
  directory of a process, `opened` whether a file is open on it. -/
  | rmdir (inum : Nat) (cwd opened : Bool)
  /-- `dirlink` has no room in a directory of this size for another entry. -/
  | dirFull (size : Nat)

/-- Programs of the kernel. -/
abbrev K (α : Type) := Prog Mem Event α

abbrev KState := Machine Mem Event

def limits : Limits := ⟨NBUF, "bget: no buffers"⟩

abbrev kwp (J : Policy Event) {α : Type} (p : K α) (Q : α → KState → Prop) (s : KState) : Prop :=
  wp limits J p Q s

/-! ### Boot -/

/-- The kernel's memory at boot: everything is zero. -/
def bootMem : Mem where
  log := ⟨0, 0, false, [], none⟩
  icache _ := ⟨0, 0, false, false, Dinode.zero⟩
  ftable _ := ⟨.FD_NONE, 0, false, false, 0, 0, 0⟩
  pipes _ := ⟨false, false, 0⟩
  npipe := 0
  procs _ := none
  proc := 0
  input _ := none

/-- The machine that boots from the disk `d`. -/
def boot (d : Nat → Block) : KState where
  disk := d
  buf := d
  busy := ∅
  dirty := ∅
  writes := []
  events := []
  passed := false
  mem := bootMem

end Xv6
