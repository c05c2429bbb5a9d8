import Xv6.Bio

/-!
# The inode cache

`iget`, `idup`, `ilock`, `iunlock`, `iput`, `ialloc` and `iupdate` of `fs.c` by their single instructions,
for any number of processes. What the buffer cache does for them is to make a read or a change
of an inode on the disk one step. A process that sleeps in `ilock` may be woken up at any
time.

A reference is a pointer that `iget` or `idup` has returned and that was not given to `iput`. Any
process may use any reference, as open files are shared with children. The protocol is that `ilock`,
`iunlock` and `idup` are called with a reference that stays one as long as the call, or the lock, lasts
(`Act`). The process that has locked an inode may change it and write it to the disk.
-/

open Function

namespace Xv6

namespace Icache

open Bio (Result)

variable {m n : Nat}

/-- `struct inode`; `din` is the copy of the inode on the disk. -/
structure Inode where
  dev : Nat
  inum : Nat
  ref : Nat
  busy : Bool
  valid : Bool
  din : Dinode

/-- Which inode the slot is for. -/
def Inode.key (ip : Inode) : Nat × Nat := (ip.dev, ip.inum)

/-- A reference: its number and its slot. -/
abbrev Ref (n : Nat) := Nat × Fin n

/-- Where a process is. -/
inductive Pc (n : Nat) where
  | user
  /-- The loop of `ialloc`, at `inum`. -/
  | ialloc (dev inum : Nat) (type : Int)
  /-- `acquire(&icache.lock)` of `iget`. -/
  | iget (dev inum : Nat)
  /-- The loop of `iget`, at slot `i`. -/
  | scan (dev inum i : Nat) (empty : Option (Fin n))
  /-- `acquire(&icache.lock)` of `idup`. -/
  | idup (r : Ref n)
  /-- `ip->ref++` -/
  | incr (r : Ref n)
  /-- The check of `ilock`. -/
  | ilock (r : Ref n)
  /-- `acquire(&icache.lock)` of `ilock`, or of `sleep` in it. -/
  | lockEnter (r : Ref n)
  /-- `while(ip->flags & I_BUSY)`, and `ip->flags |= I_BUSY` -/
  | lockTest (r : Ref n)
  | asleep (r : Ref n)
  /-- `release(&icache.lock)` of `ilock`. -/
  | lockLeave (r : Ref n)
  /-- `if(!(ip->flags & I_VALID))`, and the inode is read. -/
  | fill (r : Ref n)
  /-- `ip->flags |= I_VALID`, and the check of `ip->type`. -/
  | validate (r : Ref n)
  /-- `ilock` returns. -/
  | locked (r : Ref n)
  /-- The check and `acquire(&icache.lock)` of `iunlock`. -/
  | iunlock (r : Ref n)
  /-- `ip->flags &= ~I_BUSY` -/
  | clearBusy (r : Ref n)
  | unlockWakeup (r : Ref n)
  /-- `acquire(&icache.lock)` of `iput`. -/
  | iput (r : Ref n)
  /-- The condition of `iput`, and `ip->flags |= I_BUSY`. -/
  | putTest (r : Ref n)
  /-- `release(&icache.lock)` of `iput`, before the inode is freed. -/
  | putLeave (r : Ref n)
  /-- `itrunc(ip)` up to `ip->size = 0`. -/
  | putTrunc (r : Ref n)
  /-- `iupdate(ip)` of `itrunc`. -/
  | putTruncated (r : Ref n)
  /-- `ip->type = 0` -/
  | putType (r : Ref n)
  /-- `iupdate(ip)` -/
  | putUpdate (r : Ref n)
  /-- `acquire(&icache.lock)` after the inode was freed. -/
  | putEnter (r : Ref n)
  /-- `ip->flags = 0` -/
  | putClear (r : Ref n)
  | putWakeup (r : Ref n)
  /-- `ip->ref--` -/
  | putDrop (r : Ref n)
  /-- `release(&icache.lock)` at the end. -/
  | leave
  deriving DecidableEq, Repr

/-- The state of the cache. The last fields are there for the statements: the references there are,
and the number of the next one; the references with which each process has set `I_BUSY`;
and what `iunlock` last left in a slot, if it has not been emptied since. -/
structure State (m n : Nat) where
  lock : Option (Fin m)
  inode : Fin n → Inode
  disk : Nat × Nat → Dinode
  pc : Fin m → Pc n
  refs : List (Ref n)
  fresh : Nat
  held : Fin m → List (Ref n)
  left : Fin n → Option Dinode

namespace State

def goto (s : State m n) (p : Fin m) (c : Pc n) : State m n :=
  { s with pc := update s.pc p c }

def setInode (s : State m n) (i : Fin n) (ip : Inode) : State m n :=
  { s with inode := update s.inode i ip }

/-- There is one more reference to slot `i`, which is now `ip`. -/
def addRef (s : State m n) (i : Fin n) (ip : Inode) : State m n :=
  { s.setInode i ip with refs := (s.fresh, i) :: s.refs, fresh := s.fresh + 1 }

/-- `p` sets `I_BUSY` of the slot of `r`. -/
def setBusy (s : State m n) (p : Fin m) (r : Ref n) : State m n :=
  { s.setInode r.2 { s.inode r.2 with busy := true } with
    held := update s.held p (r :: s.held p) }

/-- `p` clears `I_BUSY` of the slot of `r`, and `I_VALID` unless `v`. -/
def setFree (s : State m n) (p : Fin m) (r : Ref n) (v : Bool) : State m n :=
  { s.setInode r.2 { s.inode r.2 with busy := false, valid := v && (s.inode r.2).valid } with
    held := update s.held p ((s.held p).erase r)
    left := update s.left r.2 (if v then some (s.inode r.2).din else none) }

/-- `iupdate(ip)` -/
def iupdate (s : State m n) (i : Fin n) : State m n :=
  { s with disk := update s.disk (s.inode i).key (s.inode i).din }

/-- `wakeup(ip)` -/
def wakeup (s : State m n) (i : Fin n) : State m n :=
  { s with pc := fun q =>
      match s.pc q with
      | .asleep r => if r.2 = i then .lockEnter r else .asleep r
      | c => c }

end State

/-- What `ialloc` writes. -/
def allocated (type : Int) : Dinode := { Dinode.zero with type := type }

/-- What `itrunc` leaves. -/
def truncated (d : Dinode) : Dinode := { d with size := 0, addrs := fun _ => 0 }

/-! ### The steps -/

/-- One instruction of process `p`, on a file system with `ninodes` inodes. -/
def exec (ninodes : Nat) (s : State m n) (p : Fin m) : Result (State m n) :=
  match s.pc p with
  | .user => .wait
  | .ialloc dev inum type =>
    if inum < ninodes then
      if (s.disk (dev, inum)).type = 0 then
        .next ({ s with disk := update s.disk (dev, inum) (allocated type) }.goto p
          (.iget dev inum))
      else .next (s.goto p (.ialloc dev (inum + 1) type))
    else .panic "ialloc: no inodes"
  | .iget dev inum =>
    if s.lock = none then .next ({ s with lock := some p }.goto p (.scan dev inum 0 none)) else .wait
  | .scan dev inum i empty =>
    if h : i < n then
      if 0 < (s.inode ⟨i, h⟩).ref ∧ (s.inode ⟨i, h⟩).key = (dev, inum) then
        .next ((s.addRef ⟨i, h⟩ { s.inode ⟨i, h⟩ with ref := (s.inode ⟨i, h⟩).ref + 1 }).goto p .leave)
      else
        .next (s.goto p (.scan dev inum (i + 1)
          (if empty = none ∧ (s.inode ⟨i, h⟩).ref = 0 then some ⟨i, h⟩ else empty)))
    else
      match empty with
      | none => .panic "iget: no inodes"
      | some e =>
        .next ({ s.addRef e { s.inode e with
            dev := dev, inum := inum, ref := 1, busy := false, valid := false } with
          left := update s.left e none }.goto p .leave)
  | .idup r => if s.lock = none then .next ({ s with lock := some p }.goto p (.incr r)) else .wait
  | .incr r =>
    .next ((s.addRef r.2 { s.inode r.2 with ref := (s.inode r.2).ref + 1 }).goto p .leave)
  | .ilock r =>
    if (s.inode r.2).ref < 1 then .panic "ilock" else .next (s.goto p (.lockEnter r))
  | .lockEnter r =>
    if s.lock = none then .next ({ s with lock := some p }.goto p (.lockTest r)) else .wait
  | .lockTest r =>
    if (s.inode r.2).busy then .next ({ s with lock := none }.goto p (.asleep r))
    else .next ((s.setBusy p r).goto p (.lockLeave r))
  | .asleep _ => .wait
  | .lockLeave r => .next ({ s with lock := none }.goto p (.fill r))
  | .fill r =>
    if (s.inode r.2).valid then .next (s.goto p (.locked r))
    else
      .next ((s.setInode r.2 { s.inode r.2 with din := s.disk (s.inode r.2).key }).goto p
        (.validate r))
  | .validate r =>
    if (s.inode r.2).din.type = 0 then .panic "ilock: no type"
    else .next ((s.setInode r.2 { s.inode r.2 with valid := true }).goto p (.locked r))
  | .locked _ => .next (s.goto p .user)
  | .iunlock r =>
    if (s.inode r.2).busy = false ∨ (s.inode r.2).ref < 1 then .panic "iunlock"
    else if s.lock = none then .next ({ s with lock := some p }.goto p (.clearBusy r))
    else .wait
  | .clearBusy r => .next ((s.setFree p r true).goto p (.unlockWakeup r))
  | .unlockWakeup r => .next ((s.wakeup r.2).goto p .leave)
  | .iput r => if s.lock = none then .next ({ s with lock := some p }.goto p (.putTest r)) else .wait
  | .putTest r =>
    if (s.inode r.2).ref = 1 ∧ (s.inode r.2).valid ∧ (s.inode r.2).din.nlink = 0 then
      if (s.inode r.2).busy then .panic "iput busy"
      else .next ((s.setBusy p r).goto p (.putLeave r))
    else .next (s.goto p (.putDrop r))
  | .putLeave r => .next ({ s with lock := none }.goto p (.putTrunc r))
  | .putTrunc r =>
    .next ((s.setInode r.2 { s.inode r.2 with din := truncated (s.inode r.2).din }).goto p
      (.putTruncated r))
  | .putTruncated r => .next ((s.iupdate r.2).goto p (.putType r))
  | .putType r =>
    .next ((s.setInode r.2 { s.inode r.2 with din := { (s.inode r.2).din with type := 0 } }).goto p
      (.putUpdate r))
  | .putUpdate r => .next ((s.iupdate r.2).goto p (.putEnter r))
  | .putEnter r =>
    if s.lock = none then .next ({ s with lock := some p }.goto p (.putClear r)) else .wait
  | .putClear r => .next ((s.setFree p r false).goto p (.putWakeup r))
  | .putWakeup r => .next ((s.wakeup r.2).goto p (.putDrop r))
  | .putDrop r =>
    .next ({ s.setInode r.2 { s.inode r.2 with ref := (s.inode r.2).ref - 1 } with
      refs := s.refs.erase r }.goto p .leave)
  | .leave => .next ({ s with lock := none }.goto p .user)

/-- The reference that a process is in a call with. -/
def refOf : Pc n → Option (Ref n)
  | .idup r => some r
  | .incr r => some r
  | .ilock r => some r
  | .lockEnter r => some r
  | .lockTest r => some r
  | .asleep r => some r
  | .lockLeave r => some r
  | .fill r => some r
  | .validate r => some r
  | .locked r => some r
  | .iunlock r => some r
  | .clearBusy r => some r
  | .iput r => some r
  | .putTest r => some r
  | .putLeave r => some r
  | .putTrunc r => some r
  | .putTruncated r => some r
  | .putType r => some r
  | .putUpdate r => some r
  | .putEnter r => some r
  | .putClear r => some r
  | .putWakeup r => some r
  | .putDrop r => some r
  | _ => none

/-- The reference that a process gives up with `iput`. -/
def putOf : Pc n → Option (Ref n)
  | .iput r => some r
  | .putTest r => some r
  | .putLeave r => some r
  | .putTrunc r => some r
  | .putTruncated r => some r
  | .putType r => some r
  | .putUpdate r => some r
  | .putEnter r => some r
  | .putClear r => some r
  | .putWakeup r => some r
  | .putDrop r => some r
  | _ => none

/-- The reference can be used: nobody gives it up. -/
def Usable (s : State m n) (r : Ref n) : Prop := r ∈ s.refs ∧ ∀ q, putOf (s.pc q) ≠ some r

/-- The reference can be given up: nobody is in a call with it or has locked its inode with it. -/
def Unused (s : State m n) (r : Ref n) : Prop :=
  r ∈ s.refs ∧ ∀ q, refOf (s.pc q) ≠ some r ∧ r ∉ s.held q

instance (s : State m n) (r : Ref n) : Decidable (Usable s r) :=
  inferInstanceAs (Decidable (_ ∧ _))

instance (s : State m n) (r : Ref n) : Decidable (Unused s r) :=
  inferInstanceAs (Decidable (_ ∧ _))

/-- The steps: a process calls a function of the cache as the protocol allows; the process that has
locked an inode changes it or calls `iupdate`; a process executes an instruction or is woken up. -/
inductive Act (m n : Nat) where
  | ialloc (p : Fin m) (dev : Nat) (type : Int)
  | iget (p : Fin m) (dev inum : Nat)
  | idup (p : Fin m) (r : Ref n)
  | ilock (p : Fin m) (r : Ref n)
  | modify (p : Fin m) (r : Ref n) (d : Dinode)
  | iupdate (p : Fin m) (r : Ref n)
  | iunlock (p : Fin m) (r : Ref n)
  | iput (p : Fin m) (r : Ref n)
  | exec (p : Fin m)
  | wake (p : Fin m)

def step (ninodes : Nat) (s : State m n) : Act m n → Option (State m n)
  | .ialloc p dev type =>
    if s.pc p = .user then some (s.goto p (.ialloc dev 1 type)) else none
  | .iget p dev inum => if s.pc p = .user then some (s.goto p (.iget dev inum)) else none
  | .idup p r => if s.pc p = .user ∧ Usable s r then some (s.goto p (.idup r)) else none
  | .ilock p r => if s.pc p = .user ∧ Usable s r then some (s.goto p (.ilock r)) else none
  | .modify p r d =>
    if s.pc p = .user ∧ r ∈ s.held p then some (s.setInode r.2 { s.inode r.2 with din := d }) else none
  | .iupdate p r => if s.pc p = .user ∧ r ∈ s.held p then some (s.iupdate r.2) else none
  | .iunlock p r => if s.pc p = .user ∧ r ∈ s.held p then some (s.goto p (.iunlock r)) else none
  | .iput p r => if s.pc p = .user ∧ Unused s r then some (s.goto p (.iput r)) else none
  | .exec p =>
    match exec ninodes s p with
    | .next t => some t
    | _ => none
  | .wake p =>
    match s.pc p with
    | .asleep r => some (s.goto p (.lockEnter r))
    | _ => none

/-- The cache at first: all slots are free. -/
def init (disk : Nat × Nat → Dinode) : State m n where
  lock := none
  inode _ := { dev := 0, inum := 0, ref := 0, busy := false, valid := false, din := Dinode.zero }
  disk := disk
  pc _ := .user
  refs := []
  fresh := 0
  held _ := []
  left _ := none

def runActs (ninodes : Nat) : List (Act m n) → State m n → Option (State m n)
  | [], s => some s
  | a :: as, s => (step ninodes s a).bind (runActs ninodes as)

end Icache

end Xv6
