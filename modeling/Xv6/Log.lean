import Xv6.Kernel

/-!
# The log

`log.c`: a physical redo log that holds one transaction at a time. `log_write` copies a
modified block to the next log slot (or to the slot the block already has) and
records its number in memory; `commit_trans` writes the header, which commits, copies
the slots to their home sectors and erases the header; `recover_from_log` does the
second half of that after a crash.
-/

open Bytes Device

namespace Xv6

/-- `readsb`: the superblock is sector 1. -/
def readsb : K Superblock := do
  let bp ← bread 1
  brelse 1
  return getSuperblock bp

/-- The loop of `install_trans` from slot `tail` on: copy each slot to its home. -/
def installLoop (start : Nat) : Nat → List Nat → K Unit
  | _, [] => pure ()
  | tail, sec :: rest => do
    let lbuf ← bread (start + tail + 1)
    let _ ← bread sec
    store sec lbuf
    bwrite sec
    brelse (start + tail + 1)
    brelse sec
    installLoop start (tail + 1) rest

def installTrans : K Unit := do
  let m ← get
  installLoop m.log.start 0 m.log.lh

/-- Read the log header from disk into the in-memory log header. -/
def readHead : K Unit := do
  let m ← get
  let buf ← bread m.log.start
  modify fun m => { m with log := { m.log with lh := getHeader buf } }
  brelse m.log.start

/-- Write the in-memory log header to disk: the point at which a transaction commits. -/
def writeHead : K Unit := do
  let m ← get
  let buf ← bread m.log.start
  store m.log.start (putHeader buf m.log.lh)
  bwrite m.log.start
  brelse m.log.start

/-- What `recover_from_log` and `commit_trans` end with: install the log, then erase it. -/
def installAndErase : K Unit := do
  installTrans
  modify fun m => { m with log := { m.log with lh := [] } }
  writeHead

def recoverFromLog : K Unit := do
  readHead
  installAndErase

/-- `initlog`; `sizeof(struct logheader)` is 44, so its first check always passes. -/
def initlog : K Unit := do
  let sb ← readsb
  modify fun m =>
    { m with log := { m.log with start := sb.size - sb.nlog, size := sb.nlog } }
  recoverFromLog

def beginTrans : K Unit := do
  yield
  wait (fun m => !m.log.busy)
    fun m => { m with log := { m.log with busy := true, owner := some m.proc } }

def commitTrans : K Unit := do
  yield
  let m ← get
  emit fun _ => .commit m.log.lh.length
  if 0 < m.log.lh.length then
    writeHead
    installAndErase
  modify fun m => { m with log := { m.log with busy := false, owner := none } }

/-- The slot of the log for `sec`: the one it has, or the next one. -/
def LogState.slot (l : LogState) (sec : Nat) : Nat := l.lh.idxOf sec

/-- The header with `sec` recorded; a sector already in it is absorbed. -/
def recordSector (lh : List Nat) (sec : Nat) : List Nat :=
  if sec ∈ lh then lh else lh ++ [sec]

def LogState.record (l : LogState) (sec : Nat) : List Nat := recordSector l.lh sec

/-- `log_write` of the buffer of `sec`, which the caller has locked and changed to `data`. -/
def logWrite (sec : Nat) (data : Block) : K Unit := do
  store sec data
  limit (fun m => decide (m.log.lh.length < LOGSIZE ∧ m.log.lh.length < m.log.size - 1))
    "too big a transaction"
  let m ← get
  if !m.log.busy then halt "write outside of trans"
  emit fun _ => .logWrite m.proc m.log.owner
  let lbuf := m.log.start + m.log.slot sec + 1
  let _ ← bread lbuf
  store lbuf data
  bwrite lbuf
  brelse lbuf
  modify fun m => { m with log := { m.log with lh := m.log.record sec } }
  pin sec

end Xv6
