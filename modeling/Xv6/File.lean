import Xv6.Fs

/-!
# Open files

`file.c`: the file table and the operations on open files. Of `pipe.c` this has what decides
when a pipe is freed; what passes through a pipe is outside the file system, and the answers of
`piperead` and `pipewrite` come from `Mem.input`.
-/

open Bytes Device

namespace Xv6

/-- Change entry `f` of the file table. -/
def setFile (f : Nat) (g : File → File) (m : Mem) : Mem :=
  { m with ftable := Function.update m.ftable f (g (m.ftable f)) }

def emptyFile (ft : Nat → File) : Option Nat :=
  (List.range NFILE).find? fun f => decide ((ft f).ref = 0)

/-- The effect of `filealloc` on the file table. -/
def fileallocMem (m : Mem) : Mem :=
  match emptyFile m.ftable with
  | some f => setFile f (fun ff => { ff with ref := 1 }) m
  | none => m

/-- `filealloc`: allocate a file structure, under `ftable.lock`. -/
def filealloc : K (Option Nat) := do
  yield
  let m ← getModify fileallocMem
  return emptyFile m.ftable

def filedup (f : Nat) : K Unit := do
  yield
  let m ← get
  if (m.ftable f).ref < 1 then halt "filedup"
  modify (setFile f fun ff => { ff with ref := ff.ref + 1 })

/-- Closing one end of a pipe; the page is freed once both are closed. -/
def Pipe.close (writable : Bool) (p : Pipe) : Pipe :=
  let p := if writable then { p with writeopen := false } else { p with readopen := false }
  if !p.readopen && !p.writeopen then { p with frees := p.frees + 1 } else p

/-- `pipeclose`, under the lock of the pipe. -/
def pipeclose (i : Nat) (writable : Bool) : K Unit := do
  yield
  modify fun m => { m with pipes := Function.update m.pipes i ((m.pipes i).close writable) }

/-- `fileclose`: drop a reference; the last one also drops the file's pipe or inode. -/
def fileclose (f : Nat) : K Unit := do
  yield
  let m ← get
  if (m.ftable f).ref < 1 then halt "fileclose"
  else if 1 < (m.ftable f).ref then
    modify (setFile f fun ff => { ff with ref := ff.ref - 1 })
  else
    let ff := m.ftable f
    modify (setFile f fun ff => { ff with ref := 0, type := .FD_NONE })
    if ff.type = .FD_PIPE then pipeclose ff.pipe ff.writable
    else if ff.type = .FD_INODE then
      beginTrans
      iput ff.ip
      commitTrans

/-- What `stati` copies out. -/
structure Stat where
  ino : Nat
  type : Int
  nlink : Int
  size : Nat

def filestat (f : Nat) : K (Option Stat) := do
  let m ← get
  if (m.ftable f).type = .FD_INODE then
    let k := (m.ftable f).ip
    ilock k
    let m ← get
    let ip := m.icache k
    iunlock k
    return some ⟨ip.inum, ip.din.type, ip.din.nlink, ip.din.size⟩
  else return none

/-- The result of a read or write as an `int`. -/
def toInt (r : Option (Nat × (Nat → UInt8))) : Int :=
  match r with
  | some (n, _) => n
  | none => -1

/-- `fileread`; `n` is the `uint` that `readi` gets. -/
def fileread (f n : Nat) : K Int := do
  let m ← get
  let ff := m.ftable f
  if !ff.readable then return -1
  else match ff.type with
  | .FD_PIPE => return toInt (← nextInput)
  | .FD_INODE =>
    ilock ff.ip
    let m ← get
    let r ← readi ff.ip (m.ftable f).off n
    modify (setFile f fun ff => { ff with off := uadd ff.off (toInt r).toNat })
    iunlock ff.ip
    return toInt r
  | .FD_NONE => halt "fileread"

/-- The number of bytes `filewrite` writes in one transaction. -/
def writeMax : Nat := (LOGSIZE - 1 - 1 - 2) / 2 * 512

/-- One transaction of `filewrite`: write `n1` bytes at the offset of the file. -/
def filewriteChunk (f : Nat) (src : Nat → UInt8) (n1 : Nat) : K Int := do
  beginTrans
  let m ← get
  let ip := (m.ftable f).ip
  ilock ip
  let m ← get
  let r ← writei ip src (m.ftable f).off n1
  modify (setFile f fun ff => { ff with off := uadd ff.off r.toNat })
  iunlock ip
  commitTrans
  return r

/-- The loop of `filewrite`, after `i` bytes. -/
def filewriteLoop (f n : Nat) (src : Nat → UInt8) : Nat → Nat → K Int
  | 0, i => return if i = n then n else -1
  | fuel + 1, i =>
    if i < n then do
      let n1 := min (n - i) writeMax
      let r ← filewriteChunk f (fun x => src (i + x)) n1
      if r < 0 then return if i = n then n else -1
      else if r ≠ n1 then halt "short filewrite"
      else filewriteLoop f n src fuel (i + n1)
    else return if i = n then n else -1

/-- `filewrite` of `n` bytes; a negative `n` enters no round of the loop. -/
def filewrite (f : Nat) (src : Nat → UInt8) (n : Int) : K Int := do
  let m ← get
  let ff := m.ftable f
  if !ff.writable then return -1
  else match ff.type with
  | .FD_PIPE => return toInt (← nextInput)
  | .FD_INODE =>
    if n < 0 then return -1
    else filewriteLoop f n.toNat src n.toNat 0
  | .FD_NONE => halt "filewrite"

end Xv6
