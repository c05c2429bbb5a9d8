import Xv6.File

/-!
# System calls

`sysfile.c`, and of `proc.c` and `exec.c` what they do to the file system. The arguments
are those the calls get once they are fetched from user space; a path that `argstr`
refuses is `none`. `sys_exec` is given the offsets and lengths it reads from the
program, which in the source depend on the contents of the file and on the memory
available.
-/

open Bytes Device

namespace Xv6

/-! ### Descriptors -/

def curproc (m : Mem) : Option Proc := m.procs m.proc

/-- Change the entry of the process running. -/
def setProc (g : Proc → Proc) (m : Mem) : Mem :=
  { m with procs := Function.update m.procs m.proc ((m.procs m.proc).map g) }

/-- `argfd`: the file of a descriptor. -/
def argfd (fd : Int) : K (Option Nat) := do
  let m ← get
  if fd < 0 ∨ NOFILE ≤ fd then return none
  else return (curproc m).bind fun p => p.ofile fd.toNat

def freeFd (p : Proc) : Option Nat :=
  (List.range NOFILE).find? fun fd => (p.ofile fd).isNone

/-- `fdalloc`: a descriptor for the file. -/
def fdalloc (f : Nat) : K (Option Nat) := do
  let m ← get
  match (curproc m).bind freeFd with
  | none => return none
  | some fd =>
    modify (setProc fun p => { p with ofile := Function.update p.ofile fd (some f) })
    return some fd

def clearFd (fd : Nat) : Mem → Mem :=
  setProc fun p => { p with ofile := Function.update p.ofile fd none }

def sysDup (fd : Int) : K Int := do
  match ← argfd fd with
  | none => return -1
  | some f =>
    match ← fdalloc f with
    | none => return -1
    | some fd' =>
      filedup f
      return fd'

/-- `sys_read`; a length is read as a `uint`. -/
def sysRead (fd n : Int) : K Int := do
  match ← argfd fd with
  | none => return -1
  | some f => fileread f (n % 2 ^ 32).toNat

def sysWrite (fd : Int) (src : Nat → UInt8) (n : Int) : K Int := do
  match ← argfd fd with
  | none => return -1
  | some f => filewrite f src n

def sysClose (fd : Int) : K Int := do
  match ← argfd fd with
  | none => return -1
  | some f =>
    modify (clearFd fd.toNat)
    fileclose f
    return 0

def sysFstat (fd : Int) : K Int := do
  match ← argfd fd with
  | none => return -1
  | some f =>
    match ← filestat f with
    | some _ => return 0
    | none => return -1

/-! ### Links -/

/-- `ip->nlink++` on a `short`. -/
def incLink (k : Nat) : K Unit := do
  let m ← get
  emit fun _ => .nlinkInc (m.icache k).din.nlink
  modify (setDinode k fun d => { d with nlink := wrap16 (d.nlink + 1) })

/-- `ip->nlink--` on a `short`. -/
def decLink (k : Nat) : K Unit :=
  modify (setDinode k fun d => { d with nlink := wrap16 (d.nlink - 1) })

/-- The error path of `sys_link`. -/
def linkBad (ip : Nat) : K Int := do
  ilock ip
  decLink ip
  iupdate ip
  iunlockput ip
  commitTrans
  return -1

def sysLink (old new : Option Path) : K Int := do
  match old, new with
  | some old, some new =>
    match ← namei old with
    | none => return -1
    | some ip =>
      beginTrans
      ilock ip
      let m ← get
      if (m.icache ip).din.type = T_DIR then
        iunlockput ip
        commitTrans
        return -1
      else
        incLink ip
        iupdate ip
        iunlock ip
        match ← nameiparent new with
        | none => linkBad ip
        | some (dp, name) =>
          ilock dp
          let m ← get
          let r ← dirlink dp name (m.icache ip).inum
          if r < 0 then
            iunlockput dp
            linkBad ip
          else
            iunlockput dp
            iput ip
            commitTrans
            return 0
  | _, _ => return -1

/-- The loop of `isdirempty`. -/
def isdiremptyLoop (dp : Nat) : Nat → Nat → K Bool
  | 0, _ => pure true
  | n + 1, off => do
    let m ← get
    if off < (m.icache dp).din.size then
      match ← readi dp off DESIZE with
      | none => halt "isdirempty: readi"
      | some (r, data) =>
        if r ≠ DESIZE then halt "isdirempty: readi"
        else if (getDirent data).inum ≠ 0 then return false
        else isdiremptyLoop dp n (off + DESIZE)
    else return true

/-- `isdirempty`: is the directory empty except for its first two entries? -/
def isdirempty (dp : Nat) : K Bool := do
  let m ← get
  isdiremptyLoop dp ((m.icache dp).din.size / DESIZE + 1) (2 * DESIZE)

/-- The names `.` and `..`. -/
def dot : List UInt8 := [46]
def dotdot : List UInt8 := [46, 46]

/-- The error path of `sys_unlink`. -/
def unlinkBad (dp : Nat) : K Int := do
  iunlockput dp
  commitTrans
  return -1

/-- Whether a process has slot `k` as its current directory. -/
def isCwd (m : Mem) (k : Nat) : Bool :=
  decide (∃ p < NPROC, (m.procs p).bind Proc.cwd = some k)

/-- Whether a file is open on slot `k`. -/
def isOpen (m : Mem) (k : Nat) : Bool :=
  decide (∃ f < NFILE, 0 < (m.ftable f).ref ∧ (m.ftable f).type = .FD_INODE ∧ (m.ftable f).ip = k)

/-- The end of `sys_unlink`, once the entry at `off` and its inode are found and locked. -/
def unlinkEntry (dp ip off : Nat) : K Int := do
  let m ← get
  if (m.icache ip).din.type = T_DIR then
    emit fun s => .rmdir (m.icache ip).inum (isCwd s.mem ip) (isOpen s.mem ip)
  let r ← writei dp zero off DESIZE
  if r ≠ DESIZE then halt "unlink: writei"
  else
    let m ← get
    if (m.icache ip).din.type = T_DIR then
      decLink dp
      iupdate dp
    iunlockput dp
    decLink ip
    iupdate ip
    iunlockput ip
    commitTrans
    return 0

def sysUnlink (path : Option Path) : K Int := do
  match path with
  | none => return -1
  | some path =>
    match ← nameiparent path with
    | none => return -1
    | some (dp, name) =>
      beginTrans
      ilock dp
      if namecmp (cname name) (cname dot) = 0 ∨ namecmp (cname name) (cname dotdot) = 0 then
        unlinkBad dp
      else
        match ← dirlookup dp name with
        | none => unlinkBad dp
        | some (ip, off) =>
          ilock ip
          let m ← get
          if (m.icache ip).din.nlink < 1 then halt "unlink: nlink < 1"
          else if (m.icache ip).din.type = T_DIR then
            if ← isdirempty ip then unlinkEntry dp ip off
            else
              iunlockput ip
              unlinkBad dp
          else unlinkEntry dp ip off

/-! ### Creation -/

/-- The part of `create` that fills a new directory `ip` in `dp`. -/
def createDots (ip dp : Nat) : K Unit := do
  incLink dp
  iupdate dp
  let m ← get
  let r ← dirlink ip dot (m.icache ip).inum
  if r < 0 then halt "create dots"
  else
    let r ← dirlink ip dotdot (m.icache dp).inum
    if r < 0 then halt "create dots"

/-- The part of `create` that makes a new inode, `dp` being locked. -/
def createNew (dp : Nat) (name : List UInt8) (type major minor : Int) : K Nat := do
  let ip ← ialloc type
  ilock ip
  modify (setDinode ip fun d => { d with major := major, minor := minor, nlink := 1 })
  iupdate ip
  if type = T_DIR then createDots ip dp
  let m ← get
  let r ← dirlink dp name (m.icache ip).inum
  if r < 0 then halt "create: dirlink"
  else
    iunlockput dp
    return ip

/-- `create`: the inode it returns is locked. -/
def create (path : Path) (type major minor : Int) : K (Option Nat) := do
  match ← nameiparent path with
  | none => return none
  | some (dp, name) =>
    ilock dp
    match ← dirlookup dp name with
    | some (ip, _) =>
      iunlockput dp
      ilock ip
      let m ← get
      if type = T_FILE ∧ (m.icache ip).din.type = T_FILE then return some ip
      else
        iunlockput ip
        return none
    | none => return some (← createNew dp name type major minor)

def O_WRONLY : Nat := 0x001
def O_RDWR : Nat := 0x002
def O_CREATE : Nat := 0x200

/-- The file of `sys_open` once it has a descriptor. -/
def openedFile (ip omode : Nat) (ff : File) : File :=
  { ff with
    type := .FD_INODE
    ip := ip
    off := 0
    readable := decide (omode &&& O_WRONLY = 0)
    writable := decide (omode &&& O_WRONLY ≠ 0 ∨ omode &&& O_RDWR ≠ 0) }

/-- The second half of `sys_open`: a file and a descriptor for the locked inode `ip`. -/
def openInode (ip omode : Nat) : K Int := do
  match ← filealloc with
  | none =>
    iunlockput ip
    return -1
  | some f =>
    match ← fdalloc f with
    | none =>
      fileclose f
      iunlockput ip
      return -1
    | some fd =>
      iunlock ip
      modify (setFile f (openedFile ip omode))
      return fd

/-- `sys_open`; `omode` is the bit pattern of the mode. -/
def sysOpen (path : Option Path) (omode : Nat) : K Int := do
  match path with
  | none => return -1
  | some path =>
    if omode &&& O_CREATE ≠ 0 then
      beginTrans
      let r ← create path T_FILE 0 0
      commitTrans
      match r with
      | none => return -1
      | some ip => openInode ip omode
    else
      match ← namei path with
      | none => return -1
      | some ip =>
        ilock ip
        let m ← get
        if (m.icache ip).din.type = T_DIR ∧ omode ≠ 0 then
          iunlockput ip
          return -1
        else openInode ip omode

/-- What `sys_mkdir` and `sys_mknod` share: create an inode and drop it, in a transaction. -/
def makeNode (path : Option Path) (type major minor : Int) : K Int := do
  beginTrans
  match path with
  | none =>
    commitTrans
    return -1
  | some path =>
    match ← create path type major minor with
    | none =>
      commitTrans
      return -1
    | some ip =>
      iunlockput ip
      commitTrans
      return 0

def sysMkdir (path : Option Path) : K Int := makeNode path T_DIR 0 0

/-- `sys_mknod`; `create` takes its device numbers as `short`s. -/
def sysMknod (path : Option Path) (major minor : Int) : K Int :=
  makeNode path T_DEV (wrap16 major) (wrap16 minor)

def sysChdir (path : Option Path) : K Int := do
  match path with
  | none => return -1
  | some path =>
    match ← namei path with
    | none => return -1
    | some ip =>
      ilock ip
      let m ← get
      if (m.icache ip).din.type ≠ T_DIR then
        iunlockput ip
        return -1
      else
        iunlock ip
        let m ← get
        match (curproc m).bind Proc.cwd with
        | none => halt "no current directory"
        | some cwd =>
          iput cwd
          modify (setProc fun p => { p with cwd := some ip })
          return 0

/-! ### Programs and processes -/

/-- What `exec` reads from the program; it gives up at the first short read. -/
def execReads (ip : Nat) : List (Nat × Nat) → K Bool
  | [] => pure true
  | (off, n) :: rest => do
    match ← readi ip (off % 2 ^ 32) (n % 2 ^ 32) with
    | none => return false
    | some (r, _) => if r < n % 2 ^ 32 then return false else execReads ip rest

/-- `exec`, as far as it concerns the file system; `mem` says whether there is memory for the
program and its stack. -/
def sysExec (path : Option Path) (reads : List (Nat × Nat)) (mem : Bool) : K Int := do
  match path with
  | none => return -1
  | some path =>
    match ← namei path with
    | none => return -1
    | some ip =>
      ilock ip
      let ok ← execReads ip reads
      iunlockput ip
      return if ok && mem then 0 else -1

/-- The page that `pipealloc` fills in. -/
def newPipe (m : Mem) : Mem :=
  { m with pipes := Function.update m.pipes m.npipe ⟨true, true, 0⟩, npipe := m.npipe + 1 }

/-- One end of pipe `i`. -/
def pipeEnd (i : Nat) (writable : Bool) (ff : File) : File :=
  { ff with type := .FD_PIPE, readable := !writable, writable := writable, pipe := i }

/-- `pipealloc`; `mem` says whether there is memory for the pipe. -/
def pipealloc (mem : Bool) : K (Option (Nat × Nat)) := do
  match ← filealloc with
  | none => return none
  | some f0 =>
    match ← filealloc with
    | none =>
      fileclose f0
      return none
    | some f1 =>
      if mem then
        let m ← getModify newPipe
        modify (setFile f0 (pipeEnd m.npipe false))
        modify (setFile f1 (pipeEnd m.npipe true))
        return some (f0, f1)
      else
        fileclose f0
        fileclose f1
        return none

def sysPipe (mem : Bool) : K Int := do
  match ← pipealloc mem with
  | none => return -1
  | some (rf, wf) =>
    match ← fdalloc rf with
    | none =>
      fileclose rf
      fileclose wf
      return -1
    | some fd0 =>
      match ← fdalloc wf with
      | none =>
        modify (clearFd fd0)
        fileclose rf
        fileclose wf
        return -1
      | some _ => return 0

/-- Change the entry of process `c`. -/
def setChild (c : Nat) (p : Option Proc) (m : Mem) : Mem :=
  { m with procs := Function.update m.procs c p }

/-- The loop of `fork` over the descriptors of the parent. -/
def forkFiles : Nat → Nat → K Unit
  | 0, _ => pure ()
  | n + 1, fd => do
    let m ← get
    match (curproc m).bind fun p => p.ofile fd with
    | some f => filedup f
    | none => pure ()
    forkFiles n (fd + 1)

/-- The table entry of a process that `fork` has begun to make. -/
def embryo : Proc := ⟨false, none, fun _ => none⟩

/-- `fork` with `c` as the entry of the child; `mem` says whether there is memory for it. No
other process looks at the entry before it is runnable, so it is filled in at the
end. -/
def fork (c : Nat) (mem : Bool) : K Int := do
  let m ← getModify fun m =>
    if c < NPROC ∧ (m.procs c).isNone then setChild c (some embryo) m else m
  if c < NPROC ∧ (m.procs c).isNone then
    if mem then
      forkFiles NOFILE 0
      let m ← get
      match curproc m with
      | none => halt "no process"
      | some p =>
        match p.cwd with
        | none => halt "no current directory"
        | some cwd =>
          let _ ← idup cwd
          modify (setChild c (some { p with runnable := true }))
          return c
    else
      modify (setChild c none)
      return -1
  else return -1

/-- The loop of `exit` over the descriptors. -/
def exitFiles : Nat → Nat → K Unit
  | 0, _ => pure ()
  | n + 1, fd => do
    let m ← get
    match (curproc m).bind fun p => p.ofile fd with
    | some f =>
      fileclose f
      modify (clearFd fd)
    | none => pure ()
    exitFiles n (fd + 1)

/-- The process that must not exit. -/
def initproc : Nat := 0

def exit : K Int := do
  let m ← get
  if m.proc = initproc then halt "init exiting"
  else
    exitFiles NOFILE 0
    let m ← get
    match (curproc m).bind Proc.cwd with
    | none => halt "no current directory"
    | some cwd =>
      iput cwd
      modify fun m => setChild m.proc none m
      return 0

/-! ### Calls -/

/-- A system call with its arguments. -/
inductive Call where
  | dup (fd : Int)
  | read (fd n : Int)
  | write (fd : Int) (src : Nat → UInt8) (n : Int)
  | close (fd : Int)
  | fstat (fd : Int)
  | link (old new : Option Path)
  | unlink (path : Option Path)
  | open (path : Option Path) (omode : Nat)
  | mkdir (path : Option Path)
  | mknod (path : Option Path) (major minor : Int)
  | chdir (path : Option Path)
  | exec (path : Option Path) (reads : List (Nat × Nat)) (mem : Bool)
  | pipe (mem : Bool)
  | fork (c : Nat) (mem : Bool)
  | exit

/-- What a call runs. -/
def Call.prog : Call → K Int
  | .dup fd => sysDup fd
  | .read fd n => sysRead fd n
  | .write fd src n => sysWrite fd src n
  | .close fd => sysClose fd
  | .fstat fd => sysFstat fd
  | .link old new => sysLink old new
  | .unlink path => sysUnlink path
  | .open path omode => sysOpen path omode
  | .mkdir path => sysMkdir path
  | .mknod path major minor => sysMknod path major minor
  | .chdir path => sysChdir path
  | .exec path reads mem => sysExec path reads mem
  | .pipe mem => sysPipe mem
  | .fork c mem => Xv6.fork c mem
  | .exit => Xv6.exit

/-- Process `p` makes a call, if there is such a process. -/
def invoke (p : Nat) (c : Call) : K Unit := do
  modify fun m => { m with proc := p }
  let m ← get
  if ((curproc m).map Proc.runnable).getD false then
    let _ ← c.prog

/-- `userinit`: the first process, in the root directory. -/
def userinit : K Unit := do
  let cwd ← namei [slash]
  modify (setChild initproc (some ⟨true, cwd, fun _ => none⟩))

/-- What the kernel does before the first call: `main` makes the first process, and that one
recovers the log when it first runs, in `forkret`. -/
def start : K Unit := do
  userinit
  modify fun m => { m with proc := initproc }
  initlog

def calls : List (Nat × Call) → K Unit
  | [] => pure ()
  | (p, c) :: cs => do
    invoke p c
    calls cs

end Xv6
