import Xv6.Layout
import Xv6.Lib.Access

/-!
# System call arguments

The kernel uses user addresses directly, after `fetchint`, `fetchstr`, `argint`, `argptr` and
`argstr` have compared them with `proc->sz`. Here the system calls that take pointers are followed
down to the instructions that use these, and record every user address that the kernel reads or
writes. What else they depend on (file offsets, what is in a pipe or was typed, which names
exist, how far `exec` gets) is an argument.

`argptr` accepts a negative length if the sum does not wrap around. All users of the length but one
then copy nothing. `readi` takes it for a large number and cuts it down to the rest of the file, which
need not fit: this, and a string that `exec` itself has overwritten in the memory of its caller, are
the only ways to leave `[0, proc->sz)` (`syscall_confined_iff`).
-/

open Bytes

namespace Xv6

namespace UserMem

open Access

/-- A word as an `int`. -/
def int (w : Nat) : Int := if w < 2 ^ 31 then w else (w : Int) - 2 ^ 32

/-- An `int` as a `uint`. -/
def uint (i : Int) : Nat := (i % 2 ^ 32).toNat

/-- What `readi` and `writei` look at in an inode. -/
structure Inode where
  type : Int
  major : Int
  size : UInt32

/-- `struct file`. -/
inductive FileType where
  | none
  | pipe
  | inode (ip : Inode) (off : UInt32)

structure File where
  readable : Bool
  writable : Bool
  type : FileType

/-- The process that makes a system call. -/
structure Proc where
  sz : Nat
  sz_le : sz ≤ KERNBASE
  esp : Nat
  mem : Nat → UInt8
  ofile : Nat → Option File

/-- The `n` addresses from `a` on. -/
def span (a n : Nat) : List Nat := (List.range n).map fun k => (a + k) % 2 ^ 32

/-! ### `syscall.c` -/

/-- `fetchint(p, addr, ip)` -/
def fetchint (p : Proc) (addr : Nat) : Access Nat (Option Nat) :=
  if addr ≥ p.sz ∨ (addr + 4) % 2 ^ 32 > p.sz then pure none
  else do
    touch (span addr 4)
    return some (getLE p.mem addr 4)

/-- The loop of `fetchstr`, with `m` bytes between `s` and `ep`. -/
def fetchstrLoop (mem : Nat → UInt8) : Nat → Nat → Access Nat (Option Nat)
  | 0, _ => pure none
  | m + 1, s => do
    touch [s]
    if mem s = 0 then return some s else fetchstrLoop mem m (s + 1)

/-- `fetchstr(p, addr, pp)`: the length of the string, which is `addr`. -/
def fetchstr (p : Proc) (addr : Nat) : Access Nat (Option Nat) :=
  if addr ≥ p.sz then pure none
  else do
    let some s ← fetchstrLoop p.mem (p.sz - addr) addr | return none
    return some (s - addr)

/-- `argint(n, ip)` -/
def argint (p : Proc) (n : Nat) : Access Nat (Option Nat) :=
  fetchint p ((p.esp + 4 + 4 * n) % 2 ^ 32)

/-- `argptr(n, pp, size)` -/
def argptr (p : Proc) (n : Nat) (size : Int) : Access Nat (Option Nat) := do
  let some i ← argint p n | return none
  if i ≥ p.sz ∨ uint (i + size) > p.sz then return none
  else return some i

/-- `argstr(n, pp)`, which returns the pointer here. -/
def argstr (p : Proc) (n : Nat) : Access Nat (Option Nat) := do
  let some addr ← argint p n | return none
  let some _ ← fetchstr p addr | return none
  return some addr

/-! ### What is done with a buffer -/

/-- The loop of `readi` and `writei`, of which only the side in user memory matters here. -/
def copyLoop : Nat → Nat → Nat → Nat → Nat → Access Nat Unit
  | 0, _, _, _, _ => pure ()
  | fuel + 1, tot, off, addr, n =>
    if tot < n then do
      let m := min (n - tot) (BSIZE - off % BSIZE)
      touch (span addr m)
      copyLoop fuel (tot + m) ((off + m) % 2 ^ 32) ((addr + m) % 2 ^ 32) n
    else pure ()

/-- Whether `devsw` has a driver for the device. -/
def Inode.hasDriver (ip : Inode) : Prop := 0 ≤ ip.major ∧ ip.major < NDEV ∧ ip.major = CONSOLE

instance (ip : Inode) : Decidable ip.hasDriver := inferInstanceAs (Decidable (_ ∧ _))

/-- `consoleread(ip, dst, n)`, with the characters that there are. The process is killed if
there are too few. -/
def consoleread (target : Int) : List UInt8 → Int → Nat → Access Nat Int
  | [], n, _ => pure (if n > 0 then -1 else target - n)
  | c :: cs, n, dst =>
    if n > 0 then
      -- `C('D')`
      if c = 4 then pure (target - n)
      else do
        touch [dst % 2 ^ 32]
        if c = 10 then return target - (n - 1) else consoleread target cs (n - 1) (dst + 1)
    else pure (target - n)

/-- `consolewrite(ip, buf, n)` -/
def consolewrite (buf : Nat) (n : Int) : Access Nat Int := do
  touch (span buf n.toNat)
  return n

/-- `readi(ip, dst, off, n)` -/
def readi (ip : Inode) (chars : List UInt8) (dst : Nat) (off : UInt32) (n : Nat) :
    Access Nat Int :=
  if ip.type = T_DEV then
    if ip.hasDriver then consoleread (int n) chars (int n) dst else pure (-1)
  else if off.toNat > ip.size.toNat ∨ (off.toNat + n) % 2 ^ 32 < off.toNat then pure (-1)
  else do
    let n := if (off.toNat + n) % 2 ^ 32 > ip.size.toNat then ip.size.toNat - off.toNat else n
    copyLoop n 0 off.toNat dst n
    return int n

/-- `writei(ip, src, off, n)` -/
def writei (ip : Inode) (src : Nat) (off : UInt32) (n : Nat) : Access Nat Int :=
  if ip.type = T_DEV then
    if ip.hasDriver then consolewrite src (int n) else pure (-1)
  else if off.toNat > ip.size.toNat ∨ (off.toNat + n) % 2 ^ 32 < off.toNat then pure (-1)
  else if (off.toNat + n) % 2 ^ 32 > MAXFILE * BSIZE then pure (-1)
  else do
    copyLoop n 0 off.toNat src n
    return int n

/-- The copying loop of `piperead(p, addr, n)`, when there are `avail` bytes in the pipe. -/
def pipereadLoop (addr : Nat) (n : Int) : Nat → Nat → Access Nat Int
  | 0, i => pure i
  | avail + 1, i =>
    if i < n then do
      touch [(addr + i) % 2 ^ 32]
      pipereadLoop addr n avail (i + 1)
    else pure i

/-- `piperead(p, addr, n)`. Without bytes to read, the process was killed while it waited. -/
def piperead (addr : Nat) (n : Int) : Option Nat → Access Nat Int
  | none => pure (-1)
  | some avail => pipereadLoop addr n avail 0

/-- `pipewrite(p, addr, n)`, which gives up after `room` bytes. -/
def pipewriteLoop (addr : Nat) (n : Int) : Nat → Nat → Access Nat Int
  | 0, i => pure (if i < n then -1 else n)
  | room + 1, i =>
    if i < n then do
      touch [(addr + i) % 2 ^ 32]
      pipewriteLoop addr n room (i + 1)
    else pure n

/-- `stati(ip, st)`: the five fields of `struct stat`, two of them half words. -/
def stati (st : Nat) : Access Nat Unit :=
  touch (span st 2 ++ span (st + 4) 4 ++ span (st + 8) 4 ++ span (st + 12) 2 ++ span (st + 16) 4)

def sizeofStat : Int := 20

/-! ### What is done with a string -/

/-- The number of addresses, which bounds every loop over a string. -/
@[irreducible] def NADDR : Nat := 2 ^ 32

theorem naddr_eq : NADDR = 2 ^ 32 := by unfold NADDR; rfl

/-- Read from `s` on to the first byte that is `stop`. -/
def scan (mem : Nat → UInt8) (stop : UInt8 → Bool) : Nat → Nat → Access Nat Nat
  | 0, s => pure s
  | fuel + 1, s => do
    touch [s]
    if stop (mem s) then return s else scan mem stop fuel ((s + 1) % 2 ^ 32)

def slash : UInt8 := 47

/-- `skipelem(path, name)` -/
def skipelem (mem : Nat → UInt8) (path : Nat) : Access Nat (Option Nat) := do
  let path ← scan mem (· ≠ slash) NADDR path
  touch [path]
  if mem path = 0 then return none
  else
    let s := path
    let path ← scan mem (fun c => c = slash ∨ c = 0) NADDR path
    touch (span s (min (path - s) DIRSIZ))
    let path ← scan mem (· ≠ slash) NADDR path
    return some path

/-- What the directories say about one element of a path. -/
inductive Lookup where
  | notDir
  | missing
  | found
  deriving DecidableEq

/-- The loop of `namex`: whether there is such an inode. -/
def namexLoop (mem : Nat → UInt8) (nameiparent : Bool) : List Lookup → Nat → Access Nat Bool
  | [], path => do
    let some _ ← skipelem mem path | return !nameiparent
    return false
  | l :: ls, path => do
    let some path ← skipelem mem path | return !nameiparent
    if l = .notDir then return false
    else do
      touch (if nameiparent then [path] else [])
      if nameiparent ∧ mem path = 0 then return true
      else if l = .missing then return false
      else namexLoop mem nameiparent ls path

/-- `namex(path, nameiparent, name)` -/
def namex (mem : Nat → UInt8) (nameiparent : Bool) (ls : List Lookup) (path : Nat) :
    Access Nat Bool := do
  touch [path]
  namexLoop mem nameiparent ls path

/-! ### `exec` -/

/-- What `uva2ka` finds for a page: whether `walkpgdir` returns the null pointer, and the word that
is read there. -/
structure Pte where
  null : Bool
  val : Nat

/-- What `exec` depends on, apart from its arguments: the lookup of the path, whether the program
can be loaded, the size of the new image, and the page table entries that the copy of argument `k`
meets. `exec` writes to the new image while it still reads its arguments, so the memory of the
caller as it is before that copy is given as well. -/
structure Image where
  path : List Lookup
  loads : Bool
  sz : Nat
  pte : Nat → Nat → Pte
  mem : Nat → Nat → UInt8

/-- `uva2ka(pgdir, uva)`: whether there is a page that the user may access. The null pointer is the
user address 0. -/
def uva2ka (pte : Pte) : Access Nat Bool := do
  touch (if pte.null then span 0 4 else [])
  -- `PTE_P` and `PTE_U`
  return decide (pte.val % 2 = 1 ∧ pte.val / 4 % 2 = 1)

/-- `copyout(pgdir, va, p, len)`, where `p` is a user address or, for `none`, in the kernel. -/
def copyout (pte : Nat → Pte) : Nat → Nat → Option Nat → Nat → Access Nat Bool
  | 0, _, _, _ => pure true
  | fuel + 1, va, p, len =>
    if len > 0 then do
      let va0 := va - va % PGSIZE
      if ← uva2ka (pte va0) then
        let n := min (PGSIZE - (va - va0)) len
        touch (match p with
          | some p => span p n
          | none => [])
        copyout pte fuel ((va0 + PGSIZE) % 2 ^ 32) (p.map (· + n)) (len - n)
      else return false
    else pure true

/-- `strlen(s)` -/
def strlen (mem : Nat → UInt8) : Nat → Nat → Access Nat Nat
  | 0, _ => pure 0
  | fuel + 1, s => do
    touch [s]
    if mem s = 0 then return 0
    else
      let n ← strlen mem fuel ((s + 1) % 2 ^ 32)
      return n + 1

/-- One round of the loop of `exec` that pushes the argument strings. -/
def pushArg (img : Image) (argc s sp : Nat) : Access Nat (Option Nat) := do
  let len ← strlen (img.mem argc) NADDR s
  let sp := uint (sp - (len + 1 : Nat)) / 4 * 4
  let len ← strlen (img.mem argc) NADDR s
  if ← copyout (img.pte argc) (len + 1) sp (some s) (len + 1) then return some sp
  else return none

/-- The last push: `ustack`. -/
def pushStack (img : Image) (argc sp : Nat) : Access Nat Bool :=
  copyout (img.pte argc) ((3 + argc + 1) * 4) (uint (sp - ((3 + argc + 1) * 4 : Nat))) none
    ((3 + argc + 1) * 4)

/-- The loop that looks for the last element of the path. -/
def lastElem (mem : Nat → UInt8) : Nat → Nat → Nat → Access Nat Nat
  | 0, _, last => pure last
  | fuel + 1, s, last => do
    touch [s]
    if mem s = 0 then return last
    else lastElem mem fuel ((s + 1) % 2 ^ 32) (if mem s = slash then (s + 1) % 2 ^ 32 else last)

/-- `safestrcpy(proc->name, t, n + 1)` -/
def safestrcpy (mem : Nat → UInt8) : Nat → Nat → Access Nat Unit
  | 0, _ => pure ()
  | n + 1, t => do
    touch [t]
    if mem t = 0 then return () else safestrcpy mem n ((t + 1) % 2 ^ 32)

/-- The end of `exec`: save the name and go over to the new image. -/
def saveName (mem : Nat → UInt8) (path : Nat) : Access Nat Int := do
  let last ← lastElem mem NADDR path path
  safestrcpy mem 15 last
  return 0

/-- `exec` from the loop over the arguments on. -/
def execArgs (img : Image) (path : Nat) : List Nat → Nat → Nat → Access Nat Int
  | [], argc, sp => do
    if ← pushStack img argc sp then saveName (img.mem (argc + 1)) path else return -1
  | s :: argv, argc, sp =>
    if argc ≥ MAXARG then pure (-1)
    else do
      let some sp ← pushArg img argc s sp | return -1
      execArgs img path argv (argc + 1) sp

/-- `exec(path, argv)` -/
def exec (p : Proc) (img : Image) (path : Nat) (argv : List Nat) : Access Nat Int := do
  if ← namex p.mem false img.path path then
    if img.loads then execArgs img path argv 0 img.sz else return -1
  else return -1

/-! ### `sysfile.c` -/

/-- `argfd(n, pfd, pf)` -/
def argfd (p : Proc) (n : Nat) : Access Nat (Option File) := do
  let some fd ← argint p n | return none
  if int fd < 0 ∨ int fd ≥ NOFILE then return none else return p.ofile fd

/-- What `sys_read` and `sys_write` depend on: the bytes in the pipe or the room that they get,
the characters on the console, and the inode and the offset at each round of `filewrite`. -/
structure Io where
  pipe : Option Nat
  chars : List UInt8
  inode : Nat → Inode × UInt32

/-- `fileread(f, addr, n)` -/
def fileread (io : Io) (f : File) (addr : Nat) (n : Int) : Access Nat Int :=
  if f.readable = false then pure (-1)
  else match f.type with
  | .pipe => piperead addr n io.pipe
  | .inode ip off => readi ip io.chars addr off (uint n)
  | .none => pure (-1)

/-- The loop of `filewrite`. What `writei` returns is `n1` or negative, so no write is short. -/
def filewriteLoop (io : Io) (addr : Nat) (n : Int) : Nat → Nat → Nat → Access Nat Int
  | 0, _, i => pure (if i = n then n else -1)
  | fuel + 1, k, i =>
    if i < n then do
      let n1 := min (n - i).toNat ((LOGSIZE - 1 - 1 - 2) / 2 * 512)
      let r ← writei (io.inode k).1 ((addr + i) % 2 ^ 32) (io.inode k).2 n1
      if r < 0 then return -1 else filewriteLoop io addr n fuel (k + 1) (i + n1)
    else pure (if i = n then n else -1)

/-- `filewrite(f, addr, n)` -/
def filewrite (io : Io) (f : File) (addr : Nat) (n : Int) : Access Nat Int :=
  if f.writable = false then pure (-1)
  else match f.type with
  | .pipe => pipewriteLoop addr n (io.pipe.getD 0) 0
  | .inode _ _ => filewriteLoop io addr n n.toNat 0 0
  | .none => pure (-1)

/-- `sys_read` and `sys_write`, up to what is done with the buffer. -/
def sysBuffer (p : Proc) (k : File → Nat → Int → Access Nat Int) : Access Nat Int := do
  let some f ← argfd p 0 | return -1
  let some n ← argint p 2 | return -1
  let some addr ← argptr p 1 (int n) | return -1
  k f addr (int n)

def sysRead (p : Proc) (io : Io) : Access Nat Int := sysBuffer p (fileread io)

def sysWrite (p : Proc) (io : Io) : Access Nat Int := sysBuffer p (filewrite io)

def sysFstat (p : Proc) : Access Nat Int := do
  let some f ← argfd p 0 | return -1
  let some st ← argptr p 1 sizeofStat | return -1
  match f.type with
  | .inode _ _ =>
    stati st
    return 0
  | _ => return -1

/-- `sys_pipe`. `ok` says whether there are a pipe, files and descriptors. -/
def sysPipe (p : Proc) (ok : Bool) : Access Nat Int := do
  let some fd ← argptr p 0 8 | return -1
  if ok then
    touch (span fd 4 ++ span (fd + 4) 4)
    return 0
  else return -1

/-- The loop of `sys_exec` that reads `argv`. -/
def argvLoop (p : Proc) (uargv : Nat) : Nat → Nat → Access Nat (Option (List Nat))
  | 0, _ => pure none
  | m + 1, i => do
    let some uarg ← fetchint p ((uargv + 4 * i) % 2 ^ 32) | return none
    if uarg = 0 then return some []
    else
      let some _ ← fetchstr p uarg | return none
      let some argv ← argvLoop p uargv m (i + 1) | return none
      return some (uarg :: argv)

def sysExec (p : Proc) (img : Image) : Access Nat Int := do
  let some path ← argstr p 0 | return -1
  let some uargv ← argint p 1 | return -1
  let some argv ← argvLoop p uargv MAXARG 0 | return -1
  exec p img path argv

/-- `sys_open`: `create` looks up the parent of the path. `O_CREATE` is `0x200`. -/
def sysOpen (p : Proc) (ls : List Lookup) : Access Nat Unit := do
  let some path ← argstr p 0 | return
  let some omode ← argint p 1 | return
  let _ ← namex p.mem (omode / 0x200 % 2 = 1) ls path

def sysMkdir (p : Proc) (ls : List Lookup) : Access Nat Unit := do
  let some path ← argstr p 0 | return
  let _ ← namex p.mem true ls path

def sysMknod (p : Proc) (ls : List Lookup) : Access Nat Unit := do
  let some path ← argstr p 0 | return
  let some _ ← argint p 1 | return
  let some _ ← argint p 2 | return
  let _ ← namex p.mem true ls path

def sysChdir (p : Proc) (ls : List Lookup) : Access Nat Unit := do
  let some path ← argstr p 0 | return
  let _ ← namex p.mem false ls path

def sysUnlink (p : Proc) (ls : List Lookup) : Access Nat Unit := do
  let some path ← argstr p 0 | return
  let _ ← namex p.mem true ls path

/-- `sys_link`. `isDir` says whether the old path is a directory. -/
def sysLink (p : Proc) (ls ls' : List Lookup) (isDir : Bool) : Access Nat Unit := do
  let some old ← argstr p 0 | return
  let some new ← argstr p 1 | return
  if ← namex p.mem false ls old then
    if isDir then return
    let _ ← namex p.mem true ls' new

/-- The system calls that take pointers, with what else they depend on. -/
inductive Call where
  | read (io : Io)
  | write (io : Io)
  | fstat
  | pipe (ok : Bool)
  | exec (img : Image)
  | openPath (ls : List Lookup)
  | mkdir (ls : List Lookup)
  | mknod (ls : List Lookup)
  | chdir (ls : List Lookup)
  | unlink (ls : List Lookup)
  | link (ls ls' : List Lookup) (isDir : Bool)

/-- The user addresses that the kernel accesses in a system call of `p`. -/
def touches (p : Proc) : Call → List Nat
  | .read io => (sysRead p io).touched
  | .write io => (sysWrite p io).touched
  | .fstat => (sysFstat p).touched
  | .pipe ok => (sysPipe p ok).touched
  | .exec img => (sysExec p img).touched
  | .openPath ls => (sysOpen p ls).touched
  | .mkdir ls => (sysMkdir p ls).touched
  | .mknod ls => (sysMknod p ls).touched
  | .chdir ls => (sysChdir p ls).touched
  | .unlink ls => (sysUnlink p ls).touched
  | .link ls ls' isDir => (sysLink p ls ls' isDir).touched

/-! ### Arguments -/

variable {p : Proc} {addr n s sz a : Nat} {size : Int} {mem : Nat → UInt8} {stop : UInt8 → Bool}

theorem mem_span : a ∈ span addr n ↔ ∃ k < n, (addr + k) % 2 ^ 32 = a := by
  simp only [span, List.mem_map, List.mem_range]

theorem span_lt (h : addr + n ≤ sz) (hsz : sz ≤ KERNBASE) : ∀ a ∈ span addr n, a < sz := by
  intro a ha
  obtain ⟨k, hk, rfl⟩ := mem_span.mp ha
  have hbase : KERNBASE = 2 ^ 31 := rfl
  omega

theorem fetchint_within : Within (· < p.sz) (fetchint p addr) := by
  have hsz := p.sz_le
  have hbase : KERNBASE = 2 ^ 31 := rfl
  refine within_ite (fun _ => within_pure _) fun h => ?_
  refine .bind (within_touch.mpr (span_lt ?_ hsz)) (within_pure _)
  omega

theorem argint_within : Within (· < p.sz) (argint p n) := fetchint_within

/-- The string at `s` ends below `sz`. -/
def EndsBelow (sz : Nat) (mem : Nat → UInt8) (s : Nat) : Prop := ∃ e, s ≤ e ∧ e < sz ∧ mem e = 0

theorem EndsBelow.lt (h : EndsBelow sz mem s) : s < sz := by
  obtain ⟨e, h1, h2, -⟩ := h
  omega

theorem EndsBelow.next (h : EndsBelow sz mem s) (hs : mem s ≠ 0) : EndsBelow sz mem (s + 1) := by
  obtain ⟨e, h1, h2, h3⟩ := h
  have hne : s ≠ e := by
    rintro rfl
    exact hs h3
  exact ⟨e, by omega, h2, h3⟩

theorem fetchstrLoop_spec (mem : Nat → UInt8) (m : Nat) :
    ∀ s, Within (· < s + m) (fetchstrLoop mem m s) ∧
      ∀ e, (fetchstrLoop mem m s).val = some e → EndsBelow (s + m) mem s := by
  induction m with
  | zero => exact fun s => ⟨within_pure _, nofun⟩
  | succ m ih =>
    intro s
    obtain ⟨hw, hv⟩ := ih (s + 1)
    rw [show s + 1 + m = s + (m + 1) by omega] at hw hv
    rw [fetchstrLoop]
    refine ⟨.bind (within_touch.mpr (by simp)) (within_ite (fun _ => within_pure _) fun _ => hw), ?_⟩
    intro e he
    rw [val_bind] at he
    split at he
    · next h0 => exact ⟨s, le_rfl, by omega, h0⟩
    · obtain ⟨e', h1, h2, h3⟩ := hv e he
      exact ⟨e', by omega, h2, h3⟩

theorem fetchstr_within : Within (· < p.sz) (fetchstr p addr) := by
  refine within_ite (fun _ => within_pure _) fun h => ?_
  have hw := (fetchstrLoop_spec p.mem (p.sz - addr) addr).1
  rw [show addr + (p.sz - addr) = p.sz by omega] at hw
  refine .bind hw ?_
  split
  · exact within_pure _
  · exact within_pure _

/-- What `fetchstr` accepts is a string in the memory of the process. -/
theorem fetchstr_endsBelow {r : Nat} (h : (fetchstr p addr).val = some r) :
    EndsBelow p.sz p.mem addr := by
  rw [fetchstr] at h
  split at h
  · cases h
  · next hlt =>
    have hv := (fetchstrLoop_spec p.mem (p.sz - addr) addr).2
    rw [show addr + (p.sz - addr) = p.sz by omega] at hv
    rw [val_bind] at h
    split at h
    · next e he => exact hv e he
    · cases h

theorem argptr_within : Within (· < p.sz) (argptr p n size) := by
  refine .bind argint_within ?_
  split
  · exact within_ite (fun _ => within_pure _) fun _ => within_pure _
  · exact within_pure _

theorem argptr_some (h : (argptr p n size).val = some addr) :
    addr < p.sz ∧ uint (addr + size) ≤ p.sz := by
  rw [argptr, val_bind] at h
  split at h
  · split at h
    · cases h
    · next hc =>
      cases h
      exact ⟨by omega, by omega⟩
  · cases h

/-- A length that is not negative is respected. -/
theorem argptr_range (h : (argptr p n size).val = some addr) (h0 : 0 ≤ size) (h1 : size < 2 ^ 31) :
    addr + size.toNat ≤ p.sz := by
  obtain ⟨hlt, hle⟩ := argptr_some h
  have hsz := p.sz_le
  have hbase : KERNBASE = 2 ^ 31 := rfl
  rw [uint] at hle
  omega

theorem argstr_within : Within (· < p.sz) (argstr p n) := by
  refine .bind argint_within ?_
  split
  · refine .bind fetchstr_within ?_
    split
    · exact within_pure _
    · exact within_pure _
  · exact within_pure _

theorem argstr_endsBelow (h : (argstr p n).val = some addr) : EndsBelow p.sz p.mem addr := by
  rw [argstr, val_bind] at h
  split at h
  · rw [val_bind] at h
    split at h
    · next hr =>
      cases h
      exact fetchstr_endsBelow hr
    · cases h
  · cases h

/-! ### Strings -/

/-- A loop that stops at the end of a string stays in the string. -/
theorem scan_spec (stop : UInt8 → Bool) (hstop : stop 0 = true) (hsz : sz ≤ KERNBASE)
    (fuel : Nat) :
    ∀ s, EndsBelow sz mem s → Within (· < sz) (scan mem stop fuel s) ∧
      s ≤ (scan mem stop fuel s).val ∧ EndsBelow sz mem (scan mem stop fuel s).val := by
  induction fuel with
  | zero => exact fun s h => ⟨within_pure _, le_rfl, h⟩
  | succ fuel ih =>
    intro s h
    have hs : Within (· < sz) (touch [s]) := within_touch.mpr (by simpa using h.lt)
    rw [scan]
    by_cases h0 : stop (mem s) = true
    · rw [within_bind, val_bind, if_pos h0]
      exact ⟨⟨hs, within_pure _⟩, le_rfl, h⟩
    · have hne : mem s ≠ 0 := fun e => h0 (e ▸ hstop)
      have hnext := h.next hne
      have hmod : (s + 1) % 2 ^ 32 = s + 1 := by
        have := hnext.lt
        have hbase : KERNBASE = 2 ^ 31 := rfl
        omega
      rw [within_bind, val_bind, if_neg h0, hmod]
      obtain ⟨h1, h2, h3⟩ := ih (s + 1) hnext
      exact ⟨⟨hs, h1⟩, by omega, h3⟩

/-- A loop that looks for the end of a string which does not end below `sz` gets to `sz`. -/
theorem scan_overrun (hsz : sz ≤ KERNBASE) (fuel : Nat) : ∀ s ≤ sz, sz < s + fuel →
    (∀ a, s ≤ a → a < sz → mem a ≠ 0) → sz ∈ (scan mem (· = 0) fuel s).touched := by
  induction fuel with
  | zero => intro s h1 h2; omega
  | succ fuel ih =>
    intro s h1 h2 hne
    rw [scan, touched_bind]
    rcases h1.eq_or_lt with rfl | hlt
    · exact List.mem_append_left _ (List.mem_singleton.mpr rfl)
    · have hmod : (s + 1) % 2 ^ 32 = s + 1 := by
        have hbase : KERNBASE = 2 ^ 31 := rfl
        omega
      refine List.mem_append_right _ ?_
      rw [if_neg (by simpa using hne s le_rfl hlt), hmod]
      exact ih (s + 1) hlt (by omega) fun a h => hne a (by omega)

theorem skipelem_within (hsz : sz ≤ KERNBASE) (h : EndsBelow sz mem s) :
    Within (· < sz) (skipelem mem s) ∧
      ∀ s', (skipelem mem s).val = some s' → EndsBelow sz mem s' := by
  have hbase : KERNBASE = 2 ^ 31 := rfl
  obtain ⟨hw1, -, he1⟩ := scan_spec (· ≠ slash) rfl hsz NADDR s h
  set s1 := (scan mem (· ≠ slash) NADDR s).val with hs1
  obtain ⟨hw2, hle2, he2⟩ :=
    scan_spec (fun c => c = slash ∨ c = 0) rfl hsz NADDR s1 he1
  set s2 := (scan mem (fun c => c = slash ∨ c = 0) NADDR s1).val with hs2
  obtain ⟨hw3, -, he3⟩ := scan_spec (· ≠ slash) rfl hsz NADDR s2 he2
  have hname : ∀ a ∈ span s1 (min (s2 - s1) DIRSIZ), a < sz :=
    span_lt (by have := he2.lt; omega) hsz
  have ht1 : ∀ a ∈ [s1], a < sz := by simpa using he1.lt
  rw [skipelem]
  refine ⟨.bind hw1 (.bind (within_touch.mpr ht1) (within_ite (fun _ => within_pure _) fun _ =>
    .bind hw2 (.bind (within_touch.mpr hname) (.bind hw3 (within_pure _))))), ?_⟩
  intro s' hs'
  rw [val_bind, val_bind] at hs'
  split at hs'
  · cases hs'
  · rw [val_bind, val_bind, val_bind] at hs'
    cases hs'
    exact he3

theorem namexLoop_within (hsz : sz ≤ KERNBASE) (b : Bool) (ls : List Lookup) :
    ∀ s, EndsBelow sz mem s → Within (· < sz) (namexLoop mem b ls s) := by
  induction ls with
  | nil =>
    intro s h
    obtain ⟨hw, -⟩ := skipelem_within hsz h
    rw [namexLoop]
    refine .bind hw ?_
    split
    · exact within_pure _
    · exact within_pure _
  | cons l ls ih =>
    intro s h
    obtain ⟨hw, hv⟩ := skipelem_within hsz h
    rw [namexLoop]
    refine .bind hw ?_
    split
    · next s' hs' =>
      have hend := hv s' hs'
      refine within_ite (fun _ => within_pure _) fun _ => ?_
      refine .bind (within_touch.mpr ?_) (within_ite (fun _ => within_pure _) fun _ =>
        within_ite (fun _ => within_pure _) fun _ => ih s' hend)
      split
      · simpa using hend.lt
      · exact nofun
    · exact within_pure _

theorem namex_within (hsz : sz ≤ KERNBASE) (h : EndsBelow sz mem s) (b : Bool) (ls : List Lookup) :
    Within (· < sz) (namex mem b ls s) :=
  .bind (within_touch.mpr (by simpa using h.lt)) (namexLoop_within hsz b ls s h)

/-- `strlen` reads what a loop reads that looks for the end of the string. -/
theorem strlen_touched (fuel : Nat) : ∀ s, (strlen mem fuel s).touched =
    (scan mem (· = 0) fuel s).touched := by
  induction fuel with
  | zero => exact fun s => rfl
  | succ fuel ih =>
    intro s
    rw [strlen, scan, touched_bind, touched_bind]
    by_cases h0 : mem s = 0
    · rw [if_pos h0, if_pos (decide_eq_true h0)]
      rfl
    · have hc : ¬ decide (mem s = 0) = true := by simpa using h0
      rw [if_neg h0, if_neg hc, touched_bind, ih]
      exact congrArg _ (List.append_nil _)

theorem strlen_lt (hsz : sz ≤ KERNBASE) (fuel : Nat) :
    ∀ s, EndsBelow sz mem s → s + (strlen mem fuel s).val < sz := by
  induction fuel with
  | zero => exact fun s h => h.lt
  | succ fuel ih =>
    intro s h
    have hbase : KERNBASE = 2 ^ 31 := rfl
    rw [strlen, val_bind]
    by_cases h0 : mem s = 0
    · rw [if_pos h0]
      exact h.lt
    · have hnext := h.next h0
      have hmod : (s + 1) % 2 ^ 32 = s + 1 := by
        have := hnext.lt
        omega
      have hlt := ih (s + 1) hnext
      rw [if_neg h0, hmod, val_bind, val_pure]
      omega

/-- A loop to the end of a string leaves the memory of the process if and only if the string
does. -/
theorem scan_within_iff (hsz : sz ≤ KERNBASE) (hs : s < sz) :
    Within (· < sz) (scan mem (· = 0) NADDR s) ↔ EndsBelow sz mem s := by
  have hbase : KERNBASE = 2 ^ 31 := rfl
  refine ⟨fun h => ?_, fun h => (scan_spec _ (by rfl) hsz NADDR s h).1⟩
  by_contra hno
  have hover : sz ∈ (scan mem (· = 0) NADDR s).touched :=
    scan_overrun hsz NADDR s hs.le (by rw [naddr_eq]; omega) fun a h1 h2 h0 => hno ⟨a, h1, h2, h0⟩
  exact lt_irrefl sz (h sz hover)

theorem strlen_within_iff (hsz : sz ≤ KERNBASE) (hs : s < sz) :
    Within (· < sz) (strlen mem NADDR s) ↔ EndsBelow sz mem s := by
  rw [← scan_within_iff hsz hs, Within, Within, strlen_touched]

/-! ### Buffers -/

/-- The loop of `readi` and `writei` covers exactly its range. -/
theorem copyLoop_touched (fuel : Nat) : ∀ tot off addr n, n - tot ≤ fuel →
    ∀ a, a ∈ (copyLoop fuel tot off addr n).touched ↔ a ∈ span addr (n - tot) := by
  induction fuel with
  | zero =>
    intro tot off addr n hf a
    rw [show n - tot = 0 by omega]
    exact Iff.rfl
  | succ fuel ih =>
    intro tot off addr n hf a
    rw [copyLoop]
    by_cases hlt : tot < n
    · have hoff : off % BSIZE < BSIZE := Nat.mod_lt _ (by decide)
      set m := min (n - tot) (BSIZE - off % BSIZE) with hm
      have hpos : 0 < m := by omega
      rw [if_pos hlt, touched_bind, List.mem_append, ih (tot + m) _ _ n (by omega)]
      change a ∈ span addr m ∨ _ ↔ _
      simp only [mem_span]
      constructor
      · rintro (⟨k, hk, rfl⟩ | ⟨k, hk, rfl⟩)
        · exact ⟨k, by omega, rfl⟩
        · exact ⟨m + k, by omega, by omega⟩
      · rintro ⟨k, hk, rfl⟩
        by_cases hkm : k < m
        · exact Or.inl ⟨k, hkm, rfl⟩
        · exact Or.inr ⟨k - m, by omega, by omega⟩
    · rw [if_neg hlt, show n - tot = 0 by omega]
      exact Iff.rfl

theorem copyLoop_within_iff {off : Nat} (hsz : sz ≤ KERNBASE) (haddr : addr < sz) :
    Within (· < sz) (copyLoop n 0 off addr n) ↔ addr + n ≤ sz := by
  have hbase : KERNBASE = 2 ^ 31 := rfl
  have htouched := copyLoop_touched n 0 off addr n (by omega)
  constructor
  · intro h
    by_contra hlt
    have hmem : sz ∈ (copyLoop n 0 off addr n).touched :=
      (htouched sz).mpr (mem_span.mpr ⟨sz - addr, by omega, by omega⟩)
    exact lt_irrefl sz (h sz hmem)
  · intro h a ha
    exact span_lt (by omega) hsz a ((htouched a).mp ha)

theorem consoleread_within (target : Int) (chars : List UInt8) :
    ∀ (n : Int) addr, addr + n.toNat ≤ sz → Within (· < sz) (consoleread target chars n addr) := by
  induction chars with
  | nil => exact fun n addr _ => within_pure _
  | cons c cs ih =>
    intro n addr h
    rw [consoleread]
    refine within_ite (fun hn => ?_) fun _ => within_pure _
    refine within_ite (fun _ => within_pure _) fun _ => ?_
    refine .bind (within_touch.mpr ?_) (within_ite (fun _ => within_pure _) fun _ =>
      ih (n - 1) (addr + 1) (by omega))
    simp only [List.mem_singleton, forall_eq]
    omega

theorem consolewrite_within (hsz : sz ≤ KERNBASE) {n : Int} (h : addr + n.toNat ≤ sz) :
    Within (· < sz) (consolewrite addr n) :=
  .bind (within_touch.mpr (span_lt h hsz)) (within_pure _)

theorem pipereadLoop_within {n : Int} (h : addr + n.toNat ≤ sz)
    (avail : Nat) : ∀ i : Nat, Within (· < sz) (pipereadLoop addr n avail i) := by
  induction avail with
  | zero => exact fun i => within_pure _
  | succ avail ih =>
    intro i
    rw [pipereadLoop]
    refine within_ite (fun hi => .bind (within_touch.mpr ?_) (ih (i + 1))) fun _ => within_pure _
    simp only [List.mem_singleton, forall_eq]
    omega

theorem pipewriteLoop_within {n : Int} (h : addr + n.toNat ≤ sz)
    (room : Nat) : ∀ i : Nat, Within (· < sz) (pipewriteLoop addr n room i) := by
  induction room with
  | zero => exact fun i => within_pure _
  | succ room ih =>
    intro i
    rw [pipewriteLoop]
    refine within_ite (fun hi => .bind (within_touch.mpr ?_) (ih (i + 1))) fun _ => within_pure _
    simp only [List.mem_singleton, forall_eq]
    omega

theorem uint_int {w : Nat} (h : w < 2 ^ 32) : uint (int w) = w := by
  rw [uint, int]
  split <;> omega

theorem int_nonneg_iff {w : Nat} (h : w < 2 ^ 32) : 0 ≤ int w ↔ w < 2 ^ 31 := by
  rw [int]
  split <;> omega

theorem int_of_lt {w : Nat} (h : w < 2 ^ 31) : int w = w := if_pos h

/-- `readi` on a file that is not a device copies `min n (size - off)` bytes, if `off + n` does
not wrap around. -/
theorem readi_within_iff {ip : Inode} {chars : List UInt8} {off : UInt32} (hsz : sz ≤ KERNBASE)
    (haddr : addr < sz) (hn : n < 2 ^ 32) (hdev : ip.type ≠ T_DEV) :
    Within (· < sz) (readi ip chars addr off n) ↔
      (off.toNat ≤ ip.size.toNat → off.toNat + n < 2 ^ 32 →
        addr + min n (ip.size.toNat - off.toNat) ≤ sz) := by
  have hoff := off.toNat_lt
  rw [readi, if_neg hdev]
  by_cases hbad : off.toNat > ip.size.toNat ∨ (off.toNat + n) % 2 ^ 32 < off.toNat
  · rw [if_pos hbad]
    exact iff_of_true (within_pure _) fun h1 h2 => by omega
  · have hsum : (off.toNat + n) % 2 ^ 32 = off.toNat + n := by omega
    have hmin : (if (off.toNat + n) % 2 ^ 32 > ip.size.toNat then ip.size.toNat - off.toNat
        else n) = min n (ip.size.toNat - off.toNat) := by
      split <;> omega
    rw [if_neg hbad]
    dsimp only
    rw [hmin, within_bind, copyLoop_within_iff hsz haddr]
    exact ⟨fun h _ _ => h.1, fun h => ⟨h (by omega) (by omega), within_pure _⟩⟩

/-- `readi` with a length that is not negative stays in the buffer. -/
theorem readi_within {ip : Inode} {chars : List UInt8} {off : UInt32} (hsz : sz ≤ KERNBASE)
    (haddr : addr < sz) (hn : n < 2 ^ 31) (h : addr + n ≤ sz) :
    Within (· < sz) (readi ip chars addr off n) := by
  by_cases hdev : ip.type = T_DEV
  · rw [readi, if_pos hdev, int_of_lt hn]
    exact within_ite (fun _ => consoleread_within _ chars _ addr (by simpa using h))
      fun _ => within_pure _
  · exact (readi_within_iff hsz haddr (by omega) hdev).mpr fun _ _ => by omega

theorem writei_within {ip : Inode} {off : UInt32} (hsz : sz ≤ KERNBASE) (haddr : addr < sz)
    (hn : n < 2 ^ 31) (h : addr + n ≤ sz) : Within (· < sz) (writei ip addr off n) := by
  rw [writei, int_of_lt hn]
  refine within_ite (fun _ => within_ite (fun _ => consolewrite_within hsz (by simpa using h))
    fun _ => within_pure _) fun _ => ?_
  refine within_ite (fun _ => within_pure _) fun _ => within_ite (fun _ => within_pure _) fun _ => ?_
  exact .bind ((copyLoop_within_iff hsz haddr).mpr h) (within_pure _)

/-- A device is not misled by a negative length. -/
theorem readi_dev_within {ip : Inode} {chars : List UInt8} {off : UInt32}
    (hdev : ip.type = T_DEV) (hn : int n < 0) (haddr : addr < sz) :
    Within (· < sz) (readi ip chars addr off n) := by
  rw [readi, if_pos hdev]
  exact within_ite (fun _ => consoleread_within _ chars _ addr (by omega)) fun _ => within_pure _

theorem filewriteLoop_within {io : Io} {n : Int} (hsz : sz ≤ KERNBASE)
    (h : addr + n.toNat ≤ sz) (fuel : Nat) :
    ∀ k i : Nat, Within (· < sz) (filewriteLoop io addr n fuel k i) := by
  induction fuel with
  | zero => exact fun k i => within_pure _
  | succ fuel ih =>
    intro k i
    have hbase : KERNBASE = 2 ^ 31 := rfl
    rw [filewriteLoop]
    refine within_ite (fun hi => ?_) fun _ => within_pure _
    have hmod : (addr + i) % 2 ^ 32 = addr + i := by omega
    rw [hmod]
    have hmax : (LOGSIZE - 1 - 1 - 2) / 2 * 512 = 1536 := rfl
    rw [hmax]
    refine .bind (writei_within hsz (by omega) (by omega) (by omega)) ?_
    exact within_ite (fun _ => within_pure _) fun _ => ih _ _

theorem filewrite_within {io : Io} {f : File} {n : Int} (hsz : sz ≤ KERNBASE)
    (h : addr + n.toNat ≤ sz) : Within (· < sz) (filewrite io f addr n) := by
  rw [filewrite]
  refine within_ite (fun _ => within_pure _) fun _ => ?_
  split
  · exact pipewriteLoop_within h _ _
  · exact filewriteLoop_within hsz h _ _ _
  · exact within_pure _

/-! ### Arguments of `exec` -/

theorem lastElem_touched (fuel : Nat) : ∀ s last, (lastElem mem fuel s last).touched =
    (scan mem (· = 0) fuel s).touched := by
  induction fuel with
  | zero => exact fun s last => rfl
  | succ fuel ih =>
    intro s last
    rw [lastElem, scan, touched_bind, touched_bind]
    by_cases h0 : mem s = 0
    · rw [if_pos h0, if_pos (decide_eq_true h0)]
      rfl
    · have hc : ¬ decide (mem s = 0) = true := by simpa using h0
      rw [if_neg h0, if_neg hc, ih]

theorem lastElem_endsBelow (hsz : sz ≤ KERNBASE) (fuel : Nat) : ∀ s last, EndsBelow sz mem s →
    EndsBelow sz mem last → EndsBelow sz mem (lastElem mem fuel s last).val := by
  induction fuel with
  | zero => exact fun s last _ h => h
  | succ fuel ih =>
    intro s last hs hlast
    have hbase : KERNBASE = 2 ^ 31 := rfl
    rw [lastElem, val_bind]
    by_cases h0 : mem s = 0
    · rwa [if_pos h0]
    · have hnext := hs.next h0
      have hmod : (s + 1) % 2 ^ 32 = s + 1 := by
        have := hnext.lt
        omega
      rw [if_neg h0, hmod]
      refine ih _ _ hnext ?_
      split
      · exact hnext
      · exact hlast

theorem safestrcpy_within (hsz : sz ≤ KERNBASE) (n : Nat) :
    ∀ s, EndsBelow sz mem s → Within (· < sz) (safestrcpy mem n s) := by
  induction n with
  | zero => exact fun s _ => within_pure _
  | succ n ih =>
    intro s h
    have hbase : KERNBASE = 2 ^ 31 := rfl
    refine .bind (within_touch.mpr (by simpa using h.lt)) ?_
    refine within_ite (fun _ => within_pure _) fun h0 => ?_
    have hnext := h.next h0
    have hmod : (s + 1) % 2 ^ 32 = s + 1 := by
      have := hnext.lt
      omega
    rw [hmod]
    exact ih _ hnext

/-- `copyout` reads its source, and the word at address 0 instead of a page table entry that is
not there. -/
theorem copyout_within {pte : Nat → Pte} (hsz : sz ≤ KERNBASE) (h4 : 4 ≤ sz) (fuel : Nat) :
    ∀ va p len, (∀ s ∈ p, s + len ≤ sz) → Within (· < sz) (copyout pte fuel va p len) := by
  induction fuel with
  | zero => exact fun va p len _ => within_pure _
  | succ fuel ih =>
    intro va p len hp
    rw [copyout]
    refine within_ite (fun hlen => ?_) fun _ => within_pure _
    have hpte : Within (· < sz) (uva2ka (pte (va - va % PGSIZE))) := by
      refine .bind (within_touch.mpr ?_) (within_pure _)
      split
      · exact span_lt (by omega) hsz
      · exact nofun
    refine .bind hpte (within_ite (fun _ => ?_) fun _ => within_pure _)
    cases p with
    | none => exact .bind nofun (ih _ none _ nofun)
    | some s =>
      have hs := hp s rfl
      refine .bind (within_touch.mpr (span_lt (by omega) hsz)) (ih _ _ _ ?_)
      rintro s' ⟨⟩
      dsimp only
      omega

/-- Pushing an argument leaves the memory of the process if and only if its string does. -/
theorem pushArg_within_iff {img : Image} {argc sp : Nat} (hsz : sz ≤ KERNBASE) (h4 : 4 ≤ sz)
    (hs : s < sz) :
    Within (· < sz) (pushArg img argc s sp) ↔ EndsBelow sz (img.mem argc) s := by
  rw [pushArg]
  refine ⟨fun h => (strlen_within_iff hsz hs).mp (within_bind.mp h).1, fun h => ?_⟩
  have hw := (strlen_within_iff hsz hs).mpr h
  have hlen := strlen_lt hsz NADDR s h
  refine .bind hw (.bind hw (.bind (copyout_within hsz h4 _ _ _ _ ?_) ?_))
  · rintro s' ⟨⟩
    omega
  · exact within_ite (fun _ => within_pure _) fun _ => within_pure _

theorem saveName_within_iff (hsz : sz ≤ KERNBASE) (hs : s < sz) :
    Within (· < sz) (saveName mem s) ↔ EndsBelow sz mem s := by
  have hlast : Within (· < sz) (lastElem mem NADDR s s) ↔ EndsBelow sz mem s := by
    rw [← scan_within_iff hsz hs, Within, Within, lastElem_touched]
  rw [saveName, within_bind, hlast]
  refine ⟨And.left, fun h => ⟨h, .bind (safestrcpy_within hsz 15 _ ?_) (within_pure _)⟩⟩
  exact lastElem_endsBelow hsz NADDR s s h h

/-- The strings that `exec` reads, as they are in the memory of the caller when it reads them, end
below `sz`. -/
def StringsEnd (sz : Nat) (img : Image) (path : Nat) : List Nat → Nat → Nat → Prop
  | [], argc, sp => (pushStack img argc sp).val = true → EndsBelow sz (img.mem (argc + 1)) path
  | s :: argv, argc, sp => argc < MAXARG → EndsBelow sz (img.mem argc) s ∧
      ∀ sp', (pushArg img argc s sp).val = some sp' →
        StringsEnd sz img path argv (argc + 1) sp'

theorem execArgs_within_iff (img : Image) {path : Nat} (hsz : sz ≤ KERNBASE) (h4 : 4 ≤ sz)
    (hpath : path < sz) (argv : List Nat) : ∀ argc sp, (∀ s ∈ argv, s < sz) →
    (Within (· < sz) (execArgs img path argv argc sp) ↔ StringsEnd sz img path argv argc sp) := by
  induction argv with
  | nil =>
    intro argc sp _
    have hstack : Within (· < sz) (pushStack img argc sp) := copyout_within hsz h4 _ _ _ _ nofun
    rw [execArgs, StringsEnd, within_bind, and_iff_right hstack]
    by_cases hok : (pushStack img argc sp).val = true
    · rw [if_pos hok, saveName_within_iff hsz hpath, forall_prop_of_true hok]
    · rw [if_neg hok]
      exact iff_of_true (within_pure _) fun h => absurd h hok
  | cons s argv ih =>
    intro argc sp hargv
    have hs := hargv s List.mem_cons_self
    rw [execArgs, StringsEnd]
    by_cases hmax : argc ≥ MAXARG
    · rw [if_pos hmax]
      exact iff_of_true (within_pure _) fun h => absurd h (by omega)
    · rw [if_neg hmax, within_bind, pushArg_within_iff hsz h4 hs,
        forall_prop_of_true (by omega)]
      refine and_congr_right fun _ => ?_
      split
      · next sp' hsp' =>
        rw [hsp', ih (argc + 1) sp' fun s' h' => hargv s' (List.mem_cons_of_mem s h')]
        exact ⟨fun h sp'' e => Option.some.inj e ▸ h, fun h => h sp' rfl⟩
      · next hnone =>
        refine iff_of_true (within_pure _) fun sp' hsp' => absurd hsp' (hnone sp')

/-! ### The system calls -/

theorem fetchint_some {w : Nat} (h : (fetchint p addr).val = some w) : 4 ≤ p.sz ∧ w < 2 ^ 32 := by
  have hsz := p.sz_le
  have hbase : KERNBASE = 2 ^ 31 := rfl
  rw [fetchint] at h
  split at h
  · cases h
  · cases h
    exact ⟨by omega, getLE_lt p.mem addr 4⟩

theorem argvLoop_within (uargv m : Nat) :
    ∀ i, Within (· < p.sz) (argvLoop p uargv m i) := by
  induction m with
  | zero => exact fun i => within_pure _
  | succ m ih =>
    intro i
    rw [argvLoop]
    refine .bind fetchint_within ?_
    split
    · refine within_ite (fun _ => within_pure _) fun _ => .bind fetchstr_within ?_
      split
      · refine .bind (ih (i + 1)) ?_
        split
        · exact within_pure _
        · exact within_pure _
      · exact within_pure _
    · exact within_pure _

theorem argvLoop_endsBelow (uargv m : Nat) : ∀ i argv, (argvLoop p uargv m i).val = some argv →
    ∀ s ∈ argv, EndsBelow p.sz p.mem s := by
  induction m with
  | zero => exact fun i argv h => nomatch h
  | succ m ih =>
    intro i argv h
    rw [argvLoop, val_bind] at h
    split at h
    · next uarg _ =>
      split at h
      · cases h
        exact nofun
      · rw [val_bind] at h
        split at h
        · next hstr =>
          rw [val_bind] at h
          split at h
          · next rest hrest =>
            cases h
            rw [List.forall_mem_cons]
            exact ⟨fetchstr_endsBelow hstr, ih (i + 1) rest hrest⟩
          · cases h
        · cases h
    · cases h

theorem argfd_within : Within (· < p.sz) (argfd p n) := by
  refine .bind argint_within ?_
  split
  · exact within_ite (fun _ => within_pure _) fun _ => within_pure _
  · exact within_pure _

/-- The arguments of `sys_read` and `sys_write` are read within the memory of the process, so only
what is done with them matters. -/
theorem sysBuffer_within_iff {k : File → Nat → Int → Access Nat Int} :
    Within (· < p.sz) (sysBuffer p k) ↔ ∀ f n addr, (argfd p 0).val = some f →
      (argint p 2).val = some n → (argptr p 1 (int n)).val = some addr →
      Within (· < p.sz) (k f addr (int n)) := by
  rw [sysBuffer, within_bind, and_iff_right argfd_within]
  split
  · next f hf =>
    rw [within_bind, and_iff_right argint_within]
    split
    · next n hn =>
      rw [within_bind, and_iff_right argptr_within]
      split
      · next addr haddr =>
        constructor
        · intro h f' n' addr' hf' hn' haddr'
          obtain rfl := Option.some.inj (hf.symm.trans hf')
          obtain rfl := Option.some.inj (hn.symm.trans hn')
          obtain rfl := Option.some.inj (haddr.symm.trans haddr')
          exact h
        · exact fun h => h f n addr hf hn haddr
      · next hnone =>
        refine iff_of_true (within_pure _) fun f' n' addr' hf' hn' haddr' => ?_
        obtain rfl := Option.some.inj (hn.symm.trans hn')
        exact absurd haddr' (hnone addr')
    · next hnone =>
      exact iff_of_true (within_pure _) fun f' n' addr' hf' hn' => absurd hn' (hnone n')
  · next hnone =>
    exact iff_of_true (within_pure _) fun f' n' addr' hf' => absurd hf' (hnone f')

/-- `sys_read` from a file that is not a device with a negative length: `readi` copies the rest of
the file, and that does not fit between the buffer and `proc->sz`. -/
structure ReadOverrun (p : Proc) (f : File) (n addr : Nat) (ip : Inode) (off : UInt32) : Prop where
  file : (argfd p 0).val = some f
  length : (argint p 2).val = some n
  buffer : (argptr p 1 (int n)).val = some addr
  readable : f.readable = true
  inode : f.type = .inode ip off
  notDev : ip.type ≠ T_DEV
  negative : int n < 0
  offset : off.toNat ≤ ip.size.toNat
  accepted : off.toNat + n < 2 ^ 32
  overrun : p.sz < addr + min n (ip.size.toNat - off.toNat)

/-- `exec` reads a string that, by then, does not end in the memory of its caller. -/
structure ExecOverrun (p : Proc) (img : Image) (path uargv : Nat) (argv : List Nat) : Prop where
  arg0 : (argstr p 0).val = some path
  arg1 : (argint p 1).val = some uargv
  args : (argvLoop p uargv MAXARG 0).val = some argv
  found : (namex p.mem false img.path path).val = true
  loads : img.loads = true
  overrun : ¬ StringsEnd p.sz img path argv 0 img.sz

/-- The ways to leave the memory of the process. -/
def Overruns (p : Proc) : Call → Prop
  | .read _ => ∃ f n addr ip off, ReadOverrun p f n addr ip off
  | .exec img => ∃ path uargv argv, ExecOverrun p img path uargv argv
  | _ => False

theorem fileread_within_iff {io : Io} {f : File} (hn : n < 2 ^ 32)
    (haddr : (argptr p 1 (int n)).val = some addr) :
    Within (· < p.sz) (fileread io f addr (int n)) ↔ ¬ ∃ ip off, f.readable = true ∧
      f.type = .inode ip off ∧ ip.type ≠ T_DEV ∧ int n < 0 ∧ off.toNat ≤ ip.size.toNat ∧
      off.toNat + n < 2 ^ 32 ∧ p.sz < addr + min n (ip.size.toNat - off.toNat) := by
  have hsz := p.sz_le
  obtain ⟨hlt, -⟩ := argptr_some haddr
  -- a length that is not negative is respected, a negative one is zero for pipes and devices
  have hrange : addr + (int n).toNat ≤ p.sz := by
    by_cases h0 : 0 ≤ int n
    · exact argptr_range haddr h0 (by rw [int]; split <;> omega)
    · omega
  rw [fileread, uint_int hn]
  by_cases hread : f.readable = false
  · rw [if_pos hread]
    exact iff_of_true (within_pure _) fun ⟨_, _, h, _⟩ => Bool.noConfusion (hread.symm.trans h)
  rw [if_neg hread]
  cases htype : f.type with
  | none => exact iff_of_true (within_pure _) fun ⟨_, _, _, h, _⟩ => nomatch h
  | pipe =>
    refine iff_of_true ?_ fun ⟨_, _, _, h, _⟩ => nomatch h
    cases io.pipe with
    | none => exact within_pure _
    | some avail => exact pipereadLoop_within hrange avail 0
  | inode ip off =>
    by_cases hneg : int n < 0
    · by_cases hdev : ip.type = T_DEV
      · refine iff_of_true (readi_dev_within hdev hneg hlt) ?_
        rintro ⟨ip', off', -, h, hdev', -⟩
        cases h
        exact hdev' hdev
      · dsimp only
        rw [readi_within_iff hsz hlt hn hdev]
        constructor
        · rintro h ⟨ip', off', -, e, -, -, h1, h2, h3⟩
          cases e
          have := h h1 h2
          omega
        · intro h h1 h2
          by_contra h3
          exact h ⟨ip, off, by simpa using hread, rfl, hdev, hneg, h1, h2, by omega⟩
    · have hn' : n < 2 ^ 31 := (int_nonneg_iff hn).mp (by omega)
      rw [int_of_lt hn', Int.toNat_natCast] at hrange
      exact iff_of_true (readi_within hsz hlt hn' hrange) fun ⟨_, _, _, _, _, h, _⟩ => hneg h

theorem sysRead_within_iff {io : Io} :
    Within (· < p.sz) (sysRead p io) ↔ ¬ Overruns p (.read io) := by
  rw [sysRead, sysBuffer_within_iff, Overruns]
  constructor
  · rintro h ⟨f, n, addr, ip, off, ho⟩
    have hw := h f n addr ho.file ho.length ho.buffer
    rw [fileread_within_iff (fetchint_some ho.length).2 ho.buffer] at hw
    exact hw ⟨ip, off, ho.readable, ho.inode, ho.notDev, ho.negative, ho.offset, ho.accepted,
      ho.overrun⟩
  · intro h f n addr hf hn haddr
    rw [fileread_within_iff (fetchint_some hn).2 haddr]
    rintro ⟨ip, off, h1, h2, h3, h4, h5, h6, h7⟩
    exact h ⟨f, n, addr, ip, off, ⟨hf, hn, haddr, h1, h2, h3, h4, h5, h6, h7⟩⟩

theorem sysWrite_within {io : Io} : Within (· < p.sz) (sysWrite p io) := by
  refine sysBuffer_within_iff.mpr fun f n addr _ hn haddr => filewrite_within p.sz_le ?_
  have hw := (fetchint_some hn).2
  by_cases h0 : 0 ≤ int n
  · exact argptr_range haddr h0 (by rw [int]; split <;> omega)
  · have := (argptr_some haddr).1
    omega

theorem sysFstat_within : Within (· < p.sz) (sysFstat p) := by
  refine .bind argfd_within ?_
  split
  · refine .bind argptr_within ?_
    split
    · next st hst =>
      have hend := argptr_range hst (by decide) (by decide)
      have h20 : sizeofStat.toNat = 20 := rfl
      have hsz := p.sz_le
      split
      · refine .bind (within_touch.mpr ?_) (within_pure _)
        simp only [List.forall_mem_append]
        exact ⟨⟨⟨⟨span_lt (by omega) hsz, span_lt (by omega) hsz⟩, span_lt (by omega) hsz⟩,
          span_lt (by omega) hsz⟩, span_lt (by omega) hsz⟩
      · exact within_pure _
    · exact within_pure _
  · exact within_pure _

theorem sysPipe_within {ok : Bool} : Within (· < p.sz) (sysPipe p ok) := by
  refine .bind argptr_within ?_
  split
  · next fd hfd =>
    have hend := argptr_range hfd (by decide) (by decide)
    have h8 : (8 : Int).toNat = 8 := rfl
    have hsz := p.sz_le
    refine within_ite (fun _ => .bind (within_touch.mpr ?_) (within_pure _)) fun _ => within_pure _
    exact List.forall_mem_append.mpr ⟨span_lt (by omega) hsz, span_lt (by omega) hsz⟩
  · exact within_pure _

theorem sysExec_within_iff {img : Image} :
    Within (· < p.sz) (sysExec p img) ↔ ¬ Overruns p (.exec img) := by
  have hsz := p.sz_le
  rw [sysExec, within_bind, and_iff_right argstr_within]
  split
  · next path hpath =>
    rw [within_bind, and_iff_right argint_within]
    split
    · next uargv huargv =>
      rw [within_bind, and_iff_right (argvLoop_within _ _ _)]
      split
      · next argv hargv =>
        have hend := argstr_endsBelow hpath
        rw [exec, within_bind, and_iff_right (namex_within hsz hend _ _)]
        have key := execArgs_within_iff img hsz (fetchint_some huargv).1 hend.lt argv 0
          img.sz fun s hs => (argvLoop_endsBelow _ _ _ _ hargv s hs).lt
        by_cases hrun : (namex p.mem false img.path path).val = true ∧ img.loads = true
        · rw [if_pos hrun.1, if_pos hrun.2, key]
          constructor
          · rintro h ⟨path', uargv', argv', ho⟩
            obtain rfl := Option.some.inj (hpath.symm.trans ho.arg0)
            obtain rfl := Option.some.inj (huargv.symm.trans ho.arg1)
            obtain rfl := Option.some.inj (hargv.symm.trans ho.args)
            exact ho.overrun h
          · intro h
            by_contra hno
            exact h ⟨path, uargv, argv, ⟨hpath, huargv, hargv, hrun.1, hrun.2, hno⟩⟩
        · refine iff_of_true (within_ite (fun h1 => within_ite (fun h2 => absurd ⟨h1, h2⟩ hrun)
            fun _ => within_pure _) fun _ => within_pure _) ?_
          rintro ⟨path', uargv', argv', ho⟩
          obtain rfl := Option.some.inj (hpath.symm.trans ho.arg0)
          exact hrun ⟨ho.found, ho.loads⟩
      · next hnone =>
        refine iff_of_true (within_pure _) ?_
        rintro ⟨path', uargv', argv', ho⟩
        obtain rfl := Option.some.inj (huargv.symm.trans ho.arg1)
        exact hnone argv' ho.args
    · next hnone =>
      exact iff_of_true (within_pure _) fun ⟨path', uargv', argv', ho⟩ => hnone uargv' ho.arg1
  · next hnone =>
    exact iff_of_true (within_pure _) fun ⟨path', uargv', argv', ho⟩ => hnone path' ho.arg0

theorem sysOpen_within {ls : List Lookup} : Within (· < p.sz) (sysOpen p ls) := by
  refine .bind argstr_within ?_
  split
  · next hpath =>
    refine .bind argint_within ?_
    split
    · exact .bind (namex_within p.sz_le (argstr_endsBelow hpath) _ ls) (within_pure _)
    · exact within_pure _
  · exact within_pure _

theorem sysMknod_within {ls : List Lookup} : Within (· < p.sz) (sysMknod p ls) := by
  refine .bind argstr_within ?_
  split
  · next hpath =>
    refine .bind argint_within ?_
    split
    · refine .bind argint_within ?_
      split
      · exact .bind (namex_within p.sz_le (argstr_endsBelow hpath) _ ls) (within_pure _)
      · exact within_pure _
    · exact within_pure _
  · exact within_pure _

theorem sysMkdir_within {ls : List Lookup} : Within (· < p.sz) (sysMkdir p ls) := by
  refine .bind argstr_within ?_
  split
  · next hpath => exact .bind (namex_within p.sz_le (argstr_endsBelow hpath) _ ls) (within_pure _)
  · exact within_pure _

theorem sysChdir_within {ls : List Lookup} : Within (· < p.sz) (sysChdir p ls) := by
  refine .bind argstr_within ?_
  split
  · next hpath => exact .bind (namex_within p.sz_le (argstr_endsBelow hpath) _ ls) (within_pure _)
  · exact within_pure _

theorem sysLink_within {ls ls' : List Lookup} {isDir : Bool} :
    Within (· < p.sz) (sysLink p ls ls' isDir) := by
  refine .bind argstr_within ?_
  split
  · next hold =>
    refine .bind argstr_within ?_
    split
    · next hnew =>
      refine .bind (namex_within p.sz_le (argstr_endsBelow hold) _ ls) ?_
      refine within_ite (fun _ => within_ite (fun _ => within_pure _) fun _ => ?_)
        fun _ => within_pure _
      exact .bind (namex_within p.sz_le (argstr_endsBelow hnew) _ ls') (within_pure _)
    · exact within_pure _
  · exact within_pure _

/-- `exec` leaves the memory of its caller alone: it is as it was at the call when the arguments
are pushed. -/
def Image.Isolated (img : Image) (p : Proc) : Prop := ∀ k, img.mem k = p.mem

theorem stringsEnd_of_isolated {img : Image} (h : img.Isolated p) {path : Nat}
    (hpath : EndsBelow p.sz p.mem path) (argv : List Nat) : ∀ argc sp,
    (∀ s ∈ argv, EndsBelow p.sz p.mem s) → StringsEnd p.sz img path argv argc sp := by
  induction argv with
  | nil =>
    intro argc sp _ _
    rw [h]
    exact hpath
  | cons s argv ih =>
    intro argc sp hargv _
    rw [h]
    exact ⟨hargv s List.mem_cons_self, fun sp' _ =>
      ih (argc + 1) sp' fun s' h' => hargv s' (List.mem_cons_of_mem s h')⟩

/-- A process of one page that calls `read(0, 4095, -1)`. -/
def reader : Proc where
  sz := 4096
  sz_le := by decide
  esp := 0
  mem a := if a = 8 ∨ 12 ≤ a ∧ a < 16 then 0xff else if a = 9 then 0x0f else 0
  ofile _ := some ⟨true, false, .inode ⟨T_FILE, 0, 2⟩ 0⟩

end UserMem

end Xv6
