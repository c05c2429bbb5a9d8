import Xv6.Log

/-!
# The file system

`fs.c`, function by function: the block allocator, inodes and their cache, the contents
of inodes, directories and paths. A loop of the source is a recursion on the number
of rounds it can make at most.

Another process may run where the code takes or releases a lock of the inode cache or
of an inode, and at the entries of the functions that read or write the disk with an
inode locked. In between, the locks it holds protect what the code touches.
-/

open Bytes Device

namespace Xv6

/-! ### Blocks -/

/-- `bzero`: zero a block. -/
def bzero (bno : Nat) : K Unit := do
  let _ ← bread bno
  logWrite bno zero
  brelse bno

/-- The inner loop of `balloc`: the first clear bit from `bi` on, in at most `n` rounds, of
a block of the bitmap that starts with the bit of block `b`. -/
def findFree (bp : Block) (b size : Nat) : Nat → Nat → Option Nat
  | _, 0 => none
  | bi, n + 1 =>
    if b + bi < size then
      if getBit bp bi then findFree bp b size (bi + 1) n else some bi
    else none

/-- The bit of block `b` in the bitmap. -/
def bitOf (buf : Nat → Block) (ninodes b : Nat) : Bool := getBit (buf (BBLOCK b ninodes)) (b % BPB)

/-- Whether the bitmap has a clear bit for a block below the log. -/
def dataFree (sb : Superblock) (buf : Nat → Block) : Bool :=
  decide (∃ b < sb.logstart, bitOf buf sb.ninodes b = false)

/-- The outer loop of `balloc`, over the blocks of the bitmap. -/
def ballocLoop (sb : Superblock) : Nat → Nat → K Nat
  | 0, _ => halt "balloc: out of blocks"
  | n + 1, b =>
    if b < sb.size then do
      let bp ← bread (BBLOCK b sb.ninodes)
      match findFree bp b sb.size 0 BPB with
      | some bi =>
        emit fun s => .balloc (dataFree sb s.buf) (b + bi)
        logWrite (BBLOCK b sb.ninodes) (setBit bp bi)
        brelse (BBLOCK b sb.ninodes)
        bzero (b + bi)
        return b + bi
      | none =>
        brelse (BBLOCK b sb.ninodes)
        ballocLoop sb n (b + BPB)
    else halt "balloc: out of blocks"

/-- `balloc`: allocate a zeroed disk block. -/
def balloc : K Nat := do
  let sb ← readsb
  ballocLoop sb (sb.size / BPB + 1) 0

/-- `bfree`: free a disk block. -/
def bfree (b : Nat) : K Unit := do
  let sb ← readsb
  let bp ← bread (BBLOCK b sb.ninodes)
  if !getBit bp (b % BPB) then halt "freeing free block"
  logWrite (BBLOCK b sb.ninodes) (clearBit bp (b % BPB))
  brelse (BBLOCK b sb.ninodes)

/-! ### Inodes -/

/-- Change slot `k` of the inode cache. -/
def setInode (k : Nat) (f : Inode → Inode) (m : Mem) : Mem :=
  { m with icache := Function.update m.icache k (f (m.icache k)) }

/-- Change the copy of the on-disk inode in slot `k`. -/
def setDinode (k : Nat) (f : Dinode → Dinode) : Mem → Mem :=
  setInode k fun ip => { ip with din := f ip.din }

/-- The slot of the cache that holds inode `inum`. -/
def cachedSlot (ic : Nat → Inode) (inum : Nat) : Option Nat :=
  (List.range NINODE).find? fun k => decide (0 < (ic k).ref ∧ (ic k).inum = inum)

def emptySlot (ic : Nat → Inode) : Option Nat :=
  (List.range NINODE).find? fun k => decide ((ic k).ref = 0)

/-- The effect of `iget` on the cache. -/
def igetMem (inum : Nat) (m : Mem) : Mem :=
  match cachedSlot m.icache inum with
  | some k => setInode k (fun ip => { ip with ref := ip.ref + 1 }) m
  | none =>
    match emptySlot m.icache with
    | some k => setInode k
        (fun ip => { ip with inum := inum, ref := 1, busy := false, valid := false }) m
    | none => m

/-- `iget`: find the inode in the cache or recycle an entry for it; its search and
update happen under `icache.lock`. -/
def iget (inum : Nat) : K Nat := do
  yield
  let m ← getModify (igetMem inum)
  match cachedSlot m.icache inum with
  | some k => return k
  | none =>
    match emptySlot m.icache with
    | some k => return k
    | none => halt "iget: no inodes"

def idup (k : Nat) : K Nat := do
  yield
  modify (setInode k fun ip => { ip with ref := ip.ref + 1 })
  return k

def iallocLoop (sb : Superblock) (type : Int) : Nat → Nat → K Nat
  | 0, _ => halt "ialloc: no inodes"
  | n + 1, inum =>
    if inum < sb.ninodes then do
      let bp ← bread (IBLOCK inum)
      if (getDinode bp (inum % IPB)).type = 0 then
        logWrite (IBLOCK inum) (putDinode bp (inum % IPB) { Dinode.zero with type := type })
        brelse (IBLOCK inum)
        iget inum
      else
        brelse (IBLOCK inum)
        iallocLoop sb type n (inum + 1)
    else halt "ialloc: no inodes"

/-- `ialloc`: allocate a new inode with the given type. -/
def ialloc (type : Int) : K Nat := do
  yield
  let sb ← readsb
  iallocLoop sb type sb.ninodes 1

/-- `iupdate`: copy a modified in-memory inode to disk. -/
def iupdate (k : Nat) : K Unit := do
  let m ← get
  let ip := m.icache k
  let bp ← bread (IBLOCK ip.inum)
  logWrite (IBLOCK ip.inum) (putDinode bp (ip.inum % IPB) ip.din)
  brelse (IBLOCK ip.inum)

/-- `ilock`: lock the inode; read it from disk if necessary. -/
def ilock (k : Nat) : K Unit := do
  yield
  let m ← get
  if (m.icache k).ref < 1 then halt "ilock"
  wait (fun m => !(m.icache k).busy) (setInode k fun ip => { ip with busy := true })
  let m ← get
  if !(m.icache k).valid then
    let inum := (m.icache k).inum
    let bp ← bread (IBLOCK inum)
    modify (setDinode k fun _ => getDinode bp (inum % IPB))
    brelse (IBLOCK inum)
    modify (setInode k fun ip => { ip with valid := true })
    if (getDinode bp (inum % IPB)).type = 0 then halt "ilock: no type"

def iunlock (k : Nat) : K Unit := do
  yield
  let m ← get
  if !(m.icache k).busy || (m.icache k).ref < 1 then halt "iunlock"
  modify (setInode k fun ip => { ip with busy := false })

/-! ### Inode content -/

/-- `bmap`: the disk block address of block `bn` of the inode, allocated if there is none. -/
def bmap (k bn : Nat) : K Nat := do
  let m ← get
  if bn < NDIRECT then
    let addr := (m.icache k).din.addrs bn
    if addr = 0 then
      let b ← balloc
      modify (setDinode k fun d => { d with addrs := Function.update d.addrs bn b })
      return b
    else return addr
  else if bn - NDIRECT < NINDIRECT then
    let addr ← (do
      let addr := (m.icache k).din.addrs NDIRECT
      if addr = 0 then
        let b ← balloc
        modify (setDinode k fun d => { d with addrs := Function.update d.addrs NDIRECT b })
        return b
      else return addr)
    let bp ← bread addr
    let a := getLE bp (4 * (bn - NDIRECT)) 4
    if a = 0 then
      let b ← balloc
      logWrite addr (putLE bp (4 * (bn - NDIRECT)) 4 b)
      brelse addr
      return b
    else
      brelse addr
      return a
  else halt "bmap: out of range"

/-- The loop of `itrunc` over the direct blocks. -/
def itruncDirect (k : Nat) : Nat → Nat → K Unit
  | 0, _ => pure ()
  | n + 1, i => do
    let m ← get
    if (m.icache k).din.addrs i ≠ 0 then
      bfree ((m.icache k).din.addrs i)
      modify (setDinode k fun d => { d with addrs := Function.update d.addrs i 0 })
    itruncDirect k n (i + 1)

/-- The loop of `itrunc` over the entries of the indirect block `bp`. -/
def itruncIndirect (bp : Block) : Nat → Nat → K Unit
  | 0, _ => pure ()
  | n + 1, j => do
    if getLE bp (4 * j) 4 ≠ 0 then
      bfree (getLE bp (4 * j) 4)
    itruncIndirect bp n (j + 1)

/-- `itrunc`: discard the contents of the inode. -/
def itrunc (k : Nat) : K Unit := do
  itruncDirect k NDIRECT 0
  let m ← get
  let addr := (m.icache k).din.addrs NDIRECT
  if addr ≠ 0 then
    let bp ← bread addr
    itruncIndirect bp NINDIRECT 0
    brelse addr
    bfree addr
    modify (setDinode k fun d => { d with addrs := Function.update d.addrs NDIRECT 0 })
  modify (setDinode k fun d => { d with size := 0 })
  iupdate k

/-- Whether `iput` frees the inode: the last reference to an inode without links. -/
def Inode.dead (ip : Inode) : Bool := decide (ip.ref = 1) && ip.valid && decide (ip.din.nlink = 0)

/-- `iput`: drop a reference; free the inode if it was the last one and there are no links. -/
def iput (k : Nat) : K Unit := do
  yield
  let m ← get
  if (m.icache k).dead then
    if (m.icache k).busy then halt "iput busy"
    modify (setInode k fun ip => { ip with busy := true })
    emit fun _ => .ifree (decide (m.log.owner = some m.proc))
    yield
    itrunc k
    modify (setDinode k fun d => { d with type := 0 })
    iupdate k
    yield
    modify (setInode k fun ip => { ip with busy := false, valid := false })
  modify (setInode k fun ip => { ip with ref := ip.ref - 1 })

def iunlockput (k : Nat) : K Unit := do
  iunlock k
  iput k

/-- The sum of two `uint`s. -/
def uadd (a b : Nat) : Nat := (a + b) % 2 ^ 32

/-- The loop of `readi`. -/
def readiLoop (k n : Nat) : Nat → Nat → Nat → (Nat → UInt8) → K (Nat → UInt8)
  | 0, _, _, dst => pure dst
  | fuel + 1, tot, off, dst =>
    if tot < n then do
      let addr ← bmap k (off / BSIZE)
      let bp ← bread addr
      let m := min (n - tot) (BSIZE - off % BSIZE)
      brelse addr
      readiLoop k n fuel (tot + m) (off + m)
        (overlay dst tot m fun i => bp (off % BSIZE + i))
    else pure dst

/-- What `readi` does for an inode that is not a device: the number of bytes read and the
bytes, or `none` for -1. -/
def readiFile (k off n : Nat) : K (Option (Nat × (Nat → UInt8))) := do
  let m ← get
  let size := (m.icache k).din.size
  if size < off ∨ uadd off n < off then return none
  else
    let n := if size < uadd off n then size - off else n
    let dst ← readiLoop k n n 0 off zero
    return some (n, dst)

/-- The next answer of the console or of a pipe. -/
def nextInput : K (Option (Nat × (Nat → UInt8))) := do
  let m ← getModify fun m => { m with input := fun j => m.input (j + 1) }
  return m.input 0

/-- `consoleread` and `consolewrite` give up the inode while they wait for the device. -/
def consoleread (k : Nat) : K (Option (Nat × (Nat → UInt8))) := do
  iunlock k
  let r ← nextInput
  ilock k
  return r

def consolewrite (k n : Nat) : K Int := do
  iunlock k
  ilock k
  return n

/-- Whether `devsw` has a driver for a device. -/
def hasDriver (d : Dinode) : Prop := 0 ≤ d.major ∧ d.major < NDEV ∧ d.major = CONSOLE

instance (d : Dinode) : Decidable (hasDriver d) := inferInstanceAs (Decidable (_ ∧ _))

/-- `readi`: read data from an inode. -/
def readi (k off n : Nat) : K (Option (Nat × (Nat → UInt8))) := do
  yield
  let m ← get
  if (m.icache k).din.type = T_DEV then
    if hasDriver (m.icache k).din then consoleread k else return none
  else readiFile k off n

/-- The loop of `writei`; it returns the final offset. -/
def writeiLoop (k n : Nat) (src : Nat → UInt8) : Nat → Nat → Nat → K Nat
  | 0, _, off => pure off
  | fuel + 1, tot, off =>
    if tot < n then do
      let addr ← bmap k (off / BSIZE)
      let bp ← bread addr
      let m := min (n - tot) (BSIZE - off % BSIZE)
      logWrite addr (overlay bp (off % BSIZE) m fun i => src (tot + i))
      brelse addr
      writeiLoop k n src fuel (tot + m) (off + m)
    else pure off

/-- What `writei` does for an inode that is not a device. -/
def writeiFile (k : Nat) (src : Nat → UInt8) (off n : Nat) : K Int := do
  let m ← get
  if (m.icache k).din.size < off ∨ uadd off n < off then return -1
  else if MAXFILE * BSIZE < uadd off n then return -1
  else
    let off ← writeiLoop k n src n 0 off
    let m ← get
    if 0 < n ∧ (m.icache k).din.size < off then
      modify (setDinode k fun d => { d with size := off })
      iupdate k
    return n

/-- `writei`: write data to an inode. -/
def writei (k : Nat) (src : Nat → UInt8) (off n : Nat) : K Int := do
  yield
  let m ← get
  if (m.icache k).din.type = T_DEV then
    if hasDriver (m.icache k).din then consolewrite k n else return -1
  else writeiFile k src off n

/-! ### Directories -/

/-- `strncmp` of `string.c`, equality only matters to its callers. -/
def strncmp (p q : Nat → UInt8) : Nat → Nat → Int
  | 0, _ => 0
  | n + 1, i =>
    if p i ≠ 0 ∧ p i = q i then strncmp p q n (i + 1)
    else (p i).toNat - (q i).toNat

def namecmp (s t : Nat → UInt8) : Int := strncmp s t DIRSIZ 0

/-- `strncpy` of `string.c`: copy up to a NUL and fill up with NULs. -/
def strncpy (t : Nat → UInt8) (n : Nat) : Nat → UInt8 :=
  fun k => if k < n ∧ ∀ j < k, t j ≠ 0 then t k else 0

/-- A path element in a buffer of `DIRSIZ` bytes. -/
def cname (name : List UInt8) : Nat → UInt8 := fun k => name.getD k 0

/-- The loop of `dirlookup` from offset `off` on: slot of the inode and offset of the entry. -/
def dirlookupLoop (dp : Nat) (name : List UInt8) : Nat → Nat → K (Option (Nat × Nat))
  | 0, _ => pure none
  | n + 1, off => do
    let m ← get
    if off < (m.icache dp).din.size then
      match ← readi dp off DESIZE with
      | none => halt "dirlink read"
      | some (r, data) =>
        if r ≠ DESIZE then halt "dirlink read"
        else
          let de := getDirent data
          if de.inum = 0 then dirlookupLoop dp name n (off + DESIZE)
          else if namecmp (cname name) de.name = 0 then
            let ip ← iget de.inum
            return some (ip, off)
          else dirlookupLoop dp name n (off + DESIZE)
    else return none

/-- `dirlookup`: look for a directory entry in a directory. -/
def dirlookup (dp : Nat) (name : List UInt8) : K (Option (Nat × Nat)) := do
  let m ← get
  if (m.icache dp).din.type ≠ T_DIR then halt "dirlookup not DIR"
  dirlookupLoop dp name ((m.icache dp).din.size / DESIZE + 1) 0

/-- The loop of `dirlink` that looks for an empty entry: the offset it ends with. -/
def dirlinkLoop (dp : Nat) : Nat → Nat → K Nat
  | 0, off => pure off
  | n + 1, off => do
    let m ← get
    if off < (m.icache dp).din.size then
      match ← readi dp off DESIZE with
      | none => halt "dirlink read"
      | some (r, data) =>
        if r ≠ DESIZE then halt "dirlink read"
        else if (getDirent data).inum = 0 then return off
        else dirlinkLoop dp n (off + DESIZE)
    else return off

/-- `dirlink`: write a new directory entry into the directory `dp`. -/
def dirlink (dp : Nat) (name : List UInt8) (inum : Nat) : K Int := do
  match ← dirlookup dp name with
  | some (ip, _) =>
    iput ip
    return -1
  | none =>
    let m ← get
    let off ← dirlinkLoop dp ((m.icache dp).din.size / DESIZE + 1) 0
    if MAXFILE * BSIZE ≤ off then emit fun _ => .dirFull off
    let r ← writei dp (direntBytes ⟨inum, strncpy (cname name) DIRSIZ⟩) off DESIZE
    if r ≠ DESIZE then halt "dirlink"
    return 0

/-! ### Paths -/

/-- A path, without its final NUL. -/
abbrev Path := List UInt8

/-- The character `/`. -/
def slash : UInt8 := 47

/-- `skipelem`: the rest of the path and its first element, cut to `DIRSIZ` bytes. -/
def skipelem (path : Path) : Option (Path × List UInt8) :=
  match path.dropWhile (· == slash) with
  | [] => none
  | s => some ((s.dropWhile (· != slash)).dropWhile (· == slash),
      (s.takeWhile (· != slash)).take DIRSIZ)

/-- The loop of `namex`; the result is the inode and the last element read. -/
def namexLoop (parent : Bool) : Nat → Nat → Path → List UInt8 → K (Option (Nat × List UInt8))
  | 0, _, _, _ => pure none
  | n + 1, ip, path, name =>
    match skipelem path with
    | none =>
      if parent then do
        iput ip
        return none
      else return some (ip, name)
    | some (path, name) => do
      ilock ip
      let m ← get
      if (m.icache ip).din.type ≠ T_DIR then
        iunlockput ip
        return none
      else if parent ∧ path = [] then
        iunlock ip
        return some (ip, name)
      else
        match ← dirlookup ip name with
        | none =>
          iunlockput ip
          return none
        | some (next, _) =>
          iunlockput ip
          namexLoop parent n next path name

/-- `namex`: look up the inode of a path, or of its parent directory. -/
def namex (path : Path) (parent : Bool) : K (Option (Nat × List UInt8)) := do
  let ip ← (do
    if path.head? = some slash then iget ROOTINO
    else
      let m ← get
      match (m.procs m.proc).bind Proc.cwd with
      | some k => idup k
      | none => halt "no current directory")
  namexLoop parent (path.length + 1) ip path []

def namei (path : Path) : K (Option Nat) := do
  match ← namex path false with
  | some (ip, _) => return some ip
  | none => return none

def nameiparent (path : Path) : K (Option (Nat × List UInt8)) := namex path true

end Xv6
