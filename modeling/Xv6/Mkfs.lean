import Xv6.Image
import Xv6.Lib.StateWp

/-!
# mkfs

The program that makes the disk image (`mkfs.c`). It runs on the host: the image is a file of sectors,
read and written with `rsect` and `wsect`, and three counters say which blocks and inodes are taken. It
has its own code for the map of an inode's blocks, `iappend`.

A run stops with a failed assertion, or with `exit(1)` after an error of the host; the errors
modelled are files that cannot be opened and reads behind the end of the image. The numbers at the top of
`mkfs.c` are a superblock `sb`, for which `mkfsSuperblock` has the values of the source.
-/

open Bytes

namespace Xv6.Mkfs

/-- How a run stops. -/
inductive Stop where
  | assertion
  | exit
  deriving DecidableEq, Repr

/-- The image file, with its length in sectors, and the counters. -/
structure State where
  img : Nat → Block
  len : Nat
  freeblock : Nat
  usedblocks : Nat
  freeinode : Nat

abbrev M := StateT State (Except Stop)

def assert (c : Prop) [Decidable c] : M Unit := if c then pure () else throw .assertion

def wsect (sec : Nat) (buf : Block) : M Unit :=
  modify fun s => { s with img := Function.update s.img sec buf, len := max s.len (sec + 1) }

/-- A sector behind the end of the file cannot be read. -/
def rsect (sec : Nat) : M Block := do
  let s ← get
  if sec < s.len then return s.img sec else throw .exit

def i2b (inum : Nat) : Nat := inum / IPB + 2

def winode (inum : Nat) (ip : Dinode) : M Unit := do
  let bn := i2b inum
  let buf ← rsect bn
  wsect bn (putDinode buf (inum % IPB) ip)

def rinode (inum : Nat) : M Dinode := do
  let buf ← rsect (i2b inum)
  return getDinode buf (inum % IPB)

/-- The inode that `ialloc` writes. -/
def newInode (type : Int) : Dinode := ⟨type, 0, 0, 1, 0, fun _ => 0⟩

def ialloc (type : Int) : M Nat := do
  let s ← get
  let inum := s.freeinode
  set { s with freeinode := s.freeinode + 1 }
  winode inum (newInode type)
  return inum

/-- The bitmap: the first `used` blocks are taken. -/
def balloc (sb : Superblock) (used : Nat) : M Unit := do
  assert (used < 512 * 8)
  wsect (sb.ninodes / IPB + 3) (markFirst used)

/-- `freeblock++`, and `usedblocks++` with it. -/
def nextBlock : M Nat := do
  let s ← get
  set { s with freeblock := s.freeblock + 1, usedblocks := s.usedblocks + 1 }
  return s.freeblock

/-- The part of `iappend` that finds block `fbn` of the inode, or takes a new block for it. -/
def iappendBlock (din : Dinode) (fbn : Nat) : M (Dinode × Nat) :=
  if fbn < NDIRECT then
    if din.addrs fbn = 0 then do
      let x ← nextBlock
      return ({ din with addrs := Function.update din.addrs fbn x }, x)
    else return (din, din.addrs fbn)
  else do
    let din ← (if din.addrs NDIRECT = 0 then do
        let x ← nextBlock
        return { din with addrs := Function.update din.addrs NDIRECT x }
      else return din)
    let indirect ← rsect (din.addrs NDIRECT)
    if getLE indirect (4 * (fbn - NDIRECT)) 4 = 0 then
      let x ← nextBlock
      wsect (din.addrs NDIRECT) (putLE indirect (4 * (fbn - NDIRECT)) 4 x)
      return (din, x)
    else return (din, getLE indirect (4 * (fbn - NDIRECT)) 4)

/-- The loop of `iappend`, with the bytes that are left; each round takes at least one. -/
def iappendLoop : Nat → Dinode → Nat → List UInt8 → M (Dinode × Nat)
  | 0, din, off, _ => pure (din, off)
  | n + 1, din, off, p =>
    if p = [] then pure (din, off)
    else do
      let fbn := off / 512
      assert (fbn < MAXFILE)
      let (din, x) ← iappendBlock din fbn
      let n1 := min p.length ((fbn + 1) * 512 - off)
      let buf ← rsect x
      wsect x (overlay buf (off - fbn * 512) n1 fun k => p.getD k 0)
      iappendLoop n din (off + n1) (p.drop n1)

def iappend (inum : Nat) (p : List UInt8) : M Unit := do
  let din ← rinode inum
  let (din, off) ← iappendLoop p.length din din.size p
  winode inum { din with size := off }

/-- The bytes of a directory entry. -/
def direntList (inum : Nat) (name : Nat → UInt8) : List UInt8 :=
  (List.range DESIZE).map (direntBytes ⟨inum, name⟩)

/-- A file on the command line: its name, and what the calls of `read` return, if it can be opened. -/
structure Arg where
  name : List UInt8
  reads : Option (List (List UInt8))

/-- The name without a leading `_`. -/
def Arg.entryName (a : Arg) : List UInt8 := if a.name.head? = some 95 then a.name.tail else a.name

/-- Append what `read` returns, until it returns nothing. -/
def appendReads (inum : Nat) : List (List UInt8) → M Unit
  | [] => pure ()
  | buf :: bufs =>
    if buf = [] then pure ()
    else do
      iappend inum buf
      appendReads inum bufs

/-- The body of the loop of `main` over the files. -/
def addFile (rootino : Nat) (a : Arg) : M Unit := do
  assert (slash ∉ a.name)
  match a.reads with
  | none => throw .exit
  | some bufs =>
    let inum ← ialloc T_FILE
    iappend rootino (direntList inum (strncpy (cname a.entryName) DIRSIZ))
    appendReads inum bufs

def addFiles (rootino : Nat) : List Arg → M Unit
  | [] => pure ()
  | a :: as => do
    addFile rootino a
    addFiles rootino as

/-- Zeros in the first `n` sectors. -/
def zeroSectors : Nat → M Unit
  | 0 => pure ()
  | n + 1 => do
    zeroSectors n
    wsect n zero

/-- The beginning of `main`: an image with nothing but a superblock. -/
def format (sb : Superblock) : M Unit := do
  let bitblocks := sb.size / (512 * 8) + 1
  let usedblocks := sb.ninodes / IPB + 3 + bitblocks
  modify fun s => { s with usedblocks := usedblocks, freeblock := usedblocks }
  assert (sb.nblocks + usedblocks + sb.nlog = sb.size)
  zeroSectors (sb.nblocks + usedblocks + sb.nlog)
  wsect 1 (putSuperblock sb)

/-- The root directory is made one block larger than what it needs in full blocks. -/
def fixRoot (rootino : Nat) : M Unit := do
  let din ← rinode rootino
  let off := din.size
  let off := (off / BSIZE + 1) * BSIZE
  winode rootino { din with size := off }

def main (sb : Superblock) (files : List Arg) : M Unit := do
  format sb
  let rootino ← ialloc T_DIR
  assert (rootino = ROOTINO)
  iappend rootino (direntList rootino (cname dot))
  iappend rootino (direntList rootino (cname dotdot))
  addFiles rootino files
  fixRoot rootino
  let s ← get
  balloc sb s.usedblocks

/-- Before a run: the image is empty, and the first inode to be taken is 1. -/
def init : State := ⟨fun _ => zero, 0, 0, 0, 1⟩

end Xv6.Mkfs
