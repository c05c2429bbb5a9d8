import Xv6.Lib.Bytes

/-!
# The on-disk format

The constants of `param.h`, `fs.h` and `memlayout.h`, the macros that place inodes and bitmap
bits in sectors, and the records of the disk as fields inside a sector: the
superblock, the inode, the directory entry and the log header. Each record has a
read and a write and the law that the read gives back what was written.

The disk is laid out as

  unused | superblock | inodes | bitmap | data | log

with the inodes from sector 2 on, the bitmap from `ninodes / IPB + 3` on and the log
in the last `nlog` sectors (`Superblock.logstart`).
-/

open Bytes

namespace Xv6

/-! ### Constants -/

/-- Size of a sector in bytes. -/
def BSIZE : Nat := 512
/-- Number of buffers in the cache. -/
def NBUF : Nat := 10
/-- Number of slots of the inode cache. -/
def NINODE : Nat := 50
/-- Number of entries of the file table. -/
def NFILE : Nat := 100
/-- Number of descriptors of a process. -/
def NOFILE : Nat := 16
/-- Number of major devices. -/
def NDEV : Nat := 10
/-- Number of processes. -/
def NPROC : Nat := 64
/-- Number of arguments of `exec`. -/
def MAXARG : Nat := 32
/-- Number of data sectors the log header has room for. -/
def LOGSIZE : Nat := 10
/-- The inode number of the root directory. -/
def ROOTINO : Nat := 1
def NDIRECT : Nat := 12
def NINDIRECT : Nat := 128
/-- Number of blocks of the largest file. -/
def MAXFILE : Nat := NDIRECT + NINDIRECT
/-- Inodes per block. -/
def IPB : Nat := 8
/-- Bitmap bits per block. -/
def BPB : Nat := 4096
/-- Length of a name in a directory entry. -/
def DIRSIZ : Nat := 14
/-- Size of a page in bytes. -/
def PGSIZE : Nat := 4096
/-- The first virtual address of the kernel. -/
def KERNBASE : Nat := 0x80000000

/-- The file types: directory, file and device; 0 marks a free inode. -/
def T_DIR : Int := 1
def T_FILE : Int := 2
def T_DEV : Int := 3

/-- The major number of the console, the only device with a driver. -/
def CONSOLE : Int := 1

/-- The block that holds inode `i`. -/
def IBLOCK (i : Nat) : Nat := i / IPB + 2
/-- The block that holds the bitmap bit of block `b`. -/
def BBLOCK (b ninodes : Nat) : Nat := b / BPB + ninodes / IPB + 3

/-! ### The superblock -/

structure Superblock where
  size : Nat
  nblocks : Nat
  ninodes : Nat
  nlog : Nat
  deriving DecidableEq, Repr

/-- The first block of the log. -/
def Superblock.logstart (sb : Superblock) : Nat := sb.size - sb.nlog

/-- The first data block: `mkfs` reserves `size / BPB + 1` bitmap blocks. -/
def Superblock.datastart (sb : Superblock) : Nat := sb.ninodes / IPB + 3 + (sb.size / BPB + 1)

def getSuperblock (b : Block) : Superblock where
  size := getLE b 0 4
  nblocks := getLE b 4 4
  ninodes := getLE b 8 4
  nlog := getLE b 12 4

/-! ### Inodes -/

/-- The on-disk inode; the in-memory inode holds a copy of it. `addrs` has
`NDIRECT + 1` entries, the last one for the indirect block. -/
@[ext] structure Dinode where
  type : Int
  major : Int
  minor : Int
  nlink : Int
  size : Nat
  addrs : Nat → Nat

/-- The fields are in the range of their C types and `addrs` is only used up to its
length. -/
structure Dinode.Ok (d : Dinode) : Prop where
  type : IsShort d.type
  major : IsShort d.major
  minor : IsShort d.minor
  nlink : IsShort d.nlink
  size : d.size < 2 ^ 32
  addrs : ∀ k, d.addrs k < 2 ^ 32
  len : ∀ k, NDIRECT < k → d.addrs k = 0

def Dinode.zero : Dinode := ⟨0, 0, 0, 0, 0, fun _ => 0⟩

/-- Inode `j` of an inode block. -/
def getDinode (b : Block) (j : Nat) : Dinode where
  type := getI16 b (64 * j)
  major := getI16 b (64 * j + 2)
  minor := getI16 b (64 * j + 4)
  nlink := getI16 b (64 * j + 6)
  size := getLE b (64 * j + 8) 4
  addrs k := if k ≤ NDIRECT then getLE b (64 * j + 12 + 4 * k) 4 else 0

/-- Store inode `j` of an inode block. -/
def putDinode (b : Block) (j : Nat) (d : Dinode) : Block :=
  let b := putI16 b (64 * j) d.type
  let b := putI16 b (64 * j + 2) d.major
  let b := putI16 b (64 * j + 4) d.minor
  let b := putI16 b (64 * j + 6) d.nlink
  let b := putLE b (64 * j + 8) 4 d.size
  overlay b (64 * j + 12) (4 * 13) (wordBytes d.addrs)

theorem Dinode.zero_ok : Dinode.zero.Ok := by
  constructor <;> simp [Dinode.zero, IsShort]

theorem getDinode_zero (j : Nat) : getDinode zero j = Dinode.zero := by
  unfold getDinode Dinode.zero
  simp

theorem putDinode_of_not_mem {b : Block} {j x : Nat} {d : Dinode}
    (h : x < 64 * j ∨ 64 * j + 64 ≤ x) : putDinode b j d x = b x := by
  unfold putDinode
  rw [overlay_of_not_mem (by omega), putLE_of_not_mem (by omega), putI16_of_not_mem (by omega),
    putI16_of_not_mem (by omega), putI16_of_not_mem (by omega), putI16_of_not_mem (by omega)]

theorem getDinode_congr {b b' : Block} {j : Nat}
    (h : ∀ x, 64 * j ≤ x → x < 64 * j + 64 → b x = b' x) : getDinode b j = getDinode b' j := by
  have h16 : ∀ o, 64 * j ≤ o → o + 2 ≤ 64 * j + 64 → getI16 b o = getI16 b' o :=
    fun o h1 h2 => getI16_congr fun x h3 h4 => h x (by omega) (by omega)
  have h32 : ∀ o, 64 * j ≤ o → o + 4 ≤ 64 * j + 64 → getLE b o 4 = getLE b' o 4 :=
    fun o h1 h2 => getLE_congr fun x h3 h4 => h x (by omega) (by omega)
  have haddr : ∀ k, (if k ≤ NDIRECT then getLE b (64 * j + 12 + 4 * k) 4 else 0)
      = if k ≤ NDIRECT then getLE b' (64 * j + 12 + 4 * k) 4 else 0 := by
    intro k
    by_cases hk : k ≤ NDIRECT
    · rw [if_pos hk, if_pos hk, h32 _ (by omega) (by unfold NDIRECT at hk; omega)]
    · rw [if_neg hk, if_neg hk]
  ext1
  · exact h16 _ (by omega) (by omega)
  · exact h16 _ (by omega) (by omega)
  · exact h16 _ (by omega) (by omega)
  · exact h16 _ (by omega) (by omega)
  · exact h32 _ (by omega) (by omega)
  · exact funext haddr

theorem getDinode_putDinode_of_ne {b : Block} {j j' : Nat} {d : Dinode} (h : j' ≠ j) :
    getDinode (putDinode b j d) j' = getDinode b j' :=
  getDinode_congr fun x h1 h2 => putDinode_of_not_mem (by omega)

theorem getDinode_putDinode_self {b : Block} {j : Nat} {d : Dinode} (h : d.Ok) :
    getDinode (putDinode b j d) j = d := by
  ext1
  · change getI16 (putDinode b j d) (64 * j) = d.type
    rw [← getI16_putI16_self (b := b) (o := 64 * j) h.type]
    refine getI16_congr fun x h1 h2 => ?_
    unfold putDinode
    rw [overlay_of_not_mem (by omega), putLE_of_not_mem (by omega), putI16_of_not_mem (by omega),
      putI16_of_not_mem (by omega), putI16_of_not_mem (by omega)]
  · change getI16 (putDinode b j d) (64 * j + 2) = d.major
    rw [← getI16_putI16_self (b := putI16 b (64 * j) d.type) (o := 64 * j + 2) h.major]
    refine getI16_congr fun x h1 h2 => ?_
    unfold putDinode
    rw [overlay_of_not_mem (by omega), putLE_of_not_mem (by omega), putI16_of_not_mem (by omega),
      putI16_of_not_mem (by omega)]
  · change getI16 (putDinode b j d) (64 * j + 4) = d.minor
    rw [← getI16_putI16_self (b := putI16 (putI16 b (64 * j) d.type) (64 * j + 2) d.major)
      (o := 64 * j + 4) h.minor]
    refine getI16_congr fun x h1 h2 => ?_
    unfold putDinode
    rw [overlay_of_not_mem (by omega), putLE_of_not_mem (by omega), putI16_of_not_mem (by omega)]
  · change getI16 (putDinode b j d) (64 * j + 6) = d.nlink
    rw [← getI16_putI16_self
      (b := putI16 (putI16 (putI16 b (64 * j) d.type) (64 * j + 2) d.major) (64 * j + 4) d.minor)
      (o := 64 * j + 6) h.nlink]
    refine getI16_congr fun x h1 h2 => ?_
    unfold putDinode
    rw [overlay_of_not_mem (by omega), putLE_of_not_mem (by omega)]
  · change getLE (putDinode b j d) (64 * j + 8) 4 = d.size
    unfold putDinode
    rw [getLE_congr fun x h1 h2 => overlay_of_not_mem (by omega),
      getLE_putLE_of_lt (by simpa using h.size)]
  · funext k
    change (if k ≤ NDIRECT then getLE (putDinode b j d) (64 * j + 12 + 4 * k) 4 else 0) = d.addrs k
    by_cases hk : k ≤ NDIRECT
    · rw [if_pos hk]
      unfold putDinode
      exact getLE_overlay_words (by unfold NDIRECT at hk; omega) (h.addrs k)
    · rw [if_neg hk, h.len k (by omega)]

/-! ### The log header -/

/-- The header block: `n` and the first `n` of the sector numbers are written, the rest
keeps what the block held. -/
def putHeader (b : Block) (lh : List Nat) : Block :=
  overlay (putLE b 0 4 lh.length) 4 (4 * lh.length) (wordBytes fun i => lh.getD i 0)

/-- `n` of a header block; a negative `int` enters no loop. -/
def headerLen (b : Block) : Nat := if getLE b 0 4 < 2 ^ 31 then getLE b 0 4 else 0

/-- The sector numbers a header block lists. -/
def getHeader (b : Block) : List Nat := (List.range (headerLen b)).map fun i => getLE b (4 + 4 * i) 4

theorem headerLen_putHeader {b : Block} {lh : List Nat} (h : lh.length < 2 ^ 31) :
    headerLen (putHeader b lh) = lh.length := by
  have hn : getLE (putHeader b lh) 0 4 = lh.length := by
    unfold putHeader
    rw [getLE_congr fun x h1 h2 => overlay_of_not_mem (by omega)]
    exact getLE_putLE_of_lt (by omega)
  unfold headerLen
  rw [hn, if_pos h]

theorem getHeader_putHeader {b : Block} {lh : List Nat} (hn : lh.length < 2 ^ 31)
    (h : ∀ x ∈ lh, x < 2 ^ 32) : getHeader (putHeader b lh) = lh := by
  unfold getHeader
  rw [headerLen_putHeader hn]
  refine List.ext_getElem (by simp) fun i h1 h2 => ?_
  rw [List.getElem_map, List.getElem_range]
  unfold putHeader
  rw [getLE_overlay_words (a := fun i => lh.getD i 0) h2]
  · exact List.getD_eq_getElem lh 0 h2
  · rw [List.getD_eq_getElem lh 0 h2]
    exact h _ (List.getElem_mem h2)

/-! ### Directory entries -/

/-- A directory entry: the inode number and the 14 bytes of the name. -/
structure Dirent where
  inum : Nat
  name : Nat → UInt8

/-- The size of a directory entry. -/
def DESIZE : Nat := 16

/-- The entry in 16 bytes read from a directory. -/
def getDirent (b : Nat → UInt8) : Dirent where
  inum := getLE b 0 2
  name k := b (2 + k)

/-- The 16 bytes of an entry; `inum` is a `ushort`. -/
def direntBytes (de : Dirent) : Nat → UInt8 :=
  putLE (fun x => de.name (x - 2)) 0 2 de.inum

theorem getDirent_direntBytes_inum (de : Dirent) :
    (getDirent (direntBytes de)).inum = de.inum % 2 ^ 16 :=
  getLE_putLE_self _ 0 2 _

theorem getDirent_direntBytes_name (de : Dirent) (k : Nat) :
    (getDirent (direntBytes de)).name k = de.name k := by
  change putLE (fun x => de.name (x - 2)) 0 2 de.inum (2 + k) = de.name k
  rw [putLE_of_not_mem (by omega), Nat.add_sub_cancel_left]

end Xv6
