import Xv6.Update
import Xv6.Sysfile

/-!
# Fresh images

The image `mkfs` writes when it is given no files: the superblock, the root directory with
its two entries in the first data block, and a bitmap that marks the blocks up to that one.
`mkfs` writes a single bitmap block, so the blocks in use must fit in it.

`FreshGeometry` is what `mkfs` asserts about its numbers, and `mkfsSuperblock` has the numbers
it uses.
-/

open Bytes Device

namespace Xv6

/-- What `mkfs` asserts: the areas add up to the size of the disk, and the blocks in use fit
in one block of the bitmap. There are inodes beyond the root, whose number fits in a
directory entry, and the numbers fit in the superblock. -/
structure FreshGeometry (sb : Superblock) : Prop where
  total : sb.nblocks + sb.datastart + sb.nlog = sb.size
  blocks : 0 < sb.nblocks
  used : sb.datastart + 1 < BPB
  root : ROOTINO < sb.ninodes
  inodes : sb.ninodes ≤ 2 ^ 16
  size : sb.size < 2 ^ 32

/-- The superblock `mkfs` writes. -/
def mkfsSuperblock : Superblock := ⟨1024, 985, 200, LOGSIZE⟩

theorem mkfs_geometry : FreshGeometry mkfsSuperblock := by
  constructor <;> decide

/-- The superblock in sector 1. -/
def putSuperblock (sb : Superblock) : Block :=
  putLE (putLE (putLE (putLE zero 0 4 sb.size) 4 4 sb.nblocks) 8 4 sb.ninodes) 12 4 sb.nlog

/-- `mkfs`'s `balloc`: a bitmap block with the first `n` bits set. -/
def markFirst : Nat → Block
  | 0 => zero
  | n + 1 => setBit (markFirst n) n

def rootInode (sb : Superblock) : Dinode where
  type := T_DIR
  major := 0
  minor := 0
  nlink := 1
  size := BSIZE
  addrs k := if k = 0 then sb.datastart else 0

/-- The first block of the root directory. -/
def rootBlock : Block :=
  overlay (overlay zero 0 DESIZE (direntBytes ⟨ROOTINO, cname dot⟩)) DESIZE DESIZE
    (direntBytes ⟨ROOTINO, cname dotdot⟩)

/-- **The image of `mkfs`** for no files. -/
def freshImage (sb : Superblock) (sec : Nat) : Block :=
  if sec = 1 then putSuperblock sb
  else if sec = 2 then putDinode zero ROOTINO (rootInode sb)
  else if sec = sb.ninodes / IPB + 3 then markFirst (sb.datastart + 1)
  else if sec = sb.datastart then rootBlock
  else zero

variable {sb : Superblock}

theorem getSuperblock_putSuperblock (h1 : sb.size < 2 ^ 32) (h2 : sb.nblocks < 2 ^ 32)
    (h3 : sb.ninodes < 2 ^ 32) (h4 : sb.nlog < 2 ^ 32) :
    getSuperblock (putSuperblock sb) = sb := by
  have e1 : getLE (putSuperblock sb) 0 4 = sb.size := by
    unfold putSuperblock
    rw [getLE_putLE_disjoint (by omega), getLE_putLE_disjoint (by omega),
      getLE_putLE_disjoint (by omega), getLE_putLE_of_lt h1]
  have e2 : getLE (putSuperblock sb) 4 4 = sb.nblocks := by
    unfold putSuperblock
    rw [getLE_putLE_disjoint (by omega), getLE_putLE_disjoint (by omega), getLE_putLE_of_lt h2]
  have e3 : getLE (putSuperblock sb) 8 4 = sb.ninodes := by
    unfold putSuperblock
    rw [getLE_putLE_disjoint (by omega), getLE_putLE_of_lt h3]
  have e4 : getLE (putSuperblock sb) 12 4 = sb.nlog := by
    unfold putSuperblock
    rw [getLE_putLE_of_lt h4]
  unfold getSuperblock
  rw [e1, e2, e3, e4]

theorem getBit_markFirst (n b : Nat) : getBit (markFirst n) b = decide (b < n) := by
  induction n with
  | zero => exact (getBit_zero b).trans (by simp)
  | succ n ih =>
    rw [markFirst, getBit_setBit, ih]
    by_cases hb : b = n
    · simp [hb]
    · have : (b < n + 1) = (b < n) := by
        rw [eq_iff_iff]
        omega
      simp [hb, this]

namespace FreshGeometry

theorem geometry (hg : FreshGeometry sb) : Geometry sb := by
  refine ⟨?_, hg.inodes⟩
  have := hg.total
  unfold Superblock.logstart
  omega

theorem datastart_lt (hg : FreshGeometry sb) : sb.datastart < sb.logstart := by
  have := hg.total
  have := hg.blocks
  unfold Superblock.logstart
  omega

theorem image_super (hg : FreshGeometry sb) : getSuperblock (freshImage sb 1) = sb := by
  have h1 := hg.total
  have h2 := hg.size
  have h3 := hg.inodes
  exact getSuperblock_putSuperblock h2 (by omega) (by omega) (by omega)

theorem rootInode_ok (hg : FreshGeometry sb) : (rootInode sb).Ok := by
  have hd := hg.used
  unfold BPB at hd
  refine ⟨by simp [rootInode, T_DIR, IsShort], by simp [rootInode, IsShort],
    by simp [rootInode, IsShort], by simp [rootInode, IsShort], by simp [rootInode, BSIZE],
    fun j => ?_, fun j hj => ?_⟩
  · change (if j = 0 then sb.datastart else 0) < 2 ^ 32
    split <;> omega
  · exact if_neg (by omega)

theorem image_inode (hg : FreshGeometry sb) {i : Nat} (hi : i < sb.ninodes) :
    diskInode (freshImage sb) i = if i = ROOTINO then rootInode sb else Dinode.zero := by
  have hib := Geometry.iblock_lt hi
  have hbb := Geometry.iblock_lt_bblock (b := 0) hi
  have h1 := Geometry.one_lt_iblock (i := i)
  have hb0 : BBLOCK 0 sb.ninodes = sb.ninodes / IPB + 3 := by unfold BBLOCK BPB; omega
  unfold diskInode freshImage
  rw [if_neg (by omega)]
  by_cases h2 : IBLOCK i = 2
  · rw [if_pos h2]
    by_cases hr : i = ROOTINO
    · subst hr
      rw [if_pos rfl]
      exact getDinode_putDinode_self hg.rootInode_ok
    · rw [if_neg hr, getDinode_putDinode_of_ne, getDinode_zero]
      unfold IBLOCK IPB at *
      unfold ROOTINO at *
      omega
  · have hr : i ≠ ROOTINO := fun hr => h2 (by rw [hr]; rfl)
    rw [if_neg h2, if_neg (by omega), if_neg (by omega), if_neg hr, getDinode_zero]

end FreshGeometry

def freshTable (sb : Superblock) (i : Nat) : Dinode :=
  if i = ROOTINO then rootInode sb else Dinode.zero

namespace FreshGeometry

theorem freshTable_used (hg : FreshGeometry sb) {i : Nat} :
    Used sb (freshTable sb) i ↔ i = ROOTINO := by
  unfold Used freshTable
  by_cases hi : i = ROOTINO
  · subst hi
    simp only [if_true, iff_true]
    exact ⟨hg.root, by simp [rootInode, T_DIR]⟩
  · simp [hi, Dinode.zero]

/-- The root directory holds the first data block, and nothing else is held. -/
theorem fresh_own (hg : FreshGeometry sb) (r : Nat × Nat) :
    own sb (freshTable sb) (freshImage sb) r = if r = (ROOTINO, 0) then sb.datastart else 0 := by
  obtain ⟨i, idx⟩ := r
  by_cases hu : Used sb (freshTable sb) i ∧ idx < NREF
  · obtain ⟨hu, hidx⟩ := hu
    obtain rfl := hg.freshTable_used.mp hu
    have hptr : (rootInode sb).addrs NDIRECT = 0 := rfl
    rw [own_eq hu hidx, freshTable, if_pos rfl]
    by_cases h0 : idx = 0
    · subst h0
      rw [if_pos rfl, bref_le (Nat.zero_le _)]
      rfl
    · rw [if_neg (by simpa using h0)]
      by_cases hle : idx ≤ NDIRECT
      · rw [bref_le hle]
        exact if_neg h0
      · exact bref_entry_zero (by omega) hptr
  · have hne : (i, idx) ≠ (ROOTINO, 0) := by
      intro he
      rw [Prod.mk.injEq] at he
      exact hu ⟨hg.freshTable_used.mpr he.1, by rw [he.2]; decide⟩
    rw [if_neg hne]
    by_contra h0
    exact hu (own_ne_zero h0)

theorem fresh_bit (hg : FreshGeometry sb) {b : Nat} (hb : b < sb.cap) :
    bitOf (freshImage sb) sb.ninodes b = decide (b ≤ sb.datastart) := by
  have hlt := Geometry.bblock_lt hb
  have hused := hg.used
  have h1 := Geometry.one_lt_bblock sb (b := b)
  unfold bitOf freshImage
  rw [if_neg (by omega), if_neg (by omega)]
  by_cases h0 : b < BPB
  · have hbb : BBLOCK b sb.ninodes = sb.ninodes / IPB + 3 := by
      unfold BBLOCK
      rw [Nat.div_eq_of_lt h0, Nat.zero_add]
    rw [if_pos hbb, getBit_markFirst, Nat.mod_eq_of_lt h0]
    exact decide_eq_decide.mpr (by omega)
  · have hbb : BBLOCK b sb.ninodes ≠ sb.ninodes / IPB + 3 := by
      unfold BBLOCK BPB at *
      omega
    rw [if_neg hbb, if_neg (by omega), getBit_zero]
    exact (decide_eq_false (by omega)).symm

/-- **The blocks of a fresh image are accounted for**, whatever of the root inode is cached. -/
theorem fsInv (hg : FreshGeometry sb) {h : Home} (hbuf : h.buf = freshImage sb)
    (hstart : h.mem.log.start = sb.logstart)
    (hroot : ∀ k < NINODE, 0 < (h.mem.icache k).ref → (h.mem.icache k).inum = ROOTINO ∧
      ((h.mem.icache k).valid = true → (h.mem.icache k).din = rootInode sb))
    (huniq : ∀ k < NINODE, ∀ k' < NINODE, 0 < (h.mem.icache k).ref →
      0 < (h.mem.icache k').ref → k = k') : FsInv sb h (freshTable sb) noStale := by
  have hd := hg.datastart_lt
  have hpos := Geometry.datastart_pos sb
  refine ⟨⟨hg.geometry, hstart, by rw [hbuf]; exact hg.image_super⟩, ?_, ?_, ?_⟩
  · rw [hbuf]
    refine ⟨fun r hr => ?_, fun r r' hr he => ?_, fun b h1 h2 => ?_⟩
    · rw [hg.fresh_own] at hr ⊢
      split at hr
      · next h => rw [if_pos h]; exact ⟨le_rfl, hd⟩
      · exact absurd rfl hr
    · rw [hg.fresh_own] at hr he
      rw [hg.fresh_own] at he
      split at hr
      · next h =>
        rw [if_pos h] at he
        split at he
        · next h' => rw [h, h']
        · omega
      · exact absurd rfl hr
    · rw [hg.fresh_bit h2, decide_eq_true_eq]
      constructor
      · intro hle
        exact ⟨(ROOTINO, 0), by rw [hg.fresh_own, if_pos rfl]; omega⟩
      · rintro ⟨r, hr⟩
        rw [hg.fresh_own] at hr
        split at hr <;> omega
  · intro b hb
    rw [hbuf, hg.fresh_bit ((hb.trans hd).trans_le Geometry.logstart_le_cap)]
    exact decide_eq_true hb.le
  · refine ⟨fun i => ?_, fun i hi _ => ?_, fun k hk hr hv => ?_, fun k hk k' hk' hr hr' _ =>
      huniq k hk k' hk' hr hr', fun k hk hr => ?_⟩
    · unfold freshTable
      split
      · exact hg.rootInode_ok
      · exact Dinode.zero_ok
    · rw [hbuf]
      exact hg.image_inode hi
    · obtain ⟨h1, h2⟩ := hroot k hk hr
      rw [h1, h2 hv]
      rfl
    · rw [(hroot k hk hr).1]
      exact hg.root

/-- The free blocks of a fresh image are the data blocks after the first. -/
theorem fresh_freeBlocks (hg : FreshGeometry sb) :
    freeBlocks sb (freshImage sb) = Finset.Ico (sb.datastart + 1) sb.logstart := by
  ext b
  rw [freeBlocks, Finset.mem_filter, Finset.mem_Ico, Finset.mem_Ico]
  constructor
  · rintro ⟨⟨h1, h2⟩, h3⟩
    rw [hg.fresh_bit (h2.trans_le Geometry.logstart_le_cap), decide_eq_false_iff_not] at h3
    omega
  · rintro ⟨h1, h2⟩
    refine ⟨⟨by omega, h2⟩, ?_⟩
    rw [hg.fresh_bit (h2.trans_le Geometry.logstart_le_cap), decide_eq_false_iff_not]
    omega

end FreshGeometry

end Xv6
