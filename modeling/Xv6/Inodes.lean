import Xv6.Blocks

/-!
# Inodes and the blocks they refer to

An inode refers to blocks through 141 references: 12 direct addresses, the indirect
pointer, and the 128 entries of the indirect block. `own` reads off the block each
reference of each inode holds, and `FsInv` says that these references and the bitmap
form a `Ledger`.

While an inode is being changed, its copy in the cache is ahead of the one on disk. The
invariant is therefore about an inode table `D` in memory: a valid cache slot agrees with
`D`, and so does the disk except for the inodes `st` that are stale there.
-/

open Bytes Device Function

namespace Xv6

/-! ### References -/

/-- The number of references of an inode. -/
def NREF : Nat := NDIRECT + 1 + NINDIRECT

/-- The block that reference `idx` of inode `d` holds: a direct address, the indirect
pointer (`idx = NDIRECT`) or an entry of the indirect block. -/
def bref (buf : Nat → Block) (d : Dinode) (idx : Nat) : Nat :=
  if idx ≤ NDIRECT then d.addrs idx
  else if d.addrs NDIRECT = 0 then 0
  else getLE (buf (d.addrs NDIRECT)) (4 * (idx - (NDIRECT + 1))) 4

/-- The block that reference `r.2` of inode `r.1` holds; a free inode holds nothing. -/
def own (sb : Superblock) (D : Nat → Dinode) (buf : Nat → Block) (r : Nat × Nat) : Nat :=
  if r.1 < sb.ninodes ∧ (D r.1).type ≠ 0 ∧ r.2 < NREF then bref buf (D r.1) r.2 else 0

/-- The reference for block `bn` of the contents of an inode. -/
def didx (bn : Nat) : Nat := if bn < NDIRECT then bn else bn + 1

/-- Block `bn` of the contents of inode `i`; what is not mapped is zero. -/
def fileBlock (sb : Superblock) (D : Nat → Dinode) (buf : Nat → Block) (i bn : Nat) : Block :=
  if own sb D buf (i, didx bn) = 0 then zero else buf (own sb D buf (i, didx bn))

/-- Inode `i` on disk. -/
def diskInode (buf : Nat → Block) (i : Nat) : Dinode := getDinode (buf (IBLOCK i)) (i % IPB)

/-- A block of the bitmap. -/
def IsBitmap (sb : Superblock) (x : Nat) : Prop := ∃ b < sb.logstart, x = BBLOCK b sb.ninodes

/-- The free blocks of the data area. -/
def freeBlocks (sb : Superblock) (buf : Nat → Block) : Finset Nat :=
  (Finset.Ico sb.datastart sb.logstart).filter fun b => bitOf buf sb.ninodes b = false

/-- The number of references in `T` of inode `i` that hold nothing. -/
def missing (sb : Superblock) (D : Nat → Dinode) (buf : Nat → Block) (i : Nat) (T : Finset Nat) :
    Nat := (T.filter fun idx => own sb D buf (i, idx) = 0).card

section References

variable {sb : Superblock} {D D' : Nat → Dinode} {buf buf' : Nat → Block} {d : Dinode} {i idx : Nat}

theorem bref_le (h : idx ≤ NDIRECT) : bref buf d idx = d.addrs idx := if_pos h

theorem bref_entry (h : NDIRECT < idx) (ha : d.addrs NDIRECT ≠ 0) :
    bref buf d idx = getLE (buf (d.addrs NDIRECT)) (4 * (idx - (NDIRECT + 1))) 4 := by
  unfold bref
  rw [if_neg (by omega), if_neg ha]

theorem bref_entry_zero (h : NDIRECT < idx) (ha : d.addrs NDIRECT = 0) : bref buf d idx = 0 := by
  unfold bref
  rw [if_neg (by omega), if_pos ha]

theorem bref_congr (h : d.addrs NDIRECT ≠ 0 →
    buf' (d.addrs NDIRECT) = buf (d.addrs NDIRECT)) : bref buf' d idx = bref buf d idx := by
  unfold bref
  by_cases ha : d.addrs NDIRECT = 0
  · rw [if_pos ha, if_pos ha]
  · rw [h ha]

/-- Inode `i` is in use. -/
def Used (sb : Superblock) (D : Nat → Dinode) (i : Nat) : Prop :=
  i < sb.ninodes ∧ (D i).type ≠ 0

theorem own_eq (h : Used sb D i) (hidx : idx < NREF) : own sb D buf (i, idx) = bref buf (D i) idx :=
  if_pos ⟨h.1, h.2, hidx⟩

theorem own_indirect (buf : Nat → Block) (hu : Used sb D i) :
    own sb D buf (i, NDIRECT) = (D i).addrs NDIRECT := by
  rw [own_eq hu (by decide), bref_le le_rfl]

theorem own_ne_zero (h : own sb D buf (i, idx) ≠ 0) : Used sb D i ∧ idx < NREF := by
  unfold own at h
  by_cases hc : i < sb.ninodes ∧ (D i).type ≠ 0 ∧ idx < NREF
  · exact ⟨⟨hc.1, hc.2.1⟩, hc.2.2⟩
  · rw [if_neg hc] at h
    exact absurd rfl h

theorem own_congr (h : ∀ j, Used sb D j → (D j).addrs NDIRECT ≠ 0 →
    buf' ((D j).addrs NDIRECT) = buf ((D j).addrs NDIRECT)) : own sb D buf' = own sb D buf := by
  funext r
  unfold own
  by_cases hc : r.1 < sb.ninodes ∧ (D r.1).type ≠ 0 ∧ r.2 < NREF
  · rw [if_pos hc, if_pos hc, bref_congr (h r.1 ⟨hc.1, hc.2.1⟩)]
  · rw [if_neg hc, if_neg hc]

theorem didx_lt {bn : Nat} (h : bn < MAXFILE) : didx bn < NREF := by
  unfold didx NREF
  unfold MAXFILE at h
  split <;> omega

theorem didx_ne (bn : Nat) : didx bn ≠ NDIRECT := by
  unfold didx
  split <;> omega

theorem didx_inj {bn bn' : Nat} (h : didx bn = didx bn') : bn = bn' := by
  unfold didx at h
  split at h <;> split at h <;> omega

theorem fileBlock_of_own {bn : Nat} (h : own sb D buf (i, didx bn) ≠ 0) :
    fileBlock sb D buf i bn = buf (own sb D buf (i, didx bn)) := if_neg h

end References

/-! ### The invariant -/

/-- The inode table `D` is what the cache and the disk hold, except for what is stale on
disk. -/
structure Rep (sb : Superblock) (h : Home) (D : Nat → Dinode) (st : Nat → Prop) : Prop where
  ok : ∀ i, (D i).Ok
  disk : ∀ i < sb.ninodes, ¬ st i → diskInode h.buf i = D i
  cache : ∀ k < NINODE, 0 < (h.mem.icache k).ref → (h.mem.icache k).valid = true →
    (h.mem.icache k).din = D (h.mem.icache k).inum
  uniq : ∀ k < NINODE, ∀ k' < NINODE, 0 < (h.mem.icache k).ref → 0 < (h.mem.icache k').ref →
    (h.mem.icache k).inum = (h.mem.icache k').inum → k = k'
  inum : ∀ k < NINODE, 0 < (h.mem.icache k).ref → (h.mem.icache k).inum < sb.ninodes

/-- **The block invariant.** -/
structure FsInv (sb : Superblock) (h : Home) (D : Nat → Dinode) (st : Nat → Prop) : Prop where
  based : Based sb h
  ledger : Ledger sb.datastart sb.logstart sb.cap (own sb D h.buf) (bitOf h.buf sb.ninodes)
  low : ∀ b < sb.datastart, bitOf h.buf sb.ninodes b = true
  rep : Rep sb h D st

/-- Slot `k` of the cache holds a valid copy of inode `i`, which is in use. -/
structure Cached (sb : Superblock) (h : Home) (D : Nat → Dinode) (k i : Nat) : Prop where
  lt : k < NINODE
  ref : 0 < (h.mem.icache k).ref
  valid : (h.mem.icache k).valid = true
  inum : (h.mem.icache k).inum = i
  used : Used sb D i

namespace FsInv

variable {sb : Superblock} {h : Home} {D : Nat → Dinode} {st : Nat → Prop} {i idx b k : Nat}

theorem own_range (hf : FsInv sb h D st) (ho : own sb D h.buf (i, idx) ≠ 0) :
    sb.datastart ≤ own sb D h.buf (i, idx) ∧ own sb D h.buf (i, idx) < sb.logstart :=
  hf.ledger.range _ ho

theorem din_eq (hf : FsInv sb h D st) (hc : Cached sb h D k i) : (h.mem.icache k).din = D i := by
  rw [hf.rep.cache k hc.lt hc.ref hc.valid, hc.inum]

theorem weaken (hf : FsInv sb h D st) {st' : Nat → Prop} (hst : ∀ j, st j → st' j) :
    FsInv sb h D st' :=
  ⟨hf.based, hf.ledger, hf.low, hf.rep.ok, fun j hj hn => hf.rep.disk j hj fun h => hn (hst j h),
    hf.rep.cache, hf.rep.uniq, hf.rep.inum⟩

end FsInv

/-! ### Changing an inode in the cache -/

/-- The store with another copy of the on-disk inode in slot `k`. -/
def Home.setDin (h : Home) (k : Nat) (d : Dinode) : Home :=
  { h with mem := setDinode k (fun _ => d) h.mem }

section SetDin

variable {sb : Superblock} {h h' : Home} {D : Nat → Dinode} {st : Nat → Prop} {i idx b k : Nat}
  {d : Dinode}

@[simp] theorem Home.setDin_buf : (h.setDin k d).buf = h.buf := rfl
@[simp] theorem Home.setDin_locked : (h.setDin k d).locked = h.locked := rfl
@[simp] theorem Home.setDin_passed : (h.setDin k d).passed = h.passed := rfl
@[simp] theorem Home.setDin_log : (h.setDin k d).mem.log = h.mem.log := rfl

theorem Home.setDin_self : ((h.setDin k d).mem.icache k) = { h.mem.icache k with din := d } :=
  update_self ..

theorem Home.setDin_of_ne {k' : Nat} (hk : k' ≠ k) :
    (h.setDin k d).mem.icache k' = h.mem.icache k' := update_of_ne hk ..

theorem Home.setDin_fields (k' : Nat) :
    ((h.setDin k d).mem.icache k').ref = (h.mem.icache k').ref ∧
      ((h.setDin k d).mem.icache k').valid = (h.mem.icache k').valid ∧
      ((h.setDin k d).mem.icache k').inum = (h.mem.icache k').inum ∧
      ((h.setDin k d).mem.icache k').busy = (h.mem.icache k').busy := by
  by_cases hk : k' = k
  · subst hk
    rw [Home.setDin_self]
    exact ⟨rfl, rfl, rfl, rfl⟩
  · rw [Home.setDin_of_ne hk]
    exact ⟨rfl, rfl, rfl, rfl⟩

/-- The table only depends on the cache and on the inode blocks. -/
theorem Rep.congr (hr : Rep sb h D st) (hic : h'.mem.icache = h.mem.icache)
    (hbuf : ∀ j < sb.ninodes, ¬ st j → diskInode h'.buf j = diskInode h.buf j) : Rep sb h' D st := by
  refine ⟨hr.ok, fun j hj hn => (hbuf j hj hn).trans (hr.disk j hj hn), ?_, ?_, ?_⟩ <;> rw [hic]
  · exact hr.cache
  · exact hr.uniq
  · exact hr.inum

theorem Rep.setDin (hr : Rep sb h D st) (hk : k < NINODE) (href : 0 < (h.mem.icache k).ref)
    (hi : (h.mem.icache k).inum = i) (hd : d.Ok) :
    Rep sb (h.setDin k d) (update D i d) fun j => st j ∨ j = i := by
  have hfields := fun k' => Home.setDin_fields (h := h) (k := k) (d := d) k'
  refine ⟨fun j => ?_, fun j hj hn => ?_, fun k' hk' hr' hv' => ?_, fun k₁ h₁ k₂ h₂ hr₁ hr₂ he => ?_,
    fun k' hk' hr' => ?_⟩
  · by_cases hj : j = i
    · subst hj; rw [update_self]; exact hd
    · rw [update_of_ne hj]; exact hr.ok j
  · rw [update_of_ne fun he => hn (Or.inr he)]
    exact hr.disk j hj fun h => hn (Or.inl h)
  · obtain ⟨e1, e2, e3, -⟩ := hfields k'
    rw [e1] at hr'
    rw [e2] at hv'
    rw [e3]
    by_cases hkk : k' = k
    · subst hkk
      rw [Home.setDin_self, hi, update_self]
    · have hne : (h.mem.icache k').inum ≠ i := fun he =>
        hkk (hr.uniq k' hk' k hk hr' href (he.trans hi.symm))
      rw [Home.setDin_of_ne hkk, update_of_ne hne]
      exact hr.cache k' hk' hr' hv'
  · rw [(hfields k₁).1] at hr₁
    rw [(hfields k₂).1] at hr₂
    rw [(hfields k₁).2.2.1, (hfields k₂).2.2.1] at he
    exact hr.uniq k₁ h₁ k₂ h₂ hr₁ hr₂ he
  · obtain ⟨e1, -, e3, -⟩ := hfields k'
    rw [e1] at hr'
    rw [e3]
    exact hr.inum k' hk' hr'

theorem Dinode.Ok.setAddr {d : Dinode} (hd : d.Ok) (hidx : idx ≤ NDIRECT) (hb : b < 2 ^ 32) :
    ({ d with addrs := update d.addrs idx b } : Dinode).Ok := by
  refine ⟨hd.type, hd.major, hd.minor, hd.nlink, hd.size, fun j => ?_, fun j hj => ?_⟩
  · by_cases hjj : j = idx
    · subst hjj
      change update d.addrs j b j < _
      rw [update_self]
      exact hb
    · change update d.addrs idx b j < _
      rw [update_of_ne hjj]
      exact hd.addrs j
  · change update d.addrs idx b j = 0
    rw [update_of_ne (by omega)]
    exact hd.len j hj

theorem Based.size_lt (hb : Based sb h) : sb.size < 2 ^ 32 := by
  rw [← hb.super]
  exact getLE_lt _ 0 4

end SetDin

/-! ### Allocation -/

section Allocate

variable {sb : Superblock} {h : Home} {b c x : Nat}

theorem Home.allocate_buf_self : (h.allocate sb b).buf b = zero := update_self ..

theorem Home.allocate_buf_of_ne (hx : x ≠ b) (hx' : x ≠ BBLOCK b sb.ninodes) :
    (h.allocate sb b).buf x = h.buf x := by
  unfold Home.allocate
  rw [Home.logw_buf, update_of_ne hx, Home.logw_buf, update_of_ne hx']

theorem Home.allocate_bit (hb : sb.datastart ≤ b) (hc : c < sb.cap) :
    bitOf (h.allocate sb b).buf sb.ninodes c
      = if c = b then true else bitOf h.buf sb.ninodes c := by
  refine bitOf_setBit ?_
  have hlt := Geometry.bblock_lt hc
  unfold Home.allocate
  rw [Home.logw_buf, update_of_ne (by omega), Home.logw_buf, update_apply]

theorem Home.freeBlocks_allocate (hb : sb.datastart ≤ b) :
    freeBlocks sb (h.allocate sb b).buf = (freeBlocks sb h.buf).erase b := by
  ext c
  unfold freeBlocks
  simp only [Finset.mem_filter, Finset.mem_erase, Finset.mem_Ico]
  constructor
  · rintro ⟨⟨h1, h2⟩, h3⟩
    rw [Home.allocate_bit hb (h2.trans_le Geometry.logstart_le_cap)] at h3
    split at h3
    · cases h3
    · next hne => exact ⟨hne, ⟨h1, h2⟩, h3⟩
  · rintro ⟨hne, ⟨h1, h2⟩, h3⟩
    rw [Home.allocate_bit hb (h2.trans_le Geometry.logstart_le_cap), if_neg hne]
    exact ⟨⟨h1, h2⟩, h3⟩

theorem Home.diskInode_allocate (hg : sb.datastart ≤ b) {j : Nat} (hj : j < sb.ninodes) :
    diskInode (h.allocate sb b).buf j = diskInode h.buf j := by
  have h1 := Geometry.iblock_lt hj
  have h2 := Geometry.iblock_lt_bblock (b := b) hj
  unfold diskInode
  rw [Home.allocate_buf_of_ne (by omega) (by omega)]

theorem Based.allocate (hb : Based sb h) (hg : sb.datastart ≤ b) : Based sb (h.allocate sb b) := by
  refine ⟨hb.geo, hb.start, ?_⟩
  have h1 := Geometry.datastart_pos sb
  have h2 := Geometry.one_lt_bblock sb (b := b)
  rw [Home.allocate_buf_of_ne (by omega) (by omega)]
  exact hb.super

end Allocate

end Xv6
