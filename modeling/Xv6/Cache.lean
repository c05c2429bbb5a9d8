import Xv6.Names
import Xv6.Update

/-!
# The inode cache and its users

Who uses the slots of the inode cache: current directories, open files and their descriptors, and
running code. `Hold` is what running code holds: references to inodes and files, and locks. What a
process gives up by way of its table entry (`exit` drops a descriptor or the current directory
before it clears the entry) counts as held by the code, not by the entry.
-/

open Bytes Device Function

namespace Xv6

/-! ### Holdings and counts -/

/-- What running code holds: references to slots of the inode cache and to files, the
slots it has locked and those it is freeing, which nobody else uses; and the processes whose current
directory, and the descriptors whose file, it holds in place of their table entry. -/
structure Hold where
  ino : Nat → Nat
  file : Nat → Nat
  lock : Finset Nat
  dying : Finset Nat
  cwd : Finset Nat
  fd : Finset (Nat × Nat)

def Hold.none : Hold := ⟨fun _ => 0, fun _ => 0, ∅, ∅, ∅, ∅⟩

def Hold.addIno (r : Hold) (k : Nat) : Hold :=
  { r with ino := update r.ino k (r.ino k + 1) }

def Hold.subIno (r : Hold) (k : Nat) : Hold :=
  { r with ino := update r.ino k (r.ino k - 1) }

def Hold.addFile (r : Hold) (f : Nat) : Hold :=
  { r with file := update r.file f (r.file f + 1) }

def Hold.subFile (r : Hold) (f : Nat) : Hold :=
  { r with file := update r.file f (r.file f - 1) }

/-- The current directory of process `p`. -/
def cwdOf (m : Mem) (p : Nat) : Option Nat := (m.procs p).bind Proc.cwd

/-- The file of descriptor `fd` of process `p`. -/
def fdOf (m : Mem) (p fd : Nat) : Option Nat := (m.procs p).bind fun q => q.ofile fd

/-- File `f` is open on slot `k`. -/
def OpenOn (m : Mem) (f k : Nat) : Prop :=
  0 < (m.ftable f).ref ∧ (m.ftable f).type = .FD_INODE ∧ (m.ftable f).ip = k

instance (m : Mem) (f k : Nat) : Decidable (OpenOn m f k) := inferInstanceAs (Decidable (_ ∧ _))

/-- The processes with slot `k` as current directory. -/
def cwdSet (m : Mem) (r : Hold) (k : Nat) : Finset Nat :=
  (Finset.range NPROC).filter fun p => p ∉ r.cwd ∧ cwdOf m p = some k

/-- The files open on slot `k`. -/
def openSet (m : Mem) (k : Nat) : Finset Nat := (Finset.range NFILE).filter fun f => OpenOn m f k

/-- The descriptors of file `f`. -/
def fdSet (m : Mem) (r : Hold) (f : Nat) : Finset (Nat × Nat) :=
  (Finset.range NPROC ×ˢ Finset.range NOFILE).filter fun x => x ∉ r.fd ∧ fdOf m x.1 x.2 = some f

/-! ### Changing one slot -/

section Slot

variable {sb : Superblock} {h : Home} {r r' : Hold} {m : Mem} {k k' i : Nat} {ip : Inode}

/-- `r'` differs from `r` in what is held of slot `k` only. -/
structure Hold.SameBut (k : Nat) (r r' : Hold) : Prop where
  ino : ∀ k' ≠ k, r'.ino k' = r.ino k'
  lock : ∀ k' ≠ k, (k' ∈ r'.lock ↔ k' ∈ r.lock)
  dying : ∀ k' ≠ k, (k' ∈ r'.dying ↔ k' ∈ r.dying)
  file : r'.file = r.file
  cwd : r'.cwd = r.cwd
  fd : r'.fd = r.fd

theorem Hold.addIno_self (r : Hold) (k : Nat) : (r.addIno k).ino k = r.ino k + 1 :=
  update_self ..

theorem Hold.addIno_of_ne (r : Hold) (hne : k' ≠ k) : (r.addIno k).ino k' = r.ino k' :=
  update_of_ne hne ..

theorem Hold.subIno_self (r : Hold) (k : Nat) : (r.subIno k).ino k = r.ino k - 1 :=
  update_self ..

theorem Hold.subIno_of_ne (r : Hold) (hne : k' ≠ k) : (r.subIno k).ino k' = r.ino k' :=
  update_of_ne hne ..

theorem Hold.sameBut_addIno (r : Hold) (k : Nat) : Hold.SameBut k r (r.addIno k) :=
  ⟨fun _ h => r.addIno_of_ne h, fun _ _ => Iff.rfl, fun _ _ => Iff.rfl, rfl, rfl, rfl⟩

theorem Hold.sameBut_subIno (r : Hold) (k : Nat) : Hold.SameBut k r (r.subIno k) :=
  ⟨fun _ h => r.subIno_of_ne h, fun _ _ => Iff.rfl, fun _ _ => Iff.rfl, rfl, rfl, rfl⟩

theorem Hold.subIno_addIno (r : Hold) (k : Nat) : (r.addIno k).subIno k = r := by
  unfold Hold.subIno Hold.addIno
  simp

@[simp] theorem setInode_self (m : Mem) (f : Inode → Inode) :
    (setInode k f m).icache k = f (m.icache k) := update_self ..

theorem setInode_of_ne (m : Mem) (f : Inode → Inode) (hne : k' ≠ k) :
    (setInode k f m).icache k' = m.icache k' := update_of_ne hne ..

/-- The store with slot `k` changed. -/
def Home.setSlot (h : Home) (k : Nat) (f : Inode → Inode) : Home :=
  { h with mem := setInode k f h.mem }

theorem Home.setSlot_self (f : Inode → Inode) :
    (h.setSlot k f).mem.icache k = f (h.mem.icache k) := setInode_self ..

theorem Home.setSlot_of_ne (f : Inode → Inode) (hne : k' ≠ k) :
    (h.setSlot k f).mem.icache k' = h.mem.icache k' := setInode_of_ne _ f hne

/-- A slot may change as long as it stays a copy of an inode that no other slot holds. -/
theorem FsInv.setSlot {D : Nat → Dinode} {st : Nat → Prop} (hf : FsInv sb h D st) (f : Inode → Inode)
    (hcache : 0 < (f (h.mem.icache k)).ref → (f (h.mem.icache k)).valid = true →
      (f (h.mem.icache k)).din = D (f (h.mem.icache k)).inum)
    (hinum : 0 < (f (h.mem.icache k)).ref → (f (h.mem.icache k)).inum < sb.ninodes ∧
      ∀ k' < NINODE, k' ≠ k → 0 < (h.mem.icache k').ref →
        (h.mem.icache k').inum ≠ (f (h.mem.icache k)).inum) : FsInv sb (h.setSlot k f) D st := by
  have hrep := hf.rep
  refine ⟨⟨hf.based.geo, hf.based.start, hf.based.super⟩, hf.ledger, hf.low,
    hrep.ok, hrep.disk, ?_, ?_, ?_⟩
  · intro k' hk' href hv
    by_cases hne : k' = k
    · subst hne
      rw [Home.setSlot_self] at href hv ⊢
      exact hcache href hv
    · rw [Home.setSlot_of_ne f hne] at href hv ⊢
      exact hrep.cache k' hk' href hv
  · intro k₁ h₁ k₂ h₂ r₁ r₂ he
    by_cases n₁ : k₁ = k
    · by_cases n₂ : k₂ = k
      · rw [n₁, n₂]
      · subst n₁
        rw [Home.setSlot_self] at r₁ he
        rw [Home.setSlot_of_ne f n₂] at r₂ he
        exact absurd he.symm ((hinum r₁).2 k₂ h₂ n₂ r₂)
    · by_cases n₂ : k₂ = k
      · subst n₂
        rw [Home.setSlot_self] at r₂ he
        rw [Home.setSlot_of_ne f n₁] at r₁ he
        exact absurd he ((hinum r₂).2 k₁ h₁ n₁ r₁)
      · rw [Home.setSlot_of_ne f n₁] at r₁ he
        rw [Home.setSlot_of_ne f n₂] at r₂ he
        exact hrep.uniq k₁ h₁ k₂ h₂ r₁ r₂ he
  · intro k' hk' href
    by_cases hne : k' = k
    · subst hne
      rw [Home.setSlot_self] at href ⊢
      exact (hinum href).1
    · rw [Home.setSlot_of_ne f hne] at href ⊢
      exact hrep.inum k' hk' href

theorem FsInv.setSlot_same {D : Nat → Dinode} {st : Nat → Prop} (hf : FsInv sb h D st)
    (hlt : k < NINODE) (href : 0 < (h.mem.icache k).ref) (f : Inode → Inode)
    (hsame : (f (h.mem.icache k)).inum = (h.mem.icache k).inum)
    (hcache : (f (h.mem.icache k)).valid = true →
      (f (h.mem.icache k)).din = D (h.mem.icache k).inum) : FsInv sb (h.setSlot k f) D st := by
  refine hf.setSlot f (fun _ hv => ?_) fun _ => ⟨?_, fun k' hk' hne hr' he => ?_⟩
  · rw [hsame]
    exact hcache hv
  · rw [hsame]
    exact hf.rep.inum k hlt href
  · exact hne (hf.rep.uniq k' hk' k hlt hr' href (he.trans hsame))

/-- Everything else in memory has nothing to do with the disk. -/
theorem FsInv.setMem {D : Nat → Dinode} {st : Nat → Prop} {h' : Home} (hf : FsInv sb h D st)
    (hbuf : h'.buf = h.buf) (hstart : h'.mem.log.start = h.mem.log.start)
    (hic : h'.mem.icache = h.mem.icache) : FsInv sb h' D st := by
  refine ⟨⟨hf.based.geo, hstart.trans hf.based.start, hbuf ▸ hf.based.super⟩, hbuf ▸ hf.ledger,
    hbuf ▸ hf.low, hf.rep.congr hic fun j _ _ => ?_⟩
  rw [hbuf]

end Slot

/-! ### References -/

section References

variable {sb : Superblock} {J : Policy Event} {lost : Nat → Prop} {h : Home} {r : Hold} {k i : Nat}

theorem cachedSlot_eq_some {ic : Nat → Inode} (hs : cachedSlot ic i = some k) :
    k < NINODE ∧ 0 < (ic k).ref ∧ (ic k).inum = i := by
  have h1 := List.mem_of_find?_eq_some hs
  have h2 := List.find?_some hs
  exact ⟨List.mem_range.mp h1, of_decide_eq_true h2⟩

theorem cachedSlot_eq_none {ic : Nat → Inode} (hs : cachedSlot ic i = none) (hk : k < NINODE)
    (hr : 0 < (ic k).ref) : (ic k).inum ≠ i := fun he => by
  have := List.find?_eq_none.mp hs k (List.mem_range.mpr hk)
  exact this (decide_eq_true ⟨hr, he⟩)

theorem emptySlot_eq_some {ic : Nat → Inode} (hs : emptySlot ic = some k) :
    k < NINODE ∧ (ic k).ref = 0 := by
  have h1 := List.mem_of_find?_eq_some hs
  have h2 := List.find?_some hs
  exact ⟨List.mem_range.mp h1, of_decide_eq_true h2⟩

/-- What `iget` does to a free slot. -/
def freshSlot (i : Nat) (ip : Inode) : Inode :=
  { ip with inum := i, ref := 1, busy := false, valid := false }

end References

/-! ### Locks -/

section Locks

variable {sb : Superblock} {J : Policy Event} {lost : Nat → Prop} {h : Home} {r : Hold} {k i : Nat}

theorem setInode_setInode (m : Mem) (f g : Inode → Inode) :
    setInode k g (setInode k f m) = setInode k (fun ip => g (f ip)) m := by
  unfold setInode
  simp

/-- What `ilock` makes of a slot: locked, with the inode `d` on disk. -/
def lockedSlot (d : Dinode) (ip : Inode) : Inode := { ip with busy := true, valid := true, din := d }

/-- `ilock` of a slot in use waits until it is unlocked, and reads the inode if need be. -/
theorem hwp_ilock_slot {D : Nat → Dinode} {Q : Unit → Home → Prop} (hf : FsInv sb h D noStale)
    (hnl : h.locked = ∅) (hlt : k < NINODE) (hr : 0 < (h.mem.icache k).ref)
    (hbusy : (h.mem.icache k).busy = true → J.stop .deadlock)
    (htype : J.stop (.panic "ilock: no type") ∨ Used sb D (h.mem.icache k).inum)
    (hQ : (h.mem.icache k).busy = false →
      ((h.mem.icache k).valid = false → Used sb D (h.mem.icache k).inum) →
      Q () (h.setSlot k (lockedSlot (D (h.mem.icache k).inum)))) :
    hwp J (ilock k) Q h := by
  have hi := hf.rep.inum k hlt hr
  refine hwp_bind (hwp_yield (hwp_bind (hwp_get ?_)))
  rw [if_neg (by omega)]
  refine hwp_bind (hwp_wait rfl (fun hb => ?_) fun hb => hbusy (by simpa using hb))
  have hfree : (h.mem.icache k).busy = false := by simpa using hb
  refine hwp_bind (hwp_get ?_)
  have e1 : (setInode k (fun ip => { ip with busy := true }) h.mem).icache k
      = { h.mem.icache k with busy := true } := setInode_self ..
  cases hv : (h.mem.icache k).valid with
  | true =>
    have hd := hf.rep.cache k hlt hr hv
    rw [if_neg (by simp [hv])]
    have hm : setInode k (fun ip => { ip with busy := true }) h.mem
        = setInode k (lockedSlot (D (h.mem.icache k).inum)) h.mem := by
      unfold setInode lockedSlot
      rw [← hd, ← hv]
    refine hwp_pure ?_
    rw [hm]
    exact hQ hfree fun h' => absurd (hv.symm.trans h') (by decide)
  | false =>
    have hdisk : diskInode h.buf (h.mem.icache k).inum = D (h.mem.icache k).inum :=
      hf.rep.disk _ hi id
    have hb : IBLOCK (h.mem.icache k).inum < h.mem.log.start := by
      rw [hf.based.start]
      exact (Geometry.iblock_lt hi).trans_le hf.based.geo.data
    have hnot : IBLOCK (h.mem.icache k).inum ∉ h.locked := by
      rw [hnl]
      exact Finset.notMem_empty _
    rw [if_pos (by simp [hv]), e1]
    dsimp only
    refine hwp_bind (hwp_bread hb hnot (by rw [hnl]; exact Nat.zero_le _) ?_)
    refine hwp_bind (hwp_modify rfl (hwp_bind (hwp_brelse (Home.mem_lock _) ?_)))
    refine hwp_bind ?_
    refine hwp_modify rfl ?_
    split
    · next ht => exact hwp_halt (htype.resolve_right fun hu => hu.2 ((congrArg Dinode.type hdisk).symm.trans ht))
    · next ht =>
      refine hwp_pure ?_
      have hm : setInode k (fun ip => { ip with valid := true })
          (setDinode k (fun _ => diskInode h.buf (h.mem.icache k).inum)
            (setInode k (fun ip => { ip with busy := true }) h.mem))
          = setInode k (lockedSlot (D (h.mem.icache k).inum)) h.mem := by
        unfold setDinode
        rw [setInode_setInode, setInode_setInode, hdisk]
        rfl
      have hh' := hQ hfree fun _ => ⟨hi, fun h0 => ht ((congrArg Dinode.type hdisk).trans h0)⟩
      unfold Home.setSlot at hh'
      rw [← hm, ← Home.unlock_lock hnot] at hh'
      exact hh'

theorem hwp_iunlock_slot {Q : Unit → Home → Prop} (hr : 0 < (h.mem.icache k).ref)
    (hb : (h.mem.icache k).busy = true) (hQ : Q () (h.setSlot k fun ip => { ip with busy := false })) :
    hwp J (iunlock k) Q h := by
  refine hwp_bind (hwp_yield (hwp_bind (hwp_get ?_)))
  rw [if_neg]
  · exact hwp_modify rfl hQ
  · rw [hb]
    simp only [Bool.not_true, Bool.false_or, decide_eq_true_eq]
    omega

end Locks

end Xv6
