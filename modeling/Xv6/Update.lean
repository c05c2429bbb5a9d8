import Xv6.Content

/-!
# Writing inodes back

`iupdate` brings the disk up to date with the cache. Before it the other fields of an
inode may be changed freely, which concerns no block (`FsInv.setDin`).
-/

open Bytes Device Function

namespace Xv6

/-- No inode is stale on disk. -/
abbrev noStale : Nat → Prop := fun _ => False

section Fields

variable {sb : Superblock} {h : Home} {D : Nat → Dinode} {st : Nat → Prop} {J : Policy Event}
  {i k : Nat} {d : Dinode}

/-- References depend on the type and the addresses of an inode only. -/
theorem own_update {buf : Nat → Block} (ht : d.type = (D i).type) (ha : d.addrs = (D i).addrs) :
    own sb (Function.update D i d) buf = own sb D buf := by
  funext r
  obtain ⟨j, idx⟩ := r
  by_cases hj : j = i
  · subst hj
    unfold own bref
    simp only [update_self, ht, ha]
  · unfold own
    simp only [update_of_ne hj]

theorem fileBlock_update {buf : Nat → Block} (ht : d.type = (D i).type)
    (ha : d.addrs = (D i).addrs) (j bn : Nat) :
    fileBlock sb (Function.update D i d) buf j bn = fileBlock sb D buf j bn := by
  unfold fileBlock
  rw [own_update ht ha]

theorem FsInv.setDin_of_own (hf : FsInv sb h D st) (hc : Cached sb h D k i) (hd : d.Ok)
    (hown : own sb (Function.update D i d) h.buf = own sb D h.buf) :
    FsInv sb (h.setDin k d) (Function.update D i d) fun j => st j ∨ j = i := by
  refine ⟨⟨hf.based.geo, hf.based.start, hf.based.super⟩, ?_, hf.low,
    hf.rep.setDin hc.lt hc.ref hc.inum hd⟩
  rw [Home.setDin_buf, hown]
  exact hf.ledger

/-- Changing fields of a cached inode other than its type and addresses. -/
theorem FsInv.setDin (hf : FsInv sb h D st) (hc : Cached sb h D k i) (hd : d.Ok)
    (ht : d.type = (D i).type) (ha : d.addrs = (D i).addrs) :
    FsInv sb (h.setDin k d) (Function.update D i d) fun j => st j ∨ j = i :=
  hf.setDin_of_own hc hd (own_update ht ha)

/-- The sectors after inode `i` has been stored. -/
def storeInode (buf : Nat → Block) (i : Nat) (d : Dinode) : Nat → Block :=
  Function.update buf (IBLOCK i) (putDinode (buf (IBLOCK i)) (i % IPB) d)

theorem diskInode_storeInode_self {buf : Nat → Block} (hd : d.Ok) :
    diskInode (storeInode buf i d) i = d := by
  unfold diskInode storeInode
  rw [update_self, getDinode_putDinode_self hd]

theorem diskInode_storeInode_of_ne {buf : Nat → Block} {j : Nat} (hj : j ≠ i) :
    diskInode (storeInode buf i d) j = diskInode buf j := by
  unfold diskInode storeInode
  by_cases hb : IBLOCK j = IBLOCK i
  · have hmod : j % IPB ≠ i % IPB := by
      unfold IBLOCK IPB at *
      omega
    rw [hb, update_self, getDinode_putDinode_of_ne hmod]
  · rw [update_of_ne hb]

/-- The store after inode `i` has been written to disk as `d`. -/
def Home.putInode (h : Home) (i : Nat) (d : Dinode) : Home :=
  h.logw (IBLOCK i) (putDinode (h.buf (IBLOCK i)) (i % IPB) d)

theorem Home.diskInode_putInode_self (hd : d.Ok) : diskInode (h.putInode i d).buf i = d :=
  diskInode_storeInode_self hd

theorem Home.diskInode_putInode_of_ne {j : Nat} (hj : j ≠ i) :
    diskInode (h.putInode i d).buf j = diskInode h.buf j :=
  diskInode_storeInode_of_ne hj

theorem Home.putInode_buf_of_ge {x : Nat} (hi : i < sb.ninodes) (hx : sb.datastart ≤ x) :
    (h.putInode i d).buf x = h.buf x := by
  have := Geometry.iblock_lt hi
  unfold Home.putInode
  rw [Home.logw_buf, update_of_ne (by omega)]

theorem Home.bitOf_putInode {c : Nat} (hi : i < sb.ninodes) :
    bitOf (h.putInode i d).buf sb.ninodes c = bitOf h.buf sb.ninodes c := by
  have := Geometry.iblock_lt_bblock (b := c) hi
  unfold bitOf Home.putInode
  rw [Home.logw_buf, update_of_ne (by omega)]

theorem FsInv.own_putInode (hf : FsInv sb h D st) (hi : i < sb.ninodes) :
    own sb D (h.putInode i d).buf = own sb D h.buf := by
  refine own_congr fun j hj h0 => ?_
  rw [← own_indirect h.buf hj] at h0 ⊢
  exact Home.putInode_buf_of_ge hi (hf.own_range h0).1

theorem FsInv.fileBlock_putInode (hf : FsInv sb h D st) (hi : i < sb.ninodes) (j bn : Nat) :
    fileBlock sb D (h.putInode i d).buf j bn = fileBlock sb D h.buf j bn := by
  unfold fileBlock
  rw [hf.own_putInode hi]
  by_cases h0 : own sb D h.buf (j, didx bn) = 0
  · rw [if_pos h0, if_pos h0]
  · rw [if_neg h0, if_neg h0, Home.putInode_buf_of_ge hi (hf.own_range h0).1]

theorem Home.freeBlocks_putInode (hi : i < sb.ninodes) :
    freeBlocks sb (h.putInode i d).buf = freeBlocks sb h.buf := by
  unfold freeBlocks
  exact Finset.filter_congr fun c _ => by rw [Home.bitOf_putInode hi]

theorem FsInv.putInode (hf : FsInv sb h D st) (hi : i < sb.ninodes) :
    FsInv sb (h.putInode i (D i)) D fun j => st j ∧ j ≠ i := by
  have h1 := Geometry.one_lt_iblock (i := i)
  refine ⟨⟨hf.based.geo, hf.based.start, ?_⟩, ?_, ?_, hf.rep.ok, fun j hj hn => ?_, hf.rep.cache,
    hf.rep.uniq, hf.rep.inum⟩
  · unfold Home.putInode
    rw [Home.logw_buf, update_of_ne (by omega)]
    exact hf.based.super
  · rw [hf.own_putInode hi]
    refine ⟨hf.ledger.range, hf.ledger.inj, fun c h1 h2 => ?_⟩
    rw [Home.bitOf_putInode hi]
    exact hf.ledger.marked c h1 h2
  · intro c hc
    rw [Home.bitOf_putInode hi]
    exact hf.low c hc
  · by_cases hji : j = i
    · subst hji
      exact Home.diskInode_putInode_self (hf.rep.ok j)
    · rw [Home.diskInode_putInode_of_ne hji]
      exact hf.rep.disk j hj fun hs => hn ⟨hs, hji⟩

/-- **`iupdate`** writes the copy of the inode in slot `k` to disk. -/
theorem hwp_iupdate {Q : Unit → Home → Prop} (hb : Based sb h) (hl : h.locked = ∅)
    (hlog : CanLog J h.mem) (hdin : (h.mem.icache k).din = d) (hinum : (h.mem.icache k).inum = i)
    (hi : i < sb.ninodes) (hQ : Q () (h.putInode i d)) : hwp J (iupdate k) Q h := by
  have hnot : ∀ x, x ∉ h.locked := fun x => by rw [hl]; exact Finset.notMem_empty x
  unfold iupdate
  refine hwp_bind (hwp_get ?_)
  dsimp only
  rw [hdin, hinum]
  refine hwp_bind (hwp_bread ?_ (hnot _) (by rw [hl]; simp) (hwp_bind (hwp_logWrite (h.mem_lock _)
    (h.card_lock_le _ 1 (by rw [hl]; simp)) hlog (hwp_brelse (h.mem_lock _) ?_))))
  · rw [hb.start]
    exact (Geometry.iblock_lt hi).trans_le hb.geo.data
  · rw [h.unlock_logw_lock _ _ (hnot _)]
    exact hQ

/-- The store after the cached inode has been changed to `d` and written back. -/
def Home.update (h : Home) (k i : Nat) (d : Dinode) : Home := (h.setDin k d).putInode i d

theorem Home.update_mem : (h.update k i d).mem
    = setDinode k (fun _ => d) (h.mem.setLh (h.update k i d).mem.log.lh) := rfl

theorem Home.mem_update_lh {x : Nat} (hx : x ∈ (h.update k i d).mem.log.lh) :
    x ∈ h.mem.log.lh ∨ x = IBLOCK i := (mem_record _ _).mp hx

theorem FsInv.cached_setDin (hc : Cached sb h D k i) (ht : d.type = (D i).type) :
    Cached sb (h.setDin k d) (Function.update D i d) k i := by
  obtain ⟨e1, e2, e3, -⟩ := Home.setDin_fields (h := h) (k := k) (d := d) k
  refine ⟨hc.lt, by rw [e1]; exact hc.ref, by rw [e2]; exact hc.valid, by rw [e3]; exact hc.inum,
    hc.used.1, ?_⟩
  rw [update_self, ht]
  exact hc.used.2

theorem FsInv.update (hf : FsInv sb h D st) (hc : Cached sb h D k i) (hd : d.Ok)
    (ht : d.type = (D i).type) (ha : d.addrs = (D i).addrs) :
    FsInv sb (h.update k i d) (Function.update D i d) fun j => st j ∧ j ≠ i := by
  have h1 := (hf.setDin hc hd ht ha).putInode hc.used.1
  rw [update_self] at h1
  exact h1.weaken fun j ⟨hj, hne⟩ => ⟨hj.resolve_right hne, hne⟩

theorem FsInv.own_update (hf : FsInv sb h D st) (hc : Cached sb h D k i) (hd : d.Ok)
    (ht : d.type = (D i).type) (ha : d.addrs = (D i).addrs) :
    own sb (Function.update D i d) (h.update k i d).buf = own sb D h.buf := by
  unfold Home.update
  rw [(hf.setDin hc hd ht ha).own_putInode hc.used.1, Xv6.own_update ht ha, Home.setDin_buf]

theorem FsInv.fileBlock_update (hf : FsInv sb h D st) (hc : Cached sb h D k i) (hd : d.Ok)
    (ht : d.type = (D i).type) (ha : d.addrs = (D i).addrs) (j bn : Nat) :
    fileBlock sb (Function.update D i d) (h.update k i d).buf j bn = fileBlock sb D h.buf j bn := by
  unfold Home.update
  rw [(hf.setDin hc hd ht ha).fileBlock_putInode hc.used.1, Xv6.fileBlock_update ht ha,
    Home.setDin_buf]

/-- Change fields of a cached inode other than its type and addresses, and write it back. -/
theorem hwp_update {β : Type} {f : Dinode → Dinode} {g : Unit → K β} {Q : β → Home → Prop}
    (hf : FsInv sb h D st)
    (hc : Cached sb h D k i) (hl : h.locked = ∅) (hlog : CanLog J h.mem) (hfd : f (D i) = d)
    (hd : d.Ok) (ht : d.type = (D i).type) (ha : d.addrs = (D i).addrs)
    (hQ : hwp J (g ()) Q (h.update k i d)) :
    hwp J (modify (setDinode k f) >>= fun _ => iupdate k >>= g) Q h := by
  refine hwp_bind (hwp_modify rfl (hwp_bind ?_))
  have hmem : setDinode k f h.mem = (h.setDin k d).mem :=
    setDinode_const (by rw [hf.din_eq hc, hfd])
  rw [hmem]
  have hc' := FsInv.cached_setDin hc ht
  exact hwp_iupdate (h := h.setDin k d) (hf.setDin hc hd ht ha).based hl ⟨hlog.busy, hlog.check⟩
    (congrArg Inode.din Home.setDin_self) hc'.inum hc.used.1 hQ

end Fields

end Xv6
