import Xv6.Inodes

/-!
# The blocks of an inode

What `bmap` does. It may allocate: the block a reference is to hold, and the indirect
block before it. Neither changes the contents of any inode, since what is not mapped
counts as zero and a new block is zeroed (`FsInv.assign`, `FsInv.assignEntry`).

`Edit` collects what a change of the contents of inode `i` through slot `k` keeps; the
main result is `hwp_bmap`.
-/

open Bytes Device Function Finset

namespace Xv6

/-! ### Giving a block to a reference -/

section Assign

variable {sb : Superblock} {h : Home} {D : Nat → Dinode} {st : Nat → Prop} {i idx b k : Nat}

theorem FsInv.free_ne (hf : FsInv sb h D st) (h1 : sb.datastart ≤ b) (h2 : b < sb.logstart)
    (hfree : bitOf h.buf sb.ninodes b = false) (r : Nat × Nat) : own sb D h.buf r ≠ b :=
  hf.ledger.own_ne_of_free h1 (h2.trans_le Geometry.logstart_le_cap) hfree r

theorem fileBlock_take {D' : Nat → Dinode} {buf buf' : Nat → Block} {r : Nat × Nat}
    (hown : own sb D' buf' = update (own sb D buf) r b) (hr : own sb D buf r = 0)
    (hb : buf' b = zero) (hbuf : ∀ r', own sb D buf r' ≠ 0 → r'.2 ≠ NDIRECT →
      buf' (own sb D buf r') = buf (own sb D buf r')) (j bn : Nat) :
    fileBlock sb D' buf' j bn = fileBlock sb D buf j bn := by
  unfold fileBlock
  rw [hown]
  by_cases hj : (j, didx bn) = r
  · rw [hj, update_self, if_pos hr]
    split
    · rfl
    · exact hb
  · rw [update_of_ne hj]
    by_cases h0 : own sb D buf (j, didx bn) = 0
    · rw [if_pos h0, if_pos h0]
    · rw [if_neg h0, if_neg h0, hbuf _ h0 (didx_ne bn)]

theorem FsInv.allocate_own (hf : FsInv sb h D st) (h1 : sb.datastart ≤ b) (h2 : b < sb.logstart)
    (hfree : bitOf h.buf sb.ninodes b = false) {r : Nat × Nat} (hr : own sb D h.buf r ≠ 0) :
    (h.allocate sb b).buf (own sb D h.buf r) = h.buf (own sb D h.buf r) := by
  have hbb := Geometry.bblock_lt (h2.trans_le (show sb.logstart ≤ sb.cap from Geometry.logstart_le_cap))
  have hrange := hf.ledger.range r hr
  exact Home.allocate_buf_of_ne (hf.free_ne h1 h2 hfree r) (by omega)

/-- The inode after the address `idx` has been set to `b`. -/
def Dinode.setAddr (d : Dinode) (idx b : Nat) : Dinode :=
  { d with addrs := update d.addrs idx b }

theorem Dinode.setAddr_self (d : Dinode) : (d.setAddr idx b).addrs idx = b := by
  change update d.addrs idx b idx = b
  rw [update_self]

theorem Dinode.setAddr_of_ne (d : Dinode) {idx' : Nat} (hne : idx' ≠ idx) :
    (d.setAddr idx b).addrs idx' = d.addrs idx' := by
  change update d.addrs idx b idx' = _
  rw [update_of_ne hne]

theorem own_setAddr {buf buf' : Nat → Block} (hu : Used sb D i) (hidx : idx ≤ NDIRECT)
    (ho : own sb D buf (i, idx) = 0) (hb0 : b ≠ 0) (hzero : buf' b = zero)
    (hind : ∀ j, Used sb D j → (D j).addrs NDIRECT ≠ 0 →
      buf' ((D j).addrs NDIRECT) = buf ((D j).addrs NDIRECT)) :
    own sb (update D i ((D i).setAddr idx b)) buf'
      = update (own sb D buf) (i, idx) b := by
  have haddr : (D i).addrs idx = 0 := by
    rwa [own_eq hu (by unfold NREF; omega), bref_le hidx] at ho
  funext r
  obtain ⟨j, idx'⟩ := r
  by_cases hji : j = i
  · subst hji
    by_cases hlt : idx' < NREF
    · have hu' : Used sb (update D j ((D j).setAddr idx b)) j := by
        refine ⟨hu.1, ?_⟩
        rw [update_self]
        exact hu.2
      rw [own_eq hu' hlt, update_self]
      by_cases hii : idx' = idx
      · subst hii
        rw [update_self, bref_le hidx, Dinode.setAddr_self]
      · rw [update_of_ne (by simpa using hii), own_eq hu hlt]
        by_cases hle : idx' ≤ NDIRECT
        · rw [bref_le hle, bref_le hle, Dinode.setAddr_of_ne _ hii]
        · by_cases hptr : idx = NDIRECT
          · -- the new indirect block is zero, so it has no entries
            subst hptr
            have hb := @Dinode.setAddr_self NDIRECT b (D j)
            rw [bref_entry (by omega) (by rw [hb]; exact hb0), hb, hzero, getLE_zero,
              bref_entry_zero (by omega) haddr]
          · have he : ((D j).setAddr idx b).addrs NDIRECT = (D j).addrs NDIRECT :=
              Dinode.setAddr_of_ne _ (Ne.symm hptr)
            unfold bref
            rw [if_neg hle, if_neg hle, he]
            by_cases h0 : (D j).addrs NDIRECT = 0
            · rw [if_pos h0, if_pos h0]
            · rw [if_neg h0, if_neg h0, hind j hu h0]
    · have hne : (j, idx') ≠ (j, idx) := by
        intro he
        rw [Prod.mk.injEq] at he
        unfold NREF at hlt
        omega
      rw [update_of_ne hne]
      unfold own
      rw [if_neg (by tauto), if_neg (by tauto)]
  · have hne : (j, idx') ≠ (i, idx) := fun he => hji (Prod.mk.inj he).1
    rw [update_of_ne hne, ← congrFun (own_congr hind) (j, idx')]
    unfold own
    simp only [update_of_ne hji]

theorem FsInv.own_assign (hf : FsInv sb h D st) (hu : Used sb D i) (hidx : idx ≤ NDIRECT)
    (ho : own sb D h.buf (i, idx) = 0) (h1 : sb.datastart ≤ b) (h2 : b < sb.logstart)
    (hfree : bitOf h.buf sb.ninodes b = false) :
    own sb (update D i ((D i).setAddr idx b)) (h.allocate sb b).buf
      = update (own sb D h.buf) (i, idx) b := by
  have hpos := Geometry.datastart_pos sb
  refine own_setAddr hu hidx ho (by omega) Home.allocate_buf_self fun j hj hne => ?_
  rw [← own_indirect h.buf hj] at hne ⊢
  exact hf.allocate_own h1 h2 hfree hne

theorem FsInv.assign (hf : FsInv sb h D st) (hc : Cached sb h D k i) (hidx : idx ≤ NDIRECT)
    (ho : own sb D h.buf (i, idx) = 0) (h1 : sb.datastart ≤ b) (h2 : b < sb.logstart)
    (hfree : bitOf h.buf sb.ninodes b = false) :
    FsInv sb ((h.allocate sb b).setDin k ((D i).setAddr idx b))
      (update D i ((D i).setAddr idx b)) fun j => st j ∨ j = i := by
  have hpos := Geometry.datastart_pos sb
  have hok : ((D i).setAddr idx b).Ok := (hf.rep.ok i).setAddr hidx
    ((h2.trans_le Geometry.logstart_le).trans hf.based.size_lt)
  have hb := hf.based.allocate (b := b) h1
  refine ⟨⟨hb.geo, hb.start, hb.super⟩, ?_, ?_, ?_⟩
  · rw [Home.setDin_buf, hf.own_assign hc.used hidx ho h1 h2 hfree]
    exact hf.ledger.take (by omega) ho h1 h2 Geometry.logstart_le_cap hfree
      fun c _ hcap => Home.allocate_bit h1 hcap
  · intro c hcl
    rw [Home.setDin_buf, Home.allocate_bit h1
      ((hcl.trans_le hf.based.geo.data).trans_le Geometry.logstart_le_cap)]
    split
    · rfl
    · exact hf.low c hcl
  · have hr : Rep sb (h.allocate sb b) D st :=
      hf.rep.congr rfl fun j hj _ => Home.diskInode_allocate h1 hj
    exact hr.setDin hc.lt hc.ref hc.inum hok

/-- The store after entry `e` of the indirect block `a` has been given the new block `b`. -/
def Home.assignEntry (sb : Superblock) (h : Home) (a e b : Nat) : Home :=
  (h.allocate sb b).logw a (putLE (h.buf a) (4 * e) 4 b)

theorem Home.assignEntry_buf_self {a e : Nat} :
    (h.assignEntry sb a e b).buf a = putLE (h.buf a) (4 * e) 4 b := by
  unfold Home.assignEntry
  rw [Home.logw_buf, update_self]

theorem Home.assignEntry_buf_of_ne {a e x : Nat} (hx : x ≠ a) :
    (h.assignEntry sb a e b).buf x = (h.allocate sb b).buf x := by
  unfold Home.assignEntry
  rw [Home.logw_buf, update_of_ne hx]

theorem own_setEntry {buf buf' : Nat → Block} {a e : Nat} (hu : Used sb D i)
    (haddr : (D i).addrs NDIRECT = a) (ha0 : a ≠ 0) (he : e < NINDIRECT) (hb : b < 2 ^ 32)
    (hself : buf' a = putLE (buf a) (4 * e) 4 b)
    (hind : ∀ j, j ≠ i → Used sb D j → (D j).addrs NDIRECT ≠ 0 →
      buf' ((D j).addrs NDIRECT) = buf ((D j).addrs NDIRECT)) :
    own sb D buf' = update (own sb D buf) (i, NDIRECT + 1 + e) b := by
  funext r
  obtain ⟨j, idx'⟩ := r
  by_cases hlt : Used sb D j ∧ idx' < NREF
  · obtain ⟨hj, hlt⟩ := hlt
    rw [own_eq hj hlt]
    by_cases hji : j = i
    · subst hji
      by_cases hle : idx' ≤ NDIRECT
      · rw [update_of_ne (by simp; omega), own_eq hj hlt, bref_le hle, bref_le hle]
      · have ha0' : (D j).addrs NDIRECT ≠ 0 := by rwa [haddr]
        rw [bref_entry (by omega) ha0', haddr, hself]
        by_cases hee : idx' = NDIRECT + 1 + e
        · subst hee
          rw [update_self, Nat.add_sub_cancel_left, getLE_putLE_of_lt hb]
        · rw [update_of_ne (by simpa using hee), own_eq hj hlt, bref_entry (by omega) ha0',
            haddr, getLE_putLE_disjoint (by omega)]
    · rw [update_of_ne (by simp [hji]), own_eq hj hlt]
      exact bref_congr (hind j hji hj)
  · have hne : (j, idx') ≠ (i, NDIRECT + 1 + e) := by
      intro hc
      rw [Prod.mk.injEq] at hc
      refine hlt ⟨hc.1 ▸ hu, ?_⟩
      rw [hc.2]
      unfold NREF
      omega
    rw [update_of_ne hne]
    unfold own Used at *
    rw [if_neg (by tauto), if_neg (by tauto)]

theorem FsInv.own_assignEntry {a e : Nat} (hf : FsInv sb h D st) (hu : Used sb D i)
    (ha : own sb D h.buf (i, NDIRECT) = a) (ha0 : a ≠ 0) (he : e < NINDIRECT)
    (h1 : sb.datastart ≤ b) (h2 : b < sb.logstart) (hfree : bitOf h.buf sb.ninodes b = false) :
    own sb D (h.assignEntry sb a e b).buf
      = update (own sb D h.buf) (i, NDIRECT + 1 + e) b := by
  have haddr : (D i).addrs NDIRECT = a := by rw [← own_indirect h.buf hu, ha]
  refine own_setEntry hu haddr ha0 he ((h2.trans_le Geometry.logstart_le).trans hf.based.size_lt)
    Home.assignEntry_buf_self fun j hji hj h0 => ?_
  -- another inode has another indirect block
  rw [← own_indirect h.buf hj] at h0 ⊢
  have hne : own sb D h.buf (j, NDIRECT) ≠ a := by
    intro hc
    have := hf.ledger.inj _ _ h0 (hc.trans ha.symm)
    exact hji (Prod.mk.inj this).1
  rw [Home.assignEntry_buf_of_ne hne, hf.allocate_own h1 h2 hfree h0]

theorem FsInv.assignEntry {a e : Nat} (hf : FsInv sb h D st) (hu : Used sb D i)
    (ha : own sb D h.buf (i, NDIRECT) = a) (ha0 : a ≠ 0) (he : e < NINDIRECT)
    (ho : own sb D h.buf (i, NDIRECT + 1 + e) = 0)
    (h1 : sb.datastart ≤ b) (h2 : b < sb.logstart) (hfree : bitOf h.buf sb.ninodes b = false) :
    FsInv sb (h.assignEntry sb a e b) D st := by
  have hpos := Geometry.datastart_pos sb
  have hb := hf.based.allocate (b := b) h1
  have harange : sb.datastart ≤ a := by
    rw [← ha] at ha0 ⊢
    exact (hf.own_range ha0).1
  have hbuf : ∀ x < sb.datastart, (h.assignEntry sb a e b).buf x = (h.allocate sb b).buf x :=
    fun x hx => Home.assignEntry_buf_of_ne (by omega)
  have hbit : ∀ c < sb.cap, bitOf (h.assignEntry sb a e b).buf sb.ninodes c
      = if c = b then true else bitOf h.buf sb.ninodes c := by
    intro c hc
    rw [← Home.allocate_bit h1 hc]
    unfold bitOf
    rw [hbuf _ (Geometry.bblock_lt hc)]
  refine ⟨⟨hb.geo, hb.start, ?_⟩, ?_, ?_, ?_⟩
  · rw [hbuf 1 (by omega)]
    exact hb.super
  · rw [hf.own_assignEntry hu ha ha0 he h1 h2 hfree]
    exact hf.ledger.take (by omega) ho h1 h2 Geometry.logstart_le_cap hfree
      fun c _ hcap => hbit c hcap
  · intro c hcl
    rw [hbit c ((hcl.trans_le hf.based.geo.data).trans_le Geometry.logstart_le_cap)]
    split
    · rfl
    · exact hf.low c hcl
  · refine hf.rep.congr rfl fun j hj _ => ?_
    rw [← Home.diskInode_allocate (h := h) h1 hj]
    unfold diskInode
    rw [hbuf _ (Geometry.iblock_lt hj)]

end Assign

/-! ### Changes of one inode -/

/-- The memory with another list of logged sectors. -/
def Mem.setLh (m : Mem) (lh : List Nat) : Mem := { m with log := { m.log with lh := lh } }

/-- The change from the store `h` with inode table `D` to `h'` with `D'` concerns only the
blocks of inode `i`, which is in slot `k`, and only its references in `S`. It leaves `i`
with the contents `V`. -/
structure Edit (sb : Superblock) (k i : Nat) (S : Finset Nat) (V : Nat → Block)
    (h h' : Home) (D D' : Nat → Dinode) : Prop where
  other : ∀ j, j ≠ i → D' j = D j
  core : D' i = { D i with addrs := (D' i).addrs }
  addrs : ∀ idx, idx ∉ S ∨ own sb D h.buf (i, idx) ≠ 0 → (D' i).addrs idx = (D i).addrs idx
  mine : ∀ bn, fileBlock sb D' h'.buf i bn = V bn
  rest : ∀ j, j ≠ i → ∀ bn, fileBlock sb D' h'.buf j bn = fileBlock sb D h.buf j bn
  kept : ∀ r, own sb D h.buf r ≠ 0 → own sb D' h'.buf r = own sb D h.buf r
  disk : ∀ j < sb.ninodes, diskInode h'.buf j = diskInode h.buf j
  mem : h'.mem = setDinode k (fun _ => D' i) (h.mem.setLh h'.mem.log.lh)
  locked : h'.locked = h.locked
  passed : h'.passed = h.passed
  logged : ∀ x ∈ h'.mem.log.lh, x ∈ h.mem.log.lh ∨ IsBitmap sb x ∨
    ∃ idx ∈ S, own sb D' h'.buf (i, idx) ≠ 0 ∧ own sb D' h'.buf (i, idx) = x
  room : ∀ T, S ⊆ T → missing sb D' h'.buf i T + (freeBlocks sb h.buf).card
    = missing sb D h.buf i T + (freeBlocks sb h'.buf).card

section Edit

variable {sb : Superblock} {h h' h'' : Home} {D D' D'' : Nat → Dinode} {st : Nat → Prop}
  {i k : Nat} {S S' : Finset Nat} {V V' : Nat → Block}

theorem setDinode_const {m : Mem} {f : Dinode → Dinode} {d : Dinode}
    (hd : f (m.icache k).din = d) : setDinode k f m = setDinode k (fun _ => d) m := by
  subst hd
  rfl

theorem setDinode_eq_self {m : Mem} {d : Dinode} (hd : (m.icache k).din = d) :
    setDinode k (fun _ => d) m = m := by
  unfold setDinode setInode
  rw [← hd, update_eq_self]

theorem setDinode_setLh_idem {m : Mem} {d d' : Dinode} {lh lh' : List Nat} :
    setDinode k (fun _ => d') ((setDinode k (fun _ => d) (m.setLh lh)).setLh lh')
      = setDinode k (fun _ => d') (m.setLh lh') := by
  unfold setDinode setInode Mem.setLh
  simp only [update_self, update_idem]

theorem Edit.refl (hf : FsInv sb h D st) (hc : Cached sb h D k i) :
    Edit sb k i ∅ (fileBlock sb D h.buf i) h h D D :=
  ⟨fun _ _ => rfl, rfl, fun _ _ => rfl, fun _ => rfl, fun _ _ _ => rfl, fun _ _ => rfl,
    fun _ _ => rfl, (setDinode_eq_self (hf.din_eq hc)).symm, rfl, rfl, fun _ hx => .inl hx, fun _ _ => rfl⟩

theorem Edit.trans (e : Edit sb k i S V h h' D D') (e' : Edit sb k i S' V' h' h'' D' D'') :
    Edit sb k i (S ∪ S') V' h h'' D D'' := by
  refine ⟨fun j hj => (e'.other j hj).trans (e.other j hj), ?_, ?_, e'.mine,
    fun j hj bn => (e'.rest j hj bn).trans (e.rest j hj bn), ?_,
    fun j hj => (e'.disk j hj).trans (e.disk j hj), ?_, e'.locked.trans e.locked, e'.passed.trans e.passed, ?_, ?_⟩
  · rw [e'.core, e.core]
  · intro idx hidx
    rw [mem_union, not_or] at hidx
    rw [e'.addrs idx, e.addrs idx]
    · exact hidx.imp_left And.left
    · refine hidx.imp And.right fun h0 => ?_
      rwa [e.kept _ h0]
  · intro r hr
    have h1 := e.kept r hr
    rw [e'.kept r (by rw [h1]; exact hr), h1]
  · have h1 : h'.mem.setLh h''.mem.log.lh
        = (setDinode k (fun _ => D' i) (h.mem.setLh h'.mem.log.lh)).setLh h''.mem.log.lh :=
      congrArg (Mem.setLh · h''.mem.log.lh) e.mem
    exact e'.mem.trans (by rw [h1, setDinode_setLh_idem])
  · intro x hx
    rcases e'.logged x hx with hx | hx | ⟨idx, hidx, h0, rfl⟩
    · rcases e.logged x hx with hx | hx | ⟨idx, hidx, h0, rfl⟩
      · exact .inl hx
      · exact .inr (.inl hx)
      · refine .inr (.inr ⟨idx, mem_union_left _ hidx, ?_, e'.kept _ h0⟩)
        rwa [e'.kept _ h0]
    · exact .inr (.inl hx)
    · exact .inr (.inr ⟨idx, mem_union_right _ hidx, h0, rfl⟩)
  · intro T hT
    have h1 := e.room T (union_subset_left hT)
    have h2 := e'.room T (union_subset_right hT)
    omega

theorem Edit.mono (e : Edit sb k i S V h h' D D') (hS : S ⊆ S') : Edit sb k i S' V h h' D D' :=
  ⟨e.other, e.core, fun idx h => e.addrs idx (h.imp_left fun hn hm => hn (hS hm)), e.mine, e.rest,
    e.kept, e.disk, e.mem, e.locked, e.passed,
    fun x hx => (e.logged x hx).imp_right fun h => h.imp_right fun ⟨idx, hidx, h'⟩ =>
      ⟨idx, hS hidx, h'⟩, fun T hT => e.room T (hS.trans hT)⟩

theorem Edit.used (e : Edit sb k i S V h h' D D') {j : Nat} : Used sb D' j ↔ Used sb D j := by
  unfold Used
  by_cases hj : j = i
  · subst hj; rw [e.core]
  · rw [e.other j hj]

theorem Edit.cached (e : Edit sb k i S V h h' D D') {k' j : Nat} (hc : Cached sb h D k' j) :
    Cached sb h' D' k' j := by
  have hf := Home.setDin_fields (h := { h with mem := h.mem.setLh h'.mem.log.lh }) (k := k)
    (d := D' i) k'
  have hm : (Home.setDin { h with mem := h.mem.setLh h'.mem.log.lh } k (D' i)).mem = h'.mem :=
    e.mem.symm
  rw [hm] at hf
  obtain ⟨e1, e2, e3, -⟩ := hf
  exact ⟨hc.lt, by rw [e1]; exact hc.ref, by rw [e2]; exact hc.valid, by rw [e3]; exact hc.inum,
    e.used.mpr hc.used⟩

theorem Edit.canLog {J : Policy Event} (e : Edit sb k i S V h h' D D') (hl : CanLog J h.mem) :
    CanLog J h'.mem := by
  rw [e.mem]
  exact ⟨hl.busy, hl.check⟩

theorem missing_take {buf buf' : Nat → Block} {idx b : Nat}
    (hown : own sb D' buf' = update (own sb D buf) (i, idx) b)
    (h0 : own sb D buf (i, idx) = 0) (hb : b ≠ 0) {T : Finset Nat} (hT : idx ∈ T) :
    missing sb D' buf' i T + 1 = missing sb D buf i T := by
  have hset : (T.filter fun j => own sb D' buf' (i, j) = 0)
      = (T.filter fun j => own sb D buf (i, j) = 0).erase idx := by
    ext j
    simp only [mem_filter, mem_erase, hown]
    by_cases hj : j = idx
    · subst hj
      simp [hb]
    · rw [update_of_ne (by simpa using hj)]
      tauto
  unfold missing
  rw [hset]
  exact card_erase_add_one (mem_filter.mpr ⟨hT, h0⟩)

theorem freeBlocks_take {b : Nat} (h1 : sb.datastart ≤ b) (h2 : b < sb.logstart)
    (hfree : bitOf h.buf sb.ninodes b = false) :
    (freeBlocks sb (h.allocate sb b).buf).card + 1 = (freeBlocks sb h.buf).card := by
  rw [Home.freeBlocks_allocate h1]
  exact card_erase_add_one
    (mem_filter.mpr ⟨mem_Ico.mpr ⟨h1, h2⟩, hfree⟩)

theorem mem_allocate_lh {b x : Nat} (hb : b < sb.logstart)
    (hx : x ∈ (h.allocate sb b).mem.log.lh) : x ∈ h.mem.log.lh ∨ IsBitmap sb x ∨ x = b := by
  rcases (mem_record _ _).mp hx with hx | hx
  · rcases (mem_record _ _).mp hx with hx | hx
    · exact .inl hx
    · exact .inr (.inl ⟨b, hb, hx⟩)
  · exact .inr (.inr hx)

end Edit

/-! ### `bmap` -/

/-- The references `bmap` looks at for block `bn`. -/
def refsOf (bn : Nat) : Finset Nat := if bn < NDIRECT then {bn} else {NDIRECT, bn + 1}

section Bmap

variable {sb : Superblock} {h : Home} {D : Nat → Dinode} {st : Nat → Prop} {J : Policy Event}
  {i k bn idx b : Nat}

theorem FsInv.assign_edit (hf : FsInv sb h D st) (hc : Cached sb h D k i) (hidx : idx ≤ NDIRECT)
    (ho : own sb D h.buf (i, idx) = 0) (h1 : sb.datastart ≤ b) (h2 : b < sb.logstart)
    (hfree : bitOf h.buf sb.ninodes b = false) :
    Edit sb k i {idx} (fileBlock sb D h.buf i) h
      ((h.allocate sb b).setDin k ((D i).setAddr idx b)) D
      (update D i ((D i).setAddr idx b)) := by
  have hown := hf.own_assign hc.used hidx ho h1 h2 hfree
  have hb0 : b ≠ 0 := by have := Geometry.datastart_pos sb; omega
  have hblock := fileBlock_take hown ho Home.allocate_buf_self
    fun r hr _ => hf.allocate_own h1 h2 hfree hr
  refine ⟨fun j hj => update_of_ne hj .., ?_, ?_, hblock i, fun j _ => hblock j, ?_,
    fun j hj => Home.diskInode_allocate h1 hj, ?_, rfl, rfl, ?_, ?_⟩
  · rw [update_self]
    rfl
  · intro idx' hidx'
    have hne : idx' ≠ idx := by
      rintro rfl
      exact hidx'.elim (fun hn => hn (mem_singleton_self _)) fun h0 => h0 ho
    rw [update_self, Dinode.setAddr_of_ne _ hne]
  · intro r hr
    rw [Home.setDin_buf, hown, update_of_ne]
    rintro rfl
    exact hr ho
  · rw [update_self]
    rfl
  · intro x hx
    rcases mem_allocate_lh h2 hx with hx | hx | hx
    · exact .inl hx
    · exact .inr (.inl hx)
    · refine .inr (.inr ⟨idx, mem_singleton_self _, ?_⟩)
      rw [Home.setDin_buf, hown, update_self]
      exact ⟨hb0, hx.symm⟩
  · intro T hT
    have hm := missing_take hown ho hb0 (hT (mem_singleton_self _))
    have hfb := freeBlocks_take h1 h2 hfree
    rw [Home.setDin_buf]
    omega

theorem FsInv.assignEntry_edit {a e : Nat} (hf : FsInv sb h D st) (hc : Cached sb h D k i)
    (ha : own sb D h.buf (i, NDIRECT) = a) (ha0 : a ≠ 0) (he : e < NINDIRECT)
    (ho : own sb D h.buf (i, NDIRECT + 1 + e) = 0)
    (h1 : sb.datastart ≤ b) (h2 : b < sb.logstart) (hfree : bitOf h.buf sb.ninodes b = false) :
    Edit sb k i {NDIRECT, NDIRECT + 1 + e} (fileBlock sb D h.buf i) h (h.assignEntry sb a e b) D D := by
  have hown := hf.own_assignEntry hc.used ha ha0 he h1 h2 hfree
  have hb0 : b ≠ 0 := by have := Geometry.datastart_pos sb; omega
  have hab : b ≠ a := fun hba => hf.free_ne h1 h2 hfree (i, NDIRECT) (ha.trans hba.symm)
  have hblock := fileBlock_take hown ho
    (by rw [Home.assignEntry_buf_of_ne hab, Home.allocate_buf_self]) fun r hr hr2 => by
      rw [Home.assignEntry_buf_of_ne ?_, hf.allocate_own h1 h2 hfree hr]
      intro hra
      have := hf.ledger.inj r (i, NDIRECT) hr (hra.trans ha.symm)
      exact hr2 (by rw [this])
  have harange : sb.datastart ≤ a := by
    rw [← ha] at ha0 ⊢
    exact (hf.own_range ha0).1
  refine ⟨fun j _ => rfl, rfl, fun _ _ => rfl, hblock i, fun j _ => hblock j, ?_, fun j hj => ?_, ?_,
    rfl, rfl, ?_, ?_⟩
  · intro r hr
    rw [hown, update_of_ne]
    rintro rfl
    exact hr ho
  · have := Geometry.iblock_lt hj
    rw [← Home.diskInode_allocate (h := h) h1 hj]
    unfold diskInode
    rw [Home.assignEntry_buf_of_ne (by omega)]
  · exact (setDinode_eq_self (m := h.mem.setLh (h.assignEntry sb a e b).mem.log.lh) (d := D i)
      (hf.din_eq hc)).symm
  · intro x hx
    rcases (mem_record _ _).mp hx with hx | hx
    · rcases mem_allocate_lh h2 hx with hx | hx | hx
      · exact .inl hx
      · exact .inr (.inl hx)
      · refine .inr (.inr ⟨NDIRECT + 1 + e, by simp, ?_⟩)
        rw [hown, update_self]
        exact ⟨hb0, hx.symm⟩
    · refine .inr (.inr ⟨NDIRECT, by simp, ?_⟩)
      rw [hown, update_of_ne (by simp; omega), ha]
      exact ⟨ha0, hx.symm⟩
  · intro T hT
    have hm := missing_take hown ho hb0 (hT (by simp))
    have hfb := freeBlocks_take h1 h2 hfree
    have hsame : freeBlocks sb (h.assignEntry sb a e b).buf = freeBlocks sb (h.allocate sb b).buf := by
      unfold freeBlocks
      refine filter_congr fun c hcmem => ?_
      have hclt := (mem_Ico.mp hcmem).2
      have hbb := Geometry.bblock_lt (hclt.trans_le (show sb.logstart ≤ sb.cap from Geometry.logstart_le_cap))
      unfold bitOf
      rw [Home.assignEntry_buf_of_ne (by omega)]
    rw [hsame]
    omega

/-- There is room for the references in `T` that hold nothing, unless the policy need not know
that. -/
def Room (J : Policy Event) (sb : Superblock) (D : Nat → Dinode) (buf : Nat → Block) (i : Nat)
    (T : Finset Nat) : Prop :=
  Lenient sb J ∨ missing sb D buf i T ≤ (freeBlocks sb buf).card

theorem Room.data {T : Finset Nat} (hr : Room J sb D h.buf i T) (hT : idx ∈ T)
    (ho : own sb D h.buf (i, idx) = 0) : Lenient sb J ∨ dataFree sb h.buf = true := by
  refine hr.imp_right fun hle => ?_
  have hpos : 0 < (freeBlocks sb h.buf).card :=
    (card_pos.mpr ⟨idx, mem_filter.mpr ⟨hT, ho⟩⟩).trans_le hle
  obtain ⟨b, hb⟩ := card_pos.mp hpos
  obtain ⟨hb1, hb2⟩ := mem_filter.mp hb
  exact decide_eq_true ⟨b, (mem_Ico.mp hb1).2, hb2⟩

theorem Edit.roomLeft {S T : Finset Nat} {V : Nat → Block} {h' : Home} {D' : Nat → Dinode}
    (e : Edit sb k i S V h h' D D') (hS : S ⊆ T) (hr : Room J sb D h.buf i T) :
    Room J sb D' h'.buf i T := by
  refine hr.imp_right fun hle => ?_
  have := e.room T hS
  omega

theorem Room.mono {T T' : Finset Nat} (hr : Room J sb D h.buf i T) (hT : T' ⊆ T) :
    Room J sb D h.buf i T' :=
  hr.imp_right fun hle =>
    (card_le_card (filter_subset_filter _ hT)).trans hle

theorem hwp_bmap_mapped {Q : Nat → Home → Prop} (hf : FsInv sb h D st) (hc : Cached sb h D k i)
    (hbn : bn < MAXFILE) (hl : h.locked = ∅) (ho : own sb D h.buf (i, didx bn) ≠ 0)
    (hQ : Q (own sb D h.buf (i, didx bn)) h) : hwp J (bmap k bn) Q h := by
  have hlt := didx_lt hbn
  rw [own_eq hc.used hlt] at ho hQ
  unfold bmap
  refine hwp_bind (hwp_get ?_)
  rw [hf.din_eq hc]
  by_cases hd : bn < NDIRECT
  · have hidx : didx bn = bn := if_pos hd
    rw [hidx, bref_le hd.le] at ho hQ
    rw [if_pos hd]
    simp only [if_neg ho]
    exact hwp_pure hQ
  · have hidx : didx bn = bn + 1 := if_neg hd
    have hptr : (D i).addrs NDIRECT ≠ 0 := by
      intro h0
      rw [hidx, bref_entry_zero (by omega) h0] at ho
      exact ho rfl
    have hown : own sb D h.buf (i, NDIRECT) = (D i).addrs NDIRECT := own_indirect h.buf hc.used
    have hrange := hf.own_range (by rwa [hown])
    rw [hidx, bref_entry (by omega) hptr, show bn + 1 - (NDIRECT + 1) = bn - NDIRECT by omega]
      at ho hQ
    rw [if_neg hd, if_pos (by unfold MAXFILE at hbn; omega)]
    simp only [if_neg hptr]
    refine hwp_bind (hwp_pure (hwp_bind (hwp_bread ?_ (by rw [hl]; simp) (by rw [hl]; simp) ?_)))
    · rw [hf.based.start, ← hown]
      exact hrange.2
    · rw [if_neg ho]
      refine hwp_bind (hwp_brelse (h.mem_lock _) ?_)
      rw [h.unlock_lock (by rw [hl]; simp)]
      exact hwp_pure hQ

theorem hwp_bmap_direct {Q : Nat → Home → Prop} (hf : FsInv sb h D st) (hc : Cached sb h D k i)
    (hd : idx ≤ NDIRECT) (hl : h.locked = ∅) (hlog : CanLog J h.mem) (hJ : BlockPolicy sb J)
    (hr : Room J sb D h.buf i {idx})
    (hQ : ∀ h' D', FsInv sb h' D' (fun j => st j ∨ j = i) →
      Edit sb k i {idx} (fileBlock sb D h.buf i) h h' D D' →
      own sb D' h'.buf (i, idx) ≠ 0 → Q (own sb D' h'.buf (i, idx)) h') :
    hwp J (do
      if (h.mem.icache k).din.addrs idx = 0 then
        let b ← balloc
        modify (setDinode k fun d => { d with addrs := update d.addrs idx b })
        return b
      else return (h.mem.icache k).din.addrs idx) Q h := by
  have hlt : idx < NREF := by unfold NREF; omega
  have hown : own sb D h.buf (i, idx) = (D i).addrs idx := by
    rw [own_eq hc.used hlt, bref_le hd]
  rw [hf.din_eq hc]
  by_cases h0 : (D i).addrs idx = 0
  · rw [if_pos h0]
    rw [← hown] at h0
    refine hwp_bind (hwp_balloc hf.based hf.low hJ hlog (by rw [hl]; simp)
      (by rw [hl]; exact fun x hx => absurd hx (notMem_empty x))
      (hr.data (mem_singleton_self _) h0) fun b h1 h2 hfree => ?_)
    refine hwp_bind (hwp_modify rfl (hwp_pure ?_))
    have hb0 : b ≠ 0 := by have := Geometry.datastart_pos sb; omega
    have hown' := hf.own_assign hc.used hd h0 h1 h2 hfree
    have hq := hQ _ _ (hf.assign hc hd h0 h1 h2 hfree) (hf.assign_edit hc hd h0 h1 h2 hfree)
    rw [Home.setDin_buf, hown', update_self] at hq
    have hmem : setDinode k (fun d => { d with addrs := update d.addrs idx b })
        (h.allocate sb b).mem
        = setDinode k (fun _ => (D i).setAddr idx b) (h.allocate sb b).mem :=
      setDinode_const (by
        change ({ (h.mem.icache k).din with
          addrs := update (h.mem.icache k).din.addrs idx b } : Dinode) = _
        rw [hf.din_eq hc]
        rfl)
    rw [hmem]
    exact hq hb0
  · rw [if_neg h0]
    refine hwp_pure ?_
    rw [← hown] at h0 ⊢
    exact hQ h D (hf.weaken fun _ => .inl)
      ((Edit.refl hf hc).mono (empty_subset _)) h0

/-- **`bmap`** returns the block that holds block `bn` of the inode, and makes one if there
is none. The contents of no inode change. -/
theorem hwp_bmap {Q : Nat → Home → Prop} (hf : FsInv sb h D st) (hc : Cached sb h D k i)
    (hbn : bn < MAXFILE) (hl : h.locked = ∅) (hlog : CanLog J h.mem) (hJ : BlockPolicy sb J)
    (hr : Room J sb D h.buf i (refsOf bn))
    (hQ : ∀ h' D', FsInv sb h' D' (fun j => st j ∨ j = i) →
      Edit sb k i (refsOf bn) (fileBlock sb D h.buf i) h h' D D' →
      own sb D' h'.buf (i, didx bn) ≠ 0 → Q (own sb D' h'.buf (i, didx bn)) h') :
    hwp J (bmap k bn) Q h := by
  unfold bmap
  refine hwp_bind (hwp_get ?_)
  by_cases hd : bn < NDIRECT
  · have hrefs : refsOf bn = {bn} := if_pos hd
    have hidx : didx bn = bn := if_pos hd
    rw [hrefs] at hr
    simp only [hrefs, hidx] at hQ
    rw [if_pos hd]
    exact hwp_bmap_direct hf hc hd.le hl hlog hJ hr hQ
  · have hrefs : refsOf bn = {NDIRECT, bn + 1} := if_neg hd
    have hidx : didx bn = bn + 1 := if_neg hd
    have hbn' : bn - NDIRECT < NINDIRECT := by unfold MAXFILE at hbn; omega
    have he : NDIRECT + 1 + (bn - NDIRECT) = bn + 1 := by omega
    rw [hrefs] at hr
    simp only [hrefs, hidx] at hQ
    rw [if_neg hd, if_pos hbn']
    refine hwp_bind (hwp_bmap_direct hf hc le_rfl hl hlog hJ (hr.mono (by simp))
      fun h₁ D₁ hf₁ e₁ ha0 => ?_)
    have hc₁ := e₁.cached hc
    have hl₁ : h₁.locked = ∅ := e₁.locked.trans hl
    have hptr := own_indirect h₁.buf hc₁.used
    have hrange := hf₁.own_range ha0
    have hentry : getLE (h₁.buf (own sb D₁ h₁.buf (i, NDIRECT))) (4 * (bn - NDIRECT)) 4
        = own sb D₁ h₁.buf (i, bn + 1) := by
      rw [own_eq hc₁.used (show bn + 1 < NREF by unfold NREF; omega),
        bref_entry (by omega) (by rwa [← hptr]), hptr]
      congr 2
    have hr₁ := e₁.roomLeft (T := {NDIRECT, bn + 1}) (by simp) hr
    have hst : ∀ j, (st j ∨ j = i) ∨ j = i → st j ∨ j = i := fun j hj => hj.elim id .inr
    generalize ha : own sb D₁ h₁.buf (i, NDIRECT) = a at *
    have hnot : a ∉ h₁.locked := by rw [hl₁]; exact notMem_empty a
    refine hwp_bind (hwp_bread ?_ hnot (by rw [hl₁]; simp) ?_)
    · rw [hf₁.based.start]
      exact hrange.2
    rw [hentry]
    by_cases h0 : own sb D₁ h₁.buf (i, bn + 1) = 0
    · rw [if_pos h0]
      have hb₁ := hf₁.based
      refine hwp_bind (hwp_balloc (h := h₁.lock a) ⟨hb₁.geo, hb₁.start, hb₁.super⟩ hf₁.low hJ
        (e₁.canLog hlog) (h₁.card_lock_le a 0 (by rw [hl₁]; simp)) ?_
        (hr₁.data (by simp) h0) fun b h1 h2 hfree => ?_)
      · intro x hx
        rcases mem_insert.mp hx with rfl | hx
        · refine ⟨hrange.1, ?_⟩
          have := hf₁.ledger.used_of_own (j := (i, NDIRECT)) Geometry.logstart_le_cap
            (by rwa [ha])
          rwa [ha] at this
        · rw [hl₁] at hx
          exact absurd hx (notMem_empty x)
      · have hlog₁ := e₁.canLog hlog
        refine hwp_bind (hwp_logWrite (h₁.mem_lock a) (h₁.card_lock_le a 1 (by rw [hl₁]; simp))
          ⟨hlog₁.busy, hlog₁.check⟩ (hwp_bind (hwp_brelse (h₁.mem_lock a) (hwp_pure ?_))))
        have heq : (((h₁.lock a).allocate sb b).logw a
            (putLE (h₁.buf a) (4 * (bn - NDIRECT)) 4 b)).unlock a
            = h₁.assignEntry sb a (bn - NDIRECT) b :=
          (h₁.assignEntry sb a (bn - NDIRECT) b).unlock_lock hnot
        rw [heq]
        have hown := hf₁.own_assignEntry hc₁.used ha ha0 hbn' h1 h2 hfree
        have hb0 : b ≠ 0 := by have := Geometry.datastart_pos sb; omega
        have e₂ := hf₁.assignEntry_edit hc₁ ha ha0 hbn' (by rwa [he]) h1 h2 hfree
        rw [show fileBlock sb D₁ h₁.buf i = fileBlock sb D h.buf i from funext e₁.mine, he] at e₂
        have hq := hQ (h₁.assignEntry sb a (bn - NDIRECT) b) D₁
          (hf₁.assignEntry hc₁.used ha ha0 hbn' (by rwa [he]) h1 h2 hfree)
          ((e₁.trans e₂).mono (by simp))
        rw [hown, he, update_self] at hq
        exact hq hb0
    · rw [if_neg h0]
      refine hwp_bind (hwp_brelse (h₁.mem_lock a) (hwp_pure ?_))
      rw [h₁.unlock_lock hnot]
      exact hQ h₁ D₁ hf₁ (e₁.mono (by simp)) h0

end Bmap

end Xv6
