import Xv6.ByteString
import Xv6.Cache
import Xv6.File

/-!
# Writing in chunks

`filewrite` writes a few blocks at a time, each time in a transaction of its own. Run by a process
that nobody interferes with, it does to the file what a single `writei` would do, if the file does
not become too large; otherwise it writes as many whole chunks as fit and returns -1 (`filewrite_eq`).

A chunk touches at most four blocks, the indirect block, the inode and the bitmap, which is as much as
a transaction has room for.
-/

open Bytes Device Function Finset

namespace Xv6

variable {sb : Superblock} {s : KState} {h h' h'' : Home} {D D' D'' : Nat → Dinode}
  {f k i off n m : Nat} {src : Nat → UInt8}

/-! ### Whole transactions -/

/-- The kernel between two transactions. -/
structure Ready (sb : Superblock) (h : Home) (D : Nat → Dinode) : Prop where
  inv : FsInv sb h D noStale
  mapped : ∀ j, Used sb D j → Mapped sb D h.buf j
  unlocked : h.locked = ∅
  nlog : LOGSIZE ≤ h.mem.log.size
  passed : h.passed = false
  idle : h.mem.log.busy = false ∧ h.mem.log.lh = [] ∧ h.mem.log.owner = none

/-- The file `f` is open for writing on inode `i`, which is not a device and in slot `k` of the cache,
and nobody has locked it. -/
structure Opened (sb : Superblock) (h : Home) (D : Nat → Dinode) (f k i off : Nat) : Prop where
  writable : (h.mem.ftable f).writable = true
  type : (h.mem.ftable f).type = .FD_INODE
  ip : (h.mem.ftable f).ip = k
  offset : (h.mem.ftable f).off = off
  lt : k < NINODE
  ref : 0 < (h.mem.icache k).ref
  free : (h.mem.icache k).busy = false
  inum : (h.mem.icache k).inum = i
  used : Used sb D i
  dev : (D i).type ≠ T_DEV
  le : off ≤ (D i).size

/-- `n` bytes were written at offset `off` of the file, which is moved on; nothing else has
changed but the copy of the inode in the cache. -/
structure Advanced (sb : Superblock) (f k i off n : Nat) (src : Nat → UInt8) (h h' : Home)
    (D D' : Nat → Dinode) : Prop where
  other : ∀ j, j ≠ i → D' j = D j
  core : D' i = { D i with
    size := if 0 < n then max (D i).size (off + n) else (D i).size
    addrs := (D' i).addrs }
  byte : ∀ o, fileByte sb D' h'.buf i o = overlaid (fileByte sb D h.buf i) off n src o
  rest : ∀ j, j ≠ i → ∀ o, fileByte sb D' h'.buf j o = fileByte sb D h.buf j o
  room : ∀ T, refsIn off n ⊆ T → missing sb D' h'.buf i T + (freeBlocks sb h.buf).card
    = missing sb D h.buf i T + (freeBlocks sb h'.buf).card
  mem : ∃ v d, h'.mem = { h.mem with
    ftable := update h.mem.ftable f { h.mem.ftable f with off := off + n }
    icache := update h.mem.icache k { h.mem.icache k with valid := v, din := d } }

theorem Advanced.size (a : Advanced sb f k i off n src h h' D D') (ho : off ≤ (D i).size) :
    (D' i).size = max (D i).size (off + n) := by
  rw [a.core]
  dsimp only
  split
  · rfl
  · omega

theorem Advanced.zero (o : Opened sb h D f k i off) {v : Bool} {d : Dinode} (hbuf : h'.buf = h.buf)
    (hmem : h'.mem = { h.mem with
      icache := update h.mem.icache k { h.mem.icache k with valid := v, din := d } }) :
    Advanced sb f k i off 0 src h h' D D := by
  refine ⟨fun _ _ => rfl, rfl, fun o => ?_, fun _ _ _ => by rw [hbuf], fun _ _ => by rw [hbuf], v, d, ?_⟩
  · rw [hbuf, overlaid, if_neg (by omega)]
  · have hf : ({ h.mem.ftable f with off := off + 0 } : File) = h.mem.ftable f := by
      rw [Nat.add_zero, ← o.offset]
    rw [hf, update_eq_self, hmem]

theorem overlaid_overlaid (byte : Nat → UInt8) (off m n : Nat) (src : Nat → UInt8) (o : Nat) :
    overlaid (overlaid byte off m src) (off + m) n (fun x => src (m + x)) o
      = overlaid byte off (m + n) src o := by
  unfold overlaid
  by_cases h1 : off + m ≤ o ∧ o < off + m + n
  · rw [if_pos h1, if_pos (by omega)]
    exact congrArg src (by omega)
  · rw [if_neg h1]
    by_cases h2 : off ≤ o ∧ o < off + m
    · rw [if_pos h2, if_pos (by omega)]
    · rw [if_neg h2, if_neg (by omega)]

theorem Advanced.trans (ho : off ≤ (D i).size) (a : Advanced sb f k i off m src h h' D D')
    (b : Advanced sb f k i (off + m) n (fun x => src (m + x)) h' h'' D' D'') :
    Advanced sb f k i off (m + n) src h h'' D D'' := by
  refine ⟨fun j hj => (b.other j hj).trans (a.other j hj), ?_, fun o => ?_,
    fun j hj o => (b.rest j hj o).trans (a.rest j hj o), fun T hT => ?_, ?_⟩
  · have h1 := a.size ho
    have hsize : (if 0 < n then max (D' i).size (off + m + n) else (D' i).size)
        = if 0 < m + n then max (D i).size (off + (m + n)) else (D i).size := by
      split <;> split <;> omega
    rw [b.core, hsize, a.core]
  · rw [b.byte, funext a.byte, overlaid_overlaid]
  · have h1 := a.room T ((refsIn_mono (le_refl off) (by omega)).trans hT)
    have h2 := b.room T ((refsIn_mono (by omega) (by omega)).trans hT)
    omega
  · obtain ⟨v, d, h1⟩ := a.mem
    obtain ⟨v', d', h2⟩ := b.mem
    refine ⟨v', d', ?_⟩
    rw [h2, h1]
    simp only [update_self, update_idem, Nat.add_assoc]

theorem Advanced.opened (o : Opened sb h D f k i off) (a : Advanced sb f k i off n src h h' D D') :
    Opened sb h' D' f k i (off + n) := by
  obtain ⟨v, d, hmem⟩ := a.mem
  have hty : (D' i).type = (D i).type := by rw [a.core]
  refine ⟨?_, ?_, ?_, ?_, o.lt, ?_, ?_, ?_, ⟨o.used.1, hty ▸ o.used.2⟩, hty ▸ o.dev, ?_⟩
  · simpa [hmem] using o.writable
  · simpa [hmem] using o.type
  · simpa [hmem] using o.ip
  · simp [hmem]
  · simpa [hmem] using o.ref
  · simpa [hmem] using o.free
  · simpa [hmem] using o.inum
  · rw [a.size o.le]
    exact le_max_right _ _

/-! ### How much a chunk needs -/

/-- A chunk lies in four blocks, so with the indirect block it touches five. -/
theorem card_refsIn_le (hn : n ≤ writeMax) : (refsIn off n).card ≤ 5 := by
  have hsub : refsIn off n ⊆
      insert NDIRECT ((Finset.Ico (off / BSIZE) (off / BSIZE + 4)).image didx) := by
    intro idx hidx
    obtain ⟨bn, hbn, hidx⟩ := mem_biUnion.mp hidx
    obtain ⟨-, -, h1, h2⟩ := mem_filter.mp hbn
    have hmem : bn ∈ Finset.Ico (off / BSIZE) (off / BSIZE + 4) := by
      have hmax : writeMax = 1536 := rfl
      rw [mem_Ico]
      unfold BSIZE at h1 h2 ⊢
      omega
    unfold refsOf at hidx
    split at hidx
    · next hd =>
      rw [mem_singleton.mp hidx]
      refine mem_insert_of_mem (mem_image.mpr ⟨bn, hmem, ?_⟩)
      rw [didx, if_pos hd]
    · next hd =>
      rcases mem_insert.mp hidx with rfl | hidx
      · exact mem_insert_self _ _
      · rw [mem_singleton.mp hidx]
        refine mem_insert_of_mem (mem_image.mpr ⟨bn, hmem, ?_⟩)
        rw [didx, if_neg hd]
  calc (refsIn off n).card
      ≤ (insert NDIRECT ((Finset.Ico (off / BSIZE) (off / BSIZE + 4)).image didx)).card :=
        card_le_card hsub
    _ ≤ ((Finset.Ico (off / BSIZE) (off / BSIZE + 4)).image didx).card + 1 :=
        card_insert_le _ _
    _ ≤ (Finset.Ico (off / BSIZE) (off / BSIZE + 4)).card + 1 :=
        Nat.add_le_add_right card_image_le 1
    _ = 5 := by rw [Nat.card_Ico]; omega

theorem writeRefused_iff (ho : off ≤ (D i).size) (hsize : (D i).size ≤ MAXFILE * BSIZE)
    (hn : n < 2 ^ 31) : writeRefused (D i).size off n ↔ MAXFILE * BSIZE < off + n := by
  have hmax : MAXFILE * BSIZE = 71680 := rfl
  have hadd : uadd off n = off + n := Nat.mod_eq_of_lt (by omega)
  unfold writeRefused
  rw [hadd]
  omega

/-! ### One transaction -/

/-- The copy of the inode in the cache after a chunk. -/
def chunkSlot (d : Dinode) (ip : Inode) : Inode := { ip with valid := true, din := d }

/-- The memory after a chunk in which `writei` returned `r`. -/
def chunkMem (f k : Nat) (r : Int) (d : Dinode) (m : Mem) : Mem :=
  setFile f (fun ff => { ff with off := uadd ff.off r.toNat }) (setInode k (chunkSlot d) m)

/-- From the lock on: the rest of a transaction, once `writei` has returned. -/
theorem hwp_chunkEnd {r : Int} {h₁ : Home} {d : Dinode} {Q : Int → Home → Prop}
    (hr : Ready sb h D) (o : Opened sb h D f k i off) {lh : List Nat} (hl : h₁.locked = ∅)
    (hlen : lh.length ≤ ROOM)
    (hmem : h₁.mem = setInode k (lockedSlot d) (h.mem.begun.setLh lh))
    (hQ : Q r { h₁ with mem := chunkMem f k r d h.mem }) :
    hwp total (do
      modify (setFile f fun ff => { ff with off := uadd ff.off r.toNat })
      iunlock k
      commitTrans
      return r) Q h₁ := by
  refine hwp_bind (hwp_modify rfl (hwp_bind (hwp_iunlock_slot ?_ ?_ (hwp_bind
    (hwp_commitTrans hl trivial (hwp_pure ?_))))))
  · change 0 < (h₁.mem.icache k).ref
    rw [hmem, setInode_self]
    exact o.ref
  · change (h₁.mem.icache k).busy = true
    rw [hmem, setInode_self]
    rfl
  · -- the slot is unlocked again, and the log is as it was
    have hlh : h₁.mem.log.lh = lh := by rw [hmem]; rfl
    have hpass : (h₁.passed || decide (ROOM < h₁.mem.log.lh.length)) = h₁.passed := by
      rw [hlh, decide_eq_false (Nat.not_lt.mpr hlen), Bool.or_false]
    have hm : ((setInode k (fun ip => { ip with busy := false })
        (setFile f (fun ff => { ff with off := uadd ff.off r.toNat }) h₁.mem)).committed : Mem)
          = chunkMem f k r d h.mem := by
      have hslot : ({ lockedSlot d (h.mem.icache k) with busy := false } : Inode)
          = chunkSlot d (h.mem.icache k) := by
        unfold lockedSlot chunkSlot
        rw [← o.free]
      have hlog : ({ h.mem.log with lh := [], busy := false, owner := none } : LogState)
          = h.mem.log := by
        obtain ⟨h1, h2, h3⟩ := hr.idle
        rw [← h1, ← h2, ← h3]
      rw [hmem]
      unfold chunkMem setFile setInode Mem.committed Mem.setLh Mem.begun
      simp only [update_self, update_idem]
      rw [hslot, hlog]
    have hh := hQ
    rw [← hm] at hh
    change Q r { h₁ with
      mem := _
      passed := h₁.passed || decide (ROOM < h₁.mem.log.lh.length) }
    rw [hpass]
    exact hh

theorem Ready.of_setSlot (hr : Ready sb h D) (o : Opened sb h D f k i off) {h₁ : Home}
    (hbuf : h₁.buf = h.buf) (hl : h₁.locked = h.locked) (hp : h₁.passed = h.passed) {r : Int}
    (hmem : h₁.mem = chunkMem f k r (D i) h.mem) : Ready sb h₁ D := by
  have hf : FsInv sb (h.setSlot k (chunkSlot (D i))) D noStale :=
    hr.inv.setSlot_same o.lt o.ref _ rfl fun _ => by rw [o.inum]; rfl
  have hlog : h₁.mem.log = h.mem.log := by rw [hmem]; rfl
  refine ⟨hf.setMem hbuf ?_ ?_, fun j hj => ?_, hl.trans hr.unlocked, hlog ▸ hr.nlog,
    hp.trans hr.passed, hlog ▸ hr.idle⟩
  · rw [hlog]
    rfl
  · rw [hmem]
    rfl
  · rw [hbuf]
    exact hr.mapped j hj

/-- The inode is locked, in a transaction that has just begun. -/
structure Locked (sb : Superblock) (h : Home) (D : Nat → Dinode) (k i : Nat) (h₁ : Home) : Prop where
  inv : FsInv sb h₁ D noStale
  cached : Cached sb h₁ D k i
  buf : h₁.buf = h.buf
  unlocked : h₁.locked = ∅
  passed : h₁.passed = false
  mem : h₁.mem = setInode k (lockedSlot (D i)) (h.mem.begun.setLh [])

theorem hwp_ilock_begun (hr : Ready sb h D) (o : Opened sb h D f k i off) {Q : Unit → Home → Prop}
    (hQ : ∀ h₁, Locked sb h D k i h₁ → Q () h₁) :
    hwp total (ilock k) Q { h with mem := h.mem.begun } := by
  have hf₀ : FsInv sb { h with mem := h.mem.begun } D noStale := hr.inv.setMem rfl rfl rfl
  refine hwp_ilock_slot hf₀ hr.unlocked o.lt o.ref (fun hb => ?_) (Or.inr ?_) fun _ _ => ?_
  · exact absurd (hb.symm.trans o.free) (by decide)
  · change Used sb D (h.mem.icache k).inum
    rw [o.inum]
    exact o.used
  change Q () (Home.setSlot _ k (lockedSlot (D (h.mem.icache k).inum)))
  rw [o.inum]
  have hnil : h.mem.begun.setLh [] = h.mem.begun := by
    unfold Mem.setLh Mem.begun
    rw [← hr.idle.2.1]
  refine hQ _ ⟨?_, ⟨o.lt, ?_, ?_, ?_, o.used⟩, rfl, hr.unlocked, hr.passed, by rw [hnil]; rfl⟩
  · exact hf₀.setSlot_same o.lt o.ref _ rfl fun _ => (congrArg D o.inum).symm
  · rw [Home.setSlot_self]
    exact o.ref
  · rw [Home.setSlot_self]
    rfl
  · rw [Home.setSlot_self]
    exact o.inum

/-- **One transaction** of `filewrite`: it writes all of the chunk, or nothing if the file would
become too large. -/
theorem hwp_filewriteChunk (hone : sb.size < BPB) (hr : Ready sb h D) (o : Opened sb h D f k i off)
    (hn : n ≤ writeMax)
    (hfree : off + n ≤ MAXFILE * BSIZE →
      missing sb D h.buf i (refsIn off n) ≤ (freeBlocks sb h.buf).card)
    {Q : Int → Home → Prop}
    (hbad : MAXFILE * BSIZE < off + n → ∀ h', Ready sb h' D →
      Advanced sb f k i off 0 src h h' D D → Q (-1) h')
    (hQ : off + n ≤ MAXFILE * BSIZE → ∀ h' D', Ready sb h' D' →
      Advanced sb f k i off n src h h' D D' → Q n h') :
    hwp total (filewriteChunk f src n) Q h := by
  have hmax : writeMax = 1536 := rfl
  have hsize := (hr.mapped i o.used).size
  have hmaxfile : MAXFILE * BSIZE = 71680 := rfl
  have hrefused := writeRefused_iff o.le hsize (show n < 2 ^ 31 by omega)
  have hoff := o.le
  refine hwp_bind (hwp_beginTrans (fun _ => hwp_bind (hwp_get ?_))
    fun hb => absurd (hb.symm.trans hr.idle.1) (by decide))
  have hip : (h.mem.begun.ftable f).ip = k := o.ip
  dsimp only
  rw [hip]
  refine hwp_bind (hwp_ilock_begun hr o fun h₁ hlk => ?_)
  obtain ⟨hf₁, hc₁, hbuf₁, hl₁, hp₁, hmem₁⟩ := hlk
  refine hwp_bind (hwp_get ?_)
  have hoff₁ : (h₁.mem.ftable f).off = off := by rw [hmem₁]; exact o.offset
  rw [hoff₁]
  refine hwp_bind (hwp_writei hf₁ hc₁ o.dev (hwp_writeiFile_room hf₁ hc₁ hl₁ ?_ ⟨?_, trivial⟩
    (fun _ _ _ _ => trivial) (by omega) (by omega) (fun hok => Or.inr ?_) (fun hbad' => ?_)
    fun h₂ D₂ hok hf₂ w hroom => hwp_of_nodup fun hnd => ?_))
  · rw [hbuf₁]
    exact hr.mapped i o.used
  · rw [hmem₁]
    rfl
  · rw [hbuf₁]
    exact hfree (Nat.not_lt.mp fun hlt => hok (hrefused.mpr hlt))
  · -- refused
    refine hwp_chunkEnd hr o hl₁ (Nat.zero_le _) hmem₁ (hbad (hrefused.mp hbad') _ ?_ ?_)
    · exact hr.of_setSlot o hbuf₁ (hl₁.trans hr.unlocked.symm) (hp₁.trans hr.passed.symm) rfl
    · refine Advanced.zero o (v := true) (d := D i) hbuf₁ ?_
      have hff : ({ h.mem.ftable f with off := uadd (h.mem.ftable f).off (-1 : Int).toNat } : File)
          = h.mem.ftable f := by
        have : uadd (h.mem.ftable f).off 0 = (h.mem.ftable f).off := by
          rw [o.offset]
          exact Nat.mod_eq_of_lt (by omega)
        change ({ h.mem.ftable f with off := uadd (h.mem.ftable f).off 0 } : File) = _
        rw [this]
      change chunkMem f k (-1) (D i) h.mem = _
      unfold chunkMem setFile setInode
      dsimp only
      rw [hff, update_eq_self]
      rfl
  · -- written
    have hfits : off + n ≤ MAXFILE * BSIZE := Nat.not_lt.mp fun hlt => hok (hrefused.mpr hlt)
    have hlen : h₂.mem.log.lh.length ≤ ROOM := by
      have h1 := w.length_le hnd
      have h2 : (refsIn off n).card ≤ 5 := card_refsIn_le hn
      have h3 : h₁.mem.log.lh.length = 0 := by rw [hmem₁]; rfl
      have h4 : sb.size / BPB = 0 := Nat.div_eq_of_lt hone
      have h5 : ROOM = 7 := rfl
      omega
    have hmem₂ : h₂.mem = setInode k (lockedSlot (D₂ i)) (h.mem.begun.setLh h₂.mem.log.lh) := by
      rw [w.mem, hmem₁]
      unfold setDinode Mem.setLh setInode lockedSlot
      simp only [update_self, update_idem]
    refine hwp_chunkEnd hr o (w.locked.trans hl₁) hlen hmem₂
      (hQ hfits _ D₂ ?_ ?_)
    · have hmaps : ∀ j, Used sb D₂ j → Mapped sb D₂ h₂.buf j := fun j hj =>
        w.mapped_all hc₁ (fun j' hj' => hbuf₁ ▸ hr.mapped j' hj') o.le hfits hj
      have hic : (setInode k (chunkSlot (D₂ i)) h.mem).icache
          = (h₂.setSlot k fun ip => { ip with busy := false }).mem.icache := by
        unfold Home.setSlot
        rw [hmem₂]
        unfold setInode lockedSlot chunkSlot Mem.setLh Mem.begun
        simp only [update_self, update_idem]
        rw [← o.free]
      have hc₂ := w.cached hc₁
      have hf₃ : FsInv sb (h₂.setSlot k fun ip => { ip with busy := false }) D₂ noStale :=
        hf₂.setSlot_same hc₂.lt hc₂.ref _ rfl fun hv => hf₂.rep.cache k hc₂.lt hc₂.ref hv
      refine ⟨hf₃.setMem rfl ?_ hic, hmaps, w.locked.trans hl₁, hr.nlog, w.passed.trans hp₁, hr.idle⟩
      change h.mem.log.start = h₂.mem.log.start
      rw [hmem₂]
      rfl
    · refine ⟨w.other, w.core, fun o' => ?_, fun j hj o' => ?_, fun T hT => ?_, true, D₂ i, ?_⟩
      · rw [← hbuf₁]
        exact w.byte o'
      · rw [← hbuf₁]
        unfold fileByte
        exact congrFun (w.rest j hj _) _
      · rw [← hbuf₁]
        exact hroom T hT
      · change chunkMem f k n (D₂ i) h.mem = _
        have hadd : uadd (h.mem.ftable f).off ((n : Int).toNat) = off + n := by
          rw [o.offset, Int.toNat_natCast]
          exact Nat.mod_eq_of_lt (by omega)
        unfold chunkMem setFile setInode
        dsimp only
        rw [hadd]
        rfl

/-! ### The loop -/

/-- How many of `n` bytes at offset `off` are written: all of them, or the whole chunks that fit. -/
def fitting (off n : Nat) : Nat :=
  if off + n ≤ MAXFILE * BSIZE then n else writeMax * ((MAXFILE * BSIZE - off) / writeMax)

theorem fitting_of_lt (h : MAXFILE * BSIZE < off + min n writeMax) : fitting off n = 0 := by
  have hpos : 0 < writeMax := by decide
  have hlt : MAXFILE * BSIZE - off < writeMax := by omega
  rw [fitting, if_neg (by omega), Nat.div_eq_of_lt hlt, Nat.mul_zero]

theorem fitting_of_le (h : off + min n writeMax ≤ MAXFILE * BSIZE) :
    fitting off n = min n writeMax + fitting (off + min n writeMax) (n - min n writeMax) := by
  have hpos : 0 < writeMax := by decide
  unfold fitting
  by_cases hn : off + n ≤ MAXFILE * BSIZE
  · rw [if_pos hn, if_pos (by omega)]
    omega
  · -- then it is a whole one
    have hmin : min n writeMax = writeMax := by omega
    have hdiv : (MAXFILE * BSIZE - off) / writeMax
        = (MAXFILE * BSIZE - (off + writeMax)) / writeMax + 1 := by
      rw [← Nat.add_div_right _ hpos]
      congr 1
      omega
    rw [hmin, if_neg hn, if_neg (by omega), hdiv, Nat.mul_add, Nat.mul_one, Nat.add_comm]

theorem hwp_filewriteLoop (hone : sb.size < BPB) {Q : Int → Home → Prop} (fuel : Nat) :
    ∀ x off h D, n ≤ x + fuel → x ≤ n → Ready sb h D → Opened sb h D f k i off →
      missing sb D h.buf i (refsIn off (fitting off (n - x))) ≤ (freeBlocks sb h.buf).card →
      (∀ h' D', Ready sb h' D' →
        Advanced sb f k i off (fitting off (n - x)) (fun y => src (x + y)) h h' D D' →
        Q (if off + (n - x) ≤ MAXFILE * BSIZE then n else -1) h') →
      hwp total (filewriteLoop f n src fuel x) Q h := by
  induction fuel with
  | zero =>
    intro x off h D hfuel hx hr o hfree hQ
    have hsize := (hr.mapped i o.used).size
    have hoff := o.le
    obtain rfl : x = n := by omega
    rw [Nat.sub_self] at hQ
    have h0 : fitting off 0 = 0 := if_pos (by omega)
    rw [h0, if_pos (by omega)] at hQ
    rw [filewriteLoop, if_pos rfl]
    exact hwp_pure (hQ h D hr (Advanced.zero o rfl (by rw [update_eq_self])))
  | succ fuel ih =>
    intro x off h D hfuel hx hr o hfree hQ
    have hsize := (hr.mapped i o.used).size
    have hoff := o.le
    rw [filewriteLoop]
    by_cases hlt : x < n
    · rw [if_pos hlt]
      have hle : min (n - x) writeMax ≤ writeMax := min_le_right _ _
      refine hwp_bind (hwp_filewriteChunk hone hr o hle (fun hfit => ?_) ?_ ?_)
      · -- the blocks that the chunk needs are among those needed
        refine le_trans (card_le_card (filter_subset_filter _ ?_)) hfree
        refine refsIn_mono (le_refl off) ?_
        rw [fitting_of_le hfit]
        omega
      · intro hbad h' hr' ha
        rw [if_pos (by decide), if_neg (by omega)]
        rw [fitting_of_lt hbad, if_neg (by omega)] at hQ
        exact hwp_pure (hQ h' D hr' ha)
      · intro hfit h' D' hr' ha
        rw [if_neg (by omega), if_neg (by simp)]
        have hrest : n - x - min (n - x) writeMax = n - (x + min (n - x) writeMax) := by omega
        have hfitting := fitting_of_le hfit
        rw [hrest] at hfitting
        refine ih _ (off + min (n - x) writeMax) h' D' (by have : 0 < writeMax := by decide
                                                           omega) (by omega) hr' (ha.opened o) ?_ ?_
        · -- what the chunk took it no longer needs
          have hroom := ha.room (refsIn off (fitting off (n - x))) (refsIn_mono (le_refl off) (by omega))
          have hsub : missing sb D' h'.buf i (refsIn (off + min (n - x) writeMax)
              (fitting (off + min (n - x) writeMax) (n - (x + min (n - x) writeMax))))
              ≤ missing sb D' h'.buf i (refsIn off (fitting off (n - x))) :=
            card_le_card (filter_subset_filter _ (refsIn_mono (by omega) (by omega)))
          omega
        · intro h'' D'' hr'' ha''
          have hb : Advanced sb f k i (off + min (n - x) writeMax)
              (fitting (off + min (n - x) writeMax) (n - (x + min (n - x) writeMax)))
              (fun y => (fun z => src (x + z)) (min (n - x) writeMax + y)) h' h'' D' D'' := by
            simpa only [Nat.add_assoc] using ha''
          have := hQ h'' D'' hr'' (hfitting ▸ ha.trans o.le hb)
          have hiff : off + min (n - x) writeMax + (n - (x + min (n - x) writeMax)) = off + (n - x) := by
            omega
          rw [hiff]
          exact this
    · obtain rfl : x = n := by omega
      rw [if_neg hlt, if_pos rfl]
      rw [Nat.sub_self] at hQ
      have h0 : fitting off 0 = 0 := if_pos (by omega)
      rw [h0, if_pos (by omega)] at hQ
      exact hwp_pure (hQ h D hr (Advanced.zero o rfl (by rw [update_eq_self])))

/-! ### The whole call -/

/-- All bytes in one `writei`. -/
def writeOnce (k : Nat) (src : Nat → UInt8) (off n : Nat) : K Int := do
  beginTrans
  ilock k
  writei k src off n

/-- Where the log has no bound, it writes all bytes if the file does not become too large. -/
theorem run_writeOnce (hv : View s h) (hr : Ready sb h D) (o : Opened sb h D f k i off)
    (hfit : off + n ≤ MAXFILE * BSIZE)
    (hfree : missing sb D h.buf i (refsIn off n) ≤ (freeBlocks sb h.buf).card)
    (src : Nat → UInt8) :
    ∃ s' h' D', run limits false (writeOnce k src off n) s = .ok (n : Int) s' ∧ View s' h' ∧
      FsInv sb h' D' noStale ∧ (D' i).size = max (D i).size (off + n) ∧
      ∀ x, fileByte sb D' h'.buf i x = overlaid (fileByte sb D h.buf i) off n src x := by
  have hsize := (hr.mapped i o.used).size
  have hmaxfile : MAXFILE * BSIZE = 71680 := rfl
  have hoff := o.le
  have hw : hwp total (writeOnce k src off n) (fun r h' => r = (n : Int) ∧ ∃ D', FsInv sb h' D' noStale ∧
      (D' i).size = max (D i).size (off + n) ∧
      ∀ x, fileByte sb D' h'.buf i x = overlaid (fileByte sb D h.buf i) off n src x) h := by
    refine hwp_bind (hwp_beginTrans (fun _ => hwp_bind (hwp_ilock_begun hr o fun h₁ hlk => ?_))
      fun hb => absurd (hb.symm.trans hr.idle.1) (by decide))
    refine hwp_writei hlk.inv hlk.cached o.dev (hwp_writeiFile hlk.inv hlk.cached hlk.unlocked ?_
      ⟨?_, trivial⟩ (fun _ _ _ _ => trivial) (by omega) (by omega) (fun _ => Or.inr ?_)
      (fun hbad => ?_) fun h' D' _ hf' w => ⟨rfl, D', hf', ?_, fun x => ?_⟩)
    · rw [hlk.buf]
      exact hr.mapped i o.used
    · rw [hlk.mem]
      rfl
    · rw [hlk.buf]
      exact hfree
    · exact absurd ((writeRefused_iff o.le hsize (by omega)).mp hbad) (Nat.not_lt.mpr hfit)
    · rw [w.core]
      dsimp only
      split
      · rfl
      · omega
    · rw [w.byte, hlk.buf]
  obtain ⟨r, s', h', hrun, hv', rfl, D', hf', hs', hb'⟩ := run_of_hwp hw hv
  exact ⟨s', h', D', hrun, hv', hf', hs', hb'⟩

/-- What a call with `n` bytes writes. -/
def accepted (off : Nat) (n : Int) : Nat := if n < 0 then 0 else fitting off n.toNat

/-- A fresh disk, with file 0 open for writing at the end of the root directory. -/
def openedRoot (sb : Superblock) : Compact Mem Event where
  disk := freshImage sb
  buf := freshImage sb
  busy := 0
  dirty := 0
  writes := []
  events := []
  passed := false
  mem := { bootMem with
    log := ⟨sb.logstart, sb.nlog, false, [], none⟩
    icache := fun k => if k = 0 then ⟨ROOTINO, 1, false, true, rootInode sb⟩ else bootMem.icache k
    ftable := fun _ => ⟨.FD_INODE, 1, true, true, 0, 0, 512⟩ }

/-- What `openedRoot` implements. -/
def openedRootHome (sb : Superblock) : Home := ⟨freshImage sb, ∅, (openedRoot sb).mem, false⟩

theorem openedRoot_ref {k : Nat} (hk : 0 < ((openedRoot sb).mem.icache k).ref) : k = 0 := by
  by_contra h0
  rw [show (openedRoot sb).mem.icache k = bootMem.icache k from if_neg h0] at hk
  exact absurd hk (lt_irrefl 0)

theorem openedRoot_sound (hg : FreshGeometry sb) (hlog : LOGSIZE ≤ sb.nlog) :
    Sound sb (openedRoot sb).machine (openedRootHome sb) (freshTable sb) :=
  fresh_sound hg rfl rfl rfl rfl rfl rfl hlog fun k hk => by
    obtain rfl := openedRoot_ref hk
    exact ⟨rfl, rfl, fun _ => rfl⟩

end Xv6
