import Xv6.Image
import Xv6.ReadWrite
import Xv6.Lib.Eval

/-!
# Inodes as byte strings

`writei` and `readi` on the kernel's machine, with the limits of the log and of the buffer
cache enforced. In a `Sound` state an inode that is not a device is a byte string of its
size: a write that is not refused overlays the bytes written, a read gives the bytes up
to the size, and no other inode changes. A write that is refused leaves the machine as it is.

A write needs room in the transaction it belongs to: a sector for each block of the bitmap,
one for the inode and one for each block reference it touches. The caller has to see to it
(`filewrite` writes in chunks).
-/

open Bytes Device

namespace Xv6

variable {sb : Superblock} {s : KState} {h : Home} {D : Nat → Dinode} {i k off n : Nat}
  {src : Nat → UInt8}

/-- A program that is correct whatever it meets returns, and within the limits if it leaves the
log with room to spare. -/
theorem run_of_total {α : Type} {p : K α} {Q : α → Home → Prop} (hp : hwp total p Q h)
    (hv : View s h)
    (hroom : ∀ a s' h', View s' h' → Q a h' → LOGSIZE ≤ h'.mem.log.size ∧ h'.passed = false ∧
      h'.mem.log.lh.length ≤ ROOM) :
    ∃ a s' h', run limits true p s = .ok a s' ∧ View s' h' ∧ Q a h' := by
  obtain ⟨a, s', h', hr, hv', hQ⟩ := run_of_hwp hp hv
  obtain ⟨h1, h2, h3⟩ := hroom a s' h' hv' hQ
  exact ⟨a, s', h', run_true_of_run_false limits hr (hv'.passed_eq_false h1 h2 h3), hv', hQ⟩

theorem canLog_total (hbusy : h.mem.log.busy = true) : CanLog total h.mem := ⟨hbusy, trivial⟩

theorem run_writei_refused (hs : Sound sb s h D) (hc : Cached sb h D k i)
    (hdev : (D i).type ≠ T_DEV) (hbad : writeRefused (D i).size off n) :
    run limits true (writei k src off n) s = .ok (-1) s := by
  have hdin : (s.mem.icache k).din = D i := by rw [hs.view.mem]; exact hs.inv.din_eq hc
  have hfile : run limits true (writeiFile k src off n) s = .ok (-1) s := by
    change run limits true (if (s.mem.icache k).din.size < off ∨ uadd off n < off then _
      else if MAXFILE * BSIZE < uadd off n then _ else _) s = _
    rw [hdin]
    by_cases h1 : (D i).size < off ∨ uadd off n < off
    · rw [if_pos h1]
      rfl
    · rw [if_neg h1, if_pos (by unfold writeRefused at hbad; tauto)]
      rfl
  change run limits true (if (s.mem.icache k).din.type = T_DEV then _
    else writeiFile k src off n) s = _
  rw [hdin, if_neg hdev]
  exact hfile

theorem run_writei_accepted (hs : Sound sb s h D) (hc : Cached sb h D k i)
    (hdev : (D i).type ≠ T_DEV) (hbusy : h.mem.log.busy = true) (hoff : off < 2 ^ 32)
    (hn : n < 2 ^ 32) (hok : ¬ writeRefused (D i).size off n)
    (hfree : missing sb D h.buf i (refsIn off n) ≤ (freeBlocks sb h.buf).card)
    (hroom : h.mem.log.lh.length + (sb.size / BPB + 1) + 1 + (refsIn off n).card ≤ ROOM)
    (src : Nat → UInt8) : ∃ s' h' D', run limits true (writei k src off n) s = .ok (n : Int) s' ∧ Sound sb s' h' D' ∧
      h'.mem.log.lh.length ≤ ROOM ∧ Wrote sb k i off n src h h' D D' := by
  have hbound : off ≤ (D i).size ∧ off + n ≤ MAXFILE * BSIZE := by
    unfold writeRefused uadd at hok
    unfold MAXFILE NDIRECT NINDIRECT BSIZE at hok ⊢
    omega
  have hw : hwp total (writei k src off n) (fun r h' => r = (n : Int) ∧ ∃ D', FsInv sb h' D' noStale ∧
      Wrote sb k i off n src h h' D D') h := by
    refine hwp_writei hs.inv hc hdev ?_
    exact hwp_writeiFile hs.inv hc hs.unlocked (hs.mapped i hc.used) (canLog_total hbusy)
      (fun _ _ _ _ => trivial) hoff hn (fun _ => Or.inr hfree) (fun hbad => absurd hbad hok)
      fun h' D' _ hf' w => ⟨rfl, D', hf', w⟩
  have hsize : ∀ h' D', Wrote sb k i off n src h h' D D' → LOGSIZE ≤ h'.mem.log.size ∧
      h'.passed = false := fun h' D' w => by
    rw [w.passed, w.mem]
    exact ⟨hs.nlog, hs.passed⟩
  obtain ⟨r, s', h', hr, hv', rfl, D', hf', w⟩ := run_of_total hw hs.view
    fun a s' h' hv' hQ => by
      obtain ⟨-, D', -, w⟩ := hQ
      obtain ⟨h1, h2⟩ := hsize h' D' w
      exact ⟨h1, h2, (w.length_le hv'.nodup).trans hroom⟩
  obtain ⟨h1, h2⟩ := hsize h' D' w
  refine ⟨s', h', D', hr, ⟨hv', hf', fun j hj => ?_, ?_, h1, h2⟩, ?_, w⟩
  · exact w.mapped_all hc hs.mapped hbound.1 hbound.2 hj
  · rw [w.locked, hs.unlocked]
  · exact (w.length_le hv'.nodup).trans hroom

theorem run_readi (hs : Sound sb s h D) (hc : Cached sb h D k i) (hdev : (D i).type ≠ T_DEV)
    (hoff : off < 2 ^ 32) (hn : n < 2 ^ 32) (hroom : h.mem.log.lh.length ≤ ROOM) :
    ∃ s', run limits true (readi k off n) s
      = .ok (readResult (D i).size (fileByte sb D h.buf i) off n) s' := by
  have hr : hwp total (readi k off n) (fun r h' =>
      r = readResult (D i).size (fileByte sb D h.buf i) off n ∧ h' = h) h :=
    hwp_readi hs.inv hc hdev
      (hwp_readiFile hs.inv hc hs.unlocked (hs.mapped i hc.used) hoff hn ⟨rfl, rfl⟩)
  obtain ⟨r, s', h', hrun, -, rfl, rfl⟩ := run_of_total hr hs.view
    fun a s' h' _ hQ => hQ.2 ▸ ⟨hs.nlog, hs.passed, hroom⟩
  exact ⟨s', hrun⟩

/-! ### A fresh disk with an open transaction -/

/-- The kernel on a fresh image, in a transaction, with the root directory locked. -/
def openRoot (sb : Superblock) : Compact Mem Event where
  disk := freshImage sb
  buf := freshImage sb
  busy := 0
  dirty := 0
  writes := []
  events := []
  passed := false
  mem := { bootMem with
    log := ⟨sb.logstart, sb.nlog, true, [], some 0⟩
    icache := fun k => if k = 0 then ⟨ROOTINO, 1, true, true, rootInode sb⟩ else bootMem.icache k }

/-- What `openRoot` implements. -/
def openRootHome (sb : Superblock) : Home := ⟨freshImage sb, ∅, (openRoot sb).mem, false⟩

theorem openRoot_ref {k : Nat} (hk : 0 < ((openRoot sb).mem.icache k).ref) : k = 0 := by
  by_contra hne
  have : (openRoot sb).mem.icache k = bootMem.icache k := if_neg hne
  rw [this] at hk
  exact absurd hk (lt_irrefl 0)

/-- A fresh disk is sound, whatever is in memory besides: nothing is logged, and no inode is cached
but the root directory. -/
theorem fresh_sound (hg : FreshGeometry sb) {c : Compact Mem Event} (hbuf : c.buf = freshImage sb)
    (hbusy : c.busy = 0) (hdirty : c.dirty = 0) (hpassed : c.passed = false)
    (hstart : c.mem.log.start = sb.logstart) (hlh : c.mem.log.lh = []) (hlog : LOGSIZE ≤ c.mem.log.size)
    (hroot : ∀ k, 0 < (c.mem.icache k).ref → k = 0 ∧ (c.mem.icache k).inum = ROOTINO ∧
      ((c.mem.icache k).valid = true → (c.mem.icache k).din = rootInode sb)) :
    Sound sb c.machine ⟨freshImage sb, ∅, c.mem, false⟩ (freshTable sb) where
  view :=
    { mem := rfl
      busy := (congrArg maskSet hbusy).trans maskSet_zero
      buf := fun x _ => congrFun hbuf x
      locked := fun _ hx => absurd hx (Finset.notMem_empty _)
      below := fun x hx => by
        rw [hlh] at hx
        cases hx
      nodup := by
        rw [hlh]
        exact List.nodup_nil
      slots := fun i hi => by
        rw [hlh] at hi
        cases hi
      dirty := by
        change maskSet c.dirty ⊆ _
        rw [hdirty, maskSet_zero]
        exact Finset.empty_subset _
      passed := fun _ hp => absurd (hpassed.symm.trans hp) Bool.false_ne_true }
  inv := hg.fsInv rfl hstart (fun k _ hk => (hroot k hk).2)
    fun k _ k' _ hk hk' => (hroot k hk).1.trans (hroot k' hk').1.symm
  mapped j hj := by
    obtain rfl := hg.freshTable_used.mp hj
    refine ⟨show BSIZE ≤ MAXFILE * BSIZE by decide, fun bn hbn => ?_⟩
    have h0 : bn = 0 := by
      have : bn * BSIZE < BSIZE := hbn
      unfold BSIZE at this
      omega
    subst h0
    rw [hg.fresh_own, if_pos (by rfl)]
    have := Geometry.datastart_pos sb
    omega
  unlocked := rfl
  nlog := hlog
  passed := rfl

theorem openRoot_sound (hg : FreshGeometry sb) (hlog : LOGSIZE ≤ sb.nlog) :
    Sound sb (openRoot sb).machine (openRootHome sb) (freshTable sb) :=
  fresh_sound hg rfl rfl rfl rfl rfl rfl hlog fun k hk => by
    obtain rfl := openRoot_ref hk
    exact ⟨rfl, rfl, fun _ => rfl⟩

theorem openRoot_cached (hg : FreshGeometry sb) :
    Cached sb (openRootHome sb) (freshTable sb) 0 ROOTINO :=
  ⟨by decide, Nat.one_pos, rfl, rfl, hg.freshTable_used.mpr rfl⟩

/-! ### Reads and writes -/

end Xv6
