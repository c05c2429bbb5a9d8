import Xv6.ByteString
import Xv6.Cache
import Xv6.Lib.SlotMap
import Xv6.Names

/-!
# Directories as finite maps

The entries of a directory are slots of its contents. If their names differ, `dirlookup`, `dirlink` and
the write with which `sys_unlink` clears an entry work on a finite map from names to inode numbers
(`directory_map`): a name is its first `DIRSIZ` bytes.
-/

open Bytes Device

namespace Xv6

variable {sb : Superblock} {s : KState} {h h' : Home} {D D' : Nat → Dinode} {st : Nat → Prop}
variable {src : Nat → UInt8} {t : Nat} {inum : Nat}
  {J : Policy Event} {dp i k : Nat} {name : List UInt8}

/-! ### The contents of a directory -/

/-- The slots of a directory: inode numbers under names. -/
def entries (sb : Superblock) (D : Nat → Dinode) (buf : Nat → Block) (i : Nat) :
    Nat → Option (Nat × List UInt8) := dirEntry (D i).size (fileByte sb D buf i)

/-- The inode number under a name, and its slot. -/
def lookup (sb : Superblock) (D : Nat → Dinode) (buf : Nat → Block) (i : Nat) (name : List UInt8) :
    Option (Nat × Nat) :=
  SlotMap.find (entries sb D buf i) ((D i).size / DESIZE) (nameOf (cname name))

/-- Slot `dp` of the cache holds the directory `i`. -/
structure LockedDir (sb : Superblock) (h : Home) (D : Nat → Dinode) (dp i : Nat) : Prop where
  cached : Cached sb h D dp i
  type : (D i).type = T_DIR
  whole : (D i).size % DESIZE = 0

/-- A directory whose entries have different names. -/
structure Directory (sb : Superblock) (h : Home) (D : Nat → Dinode) (dp i : Nat) : Prop
    extends LockedDir sb h D dp i where
  unique : SlotMap.Unique (entries sb D h.buf i)

theorem within_entries : SlotMap.Within (entries sb D h.buf i) ((D i).size / DESIZE) := by
  intro s hs
  obtain ⟨e, he⟩ := Option.ne_none_iff_exists'.mp hs
  exact lt_of_dirEntry he

theorem LockedDir.dev (hd : LockedDir sb h D dp i) : (D i).type ≠ T_DEV := by
  rw [hd.type]
  decide

theorem slot_le {size t : Nat} (ht : t < size / DESIZE) : DESIZE * t + DESIZE ≤ size := by
  unfold DESIZE at *
  omega

theorem slot_end {size t : Nat} (ht : t = size / DESIZE) (hw : size % DESIZE = 0) :
    DESIZE * t = size := by
  unfold DESIZE at *
  omega

/-! ### Looking up -/

theorem hwp_readi_slot (hf : FsInv sb h D st) (hd : LockedDir sb h D dp i) (hl : h.locked = ∅)
    (hm : Mapped sb D h.buf i) (ht : t < (D i).size / DESIZE)
    {Q : Option (Nat × (Nat → UInt8)) → Home → Prop}
    (hQ : ∀ data, slotEntry data = entries sb D h.buf i t → Q (some (DESIZE, data)) h) :
    hwp J (readi dp (DESIZE * t) DESIZE) Q h := by
  have hsize := hm.size
  have hmaxfile : MAXFILE * BSIZE = 71680 := rfl
  have hde : DESIZE = 16 := rfl
  have hle := slot_le ht
  have hadd : uadd (DESIZE * t) DESIZE = DESIZE * t + DESIZE := Nat.mod_eq_of_lt (by omega)
  refine hwp_readi hf hd.cached hd.dev (hwp_readiFile hf hd.cached hl hm (by omega) (by omega) ?_)
  have hres : readResult (D i).size (fileByte sb D h.buf i) (DESIZE * t) DESIZE
      = some (DESIZE, overlay zero 0 DESIZE fun x => fileByte sb D h.buf i (DESIZE * t + x)) := by
    rw [readResult, hadd, if_neg (by omega), if_neg (by omega)]
  rw [hres]
  refine hQ _ ?_
  rw [slotEntry_read, entries, dirEntry_of_lt ht]

theorem hwp_dirlookupLoop (hf : FsInv sb h D st) (hd : LockedDir sb h D dp i) (hl : h.locked = ∅)
    (hm : Mapped sb D h.buf i) {Q : Option (Nat × Nat) → Home → Prop} (n : Nat) :
    ∀ t, t + n = (D i).size / DESIZE →
      (SlotMap.findFrom (entries sb D h.buf i) (nameOf (cname name)) n t = none → Q none h) →
      (∀ inum t', SlotMap.findFrom (entries sb D h.buf i) (nameOf (cname name)) n t
        = some (inum, t') → hwp J (iget inum) (fun k h' => Q (some (k, DESIZE * t')) h') h) →
      hwp J (dirlookupLoop dp name (n + 1) (DESIZE * t)) Q h := by
  have hde : DESIZE = 16 := rfl
  induction n with
  | zero =>
    intro t ht hnone _
    have hend := slot_end (show t = (D i).size / DESIZE from ht) hd.whole
    refine hwp_bind (hwp_get ?_)
    rw [hf.din_eq hd.cached, if_neg (by omega)]
    exact hwp_pure (hnone rfl)
  | succ n ih =>
    intro t ht hnone hsome
    have hle := slot_le (show t < (D i).size / DESIZE by omega)
    refine hwp_bind (hwp_get ?_)
    rw [hf.din_eq hd.cached, if_pos (by omega)]
    refine hwp_bind (hwp_readi_slot hf hd hl hm (by omega) fun data hdata => ?_)
    change hwp J (if DESIZE ≠ DESIZE then _ else _) Q h
    rw [if_neg (not_not.mpr rfl)]
    dsimp only
    -- an empty slot and one with another name are passed over
    by_cases h0 : (getDirent data).inum = 0
    · rw [if_pos h0]
      have hslot : entries sb D h.buf i t = none := hdata ▸ slotEntry_eq_none_iff.mpr h0
      have hne : ∀ v, entries sb D h.buf i t ≠ some (v, nameOf (cname name)) := by
        rw [hslot]
        exact fun v => (Option.some_ne_none _).symm
      have hstep := SlotMap.findFrom_of_ne (n := n) hne
      exact ih (t + 1) (by omega) (hstep ▸ hnone) (hstep ▸ hsome)
    · rw [if_neg h0]
      have hslot : entries sb D h.buf i t
          = some ((getDirent data).inum, nameOf (getDirent data).name) :=
        hdata ▸ slotEntry_eq_some_iff.mpr ⟨h0, rfl, rfl⟩
      by_cases hcmp : namecmp (cname name) (getDirent data).name = 0
      · rw [if_pos hcmp]
        have hname := namecmp_eq_zero_iff.mp hcmp
        rw [← hname] at hslot
        refine hwp_bind (hwp_mono (hsome _ t (SlotMap.findFrom_of_some hslot)) fun k h' hk => ?_)
        exact hwp_pure hk
      · rw [if_neg hcmp]
        have hne : ∀ v, entries sb D h.buf i t ≠ some (v, nameOf (cname name)) := by
          intro v hv
          rw [hslot] at hv
          exact hcmp (namecmp_eq_zero_iff.mpr (Prod.mk.inj (Option.some.inj hv)).2.symm)
        have hstep := SlotMap.findFrom_of_ne (n := n) hne
        exact ih (t + 1) (by omega) (hstep ▸ hnone) (hstep ▸ hsome)

/-- **`dirlookup`** takes a reference to the inode under the name. -/
theorem hwp_dirlookup (hf : FsInv sb h D st) (hd : LockedDir sb h D dp i) (hl : h.locked = ∅)
    (hm : Mapped sb D h.buf i) {Q : Option (Nat × Nat) → Home → Prop}
    (hnone : lookup sb D h.buf i name = none → Q none h)
    (hsome : ∀ inum t, lookup sb D h.buf i name = some (inum, t) →
      hwp J (iget inum) (fun k h' => Q (some (k, DESIZE * t)) h') h) :
    hwp J (dirlookup dp name) Q h := by
  refine hwp_bind (hwp_get ?_)
  rw [hf.din_eq hd.cached]
  dsimp only
  rw [if_neg (not_not.mpr hd.type)]
  exact hwp_dirlookupLoop hf hd hl hm _ 0 (Nat.zero_add _) hnone hsome

/-! ### References that are given back -/

/-- The slot that `iget` takes. -/
def igetSlot (ic : Nat → Inode) (inum : Nat) : Option Nat :=
  (cachedSlot ic inum).or (emptySlot ic)

theorem igetMem_log (v : Nat) (m : Mem) : (igetMem v m).log = m.log := by
  unfold igetMem
  split
  · rfl
  · split <;> rfl

/-- `iget` counts up a slot that holds the inode, or takes a free one if there is none. -/
theorem igetMem_cases {m : Mem} (hs : igetSlot m.icache inum = some k) :
    k < NINODE ∧ ((0 < (m.icache k).ref ∧ (m.icache k).inum = inum ∧
        igetMem inum m = setInode k (fun ip => { ip with ref := ip.ref + 1 }) m) ∨
      ((m.icache k).ref = 0 ∧ (∀ k' < NINODE, 0 < (m.icache k').ref → (m.icache k').inum ≠ inum) ∧
        igetMem inum m = setInode k (freshSlot inum) m)) := by
  unfold igetSlot at hs
  unfold igetMem
  cases hc : cachedSlot m.icache inum with
  | some k' =>
    rw [hc] at hs
    cases hs
    obtain ⟨hlt, hr, hi⟩ := cachedSlot_eq_some hc
    exact ⟨hlt, Or.inl ⟨hr, hi, rfl⟩⟩
  | none =>
    rw [hc, Option.none_or] at hs
    rw [hs]
    obtain ⟨hlt, h0⟩ := emptySlot_eq_some hs
    exact ⟨hlt, Or.inr ⟨h0, fun k' => cachedSlot_eq_none hc, rfl⟩⟩

theorem hwp_iget_mem {inum : Nat} (hs : igetSlot h.mem.icache inum = some k)
    {Q : Nat → Home → Prop} (hQ : Q k { h with mem := igetMem inum h.mem }) :
    hwp J (iget inum) Q h := by
  refine hwp_bind (hwp_yield (hwp_bind (hwp_getModify (igetMem_log inum h.mem) ?_)))
  unfold igetSlot at hs
  cases hc : cachedSlot h.mem.icache inum with
  | some k' =>
    rw [hc] at hs
    cases hs
    exact hwp_pure hQ
  | none =>
    rw [hc, Option.none_or] at hs
    rw [hs]
    exact hwp_pure hQ

/-- Memory is the same, but for slots of the inode cache that are not in use. -/
structure Unchanged (h h' : Home) : Prop where
  eq : h' = { h with mem := { h.mem with icache := h'.mem.icache } }
  slot : ∀ k, h'.mem.icache k = h.mem.icache k ∨
    (h.mem.icache k).ref = 0 ∧ (h'.mem.icache k).ref = 0

namespace Unchanged

theorem refl (h : Home) : Unchanged h h := ⟨rfl, fun _ => .inl rfl⟩

theorem inUse (u : Unchanged h h') (hk : 0 < (h'.mem.icache k).ref) :
    h'.mem.icache k = h.mem.icache k :=
  (u.slot k).resolve_right fun hz => absurd hz.2 (by omega)

theorem fsInv (u : Unchanged h h') (hf : FsInv sb h D st) : FsInv sb h' D st := by
  have hbuf : h'.buf = h.buf := by rw [u.eq]
  have hstart : h'.mem.log.start = h.mem.log.start := by rw [u.eq]
  refine ⟨⟨hf.based.geo, hstart.trans hf.based.start, hbuf ▸ hf.based.super⟩, hbuf ▸ hf.ledger,
    hbuf ▸ hf.low, hf.rep.ok, hbuf ▸ hf.rep.disk, ?_, ?_, ?_⟩
  · intro k hk hr hv
    have he := u.inUse hr
    rw [he] at hr hv ⊢
    exact hf.rep.cache k hk hr hv
  · intro k₁ h₁ k₂ h₂ r₁ r₂ he
    have e₁ := u.inUse r₁
    have e₂ := u.inUse r₂
    rw [e₁] at r₁ he
    rw [e₂] at r₂ he
    exact hf.rep.uniq k₁ h₁ k₂ h₂ r₁ r₂ he
  · intro k hk hr
    have he := u.inUse hr
    rw [he] at hr ⊢
    exact hf.rep.inum k hk hr

theorem sound (u : Unchanged h h') (hs : Sound sb s h D) {s' : KState} (hv : View s' h') :
    Sound sb s' h' D := by
  have hbuf : h'.buf = h.buf := by rw [u.eq]
  have hlog : h'.mem.log = h.mem.log := by rw [u.eq]
  have hl : h'.locked = h.locked := by rw [u.eq]
  have hp : h'.passed = h.passed := by rw [u.eq]
  exact ⟨hv, u.fsInv hs.inv, hbuf ▸ hs.mapped, hl.trans hs.unlocked, hlog ▸ hs.nlog, hp.trans hs.passed⟩

end Unchanged

/-- `iput` of what `iget` has just returned: the inode is not freed. -/
theorem hwp_iput_iget {inum : Nat} (hs : igetSlot h.mem.icache inum = some k)
    {Q : Unit → Home → Prop} (hQ : ∀ h', Unchanged h h' → Q () h') :
    hwp J (iput k) Q { h with mem := igetMem inum h.mem } := by
  -- a slot that was in use has another reference, and a new one is not yet read
  have hslot : ∃ ip, (igetMem inum h.mem) = setInode k (fun _ => ip) h.mem ∧ ip.dead = false ∧
      ({ ip with ref := ip.ref - 1 } = h.mem.icache k ∨ (h.mem.icache k).ref = 0 ∧ ip.ref = 1) := by
    obtain ⟨-, ⟨hr, -, hm⟩ | ⟨h0, -, hm⟩⟩ := igetMem_cases hs
    · refine ⟨{ h.mem.icache k with ref := (h.mem.icache k).ref + 1 }, hm, ?_, .inl rfl⟩
      unfold Inode.dead
      rw [decide_eq_false (show ¬ (h.mem.icache k).ref + 1 = 1 by omega)]
      rfl
    · exact ⟨freshSlot inum (h.mem.icache k), hm, rfl, .inr ⟨h0, rfl⟩⟩
  obtain ⟨ip, hmem, hdead, hip⟩ := hslot
  refine hwp_bind (hwp_yield (hwp_bind (hwp_get ?_)))
  have hself : (igetMem inum h.mem).icache k = ip := by rw [hmem, setInode_self]
  dsimp only
  rw [hself, hdead]
  refine hwp_modify rfl (hQ _ ⟨?_, fun k' => ?_⟩)
  · change { h with mem := setInode k _ (igetMem inum h.mem) } = _
    rw [hmem]
    rfl
  · dsimp only
    by_cases hk : k' = k
    · subst hk
      rw [setInode_self, hself]
      rcases hip with he | ⟨h0, h1⟩
      · exact .inl he
      · exact .inr ⟨h0, by rw [h1]⟩
    · rw [setInode_of_ne _ _ hk, hmem, setInode_of_ne _ _ hk]
      exact .inl rfl

/-! ### Adding an entry -/

theorem hwp_dirlinkLoop (hf : FsInv sb h D st) (hd : LockedDir sb h D dp i) (hl : h.locked = ∅)
    (hm : Mapped sb D h.buf i) {Q : Nat → Home → Prop} (n : Nat) :
    ∀ t, t + n = (D i).size / DESIZE → (∀ t' < t, entries sb D h.buf i t' ≠ none) →
      (∀ t', t' ≤ (D i).size / DESIZE → entries sb D h.buf i t' = none →
        (∀ u < t', entries sb D h.buf i u ≠ none) → Q (DESIZE * t') h) →
      hwp J (dirlinkLoop dp (n + 1) (DESIZE * t)) Q h := by
  have hde : DESIZE = 16 := rfl
  induction n with
  | zero =>
    intro t ht hbefore hQ
    have ht : t = (D i).size / DESIZE := ht
    have hend := slot_end ht hd.whole
    refine hwp_bind (hwp_get ?_)
    rw [hf.din_eq hd.cached, if_neg (by omega)]
    exact hwp_pure (hQ t ht.le (if_neg (by omega)) hbefore)
  | succ n ih =>
    intro t ht hbefore hQ
    have hle := slot_le (show t < (D i).size / DESIZE by omega)
    refine hwp_bind (hwp_get ?_)
    rw [hf.din_eq hd.cached, if_pos (by omega)]
    refine hwp_bind (hwp_readi_slot hf hd hl hm (by omega) fun data hdata => ?_)
    change hwp J (if DESIZE ≠ DESIZE then _ else _) Q h
    rw [if_neg (not_not.mpr rfl)]
    by_cases h0 : (getDirent data).inum = 0
    · rw [if_pos h0]
      exact hwp_pure (hQ t (by omega) (hdata ▸ slotEntry_eq_none_iff.mpr h0) hbefore)
    · rw [if_neg h0]
      refine ih (t + 1) (by omega) (fun t' ht' => ?_) hQ
      rcases Nat.lt_succ_iff_lt_or_eq.mp ht' with hlt | rfl
      · exact hbefore t' hlt
      · rw [← hdata]
        exact fun hnone => h0 (slotEntry_eq_none_iff.mp hnone)

theorem Wrote.slot_size {t : Nat}
    (w : Wrote sb dp i (DESIZE * t) DESIZE src h h' D D') :
    (D' i).size = max (D i).size (DESIZE * t + DESIZE) := by
  have hcore := congrArg Dinode.size w.core
  rwa [if_pos (show 0 < DESIZE by decide)] at hcore

theorem Wrote.entries_eq {t : Nat} (hd : LockedDir sb h D dp i)
    (ht : t ≤ (D i).size / DESIZE) (w : Wrote sb dp i (DESIZE * t) DESIZE src h h' D D') (t' : Nat) :
    entries sb D' h'.buf i t' = if t' = t then slotEntry src else entries sb D h.buf i t' := by
  rw [entries, w.slot_size, funext w.byte]
  exact dirEntry_overlaid ht hd.whole t'

/-- It is still a directory, if the name is not there twice. -/
theorem Directory.write {t : Nat} (hd : Directory sb h D dp i)
    (ht : t ≤ (D i).size / DESIZE) (w : Wrote sb dp i (DESIZE * t) DESIZE src h h' D D')
    (hnew : ∀ inum nm, slotEntry src = some (inum, nm) →
      ∀ t' v, entries sb D h.buf i t' ≠ some (v, nm)) : Directory sb h' D' dp i := by
  have htype : (D' i).type = (D i).type := by rw [w.core]
  refine ⟨⟨w.cached hd.cached, htype.trans hd.type, ?_⟩, ?_⟩
  · have hw := hd.whole
    rw [w.slot_size]
    unfold DESIZE at *
    omega
  · exact hd.unique.update (w.entries_eq hd.toLockedDir ht) hnew

/-- A slot lies in one block, so with the indirect block its write touches two. -/
theorem card_refsIn_slot (t : Nat) : (refsIn (DESIZE * t) DESIZE).card ≤ 2 := by
  have hsub : refsIn (DESIZE * t) DESIZE ⊆ refsOf (DESIZE * t / BSIZE) := by
    intro idx hidx
    obtain ⟨bn, hbn, hidx⟩ := Finset.mem_biUnion.mp hidx
    obtain ⟨-, -, h1, h2⟩ := Finset.mem_filter.mp hbn
    have hbn : bn = DESIZE * t / BSIZE := by
      unfold BSIZE DESIZE at *
      omega
    exact hbn ▸ hidx
  refine (Finset.card_le_card hsub).trans ?_
  unfold refsOf
  split
  · exact Nat.le_succ 1
  · exact Finset.card_le_two

theorem missing_slot (hm : Mapped sb D h.buf i) (ht : t < (D i).size / DESIZE) :
    missing sb D h.buf i (refsIn (DESIZE * t) DESIZE) = 0 := by
  have hle := slot_le ht
  refine Finset.card_eq_zero.mpr (Finset.filter_eq_empty_iff.mpr fun idx hidx => ?_)
  exact refsIn_own (fun _ bn _ h2 => hm.block bn (by omega)) hidx

/-- The slot that `dirlink` takes for a new name. -/
structure FirstEmpty (sb : Superblock) (D : Nat → Dinode) (buf : Nat → Block) (i t : Nat) : Prop where
  le : t ≤ (D i).size / DESIZE
  empty : entries sb D buf i t = none
  first : ∀ u < t, entries sb D buf i u ≠ none

/-- An entry can be written in slot `t`: it is below the largest size, and there are blocks for it. -/
def SlotRoom (sb : Superblock) (D : Nat → Dinode) (buf : Nat → Block) (i t : Nat) : Prop :=
  DESIZE * t + DESIZE ≤ MAXFILE * BSIZE ∧
    missing sb D buf i (refsIn (DESIZE * t) DESIZE) ≤ (freeBlocks sb buf).card

theorem hwp_writei_slot (hf : FsInv sb h D noStale) (hd : LockedDir sb h D dp i) (hl : h.locked = ∅)
    (hm : Mapped sb D h.buf i) (hbusy : h.mem.log.busy = true)
    (ht : t ≤ (D i).size / DESIZE) (hroom : SlotRoom sb D h.buf i t)
    {Q : Int → Home → Prop}
    (hQ : ∀ h' D', FsInv sb h' D' noStale → Wrote sb dp i (DESIZE * t) DESIZE src h h' D D' →
      Q DESIZE h') :
    hwp total (writei dp src (DESIZE * t) DESIZE) Q h := by
  have hde : DESIZE = 16 := rfl
  have hmaxfile : MAXFILE * BSIZE = 71680 := rfl
  have hoff : DESIZE * t ≤ (D i).size := by
    unfold DESIZE at *
    omega
  obtain ⟨hfit, hfree⟩ := hroom
  have hok : ¬ writeRefused (D i).size (DESIZE * t) DESIZE := by
    have hadd : uadd (DESIZE * t) DESIZE = DESIZE * t + DESIZE := Nat.mod_eq_of_lt (by omega)
    rw [writeRefused, hadd]
    omega
  refine hwp_writei hf hd.cached hd.dev ?_
  exact hwp_writeiFile hf hd.cached hl hm (canLog_total hbusy) (fun _ _ _ _ => trivial) (by omega)
    (by omega) (fun _ => Or.inr hfree) (fun hbad => absurd hbad hok) fun h' D' _ hf' w => hQ h' D' hf' w

/-- `dirlink` adds an entry in the first empty slot, unless the name is there. -/
theorem hwp_dirlink (hf : FsInv sb h D noStale) (hd : LockedDir sb h D dp i) (hl : h.locked = ∅)
    (hm : Mapped sb D h.buf i) (hbusy : h.mem.log.busy = true)
    (hget : ∀ v t, lookup sb D h.buf i name = some (v, t) → ∃ k, igetSlot h.mem.icache v = some k)
    (hroom : lookup sb D h.buf i name = none → ∀ t, FirstEmpty sb D h.buf i t →
      SlotRoom sb D h.buf i t) {Q : Int → Home → Prop}
    (hthere : ∀ h', lookup sb D h.buf i name ≠ none → Unchanged h h' → Q (-1) h')
    (hnew : ∀ t h' D', lookup sb D h.buf i name = none → FirstEmpty sb D h.buf i t →
      FsInv sb h' D' noStale →
      Wrote sb dp i (DESIZE * t) DESIZE (direntBytes ⟨inum, strncpy (cname name) DIRSIZ⟩) h h' D D' →
      Q 0 h') :
    hwp total (dirlink dp name inum) Q h := by
  refine hwp_bind (hwp_dirlookup hf hd hl hm (fun hnone => ?_) fun v t hsome => ?_)
  · refine hwp_bind (hwp_get (hwp_bind ?_))
    rw [hf.din_eq hd.cached]
    refine hwp_dirlinkLoop hf hd hl hm _ 0 (Nat.zero_add _) (fun _ h0 => absurd h0 (by omega))
      fun t hle hempty hfirst => ?_
    have he : FirstEmpty sb D h.buf i t := ⟨hle, hempty, hfirst⟩
    have hr := hroom hnone t he
    have hlt : ¬ MAXFILE * BSIZE ≤ DESIZE * t := by
      have := hr.1
      unfold DESIZE at *
      omega
    dsimp only
    rw [if_neg hlt]
    refine hwp_bind (hwp_writei_slot hf hd hl hm hbusy hle hr fun h' D' hf' w => ?_)
    rw [if_neg (not_not.mpr rfl)]
    exact hwp_pure (hnew t h' D' hnone he hf' w)
  · obtain ⟨k, hk⟩ := hget v t hsome
    refine hwp_iget_mem hk (hwp_bind (hwp_iput_iget hk fun h' hu => hwp_pure (hthere h' ?_ hu)))
    rw [hsome]
    exact Option.some_ne_none _

/-! ### The finite map -/

/-- A name and its first `DIRSIZ` bytes are the same name. -/
theorem nameOf_take (name : List UInt8) :
    nameOf (cname (name.take DIRSIZ)) = nameOf (cname name) := by
  refine nameFrom_congr fun k _ hk => ?_
  change (name.take DIRSIZ).getD k 0 = name.getD k 0
  rw [List.getD_eq_getElem?_getD, List.getD_eq_getElem?_getD, List.getElem?_take, if_pos (by omega)]

theorem skipelem_element (hne : name ≠ []) (hslash : slash ∉ name) :
    skipelem name = some ([], name.take DIRSIZ) := by
  have hall : ∀ c ∈ name, (c != slash) = true := fun c hc =>
    bne_iff_ne.mpr fun he => hslash (he ▸ hc)
  have hdrop : name.dropWhile (· == slash) = name := by
    cases name with
    | nil => rfl
    | cons c l =>
      rw [List.dropWhile_cons_of_neg]
      exact fun he => hslash (List.mem_cons.mpr (Or.inl (eq_of_beq he).symm))
  have htake : name.takeWhile (· != slash) = name := List.takeWhile_eq_self_iff.mpr hall
  have hend : name.dropWhile (· != slash) = [] := List.dropWhile_eq_nil_iff.mpr hall
  unfold skipelem
  rw [hdrop]
  cases name with
  | nil => exact absurd rfl hne
  | cons c l =>
    dsimp only
    rw [hend, htake]
    rfl

theorem Wrote.sound (hs : Sound sb s h D) (hc : Cached sb h D k i) {off n : Nat}
    (hoff : off ≤ (D i).size) (hmax : off + n ≤ MAXFILE * BSIZE) {s' : KState} (hv : View s' h')
    (hf : FsInv sb h' D' noStale) (w : Wrote sb k i off n src h h' D D') : Sound sb s' h' D' := by
  refine ⟨hv, hf, fun j hj => w.mapped_all hc hs.mapped hoff hmax hj, w.locked.trans hs.unlocked, ?_,
    w.passed.trans hs.passed⟩
  rw [w.mem]
  exact hs.nlog

/-- The run of `dirlookup`: it finds what the map says, and `iget` takes a slot for it. -/
def Looks (sb : Superblock) (s : KState) (h : Home) (D : Nat → Dinode) (dp i : Nat) : Prop :=
  ∀ name, (lookup sb D h.buf i name = none →
      ∃ s', run limits true (dirlookup dp name) s = .ok none s' ∧ s'.mem = s.mem) ∧
    ∀ v t k, lookup sb D h.buf i name = some (v, t) → igetSlot s.mem.icache v = some k →
      ∃ s', run limits true (dirlookup dp name) s = .ok (some (k, DESIZE * t)) s' ∧
        s'.mem = igetMem v s.mem ∧ (s'.mem.icache k).inum = v

theorem igetMem_inum {m : Mem} {v : Nat} (hk : igetSlot m.icache v = some k) :
    ((igetMem v m).icache k).inum = v := by
  obtain ⟨-, ⟨-, hi, hm⟩ | ⟨-, -, hm⟩⟩ := igetMem_cases hk
  · rw [hm, setInode_self]
    exact hi
  · rw [hm, setInode_self]
    rfl

theorem Sound.looks (hs : Sound sb s h D) (hd : Directory sb h D dp i)
    (hroom : h.mem.log.lh.length ≤ ROOM) : Looks sb s h D dp i := by
  intro name
  have hm := hs.mapped i hd.cached.used
  refine ⟨fun hnone => ?_, fun v t k hsome hk => ?_⟩
  · have hw : hwp total (dirlookup dp name) (fun r h' => r = none ∧ h' = h) h :=
      hwp_dirlookup hs.inv hd.toLockedDir hs.unlocked hm (fun _ => ⟨rfl, rfl⟩) fun v t hsome => by
        rw [hnone] at hsome
        cases hsome
    obtain ⟨r, s', h', hrun, hv, rfl, rfl⟩ := run_of_total hw hs.view
      fun a s' h' _ hQ => hQ.2 ▸ ⟨hs.nlog, hs.passed, hroom⟩
    exact ⟨s', hrun, hv.mem.trans hs.view.mem.symm⟩
  · rw [hs.view.mem] at hk ⊢
    have hw : hwp total (dirlookup dp name) (fun r h' => r = some (k, DESIZE * t) ∧
        h' = { h with mem := igetMem v h.mem }) h :=
      hwp_dirlookup hs.inv hd.toLockedDir hs.unlocked hm
        (fun hnone => by
          rw [hnone] at hsome
          cases hsome)
        fun v' t' hsome' => by
          rw [hsome] at hsome'
          cases hsome'
          exact hwp_iget_mem hk ⟨rfl, rfl⟩
    obtain ⟨r, s', h', hrun, hv, rfl, rfl⟩ := run_of_total hw hs.view fun a s' h' _ hQ => by
      rw [hQ.2]
      dsimp only
      rw [igetMem_log]
      exact ⟨hs.nlog, hs.passed, hroom⟩
    have hmem : s'.mem = igetMem v h.mem := hv.mem
    exact ⟨s', hrun, hmem, by rw [hmem, igetMem_inum hk]⟩

/-- What holds after the write of an entry of the directory `i`: it is still a directory, and no other
inode has changed. -/
structure Stored (sb : Superblock) (s' : KState) (h h' : Home) (D D' : Nat → Dinode) (dp i : Nat) :
    Prop where
  sound : Sound sb s' h' D'
  directory : Directory sb h' D' dp i
  looks : Looks sb s' h' D' dp i
  other : ∀ j, j ≠ i → D' j = D j
  rest : ∀ j, j ≠ i → ∀ o, fileByte sb D' h'.buf j o = fileByte sb D h.buf j o

theorem Wrote.stored (hs : Sound sb s h D) (hd : Directory sb h D dp i)
    (ht : t ≤ (D i).size / DESIZE) (hroom : SlotRoom sb D h.buf i t)
    (hlog : h.mem.log.lh.length + (sb.size / BPB + 1) + 3 ≤ ROOM)
    {s' : KState} (hv : View s' h') (hf : FsInv sb h' D' noStale)
    (w : Wrote sb dp i (DESIZE * t) DESIZE src h h' D D')
    (hnew : ∀ inum nm, slotEntry src = some (inum, nm) →
      ∀ t' v, entries sb D h.buf i t' ≠ some (v, nm)) :
    Stored sb s' h h' D D' dp i := by
  have hoff : DESIZE * t ≤ (D i).size := by
    unfold DESIZE at *
    omega
  have hsound := w.sound hs hd.cached hoff hroom.1 hv hf
  have hdir := hd.write ht w hnew
  refine ⟨hsound, hdir, hsound.looks hdir ?_, w.other, fun j hj o => ?_⟩
  · have h1 := w.length_le hv.nodup
    have h2 := card_refsIn_slot t
    omega
  · unfold fileByte
    rw [w.rest j hj]

theorem Wrote.limits (hs : Sound sb s h D)
    (hlog : h.mem.log.lh.length + (sb.size / BPB + 1) + 3 ≤ ROOM)
    (w : Wrote sb dp i (DESIZE * t) DESIZE src h h' D D') (hnd : h'.mem.log.lh.Nodup) :
    LOGSIZE ≤ h'.mem.log.size ∧ h'.passed = false ∧ h'.mem.log.lh.length ≤ ROOM := by
  have h1 := w.length_le hnd
  have h2 := card_refsIn_slot t
  refine ⟨?_, w.passed.trans hs.passed, by omega⟩
  rw [w.mem]
  exact hs.nlog

theorem Sound.dirlink_there (hs : Sound sb s h D) (hd : Directory sb h D dp i)
    (hbusy : h.mem.log.busy = true) (hroom : h.mem.log.lh.length ≤ ROOM) {inum v t : Nat}
    (hsome : lookup sb D h.buf i name = some (v, t)) (hk : igetSlot h.mem.icache v = some k) :
    ∃ s' h', run limits true (dirlink dp name inum) s = .ok (-1) s' ∧ Sound sb s' h' D ∧
      Unchanged h h' := by
  have hne : lookup sb D h.buf i name ≠ none := by
    rw [hsome]
    exact Option.some_ne_none _
  have hget : ∀ v' t', lookup sb D h.buf i name = some (v', t') →
      ∃ k, igetSlot h.mem.icache v' = some k := by
    intro v' t' hsome'
    rw [hsome] at hsome'
    cases hsome'
    exact ⟨k, hk⟩
  have hw : hwp total (dirlink dp name inum) (fun r h' => r = -1 ∧ Unchanged h h') h :=
    hwp_dirlink hs.inv hd.toLockedDir hs.unlocked (hs.mapped i hd.cached.used) hbusy hget
      (fun hnone => absurd hnone hne) (fun h' _ hu => ⟨rfl, hu⟩) fun t h' D' hnone => absurd hnone hne
  obtain ⟨r, s', h', hrun, hv, rfl, hu⟩ := run_of_total hw hs.view fun a s' h' _ hQ => by
    rw [hQ.2.eq]
    exact ⟨hs.nlog, hs.passed, hroom⟩
  exact ⟨s', h', hrun, hu.sound hs hv, hu⟩

theorem Sound.dirlink_new (hs : Sound sb s h D) (hd : Directory sb h D dp i)
    (hbusy : h.mem.log.busy = true) (hlog : h.mem.log.lh.length + (sb.size / BPB + 1) + 3 ≤ ROOM)
    (h0 : inum ≠ 0) (h1 : inum < 2 ^ 16) (hnone : lookup sb D h.buf i name = none)
    (hr : ∀ t, FirstEmpty sb D h.buf i t → SlotRoom sb D h.buf i t) :
    ∃ s' h' D' t, run limits true (dirlink dp name inum) s = .ok 0 s' ∧
      Stored sb s' h h' D D' dp i ∧
      ∀ nm, lookup sb D' h'.buf i nm = if namecmp (cname nm) (cname name) = 0 then
        some (inum, t) else lookup sb D h.buf i nm := by
  have hget : ∀ v t, lookup sb D h.buf i name = some (v, t) →
      ∃ k, igetSlot h.mem.icache v = some k := by
    intro v t hsome
    rw [hnone] at hsome
    cases hsome
  have hw : hwp total (dirlink dp name inum) (fun r h' => r = 0 ∧ ∃ t D',
      FirstEmpty sb D h.buf i t ∧ FsInv sb h' D' noStale ∧
      Wrote sb dp i (DESIZE * t) DESIZE (direntBytes ⟨inum, strncpy (cname name) DIRSIZ⟩) h h' D D')
      h :=
    hwp_dirlink hs.inv hd.toLockedDir hs.unlocked (hs.mapped i hd.cached.used) hbusy hget (fun _ => hr)
      (fun h' hne => absurd hnone hne) fun t h' D' _ he hf' w => ⟨rfl, t, D', he, hf', w⟩
  obtain ⟨r, s', h', hrun, hv, rfl, t, D', he, hf', w⟩ := run_of_total hw hs.view
    fun a s' h' hv hQ => by
      obtain ⟨-, t, D', -, -, w⟩ := hQ
      exact w.limits hs hlog hv.nodup
  have hslot := slotEntry_direntBytes h0 h1 name
  have hst := w.stored hs hd he.le (hr t he) hlog hv hf' fun v nm hsrc => by
    rw [hslot] at hsrc
    cases hsrc
    exact (SlotMap.find_eq_none_iff within_entries).mp hnone
  refine ⟨s', h', D', t, hrun, hst, fun nm => ?_⟩
  have hent : ∀ t', entries sb D' h'.buf i t'
      = if t' = t then some (inum, nameOf (cname name)) else entries sb D h.buf i t' := by
    intro t'
    rw [w.entries_eq hd.toLockedDir he.le, hslot]
  simp only [namecmp_eq_zero_iff]
  exact SlotMap.find_fill hd.unique within_entries within_entries hent he.empty hnone

theorem Sound.clear (hs : Sound sb s h D) (hd : Directory sb h D dp i)
    (hbusy : h.mem.log.busy = true) (hlog : h.mem.log.lh.length + (sb.size / BPB + 1) + 3 ≤ ROOM)
    {v t : Nat} (hsome : lookup sb D h.buf i name = some (v, t)) :
    ∃ s' h' D', run limits true (writei dp zero (DESIZE * t) DESIZE) s = .ok DESIZE s' ∧
      Stored sb s' h h' D D' dp i ∧
      ∀ nm, lookup sb D' h'.buf i nm = if namecmp (cname nm) (cname name) = 0 then none
        else lookup sb D h.buf i nm := by
  have hm := hs.mapped i hd.cached.used
  have hslot : entries sb D h.buf i t = some (v, nameOf (cname name)) :=
    (SlotMap.find_eq_some_iff hd.unique within_entries).mp hsome
  have hlt : t < (D i).size / DESIZE := lt_of_dirEntry hslot
  -- the slot is below the size, so there is a block for it
  have hsr : SlotRoom sb D h.buf i t :=
    ⟨(slot_le hlt).trans hm.size, by rw [missing_slot hm hlt]; exact Nat.zero_le _⟩
  have hw : hwp total (writei dp zero (DESIZE * t) DESIZE) (fun r h' => r = DESIZE ∧
      ∃ D', FsInv sb h' D' noStale ∧ Wrote sb dp i (DESIZE * t) DESIZE zero h h' D D') h :=
    hwp_writei_slot hs.inv hd.toLockedDir hs.unlocked hm hbusy hlt.le hsr fun h' D' hf' w => ⟨rfl, D', hf', w⟩
  obtain ⟨r, s', h', hrun, hv, rfl, D', hf', w⟩ := run_of_total hw hs.view
    fun a s' h' hv hQ => by
      obtain ⟨-, D', -, w⟩ := hQ
      exact w.limits hs hlog hv.nodup
  have hst := w.stored hs hd hlt.le hsr hlog hv hf' fun v nm hsrc => by
    rw [slotEntry_zero] at hsrc
    cases hsrc
  refine ⟨s', h', D', hrun, hst, fun nm => ?_⟩
  have hent : ∀ t', entries sb D' h'.buf i t'
      = if t' = t then none else entries sb D h.buf i t' := by
    intro t'
    rw [w.entries_eq hd.toLockedDir hlt.le, slotEntry_zero]
  simp only [namecmp_eq_zero_iff]
  exact SlotMap.find_empty hd.unique within_entries within_entries hent hslot

theorem fresh_entries (hg : FreshGeometry sb) (t : Nat) :
    entries sb (freshTable sb) (freshImage sb) ROOTINO t
      = if t = 0 then some (ROOTINO, dot) else if t = 1 then some (ROOTINO, dotdot) else none := by
  have hslots : ∀ t < 32, slotEntry (fun x => rootBlock (DESIZE * t + x))
      = if t = 0 then some (ROOTINO, dot) else if t = 1 then some (ROOTINO, dotdot) else none := by
    decide +kernel
  have hn : (freshTable sb ROOTINO).size / DESIZE = 32 := show BSIZE / DESIZE = 32 by decide
  by_cases ht : t < 32
  · have hbytes : ∀ x < DESIZE, fileByte sb (freshTable sb) (freshImage sb) ROOTINO (DESIZE * t + x)
        = rootBlock (DESIZE * t + x) := by
      intro x hx
      have hdiv : (DESIZE * t + x) / BSIZE = 0 := Nat.div_eq_of_lt (by unfold DESIZE BSIZE at *; omega)
      have hmod : (DESIZE * t + x) % BSIZE = DESIZE * t + x :=
        Nat.mod_eq_of_lt (by unfold DESIZE BSIZE at *; omega)
      have hown : own sb (freshTable sb) (freshImage sb) (ROOTINO, didx 0) = sb.datastart := by
        rw [hg.fresh_own]
        rfl
      have hpos := Geometry.datastart_pos sb
      unfold fileByte fileBlock
      rw [hdiv, hmod, hown, if_neg (by omega), freshImage, if_neg (by omega), if_neg (by omega),
        if_neg (by unfold Superblock.datastart IPB BPB; omega), if_pos rfl]
    rw [← hslots t ht, ← slotEntry_congr hbytes, entries]
    exact dirEntry_of_lt (hn ▸ ht)
  · rw [if_neg (by omega), if_neg (by omega), entries]
    exact if_neg (hn ▸ ht)

theorem fresh_directory (hg : FreshGeometry sb) :
    Directory sb (openRootHome sb) (freshTable sb) 0 ROOTINO := by
  refine ⟨⟨openRoot_cached hg, rfl, show BSIZE % DESIZE = 0 by decide⟩, ?_⟩
  have hne : dot ≠ dotdot := by decide
  intro t t' v v' nm h1 h2
  rw [show (openRootHome sb).buf = freshImage sb from rfl, fresh_entries hg] at h1 h2
  grind

end Xv6
