import Xv6.Fs
import Xv6.Home
import Xv6.Lib.Ledger

/-!
# The block allocator

The bitmap as a set of marked blocks, and what `balloc` and `bfree` do to it. `balloc` is
first fit: it returns the first block of the disk that is not marked
(`hwp_balloc`). The scan goes up to the end of the disk, so it returns a
block below the log exactly as long as one of those is free (`first_free_lt_iff`).
-/

open Bytes Device

namespace Xv6

/-- The number of blocks the bitmap has bits for. -/
def Superblock.cap (sb : Superblock) : Nat := (sb.size / BPB + 1) * BPB

/-- What is assumed of the numbers in the superblock: the log lies behind the data, and an
inode number fits in a directory entry. -/
structure Geometry (sb : Superblock) : Prop where
  data : sb.datastart ≤ sb.logstart
  inodes : sb.ninodes ≤ 2 ^ 16

namespace Geometry

variable {sb : Superblock} (hg : Geometry sb)

theorem logstart_le : sb.logstart ≤ sb.size := Nat.sub_le _ _

theorem size_lt_cap : sb.size < sb.cap := by
  unfold Superblock.cap BPB
  omega

theorem logstart_le_cap {sb : Superblock} : sb.logstart ≤ sb.cap := logstart_le.trans size_lt_cap.le

theorem datastart_pos (sb : Superblock) : 3 < sb.datastart := by
  unfold Superblock.datastart IPB BPB
  omega

include hg in
theorem one_lt_logstart : 1 < sb.logstart :=
  (show 1 < sb.datastart by have := datastart_pos sb; omega).trans_le hg.data

theorem bblock_lt {b : Nat} (hb : b < sb.cap) : BBLOCK b sb.ninodes < sb.datastart := by
  unfold Superblock.cap at hb
  unfold BBLOCK Superblock.datastart
  have : b / BPB ≤ sb.size / BPB := Nat.lt_succ_iff.mp
    (Nat.div_lt_of_lt_mul (by rwa [Nat.mul_comm] at hb))
  omega

theorem one_lt_bblock (sb : Superblock) {b : Nat} : 2 < BBLOCK b sb.ninodes := by
  unfold BBLOCK BPB IPB
  omega

theorem iblock_lt_bblock {i b : Nat} (hi : i < sb.ninodes) : IBLOCK i < BBLOCK b sb.ninodes := by
  unfold IBLOCK BBLOCK IPB BPB
  omega

theorem iblock_lt {i : Nat} (hi : i < sb.ninodes) : IBLOCK i < sb.datastart := by
  unfold IBLOCK Superblock.datastart IPB BPB
  omega

theorem one_lt_iblock {i : Nat} : 1 < IBLOCK i := by
  unfold IBLOCK IPB
  omega

end Geometry

/-! ### The bitmap -/

section Bitmap

variable {buf buf' : Nat → Block} {ninodes b c : Nat}

theorem bitOf_setBit (h : buf' (BBLOCK c ninodes) = if BBLOCK c ninodes = BBLOCK b ninodes then
      setBit (buf (BBLOCK b ninodes)) (b % BPB) else buf (BBLOCK c ninodes)) :
    bitOf buf' ninodes c = if c = b then true else bitOf buf ninodes c := by
  unfold bitOf
  rw [h]
  by_cases hbb : BBLOCK c ninodes = BBLOCK b ninodes
  · rw [if_pos hbb, getBit_setBit, hbb]
    have hdiv : c / BPB = b / BPB := by
      unfold BBLOCK at hbb
      omega
    by_cases hcb : c = b
    · subst hcb; simp
    · have hmod : c % BPB ≠ b % BPB := by
        intro hmod
        exact hcb (by rw [← Nat.div_add_mod c BPB, ← Nat.div_add_mod b BPB, hdiv, hmod])
      simp [hcb, hmod]
  · have hcb : c ≠ b := fun hcb => hbb (by rw [hcb])
    rw [if_neg hbb, if_neg hcb]

end Bitmap

section Scan

variable {bp : Block} {b size : Nat}

theorem findFree_eq_some {n : Nat} : ∀ {bi r : Nat}, findFree bp b size bi n = some r →
    bi ≤ r ∧ r < bi + n ∧ b + r < size ∧ getBit bp r = false ∧
      ∀ j, bi ≤ j → j < r → getBit bp j = true := by
  induction n with
  | zero => intro bi r h; cases h
  | succ n ih =>
    intro bi r h
    rw [findFree] at h
    split at h
    · next hlt =>
      split at h
      · next hbit =>
        obtain ⟨h1, h2, h3, h4, h5⟩ := ih h
        refine ⟨by omega, by omega, h3, h4, fun j hj1 hj2 => ?_⟩
        rcases Nat.eq_or_lt_of_le hj1 with rfl | hj1
        · exact hbit
        · exact h5 j hj1 hj2
      · next hbit =>
        cases h
        exact ⟨le_rfl, by omega, hlt, by simpa using hbit, fun j h1 h2 => by omega⟩
    · cases h

theorem findFree_eq_none {n : Nat} : ∀ {bi : Nat}, findFree bp b size bi n = none →
    ∀ j, bi ≤ j → j < bi + n → b + j < size → getBit bp j = true := by
  induction n with
  | zero => intro bi _ j h1 h2; omega
  | succ n ih =>
    intro bi h j h1 h2 h3
    rw [findFree] at h
    split at h
    · split at h
      · next hbit =>
        rcases Nat.eq_or_lt_of_le h1 with rfl | h1
        · exact hbit
        · exact ih h j h1 (by omega) h3
      · cases h
    · next hlt => omega

end Scan

/-! ### `balloc` and `bfree` -/

section Specs

variable {sb : Superblock} {J : Policy Event} {h : Home}

/-- The store has the superblock `sb`, and the log starts where it says. -/
structure Based (sb : Superblock) (h : Home) : Prop where
  geo : Geometry sb
  start : h.mem.log.start = sb.logstart
  super : getSuperblock (h.buf 1) = sb

/-- The policy accepts the blocks of the data area that `balloc` hands out. -/
def BlockPolicy (sb : Superblock) (J : Policy Event) : Prop :=
  ∀ free b, sb.datastart ≤ b → b < sb.logstart → J.check (.balloc free b)

/-- The policy need not know that there are free blocks: it accepts that there are none, and
it assumes that the blocks `balloc` hands out lie below the log, or at least that
one below the log was free. -/
structure Lenient (sb : Superblock) (J : Policy Event) : Prop where
  full : J.stop (.panic "balloc: out of blocks")
  below : ∀ free b, J.good (.balloc free b) → free = true ∨ b < sb.logstart

theorem hwp_readsb {Q : Superblock → Home → Prop} (hb : Based sb h)
    (hl : ∀ x ∈ h.locked, sb.datastart ≤ x) (hc : h.locked.card ≤ 2) (hQ : Q sb h) :
    hwp J readsb Q h := by
  have h1 : 1 ∉ h.locked := fun h1 => by
    have := hl 1 h1
    have := Geometry.datastart_pos sb
    omega
  unfold readsb
  refine hwp_bind (hwp_bread (by rw [hb.start]; exact hb.geo.one_lt_logstart) h1 hc
    (hwp_bind (hwp_brelse (h.mem_lock 1) (hwp_pure ?_))))
  rw [hb.super, h.unlock_lock h1]
  exact hQ

/-- The first free block is below the log exactly if a block below the log is free. -/
theorem first_free_lt_iff {buf : Nat → Block} {b : Nat} (hb : bitOf buf sb.ninodes b = false)
    (hfirst : ∀ c < b, bitOf buf sb.ninodes c = true) :
    b < sb.logstart ↔ dataFree sb buf = true := by
  unfold dataFree
  rw [decide_eq_true_eq]
  constructor
  · exact fun hlt => ⟨b, hlt, hb⟩
  · rintro ⟨c, hc, hfree⟩
    by_contra hge
    rw [hfirst c (by omega)] at hfree
    cases hfree

theorem dataFree_congr {buf buf' : Nat → Block}
    (hbuf : ∀ x < sb.datastart, buf' x = buf x) : dataFree sb buf' = dataFree sb buf := by
  unfold dataFree
  refine decide_eq_decide.mpr (exists_congr fun b => and_congr_right fun hb => ?_)
  unfold bitOf
  rw [hbuf _ (Geometry.bblock_lt (hb.trans_le Geometry.logstart_le_cap))]

/-- The store after `balloc` has returned block `b`. -/
def Home.allocate (sb : Superblock) (h : Home) (b : Nat) : Home :=
  (h.logw (BBLOCK b sb.ninodes)
    (setBit (h.buf (BBLOCK b sb.ninodes)) (b % BPB))).logw b zero

theorem hwp_bzero {b : Nat} {Q : Unit → Home → Prop} (hb : b < h.mem.log.start)
    (hl : b ∉ h.locked) (hc : h.locked.card ≤ 1) (hlog : CanLog J h.mem)
    (hQ : Q () (h.logw b zero)) : hwp J (bzero b) Q h := by
  unfold bzero
  refine hwp_bind (hwp_bread hb hl (by omega) (hwp_bind (hwp_logWrite (h.mem_lock b)
    (h.card_lock_le b 1 hc) hlog (hwp_brelse (h.mem_lock b) ?_))))
  rw [h.unlock_logw_lock b zero hl]
  exact hQ

theorem hwp_ballocLoop (hb : Based sb h) (hlow : ∀ b < sb.datastart, bitOf h.buf sb.ninodes b = true)
    (hJ : BlockPolicy sb J) (hlog : CanLog J h.mem) (hc : h.locked.card ≤ 1)
    (hl : ∀ x ∈ h.locked, sb.datastart ≤ x ∧ bitOf h.buf sb.ninodes x = true)
    (hdata : Lenient sb J ∨ dataFree sb h.buf = true) {Q : Nat → Home → Prop}
    (hQ : ∀ b, sb.datastart ≤ b → b < sb.logstart → bitOf h.buf sb.ninodes b = false →
      Q b (h.allocate sb b)) :
    ∀ n k, sb.size < (k + n) * BPB → (∀ b < k * BPB, b < sb.size → bitOf h.buf sb.ninodes b = true) →
      hwp J (ballocLoop sb n (k * BPB)) Q h := by
  have hfull : (∀ b < sb.size, bitOf h.buf sb.ninodes b = true) →
      J.stop (.panic "balloc: out of blocks") := by
    refine fun hall => hdata.elim Lenient.full fun hd => ?_
    obtain ⟨b, hb, hfree⟩ := of_decide_eq_true hd
    rw [hall b (hb.trans_le Geometry.logstart_le)] at hfree
    cases hfree
  intro n
  induction n with
  | zero =>
    intro k hk hbelow
    exact hwp_halt (hfull fun b hlt => hbelow b (by rw [Nat.add_zero] at hk; omega) hlt)
  | succ n ih =>
    intro k hk hbelow
    have hbitk : ∀ j < BPB, bitOf h.buf sb.ninodes (k * BPB + j)
        = getBit (h.buf (BBLOCK (k * BPB) sb.ninodes)) j := by
      intro j hj
      have hdiv : (k * BPB + j) / BPB = k * BPB / BPB := by
        unfold BPB at hj ⊢
        omega
      have hmod : (k * BPB + j) % BPB = j := by
        unfold BPB at hj ⊢
        omega
      unfold bitOf BBLOCK
      rw [hdiv, hmod]
    unfold ballocLoop
    by_cases hlt : k * BPB < sb.size
    · rw [if_pos hlt]
      have hcap : k * BPB < sb.cap := hlt.trans Geometry.size_lt_cap
      have hbb := Geometry.bblock_lt hcap
      have hnot : BBLOCK (k * BPB) sb.ninodes ∉ h.locked := fun hx => by
        have := (hl _ hx).1
        omega
      refine hwp_bind (hwp_bread (by rw [hb.start]; exact hbb.trans_le hb.geo.data) hnot
        (by omega) ?_)
      cases hf : findFree (h.buf (BBLOCK (k * BPB) sb.ninodes)) (k * BPB) sb.size 0 BPB with
      | some bi =>
        obtain ⟨-, hbi, hsize, hfree, hset⟩ := findFree_eq_some hf
        rw [Nat.zero_add] at hbi
        have hfree' : bitOf h.buf sb.ninodes (k * BPB + bi) = false := (hbitk bi hbi).trans hfree
        have hfirst : ∀ c < k * BPB + bi, bitOf h.buf sb.ninodes c = true := by
          intro c hc'
          by_cases hck : c < k * BPB
          · exact hbelow c hck (by omega)
          · obtain ⟨j, rfl⟩ := Nat.exists_eq_add_of_le (Nat.not_lt.mp hck)
            rw [hbitk j (by omega)]
            exact hset j (Nat.zero_le j) (by omega)
        have hge : sb.datastart ≤ k * BPB + bi := by
          by_contra hc'
          rw [hlow _ (by omega)] at hfree'
          cases hfree'
        have hbbeq : BBLOCK (k * BPB) sb.ninodes = BBLOCK (k * BPB + bi) sb.ninodes := by
          unfold BBLOCK BPB at *
          omega
        have hmod : bi = (k * BPB + bi) % BPB := by
          unfold BPB at *
          omega
        refine hwp_bind (hwp_emit fun s hv hgood => ?_)
        have hlt' : k * BPB + bi < sb.logstart := by
          have hiff := first_free_lt_iff hfree' hfirst
          rcases hdata with hlen | hd
          · refine (hlen.below _ _ hgood).elim (fun hd => hiff.mpr ?_) id
            rwa [dataFree_congr fun x hx => hv.buf x ?_] at hd
            change x < h.mem.log.start
            rw [hb.start]
            exact hx.trans_le hb.geo.data
          · exact hiff.mpr hd
        refine ⟨hJ _ _ hge hlt', ?_⟩
        have hnot' : k * BPB + bi ∉ h.locked := fun hx => by
          rw [(hl _ hx).2] at hfree'
          cases hfree'
        refine hwp_bind (hwp_logWrite (h.mem_lock _) (h.card_lock_le _ 1 hc) hlog (hwp_bind
          (hwp_brelse (h.mem_lock _) ?_)))
        rw [h.unlock_logw_lock _ _ hnot]
        refine hwp_bind (hwp_bzero ?_ hnot' hc ⟨hlog.busy, hlog.check⟩ (hwp_pure ?_))
        · change _ < h.mem.log.start
          rwa [hb.start]
        · have := hQ _ hge hlt' hfree'
          rw [Home.allocate, ← hbbeq, ← hmod] at this
          exact this
      | none =>
        refine hwp_bind (hwp_brelse (h.mem_lock _) ?_)
        rw [h.unlock_lock hnot]
        have := ih (k + 1) (by rwa [Nat.add_right_comm, Nat.add_assoc]) fun b hb1 hb2 => ?_
        · rwa [Nat.add_mul, Nat.one_mul] at this
        · by_cases hbk : b < k * BPB
          · exact hbelow b hbk hb2
          · obtain ⟨j, rfl⟩ := Nat.exists_eq_add_of_le (Nat.not_lt.mp hbk)
            have hj : j < BPB := by
              rw [Nat.add_mul, Nat.one_mul] at hb1
              omega
            rw [hbitk j hj]
            exact findFree_eq_none hf j (Nat.zero_le j) (by omega) hb2
    · rw [if_neg hlt]
      exact hwp_halt (hfull fun b hb' => hbelow b (by omega) hb')

/-- **`balloc`** returns the first block that is not marked, zeroed. -/
theorem hwp_balloc (hb : Based sb h) (hlow : ∀ b < sb.datastart, bitOf h.buf sb.ninodes b = true)
    (hJ : BlockPolicy sb J) (hlog : CanLog J h.mem) (hc : h.locked.card ≤ 1)
    (hl : ∀ x ∈ h.locked, sb.datastart ≤ x ∧ bitOf h.buf sb.ninodes x = true)
    (hdata : Lenient sb J ∨ dataFree sb h.buf = true) {Q : Nat → Home → Prop}
    (hQ : ∀ b, sb.datastart ≤ b → b < sb.logstart → bitOf h.buf sb.ninodes b = false →
      Q b (h.allocate sb b)) : hwp J balloc Q h := by
  unfold balloc
  refine hwp_bind (hwp_readsb hb (fun x hx => (hl x hx).1) (by omega) ?_)
  have := hwp_ballocLoop hb hlow hJ hlog hc hl hdata hQ (sb.size / BPB + 1) 0 ?_ fun b hb' => ?_
  · rwa [Nat.zero_mul] at this
  · unfold BPB
    omega
  · omega

end Specs

end Xv6
