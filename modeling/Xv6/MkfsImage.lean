import Xv6.ByteString
import Xv6.Mkfs

/-!
# The images of mkfs

Where `iappend` puts the bytes of an inode is where the kernel's `bmap` looks for them.
-/

open Bytes StateWp Function Finset

namespace Xv6.Mkfs

variable {sb : Superblock} {img img' : Nat → Block} {D D' : Nat → Dinode} {free i j idx b bn n : Nat}
variable {E : Stop → Prop} {F : Nat → List UInt8}

/-! ### Blocks and references -/

/-- The references that the first `n` blocks of an inode go through. -/
def refs (n : Nat) : Finset Nat := (Finset.range n).biUnion refsOf

theorem refs_zero : refs 0 = ∅ := rfl

theorem refs_succ (n : Nat) : refs (n + 1) = refsOf n ∪ refs n := by
  unfold refs
  rw [range_add_one, biUnion_insert]

theorem mem_refs {n idx : Nat} : idx ∈ refs n ↔ (idx = NDIRECT ∧ NDIRECT < n) ∨ ∃ bn < n, idx = didx bn := by
  unfold refs
  rw [mem_biUnion]
  constructor
  · rintro ⟨bn, hbn, hidx⟩
    have hbn := mem_range.mp hbn
    unfold refsOf at hidx
    split at hidx
    · next hd =>
      rw [mem_singleton] at hidx
      exact Or.inr ⟨bn, hbn, by rw [hidx, didx, if_pos hd]⟩
    · next hd =>
      rcases mem_insert.mp hidx with rfl | hidx
      · exact Or.inl ⟨rfl, by omega⟩
      · rw [mem_singleton] at hidx
        exact Or.inr ⟨bn, hbn, by rw [hidx, didx, if_neg hd]⟩
  · rintro (⟨rfl, hn⟩ | ⟨bn, hbn, rfl⟩)
    · refine ⟨NDIRECT, mem_range.mpr hn, ?_⟩
      rw [refsOf, if_neg (lt_irrefl _)]
      exact mem_insert_self _ _
    · refine ⟨bn, mem_range.mpr hbn, ?_⟩
      unfold refsOf didx
      split
      · exact mem_singleton_self _
      · exact mem_insert_of_mem (mem_singleton_self _)

theorem didx_mem_refs : didx bn ∈ refs n ↔ bn < n := by
  rw [mem_refs]
  constructor
  · rintro (⟨h, -⟩ | ⟨bn', h, he⟩)
    · exact absurd h (didx_ne bn)
    · exact didx_inj he ▸ h
  · exact fun h => Or.inr ⟨bn, h, rfl⟩

theorem indirect_mem_refs : NDIRECT ∈ refs n ↔ NDIRECT < n := by
  rw [mem_refs]
  constructor
  · rintro (⟨-, h⟩ | ⟨bn, -, he⟩)
    · exact h
    · exact absurd he.symm (didx_ne bn)
  · exact fun h => Or.inl ⟨rfl, h⟩

/-- The next block of an inode, with the indirect block before it if it is the first such one. -/
theorem refs_next (n : Nat) : refs (n + 1) = insert (didx n) (if n = NDIRECT then insert NDIRECT (refs n)
    else refs n) := by
  rw [refs_succ]
  unfold refsOf didx
  by_cases hlt : n < NDIRECT
  · rw [if_pos hlt, if_pos hlt, if_neg (by omega)]
    rfl
  · rw [if_neg hlt, if_neg hlt]
    split
    · ext x
      simp only [mem_union, mem_insert, mem_singleton]
      tauto
    · have hin : NDIRECT ∈ refs n := indirect_mem_refs.mpr (by omega)
      ext x
      simp only [mem_union, mem_insert, mem_singleton]
      constructor
      · rintro ((rfl | rfl) | h)
        · exact Or.inr hin
        · exact Or.inl rfl
        · exact Or.inr h
      · rintro (rfl | h)
        · exact Or.inl (Or.inr rfl)
        · exact Or.inr h

theorem card_refs (n : Nat) : (refs n).card = n + if NDIRECT < n then 1 else 0 := by
  induction n with
  | zero => rfl
  | succ n ih =>
    have h1 : didx n ∉ refs n := fun h => lt_irrefl n (didx_mem_refs.mp h)
    rw [refs_next]
    split
    · next he =>
      have h2 : NDIRECT ∉ refs n := fun h => absurd (indirect_mem_refs.mp h) (by omega)
      have h3 : didx n ∉ insert NDIRECT (refs n) := by
        rw [mem_insert, not_or]
        exact ⟨didx_ne n, h1⟩
      rw [card_insert_of_notMem h3, card_insert_of_notMem h2, ih, if_neg (by omega),
        if_pos (by omega)]
    · rw [card_insert_of_notMem h1, ih]
      split <;> split <;> omega

theorem refs_mono {n' : Nat} (h : n ≤ n') : refs n ⊆ refs n' :=
  biUnion_subset_biUnion_of_subset_left _ (range_subset_range.mpr h)

/-- The blocks from the first data block to `free` are the ones that the references in `S` hold, each one
of them held once; those from `free` on have not been written. -/
structure Blocks (sb : Superblock) (img : Nat → Block) (free : Nat) (D : Nat → Dinode)
    (S : Nat → Finset Nat) : Prop where
  ledger : Ledger sb.datastart sb.size sb.size (own sb D img) fun b => decide (b < free)
  held : ∀ i idx, own sb D img (i, idx) ≠ 0 ↔ idx ∈ S i
  fresh : ∀ b, free ≤ b → img b = zero
  count : free = sb.datastart + ∑ i ∈ Finset.range sb.ninodes, (S i).card
  le : free ≤ sb.size

namespace Blocks

variable {S : Nat → Finset Nat}

theorem ge (hB : Blocks sb img free D S) : sb.datastart ≤ free := by
  rw [hB.count]
  exact Nat.le_add_right _ _

theorem lt_free (hB : Blocks sb img free D S) {r : Nat × Nat} (hr : own sb D img r ≠ 0) :
    own sb D img r < free := by
  obtain ⟨h1, h2⟩ := hB.ledger.range r hr
  exact of_decide_eq_true ((hB.ledger.marked _ h1 h2).mpr ⟨r, rfl⟩)

theorem take (hB : Blocks sb img free D S) (hi : i < sb.ninodes) (hidx : idx ∉ S i)
    (hfree : free < sb.size)
    (hown : own sb D' img' = update (own sb D img) (i, idx) free)
    (hfresh : ∀ b, free + 1 ≤ b → img' b = zero) :
    Blocks sb img' (free + 1) D' (update S i (insert idx (S i))) := by
  have hpos := Geometry.datastart_pos sb
  have hge := hB.ge
  have h0 : own sb D img (i, idx) = 0 := by
    by_contra h
    exact hidx ((hB.held i idx).mp h)
  refine ⟨?_, fun j k => ?_, hfresh, ?_, hfree⟩
  · rw [hown]
    refine hB.ledger.take (by omega) h0 hge hfree le_rfl (decide_eq_false (lt_irrefl _)) fun c _ _ => ?_
    by_cases hc : c = free
    · rw [if_pos hc, decide_eq_true (by omega)]
    · rw [if_neg hc]
      exact decide_eq_decide.mpr (by omega)
  · rw [hown]
    by_cases hr : (j, k) = (i, idx)
    · obtain ⟨rfl, rfl⟩ := Prod.mk.inj hr
      rw [update_self, update_self]
      exact iff_of_true (by omega) (mem_insert_self _ _)
    · rw [update_of_ne hr, hB.held]
      by_cases hj : j = i
      · subst hj
        rw [update_self, mem_insert]
        exact ⟨Or.inr, fun h => h.resolve_left fun he => hr (by rw [he])⟩
      · rw [update_of_ne hj]
  · have hsum : ∑ j ∈ Finset.range sb.ninodes, (update S i (insert idx (S i)) j).card
        = ∑ j ∈ Finset.range sb.ninodes, (S j).card + 1 := by
      rw [← add_sum_erase _ _ (mem_range.mpr hi),
        ← add_sum_erase _ (fun j => (S j).card) (mem_range.mpr hi), update_self,
        card_insert_of_notMem hidx]
      have : ∀ j ∈ (Finset.range sb.ninodes).erase i,
          (update S i (insert idx (S i)) j).card = (S j).card := by
        intro j hj
        rw [update_of_ne (ne_of_mem_erase hj)]
      rw [sum_congr rfl this]
      omega
    rw [hsum]
    have := hB.count
    omega

theorem not_held (hB : Blocks sb img free D S) (hidx : idx ∉ S i) : own sb D img (i, idx) = 0 := by
  by_contra h
  exact hidx ((hB.held i idx).mp h)

/-- The next block for a direct address, or for the indirect block. -/
theorem setAddr (hB : Blocks sb img free D S) (hu : Used sb D i) (hidx : idx ≤ NDIRECT)
    (hnot : idx ∉ S i) (hfree : free < sb.size) :
    Blocks sb img (free + 1) (update D i ((D i).setAddr idx free))
      (update S i (insert idx (S i))) ∧
    ∀ j bn, fileBlock sb (update D i ((D i).setAddr idx free)) img j bn
      = fileBlock sb D img j bn := by
  have hpos := Geometry.datastart_pos sb
  have hge := hB.ge
  have hzero := hB.fresh free le_rfl
  have h0 := hB.not_held hnot
  have hown := own_setAddr hu hidx h0 (show free ≠ 0 by omega) hzero fun _ _ _ => rfl
  exact ⟨hB.take hu.1 hnot hfree hown fun b hb => hB.fresh b (by omega),
    fileBlock_take hown h0 hzero fun _ _ _ => rfl⟩

theorem setEntry (hB : Blocks sb img free D S) (hu : Used sb D i) {a e : Nat}
    (ha : (D i).addrs NDIRECT = a) (ha0 : a ≠ 0) (he : e < NINDIRECT)
    (hnot : NDIRECT + 1 + e ∉ S i) (hfree : free < sb.size) (hsize : sb.size < 2 ^ 32) :
    Blocks sb (update img a (putLE (img a) (4 * e) 4 free)) (free + 1) D
      (update S i (insert (NDIRECT + 1 + e) (S i))) ∧
    (∀ j bn, fileBlock sb D (update img a (putLE (img a) (4 * e) 4 free)) j bn
      = fileBlock sb D img j bn) ∧
    own sb D (update img a (putLE (img a) (4 * e) 4 free)) (i, NDIRECT + 1 + e) = free := by
  have hptr : own sb D img (i, NDIRECT) = a := (own_indirect img hu).trans ha
  have haown : own sb D img (i, NDIRECT) ≠ 0 := hptr.symm ▸ ha0
  have halt : a < free := hptr ▸ hB.lt_free haown
  -- no other reference holds the indirect block
  have hinj : ∀ r, r ≠ (i, NDIRECT) → own sb D img r ≠ 0 → own sb D img r ≠ a := fun r hr h0 hra =>
    hr (hB.ledger.inj r _ h0 (hra.trans hptr.symm))
  have hown : own sb D (update img a (putLE (img a) (4 * e) 4 free))
      = update (own sb D img) (i, NDIRECT + 1 + e) free := by
    refine own_setEntry hu ha ha0 he (by omega) (update_self ..) fun j hji hj h0 => ?_
    rw [← own_indirect img hj] at h0 ⊢
    exact update_of_ne (hinj _ (fun he' => hji (Prod.mk.inj he').1) h0) ..
  have h0 := hB.not_held hnot
  have hzero : update img a (putLE (img a) (4 * e) 4 free) free = zero := by
    rw [update_of_ne (by omega)]
    exact hB.fresh free le_rfl
  refine ⟨hB.take hu.1 hnot hfree hown fun b hb => ?_, fileBlock_take hown h0 hzero fun r hr hne => ?_, ?_⟩
  · rw [update_of_ne (by omega)]
    exact hB.fresh b (by omega)
  · exact update_of_ne (hinj r (fun he' => hne (by rw [he'])) hr) ..
  · rw [hown, update_self]

/-- Writing a data block changes that block of the contents only. -/
theorem write (hB : Blocks sb img free D S) {x : Nat} (ho : own sb D img (i, didx bn) = x) (hx0 : x ≠ 0)
    (blk : Block) : Blocks sb (update img x blk) free D S ∧
    ∀ j bn', fileBlock sb D (update img x blk) j bn'
      = if j = i ∧ bn' = bn then blk else fileBlock sb D img j bn' := by
  have hinj : ∀ r, r ≠ (i, didx bn) → own sb D img r ≠ 0 → own sb D img r ≠ x := fun r hr h0 hrx =>
    hr (hB.ledger.inj r _ h0 (hrx.trans ho.symm))
  have hlt : x < free := ho ▸ hB.lt_free (ho.symm ▸ hx0)
  have hown : own sb D (update img x blk) = own sb D img := by
    refine own_congr fun j hj h0 => ?_
    rw [← own_indirect img hj] at h0 ⊢
    exact update_of_ne (hinj _ (fun he => didx_ne bn (Prod.mk.inj he).2.symm) h0) ..
  refine ⟨⟨hown ▸ hB.ledger, hown ▸ hB.held, fun b hb => ?_, hB.count, hB.le⟩, fun j bn' => ?_⟩
  · rw [update_of_ne (by omega)]
    exact hB.fresh b hb
  · unfold fileBlock
    rw [hown]
    by_cases hj : j = i ∧ bn' = bn
    · obtain ⟨rfl, rfl⟩ := hj
      rw [if_pos (show j = j ∧ bn' = bn' from ⟨rfl, rfl⟩), ho, if_neg hx0, update_self]
    · rw [if_neg hj]
      have hr : (j, didx bn') ≠ (i, didx bn) := fun he =>
        hj ⟨(Prod.mk.inj he).1, didx_inj (Prod.mk.inj he).2⟩
      by_cases h0 : own sb D img (j, didx bn') = 0
      · rw [if_pos h0, if_pos h0]
      · rw [if_neg h0, if_neg h0, update_of_ne (hinj _ hr h0)]

end Blocks

/-! ### One block of `iappend` -/

section Append

variable {s : State} {P : Prop} {S : Nat → Finset Nat} {din : Dinode} {fbn off : Nat}

theorem wp_rsect {E : Stop → Prop} {sec : Nat} {Q : Block → State → Prop} :
    wp E (rsect sec) Q s ↔ if sec < s.len then Q (s.img sec) s else E .exit := by
  unfold rsect
  rw [wp_bind, wp_get]
  split <;> rfl

theorem wp_wsect {E : Stop → Prop} {sec : Nat} {buf : Block} {Q : Unit → State → Prop} :
    wp E (wsect sec buf) Q s ↔
      Q () { s with img := update s.img sec buf, len := max s.len (sec + 1) } := Iff.rfl

theorem wp_assert {E : Stop → Prop} {c : Prop} [Decidable c] {Q : Unit → State → Prop} :
    wp E (assert c) Q s ↔ if c then Q () s else E .assertion := by
  unfold assert
  split <;> rfl

theorem wp_nextBlock {E : Stop → Prop} {Q : Nat → State → Prop} :
    wp E nextBlock Q s ↔
      Q s.freeblock { s with freeblock := s.freeblock + 1, usedblocks := s.usedblocks + 1 } := Iff.rfl

/-- What `iappendBlock` leaves: block `fbn` of inode `i` is `x`, and no contents have changed. -/
structure Found (sb : Superblock) (s s' : State) (D D' : Nat → Dinode) (S' : Nat → Finset Nat)
    (i fbn x : Nat) : Prop where
  blocks : Blocks sb s'.img s'.freeblock D' S'
  own : own sb D' s'.img (i, didx fbn) = x
  pos : x ≠ 0
  same : ∀ j bn, fileBlock sb D' s'.img j bn = fileBlock sb D s.img j bn
  low : ∀ sec < sb.datastart, s'.img sec = s.img sec

/-- The second half of `iappendBlock`, with the indirect block at hand. -/
theorem wp_entry (hsize : sb.size < 2 ^ 32) (hlen : s.len = sb.size)
    (hsame : s.usedblocks = s.freeblock) (hB : Blocks sb s.img s.freeblock D S) (hu : Used sb D i)
    (hdin : D i = { din with size := off }) (ha0 : din.addrs NDIRECT ≠ 0) (hfbn : fbn < MAXFILE)
    (hd : ¬ fbn < NDIRECT) (hP : P → didx fbn ∉ S i → s.freeblock < sb.size) :
    wp (fun _ => ¬ P) (do
        let indirect ← rsect (din.addrs NDIRECT)
        if getLE indirect (4 * (fbn - NDIRECT)) 4 = 0 then
          let x ← nextBlock
          wsect (din.addrs NDIRECT) (putLE indirect (4 * (fbn - NDIRECT)) 4 x)
          return (din, x)
        else return (din, getLE indirect (4 * (fbn - NDIRECT)) 4)) (fun r s' => s'.len = sb.size ∧
      s'.usedblocks = s'.freeblock ∧ s'.freeinode = s.freeinode ∧ r.1 = din ∧
      (sb.size ≤ r.2 → ¬ P) ∧
      (r.2 < sb.size → Found sb s s' D D (update S i (insert (didx fbn) (S i))) i fbn r.2))
      s := by
  have hpos := Geometry.datastart_pos sb
  have hge := hB.ge
  have hidx : didx fbn = NDIRECT + 1 + (fbn - NDIRECT) := by
    rw [didx, if_neg hd]
    omega
  have haddr : (D i).addrs NDIRECT = din.addrs NDIRECT := by rw [hdin]
  have hptr : own sb D s.img (i, NDIRECT) = din.addrs NDIRECT := by
    rw [own_eq hu (by unfold NREF; omega), bref_le le_rfl, haddr]
  have hentry : own sb D s.img (i, didx fbn)
      = getLE (s.img (din.addrs NDIRECT)) (4 * (fbn - NDIRECT)) 4 := by
    rw [own_eq hu (didx_lt hfbn), bref_entry (by omega) (haddr.symm ▸ ha0), haddr, hidx,
      Nat.add_sub_cancel_left]
  have hrange := hB.ledger.range (i, NDIRECT) (hptr.symm ▸ ha0)
  rw [hptr] at hrange
  rw [wp_bind, wp_rsect, if_pos (by omega)]
  by_cases h0 : getLE (s.img (din.addrs NDIRECT)) (4 * (fbn - NDIRECT)) 4 = 0
  · have hnot : didx fbn ∉ S i := fun h => (hB.held i _).mpr h (hentry.trans h0)
    rw [if_pos h0, wp_bind, wp_nextBlock, wp_bind, wp_wsect, wp_pure]
    refine ⟨?_, congrArg (· + 1) hsame, rfl, rfl, fun hle hp => ?_, fun hlt => ?_⟩
    · dsimp only
      omega
    · have := hP hp hnot
      dsimp only at hle
      omega
    · have he : fbn - NDIRECT < NINDIRECT := by
        unfold MAXFILE at hfbn
        omega
      obtain ⟨h1, h2, h3⟩ := hB.setEntry hu haddr ha0 he (hidx ▸ hnot) hlt hsize
      refine ⟨hidx ▸ h1, hidx ▸ h3, by dsimp only; omega, h2, fun sec hsec => ?_⟩
      exact update_of_ne (by omega) ..
  · have hin : didx fbn ∈ S i := (hB.held i _).mp (hentry.symm ▸ h0)
    have hS : update S i (insert (didx fbn) (S i)) = S := by
      rw [insert_eq_of_mem hin]
      exact update_eq_self i S
    have hlt := (hB.ledger.range (i, didx fbn) (hentry.symm ▸ h0)).2
    rw [hentry] at hlt
    rw [if_neg h0, wp_pure]
    exact ⟨hlen, hsame, rfl, rfl, fun hle => absurd hlt (by dsimp only at hle; omega),
      fun _ => ⟨hS.symm ▸ hB, hentry, h0, fun _ _ => rfl, fun _ _ => rfl⟩⟩

/-- **The block map of `mkfs`.** Block `fbn` of an inode that has `n` blocks is found, or the next free
block becomes that block; `P` is that there are blocks enough. -/
theorem wp_iappendBlock (hsize : sb.size < 2 ^ 32) (hlen : s.len = sb.size)
    (hsame : s.usedblocks = s.freeblock) (hB : Blocks sb s.img s.freeblock D S) (hu : Used sb D i)
    (hdin : D i = { din with size := off }) (hS : S i = refs n) (hfbn : fbn < MAXFILE)
    (hn : fbn = n ∨ fbn + 1 = n)
    (hP : P → s.freeblock + (refs (fbn + 1)).card ≤ sb.size + (refs n).card) :
    wp (fun _ => ¬ P) (iappendBlock din fbn) (fun r s' => s'.len = sb.size ∧
      s'.usedblocks = s'.freeblock ∧ s'.freeinode = s.freeinode ∧
      r.1 = { din with addrs := r.1.addrs } ∧ (∀ k, NDIRECT < k → r.1.addrs k = din.addrs k) ∧
      (sb.size ≤ r.2 → ¬ P) ∧
      (r.2 < sb.size → Found sb s s' D (update D i { r.1 with size := off })
        (update S i (refs (fbn + 1))) i fbn r.2)) s := by
  have hpos := Geometry.datastart_pos sb
  have hge := hB.ge
  have haddr : ∀ idx ≤ NDIRECT, own sb D s.img (i, idx) = din.addrs idx := by
    intro idx hidx
    rw [own_eq hu (by unfold NREF; omega), bref_le hidx, hdin]
  have hmem : didx fbn ∈ S i ↔ fbn + 1 = n := by
    rw [hS, didx_mem_refs]
    omega
  -- a block that is there already
  have hfound : ∀ x, own sb D s.img (i, didx fbn) = x → x ≠ 0 →
      x < sb.size ∧ Found sb s s D (update D i { din with size := off })
        (update S i (refs (fbn + 1))) i fbn x := by
    intro x hx hx0
    have hin : didx fbn ∈ S i := (hB.held i _).mp (hx.symm ▸ hx0)
    have hD : update D i { din with size := off } = D := by
      rw [← hdin]
      exact update_eq_self i D
    have hSn : update S i (refs (fbn + 1)) = S := by
      rw [hmem.mp hin, ← hS]
      exact update_eq_self i S
    rw [hD]
    exact ⟨hx ▸ (hB.ledger.range _ (hx.symm ▸ hx0)).2, hSn.symm ▸ hB, hx, hx0, fun _ _ => rfl,
      fun _ _ => rfl⟩
  unfold iappendBlock
  by_cases hd : fbn < NDIRECT
  · have hidx : didx fbn = fbn := if_pos hd
    rw [if_pos hd]
    by_cases h0 : din.addrs fbn = 0
    · -- the next block becomes a direct block
      have hnot : fbn ∉ S i := fun h => (hB.held i fbn).mpr h ((haddr fbn hd.le).trans h0)
      have hfn : fbn = n := hn.resolve_right fun h => hnot (hidx ▸ hmem.mpr h)
      have hrefs : refs (fbn + 1) = insert fbn (S i) := by
        rw [refs_next, if_neg (by omega), hidx, hS, hfn]
      have hcard : (refs (fbn + 1)).card = (refs n).card + 1 := by
        rw [hrefs, card_insert_of_notMem hnot, hS]
      rw [if_pos h0, wp_bind, wp_nextBlock, wp_pure]
      refine ⟨hlen, congrArg (· + 1) hsame, rfl, rfl, fun k hk => ?_, fun hle hp => ?_, fun hlt => ?_⟩
      · exact update_of_ne (by omega) ..
      · have := hP hp
        dsimp only at hle
        omega
      · obtain ⟨h1, h2⟩ := hB.setAddr hu hd.le hnot hlt
        have hD : (D i).setAddr fbn s.freeblock
            = { din with addrs := update din.addrs fbn s.freeblock, size := off } := by
          rw [hdin]
          rfl
        rw [hD] at h1 h2
        refine ⟨hrefs ▸ h1, ?_, by dsimp only; omega, h2, fun _ _ => rfl⟩
        rw [hidx, own_eq ⟨hu.1, ?_⟩ (by unfold NREF; omega), bref_le hd.le, update_self]
        · exact update_self ..
        · rw [update_self]
          have := hu.2
          rwa [hdin] at this
    · rw [if_neg h0, wp_pure]
      obtain ⟨h1, h2⟩ := hfound (din.addrs fbn) (hidx.symm ▸ haddr fbn hd.le) h0
      exact ⟨hlen, hsame, rfl, rfl, fun _ _ => rfl,
        fun hle => absurd h1 (by dsimp only at hle; omega), fun _ => h2⟩
  · rw [if_neg hd]
    by_cases h0 : din.addrs NDIRECT = 0
    · -- the next block becomes the indirect block, and the one after it the first of its entries
      have hnot : NDIRECT ∉ S i := fun h => (hB.held i _).mpr h ((haddr _ le_rfl).trans h0)
      have hle : n ≤ NDIRECT := by
        rw [hS, indirect_mem_refs] at hnot
        omega
      obtain rfl : fbn = n := by omega
      have hfd : fbn = NDIRECT := by omega
      have hrefs : refs (fbn + 1) = insert (didx fbn) (insert NDIRECT (S i)) := by
        rw [refs_next, if_pos hfd, hS]
      have hnot' : didx fbn ∉ insert NDIRECT (S i) := by
        rw [mem_insert, not_or, hmem]
        exact ⟨didx_ne fbn, by omega⟩
      have hcard : (refs (fbn + 1)).card = (refs fbn).card + 2 := by
        rw [hrefs, card_insert_of_notMem hnot', card_insert_of_notMem hnot, hS]
      rw [if_pos h0, wp_bind, wp_bind, wp_nextBlock, wp_pure]
      by_cases hfree : s.freeblock < sb.size
      · obtain ⟨h1, h2⟩ := hB.setAddr hu le_rfl hnot hfree
        have hD : (D i).setAddr NDIRECT s.freeblock
            = { din with addrs := update din.addrs NDIRECT s.freeblock, size := off } := by
          rw [hdin]
          rfl
        rw [hD] at h1 h2
        have hu' : Used sb (update D i
            { din with addrs := update din.addrs NDIRECT s.freeblock, size := off }) i := by
          refine ⟨hu.1, ?_⟩
          rw [update_self]
          have := hu.2
          rwa [hdin] at this
        refine wp_mono (wp_entry (P := P) hsize hlen (congrArg (· + 1) hsame) h1 hu'
          (update_self ..) ?_ hfbn hd fun hp _ => ?_) fun r s' hr => ?_
        · dsimp only
          rw [update_self]
          omega
        · have := hP hp
          dsimp only
          omega
        · obtain ⟨e1, e2, e3, e4, e5, e6⟩ := hr
          refine ⟨e1, e2, e3, by rw [e4], fun k hk => ?_, e5, fun hlt => ?_⟩
          · rw [e4]
            exact update_of_ne (by omega) ..
          obtain ⟨f1, f2, f3, f4, f5⟩ := e6 hlt
          rw [update_self, update_idem, ← hrefs] at f1
          rw [e4]
          exact ⟨f1, f2, f3, fun j bn => (f4 j bn).trans (h2 j bn), f5⟩
      · -- the image is too small: the block cannot be read
        rw [wp_bind, wp_rsect, if_neg]
        · intro hp
          have := hP hp
          omega
        · dsimp only
          rw [update_self]
          omega
    · have hin : NDIRECT ∈ S i := (hB.held i _).mp ((haddr _ le_rfl).symm ▸ h0)
      have hlt : NDIRECT < n := by
        rwa [hS, indirect_mem_refs] at hin
      have hrefs : insert (didx fbn) (S i) = refs (fbn + 1) := by
        rcases hn with rfl | hn
        · rw [refs_next, if_neg (by omega), hS]
        · rw [insert_eq_of_mem (hmem.mpr hn), hS, hn]
      rw [if_neg h0, wp_bind, wp_pure]
      refine wp_mono (wp_entry (P := P) hsize hlen hsame hB hu hdin h0 hfbn hd fun hp hnot => ?_)
        fun r s' hr => ?_
      · have h1 := hP hp
        have h2 : (refs (fbn + 1)).card = (refs n).card + 1 := by
          rw [← hrefs, card_insert_of_notMem hnot, hS]
        omega
      · obtain ⟨e1, e2, e3, e4, e5, e6⟩ := hr
        have hD : update D i { din with size := off } = D := by
          rw [← hdin]
          exact update_eq_self i D
        refine ⟨e1, e2, e3, by rw [e4], fun k _ => by rw [e4], e5, fun hx => ?_⟩
        rw [e4, hD, ← hrefs]
        exact e6 hx

end Append

/-! ### Appending bytes -/

/-- The number of blocks that `len` bytes fill or begin to fill. -/
def blocksFor (len : Nat) : Nat := (len + 511) / 512

/-- The number of blocks that the contents `F` need. -/
def need (sb : Superblock) (F : Nat → List UInt8) : Nat :=
  ∑ i ∈ Finset.range sb.ninodes, (refs (blocksFor (F i).length)).card

theorem need_update {F : Nat → List UInt8} (hi : i < sb.ninodes) (l : List UInt8) :
    need sb (update F i l) + (refs (blocksFor (F i).length)).card
      = need sb F + (refs (blocksFor l.length)).card := by
  have hmem := mem_range.mpr hi
  unfold need
  rw [← add_sum_erase _ _ hmem, ← add_sum_erase _ (fun j =>
    (refs (blocksFor (F j).length)).card) hmem, update_self]
  have hrest : ∀ j ∈ (Finset.range sb.ninodes).erase i,
      (refs (blocksFor (update F i l j).length)).card
        = (refs (blocksFor (F j).length)).card := by
    intro j hj
    rw [update_of_ne (ne_of_mem_erase hj)]
  rw [sum_congr rfl hrest]
  omega

/-- The inodes `D` hold the bytes `F`. -/
structure Core (sb : Superblock) (s : State) (D : Nat → Dinode) (F : Nat → List UInt8) : Prop where
  len : s.len = sb.size
  same : s.usedblocks = s.freeblock
  blocks : Blocks sb s.img s.freeblock D fun i => refs (blocksFor (F i).length)
  bytes : ∀ i o, o < (F i).length → fileByte sb D s.img i o = (F i).getD o 0
  size : ∀ i, (D i).size = (F i).length
  bound : ∀ i, (F i).length ≤ MAXFILE * BSIZE
  ok : ∀ i, (D i).Ok

section Loop

variable {s s' : State} {P : Prop} {F : Nat → List UInt8} {din : Dinode} {off x : Nat} {p : List UInt8}

theorem Blocks.of_own {S : Nat → Finset Nat} (hB : Blocks sb img free D S)
    (h : own sb D' img = own sb D img) : Blocks sb img free D' S :=
  ⟨h ▸ hB.ledger, h ▸ hB.held, hB.fresh, hB.count, hB.le⟩

theorem ok_of_blocks (hsize : sb.size < 2 ^ 32) {S : Nat → Finset Nat}
    (hB : Blocks sb img free D S) (hu : Used sb D i) {d : Dinode} (hd : d.Ok)
    (hcore : D i = { d with size := (D i).size, addrs := (D i).addrs }) (hlen : (D i).size < 2 ^ 32)
    (haddrs : ∀ k, NDIRECT < k → (D i).addrs k = d.addrs k) : (D i).Ok := by
  refine ⟨?_, ?_, ?_, ?_, hlen, fun k => ?_, fun k hk => (haddrs k hk).trans (hd.len k hk)⟩
  · rw [hcore]; exact hd.type
  · rw [hcore]; exact hd.major
  · rw [hcore]; exact hd.minor
  · rw [hcore]; exact hd.nlink
  · by_cases hk : k ≤ NDIRECT
    · have ho : own sb D img (i, k) = (D i).addrs k := by
        rw [own_eq hu (by unfold NREF; omega), bref_le hk]
      by_cases h0 : (D i).addrs k = 0
      · rw [h0]
        decide
      · rw [← ho] at h0 ⊢
        exact ((hB.ledger.range _ h0).2).trans hsize
    · rw [haddrs k (by omega)]
      exact hd.addrs k

/-- One round of the loop: the bytes that fit in the block are appended. -/
theorem Core.round (hsize : sb.size < 2 ^ 32) (hc : Core sb s D F) (hu : Used sb D i)
    (hoff : off = (F i).length) (hfbn : off / 512 < MAXFILE) {din' : Dinode}
    (hdin : D i = { din with size := off }) (hcore : din' = { din with addrs := din'.addrs })
    (haddrs : ∀ k, NDIRECT < k → din'.addrs k = din.addrs k) (hp : p ≠ [])
    (hlen : s'.len = sb.size) (hsame : s'.usedblocks = s'.freeblock) (hx : x < sb.size)
    (hf : Found sb s s' D (update D i { din' with size := off })
      (update (fun j => refs (blocksFor (F j).length)) i (refs (off / 512 + 1))) i (off / 512) x)
    {n1 : Nat} (hn1 : n1 = min p.length ((off / 512 + 1) * 512 - off)) :
    Core sb { s' with
        img := update s'.img x (overlay (s'.img x) (off - off / 512 * 512) n1 fun k => p.getD k 0),
        len := max s'.len (x + 1) }
      (update D i { din' with size := off + n1 })
      (update F i (F i ++ p.take n1)) := by
  have hp1 : 0 < p.length := List.length_pos_iff.mpr hp
  have hb : BSIZE = 512 := rfl
  have hlow : off - off / 512 * 512 + n1 ≤ 512 ∧ 0 < n1 ∧ n1 ≤ p.length := by omega
  generalize hblk : overlay (s'.img x) (off - off / 512 * 512) n1 (fun k => p.getD k 0) = blk
  -- the size does not matter for the references
  have hD1 : update D i { din' with size := off } i = { din' with size := off } :=
    update_self ..
  have hD2 : update D i { din' with size := off + n1 }
      = update (update D i { din' with size := off }) i { din' with size := off + n1 } :=
    (update_idem ..).symm
  obtain ⟨hB, hfb⟩ := hf.blocks.write hf.own hf.pos blk
  have hfb2 : ∀ j bn, fileBlock sb (update D i { din' with size := off + n1 })
      (update s'.img x blk) j bn
        = if j = i ∧ bn = off / 512 then blk else fileBlock sb D s.img j bn := by
    intro j bn
    rw [hD2, fileBlock_update (by rw [hD1]) (by rw [hD1]), hfb, hf.same]
  have hB2 : Blocks sb (update s'.img x blk) s'.freeblock
      (update D i { din' with size := off + n1 })
      (update (fun j => refs (blocksFor (F j).length)) i (refs (off / 512 + 1))) := by
    refine hB.of_own ?_
    rw [hD2]
    exact own_update (by rw [hD1]) (by rw [hD1])
  have hlen2 : (F i ++ p.take n1).length = off + n1 := by
    rw [List.length_append, List.length_take]
    omega
  have hS : update (fun j => refs (blocksFor (F j).length)) i (refs (off / 512 + 1))
      = fun j => refs (blocksFor (update F i (F i ++ p.take n1) j).length) := by
    funext j
    by_cases hj : j = i
    · subst hj
      rw [update_self, update_self, hlen2, blocksFor]
      congr 1
      omega
    · rw [update_of_ne hj, update_of_ne hj]
  have hu2 : Used sb (update D i { din' with size := off + n1 }) i := by
    refine ⟨hu.1, ?_⟩
    have := hu.2
    rw [hdin] at this
    rw [update_self, hcore]
    exact this
  have hmax : off + n1 ≤ MAXFILE * BSIZE := by
    rw [hb]
    omega
  refine ⟨?_, hsame, hS ▸ hB2, fun j o ho => ?_, fun j => ?_, fun j => ?_, fun j => ?_⟩
  · dsimp only
    omega
  · unfold fileByte
    dsimp only
    rw [hfb2]
    by_cases hj : j = i
    · subst hj
      rw [update_self] at ho ⊢
      rw [hlen2] at ho
      have hold : o < off → fileBlock sb D s.img j (o / BSIZE) (o % BSIZE) = (F j).getD o 0 :=
        fun h => hc.bytes j o (hoff ▸ h)
      have hgetD : (F j ++ p.take n1).getD o 0 = if o < off then (F j).getD o 0 else p.getD (o - off) 0 := by
        split
        · next h => rw [List.getD_append _ _ _ _ (hoff ▸ h)]
        · next h =>
          rw [List.getD_append_right _ _ _ _ (by omega), ← hoff, List.getD_eq_getElem?_getD,
            List.getElem?_take, if_pos (by omega), List.getD_eq_getElem?_getD]
      rw [hgetD]
      by_cases hbn : o / BSIZE = off / 512
      · rw [if_pos ⟨rfl, hbn⟩, ← hblk]
        rw [hb] at hbn ⊢
        by_cases hlt : o < off
        · rw [if_pos hlt, overlay_of_not_mem (by omega), ← hold hlt, hb, hbn, ← hf.same j (off / 512),
            fileBlock_of_own (by rw [hf.own]; exact hf.pos), hf.own]
        · rw [if_neg hlt, overlay_of_mem (by omega) (by omega)]
          congr 1
          omega
      · rw [hb] at hbn
        rw [if_neg fun h => hbn (hb ▸ h.2), if_pos (by omega)]
        exact hold (by omega)
    · rw [update_of_ne hj] at ho ⊢
      rw [if_neg fun h => hj h.1]
      exact hc.bytes j o ho
  · by_cases hj : j = i
    · subst hj
      rw [update_self, update_self, hlen2]
    · rw [update_of_ne hj, update_of_ne hj]
      exact hc.size j
  · by_cases hj : j = i
    · subst hj
      rw [update_self, hlen2]
      exact hmax
    · rw [update_of_ne hj]
      exact hc.bound j
  · by_cases hj : j = i
    · subst hj
      have hok := hc.ok j
      rw [hdin] at hok
      refine ok_of_blocks hsize hB2 hu2 hok ?_ ?_ ?_
      · rw [update_self, hcore]
      · rw [update_self]
        have : MAXFILE * BSIZE < 2 ^ 32 := by decide
        dsimp only
        omega
      · rw [update_self]
        exact haddrs
    · rw [update_of_ne hj]
      exact hc.ok j

/-- Appending what `P` says there is room for. -/
theorem wp_iappendLoop (hsize : sb.size < 2 ^ 32) (fuel : Nat) :
    ∀ {s : State} {D : Nat → Dinode} {F : Nat → List UInt8} {din : Dinode} {off : Nat} {p : List UInt8},
      p.length ≤ fuel → Core sb s D F → Used sb D i → off = (F i).length →
      D i = { din with size := off } →
      (P → off + p.length ≤ MAXFILE * BSIZE ∧
        sb.datastart + need sb (update F i (F i ++ p)) ≤ sb.size) →
      wp (fun _ => ¬ P) (iappendLoop fuel din off p) (fun r s' =>
        Core sb s' (update D i { r.1 with size := r.2 }) (update F i (F i ++ p)) ∧
        r.1 = { din with addrs := r.1.addrs } ∧ r.2 = off + p.length ∧ s'.freeinode = s.freeinode ∧
        ∀ sec < sb.datastart, s'.img sec = s.img sec) s := by
  have hnil : ∀ {s : State} {D : Nat → Dinode} {F : Nat → List UInt8} {din : Dinode} {off : Nat},
      Core sb s D F → D i = { din with size := off } →
      Core sb s (update D i { din with size := off }) (update F i (F i ++ [])) := by
    intro s D F din off hc hdin
    rw [List.append_nil, ← hdin, update_eq_self, update_eq_self]
    exact hc
  induction fuel with
  | zero =>
    intro s D F din off p hlen hc hu hoff hdin hP
    obtain rfl := List.length_eq_zero_iff.mp (Nat.le_zero.mp hlen)
    exact ⟨hnil hc hdin, rfl, rfl, rfl, fun _ _ => rfl⟩
  | succ fuel ih =>
    intro s D F din off p hlen hc hu hoff hdin hP
    rw [iappendLoop]
    by_cases hp : p = []
    · subst hp
      rw [if_pos rfl]
      exact ⟨hnil hc hdin, rfl, rfl, rfl, fun _ _ => rfl⟩
    · have hp1 : 0 < p.length := List.length_pos_iff.mpr hp
      have hb : BSIZE = 512 := rfl
      rw [if_neg hp, wp_bind, wp_assert]
      split
      · next hfbn =>
        have hcount := hc.blocks.count
        have hroom : P → s.freeblock + (refs (off / 512 + 1)).card
            ≤ sb.size + (refs (blocksFor (F i).length)).card := by
          intro h
          have h1 := (hP h).2
          have h2 := need_update hu.1 (F i ++ p) (F := F)
          have h3 : (refs (off / 512 + 1)).card ≤ (refs (blocksFor (F i ++ p).length)).card := by
            refine card_le_card (refs_mono ?_)
            rw [List.length_append, ← hoff, blocksFor]
            omega
          unfold need at h1 h2
          omega
        rw [wp_bind]
        refine wp_mono (wp_iappendBlock (P := P) hsize hc.len hc.same hc.blocks hu hdin rfl hfbn ?_
          hroom) fun r s₁ hr => ?_
        · rw [← hoff, blocksFor]
          omega
        obtain ⟨din₁, x⟩ := r
        obtain ⟨e1, e2, e3, e4, e5, e6, e7⟩ := hr
        dsimp only at e4 e5 e6 e7 ⊢
        rw [wp_bind, wp_rsect]
        split
        · next hx =>
          rw [e1] at hx
          have hf := e7 hx
          rw [wp_bind, wp_wsect]
          have hc₂ := hc.round hsize hu hoff hfbn hdin e4 e5 hp e1 e2 hx hf rfl
          generalize hn1 : min p.length ((off / 512 + 1) * 512 - off) = n1 at hc₂ ⊢
          have hlen₂ : (F i ++ p.take n1).length = off + n1 := by
            rw [List.length_append, List.length_take]
            omega
          have hu₂ : Used sb (update D i { din₁ with size := off + n1 }) i := by
            refine ⟨hu.1, ?_⟩
            have := hu.2
            rw [hdin] at this
            rw [update_self, e4]
            exact this
          have happ : F i ++ p.take n1 ++ p.drop n1 = F i ++ p := by
            rw [List.append_assoc, List.take_append_drop]
          refine wp_mono (ih (p := p.drop n1) ?_ hc₂ hu₂ ?_ (update_self ..) ?_)
            fun r s' hr => ?_
          · rw [List.length_drop]
            omega
          · rw [update_self, hlen₂]
          · intro h
            rw [update_self, update_idem, happ, List.length_drop]
            exact ⟨by have := (hP h).1; omega, (hP h).2⟩
          · obtain ⟨g1, g2, g3, g4, g5⟩ := hr
            rw [update_self, update_idem, update_idem, happ] at g1
            refine ⟨g1, ?_, ?_, g4.trans e3, fun sec hsec => ?_⟩
            · rw [g2, e4]
            · rw [g3, List.length_drop]
              omega
            · rw [g5 sec hsec]
              have hge : sb.datastart ≤ x := by
                have := (hf.blocks.ledger.range (i, didx (off / 512)) (by rw [hf.own]; exact hf.pos)).1
                rwa [hf.own] at this
              exact (update_of_ne (by omega) ..).trans (hf.low sec hsec)
        · next hx => exact e6 (by omega)
      · next hfbn =>
        intro h
        have := (hP h).1
        rw [hb] at this
        omega

end Loop

/-! ### The invariant of `mkfs` -/

/-- Between two operations of `mkfs`: the inodes on the image hold the bytes `F`, those from 1 to
`freeinode` are taken, and nothing else has been written but the superblock. -/
structure Inv (sb : Superblock) (s : State) (D : Nat → Dinode) (F : Nat → List UInt8) : Prop
    extends Core sb s D F where
  disk : ∀ i < sb.ninodes, diskInode s.img i = D i
  super : s.img 1 = putSuperblock sb
  bitmap : ∀ x, sb.ninodes / IPB + 3 ≤ x → x < sb.datastart → s.img x = zero
  start : 0 < s.freeinode
  inodes : s.freeinode ≤ sb.ninodes
  used : ∀ i, 0 < i → i < s.freeinode → (D i).type = T_DIR ∨ (D i).type = T_FILE
  unused : ∀ i, i = 0 ∨ s.freeinode ≤ i → D i = Dinode.zero ∧ F i = []

section Operations

theorem Inv.isUsed {s : State} (hv : Inv sb s D F) (h0 : 0 < i)
    (hi : i < s.freeinode) : Used sb D i := by
  refine ⟨hi.trans_le hv.inodes, ?_⟩
  rcases hv.used i h0 hi with h | h <;> rw [h] <;> decide

variable {s : State} {P : Prop} {F : Nat → List UInt8} {p : List UInt8} {d : Dinode}

theorem iblock_lt_bitmap (hi : i < sb.ninodes) : IBLOCK i < sb.ninodes / IPB + 3 := by
  unfold IBLOCK IPB
  omega

theorem Core.iblock_lt_len (hc : Core sb s D F) (hdata : sb.datastart ≤ sb.size) (hi : i < sb.ninodes) :
    i2b i < s.len := by
  have h1 : i2b i < sb.datastart := Geometry.iblock_lt hi
  rw [hc.len]
  omega

theorem Core.wp_rinode (hc : Core sb s D F) (hdata : sb.datastart ≤ sb.size) (hi : i < sb.ninodes)
    {Q : Dinode → State → Prop} :
    wp E (rinode i) Q s ↔ Q (diskInode s.img i) s := by
  unfold rinode
  rw [wp_bind, wp_rsect, if_pos (hc.iblock_lt_len hdata hi)]
  rfl

theorem Core.wp_winode (hc : Core sb s D F) (hdata : sb.datastart ≤ sb.size) (hi : i < sb.ninodes)
    {Q : Unit → State → Prop} :
    wp E (winode i d) Q s ↔ Q () { s with img := storeInode s.img i d } := by
  have hlt := hc.iblock_lt_len hdata hi
  unfold winode
  rw [wp_bind, wp_rsect, if_pos hlt, wp_wsect]
  have hlen : max s.len (i2b i + 1) = s.len := by omega
  rw [hlen]
  rfl

theorem storeInode_of_ge (hi : i < sb.ninodes) {x : Nat} (hx : sb.ninodes / IPB + 3 ≤ x) :
    storeInode img i d x = img x := by
  have := iblock_lt_bitmap hi
  exact update_of_ne (by omega) ..

theorem storeInode_one : storeInode img i d 1 = img 1 := by
  have := Geometry.one_lt_iblock (i := i)
  exact update_of_ne (by omega) ..

theorem Core.storeInode (hc : Core sb s D F) (hi : i < sb.ninodes) :
    Core sb { s with img := storeInode s.img i d } D F := by
  have hlow : sb.ninodes / IPB + 3 ≤ sb.datastart := Nat.le_add_right _ _
  have hown : own sb D (Xv6.storeInode s.img i d) = own sb D s.img := by
    refine own_congr fun j hj h0 => ?_
    rw [← own_indirect s.img hj] at h0 ⊢
    exact storeInode_of_ge hi (hlow.trans (hc.blocks.ledger.range _ h0).1)
  have hfile : ∀ j bn, fileBlock sb D (Xv6.storeInode s.img i d) j bn = fileBlock sb D s.img j bn := by
    intro j bn
    unfold fileBlock
    rw [hown]
    by_cases h0 : own sb D s.img (j, didx bn) = 0
    · rw [if_pos h0, if_pos h0]
    · rw [if_neg h0, if_neg h0, storeInode_of_ge hi (hlow.trans (hc.blocks.ledger.range _ h0).1)]
  refine ⟨hc.len, hc.same, ⟨hown ▸ hc.blocks.ledger, hown ▸ hc.blocks.held, fun b hb => ?_,
    hc.blocks.count, hc.blocks.le⟩, fun j o ho => ?_, hc.size, hc.bound, hc.ok⟩
  · exact (storeInode_of_ge hi (hlow.trans (hc.blocks.ge.trans hb))).trans (hc.blocks.fresh b hb)
  · unfold fileByte
    rw [hfile]
    exact hc.bytes j o ho

/-- **`iappend`** appends bytes to one inode. -/
theorem wp_iappend (hsize : sb.size < 2 ^ 32) (hdata : sb.datastart ≤ sb.size) (hv : Inv sb s D F)
    (h0 : 0 < i) (hi : i < s.freeinode)
    (hP : P → (F i).length + p.length ≤ MAXFILE * BSIZE ∧
      sb.datastart + need sb (update F i (F i ++ p)) ≤ sb.size) :
    wp (fun _ => ¬ P) (iappend i p) (fun _ s' => s'.freeinode = s.freeinode ∧
      ∃ D', Inv sb s' D' (update F i (F i ++ p))) s := by
  have hin : i < sb.ninodes := hi.trans_le hv.inodes
  have hu := hv.isUsed h0 hi
  have hdin : D i = { D i with size := (D i).size } := rfl
  unfold iappend
  rw [wp_bind, hv.toCore.wp_rinode hdata hin, hv.disk i hin, wp_bind]
  refine wp_mono (wp_iappendLoop (P := P) hsize p.length le_rfl hv.toCore hu (hv.size i) hdin
    (by rw [hv.size i]; exact hP)) fun r s₁ hr => ?_
  obtain ⟨din, off⟩ := r
  obtain ⟨hc, hcore, hoff, hfree, hlow⟩ := hr
  dsimp only at hc hcore hoff ⊢
  rw [hc.wp_winode hdata hin]
  have hlt := Geometry.iblock_lt hin
  have h1 := Geometry.one_lt_iblock (i := i)
  refine ⟨hfree, update D i { din with size := off }, hc.storeInode hin, fun j hj => ?_, ?_, ?_,
    ?_, ?_, fun j hj1 hj2 => ?_, fun j hj => ?_⟩
  · dsimp only
    by_cases hji : j = i
    · subst hji
      have hok := hc.ok j
      rw [update_self] at hok ⊢
      exact diskInode_storeInode_self hok
    · rw [diskInode_storeInode_of_ne hji, update_of_ne hji, ← hv.disk j hj]
      unfold diskInode
      rw [hlow _ (Geometry.iblock_lt hj)]
  · dsimp only
    rw [storeInode_one, hlow 1 (by omega), hv.super]
  · intro x hx1 hx2
    exact (storeInode_of_ge hin hx1).trans ((hlow x hx2).trans (hv.bitmap x hx1 hx2))
  · exact hfree.symm ▸ hv.start
  · exact hfree.symm ▸ hv.inodes
  · by_cases hji : j = i
    · subst hji
      rw [update_self, hcore]
      exact hv.used j h0 hi
    · rw [update_of_ne hji]
      exact hv.used j hj1 (hfree ▸ hj2)
  · have hji : j ≠ i := by
      rintro rfl
      rcases hj with rfl | hj
      · exact absurd h0 (lt_irrefl 0)
      · exact absurd hi (by dsimp only at hj; omega)
    rw [update_of_ne hji, update_of_ne hji]
    exact hv.unused j (hj.imp_right fun h => hfree ▸ h)

/-- **`ialloc`** takes the next inode, which is empty. -/
theorem wp_ialloc (hdata : sb.datastart ≤ sb.size) (hv : Inv sb s D F) (hi : s.freeinode < sb.ninodes)
    {type : Int} (ht : type = T_DIR ∨ type = T_FILE) :
    wp (fun _ => False) (ialloc type) (fun inum s' => inum = s.freeinode ∧
      s'.freeinode = s.freeinode + 1 ∧ ∃ D', Inv sb s' D' F) s := by
  obtain ⟨hz, hF⟩ := hv.unused s.freeinode (Or.inr le_rfl)
  have hts : IsShort type := by rcases ht with rfl | rfl <;> simp [IsShort, T_DIR, T_FILE]
  have hok : (newInode type).Ok :=
    ⟨hts, by simp [newInode, IsShort], by simp [newInode, IsShort], by simp [newInode, IsShort],
      by simp [newInode], by simp [newInode], by simp [newInode]⟩
  -- the new inode holds no block
  have hown : own sb (update D s.freeinode (newInode type)) s.img = own sb D s.img := by
    funext r
    obtain ⟨j, idx⟩ := r
    by_cases hj : j = s.freeinode
    · subst hj
      have hnew : ∀ k, (newInode type).addrs k = 0 := fun _ => rfl
      have hbref : bref s.img (newInode type) idx = 0 := by
        unfold bref
        rw [hnew, if_pos (hnew NDIRECT), ite_self]
      unfold own
      dsimp only
      rw [update_self, hbref, ite_self, hz, if_neg (by simp [Dinode.zero])]
    · unfold own
      simp only [update_of_ne hj]
  have hfile : ∀ j bn, fileBlock sb (update D s.freeinode (newInode type)) s.img j bn
      = fileBlock sb D s.img j bn := by
    intro j bn
    unfold fileBlock
    rw [hown]
  have hc : Core sb { s with freeinode := s.freeinode + 1 }
      (update D s.freeinode (newInode type)) F := by
    refine ⟨hv.len, hv.same, hv.blocks.of_own hown, fun j o ho => ?_, fun j => ?_, hv.bound, fun j => ?_⟩
    · unfold fileByte
      rw [hfile]
      exact hv.bytes j o ho
    · by_cases hj : j = s.freeinode
      · subst hj
        rw [update_self, hF]
        rfl
      · rw [update_of_ne hj]
        exact hv.size j
    · by_cases hj : j = s.freeinode
      · subst hj
        rw [update_self]
        exact hok
      · rw [update_of_ne hj]
        exact hv.ok j
  unfold ialloc
  change wp _ (winode s.freeinode (newInode type) >>= fun _ => pure s.freeinode) _
    { s with freeinode := s.freeinode + 1 }
  rw [wp_bind, hc.wp_winode hdata hi, wp_pure]
  refine ⟨rfl, rfl, _, hc.storeInode hi, fun j hj => ?_, ?_, fun x hx1 hx2 => ?_, Nat.succ_pos _, hi,
    fun j hj1 hj2 => ?_, fun j hj => ?_⟩
  · dsimp only
    by_cases hji : j = s.freeinode
    · subst hji
      rw [diskInode_storeInode_self hok, update_self]
    · rw [diskInode_storeInode_of_ne hji, update_of_ne hji]
      exact hv.disk j hj
  · dsimp only
    rw [storeInode_one, hv.super]
  · exact (storeInode_of_ge hi hx1).trans (hv.bitmap x hx1 hx2)
  · by_cases hji : j = s.freeinode
    · subst hji
      rw [update_self]
      exact ht
    · rw [update_of_ne hji]
      dsimp only at hj2
      exact hv.used j hj1 (by omega)
  · have hstart := hv.start
    have hji : j ≠ s.freeinode := by
      rintro rfl
      dsimp only at hj
      omega
    rw [update_of_ne hji]
    dsimp only at hj
    exact hv.unused j (hj.imp_right fun h => by omega)

theorem wp_zeroSectors {E : Stop → Prop} {Q : Unit → State → Prop} (n : Nat) :
    ∀ {s : State}, s.img = (fun _ => zero) →
      (wp E (zeroSectors n) Q s ↔ Q () { s with len := max s.len n }) := by
  induction n generalizing Q with
  | zero =>
    intro s _
    rw [Nat.max_zero]
    rfl
  | succ n ih =>
    intro s hs
    have hupd : update s.img n zero = s.img := by
      rw [hs]
      exact update_eq_self n fun _ => zero
    unfold zeroSectors
    rw [wp_bind, ih hs, wp_wsect]
    dsimp only
    rw [hupd, show max (max s.len n) (n + 1) = max s.len (n + 1) by omega]

/-- **`format`** makes an image with no inode in use. -/
theorem wp_format (hg : FreshGeometry sb) :
    wp E (format sb) (fun _ s' => s'.freeinode = 1 ∧ Inv sb s' (fun _ => Dinode.zero) fun _ => [])
      init := by
  have htotal := hg.total
  have hpos := Geometry.datastart_pos sb
  have hroot := hg.root
  have hused : sb.ninodes / IPB + 3 + (sb.size / (512 * 8) + 1) = sb.datastart := rfl
  have hown : ∀ img r, own sb (fun _ => Dinode.zero) img r = 0 := by
    intro img r
    exact if_neg fun h => h.2.1 rfl
  unfold format
  dsimp only
  rw [hused, wp_bind, wp_modify, wp_bind, wp_assert, if_pos htotal, htotal, wp_bind,
    wp_zeroSectors _ rfl, wp_wsect]
  -- only the superblock has been written
  change 1 = 1 ∧ Inv sb ⟨update (fun _ => zero) 1 (putSuperblock sb), max (max 0 sb.size) 2,
    sb.datastart, sb.datastart, 1⟩ _ _
  have himg : ∀ x, x ≠ 1 → update (fun _ => zero) 1 (putSuperblock sb) x = zero :=
    fun x hx => update_of_ne hx ..
  have hsuper : update (fun _ => zero) 1 (putSuperblock sb) 1 = putSuperblock sb :=
    update_self ..
  refine ⟨rfl, ⟨?_, rfl, ⟨⟨fun r hr => ?_, fun r r' hr _ => ?_, fun b h1 h2 => ?_⟩, fun i idx => ?_,
    fun b hb => ?_, ?_, by dsimp only; omega⟩, fun i o ho => absurd ho (Nat.not_lt_zero o), fun _ => rfl,
    fun _ => Nat.zero_le _, fun _ => Dinode.zero_ok⟩, fun i hi => ?_, hsuper, ?_,
    Nat.one_pos, Nat.le_of_lt hroot, fun i h0 h1 => ?_, fun _ _ => ⟨rfl, rfl⟩⟩
  · dsimp only
    omega
  · exact absurd (hown _ r) hr
  · exact absurd (hown _ r) hr
  · rw [decide_eq_true_eq]
    refine iff_of_false (by dsimp only; omega) ?_
    rintro ⟨r, hr⟩
    rw [hown] at hr
    omega
  · rw [hown]
    exact iff_of_false (fun h => h rfl) (notMem_empty idx)
  · exact himg b (by dsimp only at hb; omega)
  · show sb.datastart = sb.datastart + ∑ i ∈ Finset.range sb.ninodes, 0
    rw [sum_const_zero]
    rfl
  · have h1 := Geometry.one_lt_iblock (i := i)
    change getDinode (update (fun _ => zero) 1 (putSuperblock sb) (IBLOCK i)) (i % IPB) = _
    rw [himg _ (by omega), getDinode_zero]
  · intro x hx _
    exact himg x (show x ≠ 1 by generalize sb.ninodes / IPB = e at hx; omega)
  · exact absurd h0 (by dsimp only at h1; omega)

end Operations

end Xv6.Mkfs
