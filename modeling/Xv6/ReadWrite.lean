import Xv6.Content
import Xv6.Update

/-!
# Reading and writing

`readi` returns the bytes of an inode and changes nothing (`hwp_readiFile`); `writei` overlays
them (`hwp_writeiFile`). Both work block by block; the loops are by induction on
the rounds left, with the bytes done so far as an overlay.
-/

open Bytes Device Function Finset

namespace Xv6

/-! ### Bytes -/

/-- Byte `o` of the contents of inode `i`. -/
def fileByte (sb : Superblock) (D : Nat → Dinode) (buf : Nat → Block) (i o : Nat) : UInt8 :=
  fileBlock sb D buf i (o / BSIZE) (o % BSIZE)

/-- Every block of inode `i` below its size is mapped. -/
structure Mapped (sb : Superblock) (D : Nat → Dinode) (buf : Nat → Block) (i : Nat) : Prop where
  size : (D i).size ≤ MAXFILE * BSIZE
  block : ∀ bn, bn * BSIZE < (D i).size → own sb D buf (i, didx bn) ≠ 0

/-- The result of `readi` on contents of the given size. -/
def readResult (size : Nat) (byte : Nat → UInt8) (off n : Nat) : Option (Nat × (Nat → UInt8)) :=
  if size < off ∨ uadd off n < off then none
  else
    let n := if size < uadd off n then size - off else n
    some (n, overlay zero 0 n fun x => byte (off + x))

theorem overlay_overlay {b : Block} {o m n : Nat} {src src' : Nat → UInt8} {f : Nat → UInt8}
    (hm : m ≤ n) (h1 : ∀ x < m, src x = f x) (h2 : ∀ x < n - m, src' x = f (m + x)) :
    overlay (overlay b o m src) (o + m) (n - m) src' = overlay b o n f := by
  funext x
  by_cases hx : o ≤ x ∧ x < o + n
  · rw [overlay_of_mem (n := n) hx.1 hx.2]
    by_cases hx' : x < o + m
    · rw [overlay_of_not_mem (by omega), overlay_of_mem hx.1 hx', h1 _ (by omega)]
    · rw [overlay_of_mem (by omega) (by omega), h2 _ (by omega)]
      congr 1
      omega
  · rw [overlay_of_not_mem (by omega), overlay_of_not_mem (by omega), overlay_of_not_mem (by omega)]

theorem overlay_zero (b : Block) (o : Nat) (src : Nat → UInt8) : overlay b o 0 src = b :=
  funext fun _ => overlay_of_not_mem (by omega)

theorem overlay_round (dst : Nat → UInt8) (blk : Nat → Block) {tot n : Nat} (ht : tot < n) (off : Nat) :
    overlay (overlay dst tot (min (n - tot) (BSIZE - off % BSIZE)) fun x =>
        blk (off / BSIZE) (off % BSIZE + x))
      (tot + min (n - tot) (BSIZE - off % BSIZE)) (n - (tot + min (n - tot) (BSIZE - off % BSIZE)))
      (fun x => blk ((off + min (n - tot) (BSIZE - off % BSIZE) + x) / BSIZE)
        ((off + min (n - tot) (BSIZE - off % BSIZE) + x) % BSIZE))
      = overlay dst tot (n - tot) fun x => blk ((off + x) / BSIZE) ((off + x) % BSIZE) := by
  have hmod := Nat.mod_lt off (show 0 < BSIZE by decide)
  have hdm := Nat.div_add_mod off BSIZE
  generalize hm : min (n - tot) (BSIZE - off % BSIZE) = m
  rw [Nat.sub_add_eq, overlay_overlay (f := fun x => blk ((off + x) / BSIZE) ((off + x) % BSIZE)) (by omega)
    (fun x hx => ?_) fun x hx => ?_]
  · have hdiv : (off + x) / BSIZE = off / BSIZE := by
      unfold BSIZE at *
      omega
    have hmod' : (off + x) % BSIZE = off % BSIZE + x := by
      unfold BSIZE at *
      omega
    rw [hdiv, hmod']
  · rw [Nat.add_assoc]

theorem readLength_le {size off n : Nat} (hoff : off < 2 ^ 32) (hn : n < 2 ^ 32)
    (h : ¬ (size < off ∨ uadd off n < off)) :
    off + ((if size < uadd off n then size - off else n) - 0) ≤ size := by
  rw [not_or, Nat.not_lt, Nat.not_lt] at h
  rw [Nat.sub_zero]
  split
  · omega
  · next hle =>
    unfold uadd at hle h
    omega

section Read

variable {sb : Superblock} {h : Home} {D : Nat → Dinode} {st : Nat → Prop} {J : Policy Event}
  {i k : Nat}

theorem hwp_readiLoop (hf : FsInv sb h D st) (hc : Cached sb h D k i) (hl : h.locked = ∅)
    (hm : Mapped sb D h.buf i) {n : Nat} {Q : (Nat → UInt8) → Home → Prop} :
    ∀ fuel tot off dst, n ≤ tot + fuel → off + (n - tot) ≤ (D i).size →
      Q (overlay dst tot (n - tot) fun x => fileByte sb D h.buf i (off + x)) h →
      hwp J (readiLoop k n fuel tot off dst) Q h := by
  intro fuel
  induction fuel with
  | zero =>
    intro tot off dst hn _ hQ
    refine hwp_pure ?_
    rwa [show n - tot = 0 by omega, overlay_zero] at hQ
  | succ fuel ih =>
    intro tot off dst hn hsize hQ
    unfold readiLoop
    by_cases ht : tot < n
    · rw [if_pos ht]
      have hoff : off < (D i).size := by omega
      have hbn : off / BSIZE < MAXFILE := Nat.div_lt_of_lt_mul
        (by rw [Nat.mul_comm]; exact hoff.trans_le hm.size)
      have ho := hm.block (off / BSIZE) ((Nat.div_mul_le_self _ _).trans_lt hoff)
      refine hwp_bind (hwp_bmap_mapped hf hc hbn hl ho ?_)
      have hrange := hf.own_range ho
      refine hwp_bind (hwp_bread ?_ (by rw [hl]; simp) (by rw [hl]; simp)
        (hwp_bind (hwp_brelse (h.mem_lock _) ?_)))
      · rw [hf.based.start]
        exact hrange.2
      rw [h.unlock_lock (by rw [hl]; simp)]
      have hmod := Nat.mod_lt off (show 0 < BSIZE by decide)
      refine ih _ _ _ (by omega) (by omega) ?_
      rw [← fileBlock_of_own ho]
      have hround := overlay_round dst (fileBlock sb D h.buf i) ht off
      exact hround.symm ▸ hQ
    · rw [if_neg ht]
      refine hwp_pure ?_
      rwa [show n - tot = 0 by omega, overlay_zero] at hQ

/-- **`readi`** returns the bytes of the file and changes nothing. -/
theorem hwp_readiFile (hf : FsInv sb h D st) (hc : Cached sb h D k i) (hl : h.locked = ∅)
    (hm : Mapped sb D h.buf i) {off n : Nat} (hoff : off < 2 ^ 32) (hn : n < 2 ^ 32)
    {Q : Option (Nat × (Nat → UInt8)) → Home → Prop}
    (hQ : Q (readResult (D i).size (fileByte sb D h.buf i) off n) h) :
    hwp J (readiFile k off n) Q h := by
  unfold readiFile
  refine hwp_bind (hwp_get ?_)
  rw [hf.din_eq hc]
  unfold readResult at hQ
  by_cases hbad : (D i).size < off ∨ uadd off n < off
  · rw [if_pos hbad] at hQ ⊢
    exact hwp_pure hQ
  · rw [if_neg hbad] at hQ ⊢
    refine hwp_bind (hwp_readiLoop hf hc hl hm _ _ _ _ (by omega) (readLength_le hoff hn hbad)
      (hwp_pure ?_))
    exact hQ

end Read

/-! ### Writing -/

section Write

variable {sb : Superblock} {h : Home} {D : Nat → Dinode} {st : Nat → Prop} {J : Policy Event}
  {i k bn : Nat} {data : Block}

theorem FsInv.own_logw (hf : FsInv sb h D st) :
    own sb D (h.logw (own sb D h.buf (i, didx bn)) data).buf = own sb D h.buf := by
  refine own_congr fun j hj h0 => ?_
  rw [← own_indirect h.buf hj] at h0 ⊢
  rw [Home.logw_buf, update_of_ne]
  intro he
  have := hf.ledger.inj _ _ h0 he
  exact didx_ne bn (Prod.mk.inj this).2.symm

theorem FsInv.logw_low (hf : FsInv sb h D st) (ho : own sb D h.buf (i, didx bn) ≠ 0) {x : Nat}
    (hx : x < sb.datastart) : (h.logw (own sb D h.buf (i, didx bn)) data).buf x = h.buf x := by
  have := (hf.own_range ho).1
  rw [Home.logw_buf, update_of_ne (by omega)]

theorem FsInv.bit_logw (hf : FsInv sb h D st) (ho : own sb D h.buf (i, didx bn) ≠ 0) {c : Nat}
    (hc : c < sb.cap) : bitOf (h.logw (own sb D h.buf (i, didx bn)) data).buf sb.ninodes c
      = bitOf h.buf sb.ninodes c := by
  unfold bitOf
  rw [hf.logw_low ho (Geometry.bblock_lt hc)]

theorem FsInv.writeBlock (hf : FsInv sb h D st) (ho : own sb D h.buf (i, didx bn) ≠ 0) :
    FsInv sb (h.logw (own sb D h.buf (i, didx bn)) data) D st := by
  have hpos := Geometry.datastart_pos sb
  refine ⟨⟨hf.based.geo, hf.based.start, ?_⟩, ?_, ?_, ?_⟩
  · rw [hf.logw_low ho (by omega)]
    exact hf.based.super
  · rw [hf.own_logw]
    refine ⟨hf.ledger.range, hf.ledger.inj, fun c h1 h2 => ?_⟩
    rw [hf.bit_logw ho h2]
    exact hf.ledger.marked c h1 h2
  · intro c hc
    rw [hf.bit_logw ho ((hc.trans_le hf.based.geo.data).trans_le Geometry.logstart_le_cap)]
    exact hf.low c hc
  · refine hf.rep.congr rfl fun j hj _ => ?_
    unfold diskInode
    rw [hf.logw_low ho (Geometry.iblock_lt hj)]

theorem FsInv.writeBlock_edit (hf : FsInv sb h D st) (hc : Cached sb h D k i)
    (ho : own sb D h.buf (i, didx bn) ≠ 0) :
    Edit sb k i {didx bn} (Function.update (fileBlock sb D h.buf i) bn data) h
      (h.logw (own sb D h.buf (i, didx bn)) data) D D := by
  have hown : own sb D (h.logw (own sb D h.buf (i, didx bn)) data).buf = own sb D h.buf :=
    hf.own_logw
  have hblock : ∀ j bn', (j, didx bn') ≠ (i, didx bn) →
      fileBlock sb D (h.logw (own sb D h.buf (i, didx bn)) data).buf j bn'
        = fileBlock sb D h.buf j bn' := by
    intro j bn' hne
    unfold fileBlock
    rw [hown]
    by_cases h0 : own sb D h.buf (j, didx bn') = 0
    · rw [if_pos h0, if_pos h0]
    · rw [if_neg h0, if_neg h0, Home.logw_buf, update_of_ne]
      exact fun he => hne (hf.ledger.inj _ _ h0 he)
  refine ⟨fun _ _ => rfl, rfl, fun _ _ => rfl, fun bn' => ?_, fun j hj bn' => ?_,
    fun r _ => by rw [hown], fun j hj => ?_, ?_, rfl, rfl, fun x hx => ?_, fun T _ => ?_⟩
  · by_cases hb : bn' = bn
    · subst hb
      rw [update_self, fileBlock_of_own (by rwa [hown]), hown, Home.logw_buf,
        update_self]
    · rw [update_of_ne hb]
      exact hblock i bn' fun he => hb (didx_inj (Prod.mk.inj he).2)
  · exact hblock j bn' fun he => hj (Prod.mk.inj he).1
  · unfold diskInode
    rw [hf.logw_low ho (Geometry.iblock_lt hj)]
  · exact (setDinode_eq_self (m := h.mem.setLh
      (h.logw (own sb D h.buf (i, didx bn)) data).mem.log.lh) (d := D i) (hf.din_eq hc)).symm
  · rcases (mem_record _ _).mp hx with hx | hx
    · exact Or.inl hx
    · refine Or.inr (Or.inr ⟨didx bn, mem_singleton_self _, ?_⟩)
      rw [hown]
      exact ⟨ho, hx.symm⟩
  · have hfree : freeBlocks sb (h.logw (own sb D h.buf (i, didx bn)) data).buf
        = freeBlocks sb h.buf := by
      unfold freeBlocks
      refine filter_congr fun c hcm => ?_
      rw [hf.bit_logw ho ((mem_Ico.mp hcm).2.trans_le Geometry.logstart_le_cap)]
    unfold missing
    rw [hown, hfree]

/-- The references that writing `len` bytes at `off` goes through. -/
def refsIn (off len : Nat) : Finset Nat :=
  ((Finset.range MAXFILE).filter fun bn =>
    0 < len ∧ off < (bn + 1) * BSIZE ∧ bn * BSIZE < off + len).biUnion refsOf

/-- The contents after `len` bytes of `src` have been written at `off`. -/
def written (V : Nat → Block) (off len : Nat) (src : Nat → UInt8) (bn : Nat) : Block := fun r =>
  if r < BSIZE ∧ off ≤ bn * BSIZE + r ∧ bn * BSIZE + r < off + len then src (bn * BSIZE + r - off)
  else V bn r

theorem refsOf_subset_refsIn {off len : Nat} (hbn : bn < MAXFILE) (h0 : 0 < len)
    (h1 : off < (bn + 1) * BSIZE) (h2 : bn * BSIZE < off + len) : refsOf bn ⊆ refsIn off len :=
  subset_biUnion_of_mem refsOf
    (mem_filter.mpr ⟨mem_range.mpr hbn, h0, h1, h2⟩)

theorem refsIn_mono {off len off' len' : Nat} (h1 : off ≤ off') (h2 : off' + len' ≤ off + len) :
    refsIn off' len' ⊆ refsIn off len := by
  refine biUnion_subset_biUnion_of_subset_left _ fun bn hbn => ?_
  obtain ⟨hb, h0, h3, h4⟩ := mem_filter.mp hbn
  exact mem_filter.mpr ⟨hb, by omega, by omega, by omega⟩

theorem didx_mem_refsOf (bn : Nat) : didx bn ∈ refsOf bn := by
  unfold didx refsOf
  split
  · exact mem_singleton_self _
  · exact mem_insert_of_mem (mem_singleton_self _)

/-- Writing the first block of a range and then the rest is writing the range. -/
theorem written_step {V : Nat → Block} {off len m tot : Nat} {src : Nat → UInt8}
    (hm : m = min len (BSIZE - off % BSIZE)) :
    written (Function.update V (off / BSIZE)
        (overlay (V (off / BSIZE)) (off % BSIZE) m fun x => src (tot + x)))
      (off + m) (len - m) (fun x => src (tot + m + x))
      = written V off len fun x => src (tot + x) := by
  have hmod := Nat.mod_lt off (show 0 < BSIZE by decide)
  have hdm := Nat.div_add_mod off BSIZE
  funext bn' r
  unfold written
  by_cases hr : r < BSIZE
  · by_cases h1 : off + m ≤ bn' * BSIZE + r ∧ bn' * BSIZE + r < off + len
    · rw [if_pos ⟨hr, h1.1, by omega⟩, if_pos ⟨hr, by omega, h1.2⟩]
      change src _ = src _
      congr 1
      omega
    · rw [if_neg (by omega)]
      by_cases hbn : bn' = off / BSIZE
      · subst hbn
        rw [update_self]
        by_cases h2 : off ≤ off / BSIZE * BSIZE + r ∧ off / BSIZE * BSIZE + r < off + len
        · rw [overlay_of_mem (by unfold BSIZE at *; omega) (by unfold BSIZE at *; omega),
            if_pos ⟨hr, h2⟩]
          change src _ = src _
          congr 1
          unfold BSIZE at *
          omega
        · rw [overlay_of_not_mem (by unfold BSIZE at *; omega), if_neg (by tauto)]
      · rw [update_of_ne hbn, if_neg (by unfold BSIZE at *; omega)]
  · rw [if_neg (by tauto), if_neg (by tauto)]
    by_cases hbn : bn' = off / BSIZE
    · subst hbn
      rw [update_self, overlay_of_not_mem (by omega)]
    · rw [update_of_ne hbn]

theorem written_zero {V : Nat → Block} {off : Nat} {src : Nat → UInt8} : written V off 0 src = V := by
  funext bn r
  unfold written
  rw [if_neg (by omega)]

/-- Every block of a range is mapped. -/
def MappedIn (sb : Superblock) (D : Nat → Dinode) (buf : Nat → Block) (i off len : Nat) : Prop :=
  0 < len → ∀ bn, off < (bn + 1) * BSIZE → bn * BSIZE < off + len →
    own sb D buf (i, didx bn) ≠ 0

theorem hwp_writeiLoop (hJ : BlockPolicy sb J) {n : Nat} {src : Nat → UInt8}
    {Q : Nat → Home → Prop} :
    ∀ fuel tot off h D, n ≤ tot + fuel → FsInv sb h D (fun j => st j ∨ j = i) →
      Cached sb h D k i → h.locked = ∅ → CanLog J h.mem → off + (n - tot) ≤ MAXFILE * BSIZE →
      Room J sb D h.buf i (refsIn off (n - tot)) →
      (∀ h' D', FsInv sb h' D' (fun j => st j ∨ j = i) →
        Edit sb k i (refsIn off (n - tot))
          (written (fileBlock sb D h.buf i) off (n - tot) fun x => src (tot + x)) h h' D D' →
        MappedIn sb D' h'.buf i off (n - tot) → Q (off + (n - tot)) h') →
      hwp J (writeiLoop k n src fuel tot off) Q h := by
  intro fuel
  have hdone : ∀ tot off h D, n ≤ tot → FsInv sb h D (fun j => st j ∨ j = i) →
      Cached sb h D k i → (∀ h' D', FsInv sb h' D' (fun j => st j ∨ j = i) →
        Edit sb k i (refsIn off (n - tot))
          (written (fileBlock sb D h.buf i) off (n - tot) fun x => src (tot + x)) h h' D D' →
        MappedIn sb D' h'.buf i off (n - tot) → Q (off + (n - tot)) h') → Q off h := by
    intro tot off h D hn hf hc hQ
    have h0 : n - tot = 0 := by omega
    have hq := hQ h D hf (by
      rw [h0, written_zero]
      exact (Edit.refl hf hc).mono (empty_subset _)) fun hpos => by omega
    rwa [h0] at hq
  induction fuel with
  | zero =>
    intro tot off h D hn hf hc _ _ _ _ hQ
    exact hwp_pure (hdone tot off h D (by omega) hf hc hQ)
  | succ fuel ih =>
    intro tot off h D hn hf hc hl hlog hmax hr hQ
    unfold writeiLoop
    by_cases ht : tot < n
    · rw [if_pos ht]
      have hmod := Nat.mod_lt off (show 0 < BSIZE by decide)
      have hdm := Nat.div_add_mod off BSIZE
      have hbn : off / BSIZE < MAXFILE := Nat.div_lt_of_lt_mul (by rw [Nat.mul_comm]; omega)
      have hsub : refsOf (off / BSIZE) ⊆ refsIn off (n - tot) :=
        refsOf_subset_refsIn hbn (by omega) (by unfold BSIZE at *; omega)
          (by unfold BSIZE at *; omega)
      refine hwp_bind (hwp_bmap hf hc hbn hl hlog hJ (hr.mono hsub) fun h₁ D₁ hf₁' e₁ ho => ?_)
      have hf₁ : FsInv sb h₁ D₁ (fun j => st j ∨ j = i) := hf₁'.weaken fun j hj => hj.elim id Or.inr
      have hc₁ := e₁.cached hc
      have hl₁ : h₁.locked = ∅ := e₁.locked.trans hl
      have hnot : ∀ x, x ∉ h₁.locked := fun x => by rw [hl₁]; exact notMem_empty x
      have hlog₁ := e₁.canLog hlog
      refine hwp_bind (hwp_bread ?_ (hnot _) (by rw [hl₁]; simp) ?_)
      · rw [hf₁.based.start]
        exact (hf₁.own_range ho).2
      generalize hmdef : min (n - tot) (BSIZE - off % BSIZE) = m
      refine hwp_bind (hwp_logWrite (h₁.mem_lock _) (h₁.card_lock_le _ 1 (by rw [hl₁]; simp))
        ⟨hlog₁.busy, hlog₁.check⟩ (hwp_bind (hwp_brelse (h₁.mem_lock _) ?_)))
      rw [h₁.unlock_logw_lock _ _ (hnot _)]
      have hV₁ : fileBlock sb D₁ h₁.buf i = fileBlock sb D h.buf i := funext e₁.mine
      have hblk : h₁.buf (own sb D₁ h₁.buf (i, didx (off / BSIZE)))
          = fileBlock sb D h.buf i (off / BSIZE) := by
        rw [← hV₁, fileBlock_of_own ho]
      rw [hblk]
      generalize hdata : overlay (fileBlock sb D h.buf i (off / BSIZE)) (off % BSIZE) m
        (fun x => src (tot + x)) = data
      have hf₂ : FsInv sb (h₁.logw (own sb D₁ h₁.buf (i, didx (off / BSIZE))) data) D₁ _ :=
        hf₁.writeBlock ho
      have e₂ : Edit sb k i _ _ h₁ (h₁.logw (own sb D₁ h₁.buf (i, didx (off / BSIZE))) data) D₁ D₁ :=
        hf₁.writeBlock_edit hc₁ ho
      have hown₂ : own sb D₁ (h₁.logw (own sb D₁ h₁.buf (i, didx (off / BSIZE))) data).buf
          = own sb D₁ h₁.buf := hf₁.own_logw
      have e₁₂ := e₁.trans e₂
      have hS : refsOf (off / BSIZE) ∪ {didx (off / BSIZE)} ⊆ refsIn off (n - tot) :=
        union_subset hsub
          (singleton_subset_iff.mpr (hsub (didx_mem_refsOf _)))
      have hrest : refsIn (off + m) (n - (tot + m)) ⊆ refsIn off (n - tot) :=
        refsIn_mono (by omega) (by omega)
      refine ih (tot + m) (off + m) _ D₁ (by omega) hf₂ (e₂.cached hc₁) hl₁
        ⟨hlog₁.busy, hlog₁.check⟩ (by omega) ((e₁₂.roomLeft hS hr).mono hrest)
        fun h₃ D₃ hf₃ e₃ hm₃ => ?_
      have hV₂ : fileBlock sb D₁ (h₁.logw (own sb D₁ h₁.buf (i, didx (off / BSIZE))) data).buf i
          = Function.update (fileBlock sb D h.buf i) (off / BSIZE) data := by
        rw [funext e₂.mine, hV₁]
      rw [hV₂, ← hdata, Nat.sub_add_eq, written_step hmdef.symm, hdata] at e₃
      have hq := hQ h₃ D₃ hf₃ ((e₁₂.trans e₃).mono (union_subset hS
        (by rw [← Nat.sub_add_eq]; exact hrest))) fun _ bn h1 h2 => ?_
      · rwa [show off + m + (n - (tot + m)) = off + (n - tot) by omega]
      · by_cases hb : bn = off / BSIZE
        · subst hb
          rw [e₃.kept _ (by rwa [hown₂]), hown₂]
          exact ho
        · exact hm₃ (by unfold BSIZE at *; omega) bn (by unfold BSIZE at *; omega) (by omega)
    · rw [if_neg ht]
      exact hwp_pure (hdone tot off h D (by omega) hf hc hQ)

/-- The store and the inode table after `writei` of `n` bytes of `src` at `off`. -/
structure Wrote (sb : Superblock) (k i off n : Nat) (src : Nat → UInt8) (h h' : Home)
    (D D' : Nat → Dinode) : Prop where
  other : ∀ j, j ≠ i → D' j = D j
  core : D' i = { D i with
    size := if 0 < n then max (D i).size (off + n) else (D i).size
    addrs := (D' i).addrs }
  mine : ∀ bn, fileBlock sb D' h'.buf i bn = written (fileBlock sb D h.buf i) off n src bn
  rest : ∀ j, j ≠ i → ∀ bn, fileBlock sb D' h'.buf j bn = fileBlock sb D h.buf j bn
  kept : ∀ r, own sb D h.buf r ≠ 0 → own sb D' h'.buf r = own sb D h.buf r
  mapped : MappedIn sb D' h'.buf i off n
  mem : h'.mem = setDinode k (fun _ => D' i) (h.mem.setLh h'.mem.log.lh)
  locked : h'.locked = h.locked
  passed : h'.passed = h.passed
  logged : ∀ x ∈ h'.mem.log.lh, x ∈ h.mem.log.lh ∨ IsBitmap sb x ∨ x = IBLOCK i ∨
    ∃ idx ∈ refsIn off n, own sb D' h'.buf (i, idx) ≠ 0 ∧ own sb D' h'.buf (i, idx) = x

/-- What `writei` refuses. -/
def writeRefused (size off n : Nat) : Prop :=
  size < off ∨ uadd off n < off ∨ MAXFILE * BSIZE < uadd off n

instance (size off n : Nat) : Decidable (writeRefused size off n) :=
  inferInstanceAs (Decidable (_ ∨ _ ∨ _))

theorem refsIn_own {off n : Nat} {buf : Nat → Block} (hm : MappedIn sb D buf i off n) {idx : Nat}
    (hidx : idx ∈ refsIn off n) : own sb D buf (i, idx) ≠ 0 := by
  obtain ⟨bn, hbn, hmem⟩ := mem_biUnion.mp hidx
  obtain ⟨-, h0, h1, h2⟩ := mem_filter.mp hbn
  have ho := hm h0 bn h1 h2
  unfold refsOf at hmem
  by_cases hd : bn < NDIRECT
  · rw [if_pos hd, mem_singleton] at hmem
    rwa [hmem, ← (if_pos hd : didx bn = bn)]
  · have hdx : didx bn = bn + 1 := if_neg hd
    rw [hdx] at ho
    rw [if_neg hd, mem_insert, mem_singleton] at hmem
    rcases hmem with rfl | rfl
    · obtain ⟨hu, hlt⟩ := own_ne_zero ho
      intro hz
      rw [own_eq hu hlt, bref_entry_zero (by omega)] at ho
      · exact ho rfl
      · rwa [own_eq hu (by decide), bref_le le_rfl] at hz
    · exact ho

theorem Edit.eq_of_mapped {S : Finset Nat} {V : Nat → Block} {h' : Home} {D' : Nat → Dinode}
    (e : Edit sb k i S V h h' D D') (hS : ∀ idx ∈ S, own sb D h.buf (i, idx) ≠ 0) : D' = D := by
  funext j
  by_cases hj : j = i
  · subst hj
    rw [e.core]
    have : (D' j).addrs = (D j).addrs := funext fun idx => e.addrs idx (by
      by_cases hidx : idx ∈ S
      · exact Or.inr (hS idx hidx)
      · exact Or.inl hidx)
    rw [this]
  · exact e.other j hj

/-- **`writei`** on an inode that is not a device: it refuses without an effect, or it
writes all bytes. -/
theorem hwp_writeiFile_room (hf : FsInv sb h D noStale) (hc : Cached sb h D k i) (hl : h.locked = ∅)
    (hm : Mapped sb D h.buf i) (hlog : CanLog J h.mem) (hJ : BlockPolicy sb J) {off n : Nat}
    {src : Nat → UInt8} (hoff : off < 2 ^ 32) (hn : n < 2 ^ 32)
    (hr : ¬ writeRefused (D i).size off n → Room J sb D h.buf i (refsIn off n))
    {Q : Int → Home → Prop} (hbad : writeRefused (D i).size off n → Q (-1) h)
    (hQ : ∀ h' D', ¬ writeRefused (D i).size off n → FsInv sb h' D' noStale →
      Wrote sb k i off n src h h' D D' →
      (∀ T, refsIn off n ⊆ T → missing sb D' h'.buf i T + (freeBlocks sb h.buf).card
        = missing sb D h.buf i T + (freeBlocks sb h'.buf).card) → Q n h') :
    hwp J (writeiFile k src off n) Q h := by
  unfold writeiFile
  refine hwp_bind (hwp_get ?_)
  rw [hf.din_eq hc]
  by_cases h1 : (D i).size < off ∨ uadd off n < off
  · rw [if_pos h1]
    exact hwp_pure (hbad (h1.imp_right Or.inl))
  rw [if_neg h1]
  by_cases h2 : MAXFILE * BSIZE < uadd off n
  · rw [if_pos h2]
    exact hwp_pure (hbad (Or.inr (Or.inr h2)))
  rw [if_neg h2]
  have hok : ¬ writeRefused (D i).size off n := fun h => h.elim (fun h => h1 (Or.inl h))
    fun h => h.elim (fun h => h1 (Or.inr h)) h2
  rw [not_or, Nat.not_lt, Nat.not_lt] at h1
  have hmax : off + n ≤ MAXFILE * BSIZE := by
    unfold uadd at h1 h2
    omega
  have hin : i < sb.ninodes := hc.used.1
  refine hwp_bind (@hwp_writeiLoop sb noStale J i k hJ n src _ n 0 off h D (by omega)
    (hf.weaken fun _ h => h.elim) hc hl hlog hmax (hr hok) fun h₁ D₁ hf₁ e₁ hm₁ => ?_)
  simp only [Nat.sub_zero, Nat.zero_add] at e₁ hm₁ ⊢
  have hc₁ := e₁.cached hc
  refine hwp_bind (hwp_get ?_)
  rw [hf₁.din_eq hc₁]
  have hsize₁ : (D₁ i).size = (D i).size := by rw [e₁.core]
  by_cases hgrow : 0 < n ∧ (D₁ i).size < off + n
  · rw [if_pos hgrow]
    obtain ⟨d, hd⟩ : ∃ d, d = ({ D₁ i with size := off + n } : Dinode) := ⟨_, rfl⟩
    have hdok : d.Ok := by
      have hok := hf₁.rep.ok i
      rw [hd]
      refine ⟨hok.type, hok.major, hok.minor, hok.nlink, ?_, hok.addrs, hok.len⟩
      change off + n < 2 ^ 32
      unfold MAXFILE NDIRECT NINDIRECT BSIZE at hmax
      omega
    have ht : d.type = (D₁ i).type := by rw [hd]
    have ha : d.addrs = (D₁ i).addrs := by rw [hd]
    have hlog₁ := e₁.canLog hlog
    refine hwp_update hf₁ hc₁ (e₁.locked.trans hl) hlog₁ hd.symm hdok ht ha (hwp_pure ?_)
    have hown := hf₁.own_update hc₁ hdok ht ha
    have hblock := hf₁.fileBlock_update hc₁ hdok ht ha
    refine hQ _ (Function.update D₁ i d) hok ((hf₁.update hc₁ hdok ht ha).weaken
      fun j hj => hj.1.elim id hj.2) ⟨?_, ?_, ?_, ?_, ?_, ?_, ?_, e₁.locked, e₁.passed, ?_⟩ ?_
    · exact fun j hj => (update_of_ne hj ..).trans (e₁.other j hj)
    · rw [hsize₁] at hgrow
      rw [update_self, hd, e₁.core, if_pos hgrow.1, Nat.max_eq_right hgrow.2.le]
    · exact fun bn => (hblock i bn).trans (e₁.mine bn)
    · exact fun j hj bn => (hblock j bn).trans (e₁.rest j hj bn)
    · exact fun r h0 => (congrFun hown r).trans (e₁.kept r h0)
    · intro h0 bn hb1 hb2
      rw [hown]
      exact hm₁ h0 bn hb1 hb2
    · rw [update_self, Home.update_mem]
      have h1 := congrArg (Mem.setLh · (h₁.update k i d).mem.log.lh) e₁.mem
      exact (congrArg (setDinode k fun _ => d) h1).trans setDinode_setLh_idem
    · intro x hx
      rw [hown]
      rcases Home.mem_update_lh hx with hx | hx
      · exact (e₁.logged x hx).imp_right fun h => h.imp_right Or.inr
      · exact Or.inr (Or.inr (Or.inl hx))
    · intro T hT
      have hfree : freeBlocks sb (h₁.update k i d).buf = freeBlocks sb h₁.buf :=
        Home.freeBlocks_putInode hin
      rw [missing, hown, hfree]
      exact e₁.room T hT
  · rw [if_neg hgrow]
    refine hwp_pure ?_
    -- nothing was allocated, since all of the range lies below the size
    have hmap : MappedIn sb D h.buf i off n := by
      intro h0 bn h3 h4
      rw [hsize₁] at hgrow
      exact hm.block bn (by omega)
    have hDD : D₁ = D := e₁.eq_of_mapped fun idx hidx => refsIn_own hmap hidx
    subst hDD
    have hf₁' : FsInv sb h₁ D₁ noStale :=
      ⟨hf₁.based, hf₁.ledger, hf₁.low, hf₁.rep.ok,
        fun j hj _ => (e₁.disk j hj).trans (hf.rep.disk j hj id), hf₁.rep.cache, hf₁.rep.uniq,
        hf₁.rep.inum⟩
    refine hQ h₁ D₁ hok hf₁' ⟨e₁.other, ?_, e₁.mine, e₁.rest, e₁.kept, hm₁, e₁.mem, e₁.locked,
      e₁.passed, fun x hx => (e₁.logged x hx).imp_right fun h => h.imp_right Or.inr⟩ e₁.room
    by_cases h0 : 0 < n
    · rw [if_pos h0, Nat.max_eq_left (by omega)]
    · rw [if_neg h0]

/-- The same without the count. -/
theorem hwp_writeiFile (hf : FsInv sb h D noStale) (hc : Cached sb h D k i) (hl : h.locked = ∅)
    (hm : Mapped sb D h.buf i) (hlog : CanLog J h.mem) (hJ : BlockPolicy sb J) {off n : Nat}
    {src : Nat → UInt8} (hoff : off < 2 ^ 32) (hn : n < 2 ^ 32)
    (hr : ¬ writeRefused (D i).size off n → Room J sb D h.buf i (refsIn off n))
    {Q : Int → Home → Prop} (hbad : writeRefused (D i).size off n → Q (-1) h)
    (hQ : ∀ h' D', ¬ writeRefused (D i).size off n → FsInv sb h' D' noStale →
      Wrote sb k i off n src h h' D D' → Q n h') :
    hwp J (writeiFile k src off n) Q h :=
  hwp_writeiFile_room hf hc hl hm hlog hJ hoff hn hr hbad fun h' D' hok hf' w _ => hQ h' D' hok hf' w

end Write

/-! ### Inodes as byte strings -/

section ByteStrings

variable {sb : Superblock} {s : KState} {h h' : Home} {D D' : Nat → Dinode} {J : Policy Event}
  {i k off n : Nat} {src : Nat → UInt8}

/-- The bytes after `n` bytes of `src` have been written at `off`. -/
def overlaid (byte : Nat → UInt8) (off n : Nat) (src : Nat → UInt8) (o : Nat) : UInt8 :=
  if off ≤ o ∧ o < off + n then src (o - off) else byte o

theorem Wrote.byte (w : Wrote sb k i off n src h h' D D') (o : Nat) :
    fileByte sb D' h'.buf i o = overlaid (fileByte sb D h.buf i) off n src o := by
  have hmod := Nat.mod_lt o (show 0 < BSIZE by decide)
  have hdm : o / BSIZE * BSIZE + o % BSIZE = o := Nat.div_add_mod' o BSIZE
  unfold fileByte overlaid
  rw [w.mine, written, hdm]
  by_cases ho : off ≤ o ∧ o < off + n
  · rw [if_pos ho, if_pos ⟨hmod, ho⟩]
  · rw [if_neg ho, if_neg (by tauto)]

theorem Wrote.mapped_all (w : Wrote sb k i off n src h h' D D') (hc : Cached sb h D k i)
    (hm : ∀ j, Used sb D j → Mapped sb D h.buf j) (hoff : off ≤ (D i).size)
    (hmax : off + n ≤ MAXFILE * BSIZE) {j : Nat} (hj : Used sb D' j) : Mapped sb D' h'.buf j := by
  by_cases hji : j = i
  · subst hji
    have hmj := hm j hc.used
    have hsize : (D' j).size = if 0 < n then max (D j).size (off + n) else (D j).size := by
      rw [w.core]
    refine ⟨?_, fun bn hbn => ?_⟩
    · rw [hsize]
      split
      · exact max_le hmj.size hmax
      · exact hmj.size
    · by_cases hlt : bn * BSIZE < (D j).size
      · have h0 := hmj.block bn hlt
        rwa [w.kept _ h0]
      · rw [hsize] at hbn
        by_cases h0 : 0 < n
        · rw [if_pos h0] at hbn
          exact w.mapped h0 bn (by unfold BSIZE at *; omega) (by omega)
        · rw [if_neg h0] at hbn
          omega
  · have hD := w.other j hji
    have hmj := hm j ⟨hj.1, by rw [← hD]; exact hj.2⟩
    refine ⟨by rw [hD]; exact hmj.size, fun bn hbn => ?_⟩
    rw [hD] at hbn
    have h0 := hmj.block bn hbn
    rwa [w.kept _ h0]

theorem Wrote.used (w : Wrote sb k i off n src h h' D D') {j : Nat} :
    Used sb D' j ↔ Used sb D j := by
  unfold Used
  by_cases hj : j = i
  · subst hj; rw [w.core]
  · rw [w.other j hj]

theorem Wrote.cached (w : Wrote sb k i off n src h h' D D') {k' j : Nat}
    (hc : Cached sb h D k' j) : Cached sb h' D' k' j := by
  have hf := Home.setDin_fields (h := { h with mem := h.mem.setLh h'.mem.log.lh }) (k := k)
    (d := D' i) k'
  have hm : (Home.setDin { h with mem := h.mem.setLh h'.mem.log.lh } k (D' i)).mem = h'.mem :=
    w.mem.symm
  rw [hm] at hf
  obtain ⟨e1, e2, e3, -⟩ := hf
  exact ⟨hc.lt, by rw [e1]; exact hc.ref, by rw [e2]; exact hc.valid, by rw [e3]; exact hc.inum,
    w.used.mpr hc.used⟩

def bitmapBlocks (sb : Superblock) : Finset Nat :=
  (Finset.range (sb.size / BPB + 1)).image fun q => q + sb.ninodes / IPB + 3

theorem mem_bitmapBlocks {x : Nat} (hx : IsBitmap sb x) : x ∈ bitmapBlocks sb := by
  obtain ⟨b, hb, rfl⟩ := hx
  refine mem_image.mpr ⟨b / BPB, mem_range.mpr ?_, rfl⟩
  have hcap := hb.trans_le (show sb.logstart ≤ sb.cap from Geometry.logstart_le_cap)
  exact Nat.div_lt_of_lt_mul (by rwa [Superblock.cap, Nat.mul_comm] at hcap)

theorem card_bitmapBlocks_le (sb : Superblock) : (bitmapBlocks sb).card ≤ sb.size / BPB + 1 :=
  card_image_le.trans (by rw [card_range])

/-- The sectors a write may log: the bitmap, the inode, and one for each reference. -/
theorem Wrote.length_le (w : Wrote sb k i off n src h h' D D') (hnd : h'.mem.log.lh.Nodup) :
    h'.mem.log.lh.length ≤ h.mem.log.lh.length + (sb.size / BPB + 1) + 1 + (refsIn off n).card := by
  have hsub : h'.mem.log.lh.toFinset ⊆ h.mem.log.lh.toFinset ∪ bitmapBlocks sb ∪ {IBLOCK i} ∪
      (refsIn off n).image fun idx => own sb D' h'.buf (i, idx) := by
    intro x hx
    simp only [mem_union, mem_singleton, mem_image, List.mem_toFinset]
    rcases w.logged x (List.mem_toFinset.mp hx) with h1 | h1 | h1 | ⟨idx, h1, -, h2⟩
    · exact Or.inl (Or.inl (Or.inl h1))
    · exact Or.inl (Or.inl (Or.inr (mem_bitmapBlocks h1)))
    · exact Or.inl (Or.inr h1)
    · exact Or.inr ⟨idx, h1, h2⟩
  have hcard := card_le_card hsub
  rw [List.toFinset_card_of_nodup hnd] at hcard
  have h1 := card_union_le (h.mem.log.lh.toFinset ∪ bitmapBlocks sb ∪ {IBLOCK i})
    ((refsIn off n).image fun idx => own sb D' h'.buf (i, idx))
  have h2 := card_union_le (h.mem.log.lh.toFinset ∪ bitmapBlocks sb) {IBLOCK i}
  have h3 := card_union_le h.mem.log.lh.toFinset (bitmapBlocks sb)
  have h4 := List.toFinset_card_le h.mem.log.lh
  have h5 := card_bitmapBlocks_le sb
  have h6 : ((refsIn off n).image fun idx => own sb D' h'.buf (i, idx)).card
      ≤ (refsIn off n).card := card_image_le
  rw [card_singleton] at h2
  omega

/-- A well-formed file system: the machine implements a store whose blocks are accounted
for, with every inode mapped up to its size, and no limit has been passed. -/
structure Sound (sb : Superblock) (s : KState) (h : Home) (D : Nat → Dinode) : Prop where
  view : View s h
  inv : FsInv sb h D noStale
  mapped : ∀ j, Used sb D j → Mapped sb D h.buf j
  unlocked : h.locked = ∅
  nlog : LOGSIZE ≤ h.mem.log.size
  passed : h.passed = false

theorem hwp_writei {Q : Int → Home → Prop} (hf : FsInv sb h D noStale) (hc : Cached sb h D k i)
    (hdev : (D i).type ≠ T_DEV) (hw : hwp J (writeiFile k src off n) Q h) :
    hwp J (writei k src off n) Q h := by
  unfold writei
  refine hwp_bind (hwp_yield (hwp_bind (hwp_get ?_)))
  rw [hf.din_eq hc, if_neg hdev]
  exact hw

theorem hwp_readi {Q : Option (Nat × (Nat → UInt8)) → Home → Prop} {st : Nat → Prop}
    (hf : FsInv sb h D st) (hc : Cached sb h D k i) (hdev : (D i).type ≠ T_DEV)
    (hr : hwp J (readiFile k off n) Q h) : hwp J (readi k off n) Q h := by
  unfold readi
  refine hwp_bind (hwp_yield (hwp_bind (hwp_get ?_)))
  rw [hf.din_eq hc, if_neg hdev]
  exact hr

end ByteStrings

end Xv6
