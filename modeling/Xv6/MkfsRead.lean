import Xv6.Cache
import Xv6.MkfsImage

/-!
# The kernel reads back what mkfs wrote

`mkfs` and the kernel have each their own code for the map of an inode's blocks: `iappend` fills it and
`bmap` follows it. They agree, however the calls of `iappend` for several inodes are interleaved and
whatever the chunks are.
-/

open Bytes Device

namespace Xv6.Mkfs

variable {sb : Superblock} {D : Nat → Dinode} {i k bn : Nat}

/-! ### Sequences of operations -/

/-- The two operations of which `mkfs` makes an image. -/
inductive Op where
  | ialloc (type : Int)
  | iappend (inum : Nat) (p : List UInt8)

def runOp : Op → M Unit
  | .ialloc type => do
    let _ ← ialloc type
  | .iappend inum p => iappend inum p

def runOps : List Op → M Unit
  | [] => pure ()
  | op :: ops => do
    runOp op
    runOps ops

/-- The bytes that an operation appends to inode `i`. -/
def Op.chunk (i : Nat) : Op → List UInt8
  | .ialloc _ => []
  | .iappend inum p => if inum = i then p else []

/-- The bytes appended to inode `i`, in order. -/
def appended (ops : List Op) (i : Nat) : List UInt8 := ops.flatMap (Op.chunk i)

/-- The number of inodes that are taken. -/
def allocs : List Op → Nat
  | [] => 0
  | .ialloc _ :: ops => allocs ops + 1
  | .iappend _ _ :: ops => allocs ops

/-- Inodes are taken as files or directories while there are any, and bytes are appended to inodes that
have been taken; `free` is the next inode. -/
def Legal (ninodes : Nat) : Nat → List Op → Prop
  | _, [] => True
  | free, .ialloc type :: ops =>
    free < ninodes ∧ (type = T_DIR ∨ type = T_FILE) ∧ Legal ninodes (free + 1) ops
  | free, .iappend inum _ :: ops => 0 < inum ∧ inum < free ∧ Legal ninodes free ops

theorem appended_cons (op : Op) (ops : List Op) :
    appended (op :: ops) i = op.chunk i ++ appended ops i := List.flatMap_cons ..

theorem append_chunk (F : Nat → List UInt8) (inum : Nat) (p : List UInt8) :
    (fun i => F i ++ (Op.iappend inum p).chunk i) = Function.update F inum (F inum ++ p) := by
  funext i
  by_cases hi : i = inum
  · subst hi
    rw [Function.update_self, Op.chunk, if_pos rfl]
  · rw [Function.update_of_ne hi, Op.chunk, if_neg (Ne.symm hi), List.append_nil]

theorem need_mono {F G : Nat → List UInt8} (h : ∀ i, (F i).length ≤ (G i).length) :
    need sb F ≤ need sb G := by
  refine Finset.sum_le_sum fun i _ => Finset.card_le_card (refs_mono ?_)
  have := h i
  unfold blocksFor
  omega

/-- The bytes of every inode fit in it, and the blocks for all of them in the image. -/
structure Fits (sb : Superblock) (F : Nat → List UInt8) : Prop where
  file : ∀ i, (F i).length ≤ MAXFILE * BSIZE
  image : sb.datastart + need sb F ≤ sb.size

theorem Fits.mono {F G : Nat → List UInt8} (hG : Fits sb G) (h : ∀ i, (F i).length ≤ (G i).length) :
    Fits sb F :=
  ⟨fun i => (h i).trans (hG.file i), (Nat.add_le_add_left (need_mono h) _).trans hG.image⟩

theorem wp_runOps (hsize : sb.size < 2 ^ 32) (hdata : sb.datastart ≤ sb.size) {P : Prop}
    (ops : List Op) : ∀ {s : State} {D : Nat → Dinode} {F : Nat → List UInt8}, Inv sb s D F →
      Legal sb.ninodes s.freeinode ops → (P → Fits sb fun i => F i ++ appended ops i) →
      StateWp.wp (fun _ => ¬ P) (runOps ops) (fun _ s' => s'.freeinode = s.freeinode + allocs ops ∧
        ∃ D', Inv sb s' D' fun i => F i ++ appended ops i) s := by
  induction ops with
  | nil =>
    intro s D F hv _ _
    refine ⟨rfl, D, ?_⟩
    simpa only [appended, List.flatMap_nil, List.append_nil] using hv
  | cons op ops ih =>
    intro s D F hv hl hP
    have hstep : (fun i => F i ++ appended (op :: ops) i)
        = fun i => (fun i => F i ++ op.chunk i) i ++ appended ops i := by
      funext i
      rw [appended_cons, List.append_assoc]
    rw [hstep] at hP ⊢
    have hP' : P → Fits sb fun i => F i ++ op.chunk i := fun hp =>
      (hP hp).mono fun i => (List.sublist_append_left _ _).length_le
    unfold runOps
    rw [StateWp.wp_bind]
    cases op with
    | ialloc type =>
      obtain ⟨hfree, ht, hl⟩ := hl
      have hsame : (fun i => F i ++ (Op.ialloc type).chunk i) = F :=
        funext fun i => List.append_nil _
      rw [hsame] at hP ⊢
      unfold runOp
      rw [StateWp.wp_bind]
      refine StateWp.wp_mono_stop (wp_ialloc hdata hv hfree ht) (fun _ h => h.elim) ?_
      rintro inum s₁ ⟨-, hfree₁, D₁, hv₁⟩
      rw [StateWp.wp_pure]
      refine StateWp.wp_mono (ih hv₁ (hfree₁ ▸ hl) hP) fun _ s' h => ?_
      rw [hfree₁] at h
      exact ⟨by rw [h.1, allocs]; omega, h.2⟩
    | iappend inum p =>
      obtain ⟨h0, hi, hl⟩ := hl
      rw [append_chunk] at hP hP' ⊢
      unfold runOp
      refine StateWp.wp_mono (wp_iappend hsize hdata hv h0 hi fun hp => ?_) ?_
      · have := (hP' hp).file inum
        rw [Function.update_self, List.length_append] at this
        exact ⟨this, (hP' hp).image⟩
      · rintro _ s₁ ⟨hfree₁, D₁, hv₁⟩
        refine StateWp.wp_mono (ih hv₁ (hfree₁ ▸ hl) hP) fun _ s' h => ?_
        rw [hfree₁] at h
        exact h

/-! ### Reads of the kernel -/

/-- No buffer is locked or waits to be written. -/
structure Idle (m : KState) : Prop where
  busy : m.busy = ∅
  dirty : m.dirty = ∅

section Kernel

variable {m : KState} {J : Policy Event} {d : Dinode}

theorem Idle.unlock (hm : Idle m) (x : Nat) (mem : Mem) :
    { m.lock limits x with mem := mem, busy := (m.lock limits x).busy.erase x } = { m with mem := mem } := by
  have hneed : m.need x = 1 := by
    unfold Machine.need
    rw [hm.busy, hm.dirty]
    rfl
  have hpassed : (m.passed || decide (limits.nbuf < m.need x)) = m.passed := by
    rw [hneed]
    exact Bool.or_false _
  have hbusy : (insert x m.busy).erase x = m.busy := by
    rw [hm.busy]
    exact Finset.erase_insert (Finset.notMem_empty x)
  unfold Machine.lock
  rw [hpassed, hbusy]

theorem Idle.not_busy (hm : Idle m) (x : Nat) : x ∉ m.busy := by
  rw [hm.busy]
  exact Finset.notMem_empty x

theorem kwp_bmap_held (hm : Idle m) (hd : (m.mem.icache k).din = d) (hbn : bn < MAXFILE)
    (h0 : bref m.buf d (didx bn) ≠ 0) {Q : Nat → KState → Prop} (hQ : Q (bref m.buf d (didx bn)) m) :
    kwp J (bmap k bn) Q m := by
  unfold bmap
  refine wp_bind (wp_get ?_)
  rw [hd]
  by_cases hdir : bn < NDIRECT
  · have hidx : didx bn = bn := if_pos hdir
    rw [hidx, bref_le hdir.le] at h0 hQ
    rw [if_pos hdir]
    simp only [if_neg h0]
    exact wp_pure hQ
  · have hidx : didx bn = bn + 1 := if_neg hdir
    have hptr : d.addrs NDIRECT ≠ 0 := by
      intro hz
      rw [hidx, bref_entry_zero (by omega) hz] at h0
      exact h0 rfl
    rw [hidx, bref_entry (by omega) hptr, show bn + 1 - (NDIRECT + 1) = bn - NDIRECT by omega] at h0 hQ
    rw [if_neg hdir, if_pos (by unfold MAXFILE at hbn; omega)]
    simp only [if_neg hptr]
    refine wp_bind (wp_pure (wp_bind (wp_bread (hm.not_busy _) ?_)))
    rw [if_neg h0]
    refine wp_bind (wp_brelse (Finset.mem_insert_self _ _) ?_)
    have hback := hm.unlock (d.addrs NDIRECT) m.mem
    exact hback ▸ wp_pure hQ

/-- Every block below the size is there. -/
structure Held (buf : Nat → Block) (d : Dinode) : Prop where
  size : d.size ≤ MAXFILE * BSIZE
  block : ∀ bn, bn * BSIZE < d.size → bref buf d (didx bn) ≠ 0

/-- Byte `o` of an inode. -/
def byteAt (buf : Nat → Block) (d : Dinode) (o : Nat) : UInt8 :=
  buf (bref buf d (didx (o / BSIZE))) (o % BSIZE)

theorem kwp_readiLoop (hm : Idle m) (hd : (m.mem.icache k).din = d) (hh : Held m.buf d) {n : Nat}
    {Q : (Nat → UInt8) → KState → Prop} :
    ∀ fuel tot off dst, n ≤ tot + fuel → off + (n - tot) ≤ d.size →
      Q (overlay dst tot (n - tot) fun x => byteAt m.buf d (off + x)) m →
      kwp J (readiLoop k n fuel tot off dst) Q m := by
  intro fuel
  induction fuel with
  | zero =>
    intro tot off dst hn _ hQ
    refine wp_pure ?_
    rwa [show n - tot = 0 by omega, overlay_zero] at hQ
  | succ fuel ih =>
    intro tot off dst hn hsize hQ
    unfold readiLoop
    by_cases ht : tot < n
    · rw [if_pos ht]
      have hoff : off < d.size := by omega
      have hbn : off / BSIZE < MAXFILE := Nat.div_lt_of_lt_mul
        (by rw [Nat.mul_comm]; exact hoff.trans_le hh.size)
      have ho := hh.block (off / BSIZE) ((Nat.div_mul_le_self _ _).trans_lt hoff)
      refine wp_bind (kwp_bmap_held hm hd hbn ho (wp_bind (wp_bread (hm.not_busy _)
        (wp_bind (wp_brelse (Finset.mem_insert_self _ _) ?_)))))
      have hback := hm.unlock (bref m.buf d (didx (off / BSIZE))) m.mem
      refine hback ▸ ?_
      have hmod := Nat.mod_lt off (show 0 < BSIZE by decide)
      refine ih _ _ _ (by omega) (by omega) ?_
      have hround := overlay_round dst (fun bn => m.buf (bref m.buf d (didx bn))) ht off
      exact hround.symm ▸ hQ
    · rw [if_neg ht]
      refine wp_pure ?_
      rwa [show n - tot = 0 by omega, overlay_zero] at hQ

/-- **`readi`** of an inode that is not a device. -/
theorem kwp_readi (hm : Idle m) (hd : (m.mem.icache k).din = d) (hh : Held m.buf d)
    (hdev : d.type ≠ T_DEV) {off n : Nat} (hoff : off < 2 ^ 32) (hn : n < 2 ^ 32)
    {Q : Option (Nat × (Nat → UInt8)) → KState → Prop}
    (hQ : Q (readResult d.size (byteAt m.buf d) off n) m) : kwp J (readi k off n) Q m := by
  unfold readi readiFile
  refine wp_bind (wp_yield (wp_bind (wp_get ?_)))
  rw [hd, if_neg hdev]
  refine wp_bind (wp_get ?_)
  rw [hd]
  unfold readResult at hQ
  by_cases hbad : d.size < off ∨ uadd off n < off
  · rw [if_pos hbad] at hQ ⊢
    exact wp_pure hQ
  · rw [if_neg hbad] at hQ ⊢
    refine wp_bind (kwp_readiLoop hm hd hh _ _ _ _ (by omega) (readLength_le hoff hn hbad) (wp_pure ?_))
    exact hQ

/-- Slot `k` of the inode cache stands for inode `i`, which has not been read. -/
structure Unread (m : KState) (k i : Nat) : Prop where
  ref : 0 < (m.mem.icache k).ref
  inum : (m.mem.icache k).inum = i
  busy : (m.mem.icache k).busy = false
  valid : (m.mem.icache k).valid = false

theorem kwp_readInode (hm : Idle m) (hd : diskInode m.buf i = d) (h0 : d.type ≠ 0)
    {mem : Mem}
    (hmem : setInode k (fun ip => { ip with valid := true }) (setDinode k (fun _ => d) m.mem) = mem)
    {Q : Unit → KState → Prop} (hQ : Q () { m with mem := mem }) :
    kwp J (do
      let bp ← bread (IBLOCK i)
      modify (setDinode k fun _ => getDinode bp (i % IPB))
      brelse (IBLOCK i)
      modify (setInode k fun ip => { ip with valid := true })
      if (getDinode bp (i % IPB)).type = 0 then halt "ilock: no type") Q m := by
  have hd' : getDinode (m.buf (IBLOCK i)) (i % IPB) = d := hd
  have hlocked : IBLOCK i ∈ insert (IBLOCK i) m.busy := Finset.mem_insert_self _ _
  refine wp_bind (wp_bread (hm.not_busy _) (wp_bind (wp_modify (wp_bind (wp_brelse hlocked ?_)))))
  rw [hd']
  refine wp_bind (wp_modify ?_)
  rw [if_neg h0]
  refine wp_pure ?_
  rw [← hm.unlock (IBLOCK i), ← hmem] at hQ
  exact hQ

/-- **`ilock`** reads the inode. -/
theorem kwp_ilock (hm : Idle m) (hu : Unread m k i) (hd : diskInode m.buf i = d) (h0 : d.type ≠ 0)
    {Q : Unit → KState → Prop} (hQ : Q () { m with mem := setInode k (lockedSlot d) m.mem }) :
    kwp J (ilock k) Q m := by
  have hr := hu.ref
  unfold ilock
  refine wp_bind (wp_yield (wp_bind (wp_get ?_)))
  rw [if_neg (by omega)]
  refine wp_bind (wp_wait (fun _ => wp_bind (wp_get ?_)) fun hb => ?_)
  · have hslot : (setInode k (fun ip => { ip with busy := true }) m.mem).icache k
        = { m.mem.icache k with busy := true } := setInode_self ..
    rw [hslot, if_pos (by simp [hu.valid])]
    dsimp only
    rw [hu.inum]
    have hmem : setInode k (fun ip => { ip with valid := true }) (setDinode k (fun _ => d)
        (setInode k (fun ip => { ip with busy := true }) m.mem)) = setInode k (lockedSlot d) m.mem := by
      unfold setDinode
      rw [setInode_setInode, setInode_setInode]
      rfl
    exact kwp_readInode (m := { m with mem := setInode k (fun ip => { ip with busy := true }) m.mem })
      ⟨hm.busy, hm.dirty⟩ hd h0 hmem hQ
  · rw [hu.busy] at hb
    cases hb

theorem run_of_kwp {α : Type} {p : K α} {Q : α → KState → Prop} (hp : kwp total p Q m)
    (hQ : ∀ a m', Q a m' → m'.passed = false) :
    ∃ a m', run limits true p m = .ok a m' ∧ Q a m' := by
  cases hr : run limits false p m with
  | ok a m' =>
    obtain ⟨-, hq⟩ := wp_ok hp hr (fun _ _ => trivial) fun _ _ => trivial
    exact ⟨a, m', run_true_of_run_false limits hr (hQ a m' hq), hq⟩
  | stop e m' => exact (wp_stop hp hr (fun _ _ => trivial) fun _ _ => trivial).2.elim

end Kernel

/-! ### The image on the kernel's machine -/

/-- The kernel runs on an image, whose bitmap may be anything. -/
structure Mounted (sb : Superblock) (img : Nat → Block) (m : KState) : Prop extends Idle m where
  passed : m.passed = false
  inodes : ∀ x < sb.ninodes / IPB + 3, m.buf x = img x
  data : ∀ x, sb.datastart ≤ x → x < sb.size → m.buf x = img x

theorem readResult_congr {size off n : Nat} {f g : Nat → UInt8} (hoff : off < 2 ^ 32) (hn : n < 2 ^ 32)
    (h : ∀ o < size, f o = g o) : readResult size f off n = readResult size g off n := by
  unfold readResult
  by_cases hbad : size < off ∨ uadd off n < off
  · rw [if_pos hbad, if_pos hbad]
  · have hle := readLength_le hoff hn hbad
    rw [if_neg hbad, if_neg hbad]
    dsimp only
    generalize (if size < uadd off n then size - off else n) = len at hle ⊢
    have hov : (overlay zero 0 len fun x => f (off + x)) = overlay zero 0 len fun x => g (off + x) := by
      funext x
      by_cases hx : x < len
      · rw [overlay_of_mem (Nat.zero_le x) (by omega), overlay_of_mem (Nat.zero_le x) (by omega)]
        exact h _ (by omega)
      · rw [overlay_of_not_mem (by omega), overlay_of_not_mem (by omega)]
    rw [hov]

section Read

variable {s : State} {F : Nat → List UInt8} {m : KState}

theorem Mounted.own_eq (hm : Mounted sb s.img m) (hv : Inv sb s D F) :
    own sb D m.buf = own sb D s.img := by
  refine own_congr fun j hj h0 => ?_
  rw [← own_indirect s.img hj] at h0 ⊢
  obtain ⟨h1, h2⟩ := hv.blocks.ledger.range _ h0
  exact hm.data _ h1 h2

theorem Mounted.bref_eq (hm : Mounted sb s.img m) (hv : Inv sb s D F) (hu : Used sb D i)
    (hbn : bn * BSIZE < (D i).size) :
    bref m.buf (D i) (didx bn) = own sb D s.img (i, didx bn) ∧ own sb D s.img (i, didx bn) ≠ 0 := by
  have hsize := hv.size i
  have hmax : bn < MAXFILE := by
    have h1 := hv.bound i
    have h2 : bn * BSIZE < MAXFILE * BSIZE := by omega
    exact Nat.lt_of_mul_lt_mul_right h2
  refine ⟨?_, (hv.blocks.held i (didx bn)).mpr (didx_mem_refs.mpr ?_)⟩
  · rw [← hm.own_eq hv]
    exact (Xv6.own_eq hu (didx_lt hmax)).symm
  · unfold blocksFor
    unfold BSIZE at hbn
    omega

theorem Mounted.held (hm : Mounted sb s.img m) (hv : Inv sb s D F) (hu : Used sb D i) :
    Held m.buf (D i) :=
  ⟨by rw [hv.size]; exact hv.bound i, fun bn hbn => by
    obtain ⟨h1, h2⟩ := hm.bref_eq hv hu hbn
    rwa [h1]⟩

theorem Mounted.byteAt_eq (hm : Mounted sb s.img m) (hv : Inv sb s D F) (hu : Used sb D i) {o : Nat}
    (ho : o < (D i).size) : byteAt m.buf (D i) o = (F i).getD o 0 := by
  obtain ⟨h1, h2⟩ := hm.bref_eq hv hu ((Nat.div_mul_le_self o BSIZE).trans_lt ho)
  obtain ⟨h3, h4⟩ := hv.blocks.ledger.range _ h2
  rw [← hv.bytes i o (by rwa [← hv.size])]
  unfold byteAt fileByte
  rw [h1, hm.data _ h3 h4, fileBlock_of_own h2]

theorem Mounted.run_read (hm : Mounted sb s.img m) (hv : Inv sb s D F) (h0 : 0 < i)
    (hi : i < s.freeinode) (hk : Unread m k i) :
    ∃ m', run limits true (ilock k) m = .ok () m' ∧ (m'.mem.icache k).din.size = (F i).length ∧
      ∀ off < 2 ^ 32, ∀ n < 2 ^ 32, ∃ m'', run limits true (readi k off n) m'
        = .ok (readResult (F i).length (fun o => (F i).getD o 0) off n) m'' := by
  have hu := hv.isUsed h0 hi
  have hdisk : diskInode m.buf i = D i := by
    rw [← hv.disk i hu.1]
    unfold diskInode
    rw [hm.inodes _ (iblock_lt_bitmap hu.1)]
  have hdev : (D i).type ≠ T_DEV := by
    rcases hv.used i h0 hi with h | h <;> rw [h] <;> decide
  obtain ⟨_, m', hlock, rfl⟩ := run_of_kwp (m := m)
    (Q := fun _ m' => m' = { m with mem := setInode k (lockedSlot (D i)) m.mem })
    (kwp_ilock hm.toIdle hk hdisk hu.2 rfl) fun _ m' h => h ▸ hm.passed
  have hdin : ((setInode k (lockedSlot (D i)) m.mem).icache k).din = D i :=
    congrArg Inode.din (setInode_self ..)
  refine ⟨_, hlock, (congrArg Dinode.size hdin).trans (hv.size i), fun off hoff n hn => ?_⟩
  -- the reads are on the same sectors
  have hread := readResult_congr hoff hn fun o ho => hm.byteAt_eq hv hu ho
  have hm' : Idle { m with mem := setInode k (lockedSlot (D i)) m.mem } := ⟨hm.busy, hm.dirty⟩
  obtain ⟨r, m'', hrun, rfl, -⟩ := run_of_kwp
    (Q := fun r m'' => r = readResult (D i).size (byteAt m.buf (D i)) off n ∧ m''.passed = false)
    (kwp_readi hm' hdin (hm.held hv hu) hdev hoff hn ⟨rfl, hm.passed⟩) fun _ _ h => h.2
  rw [hread, hv.size] at hrun
  exact ⟨m'', hrun⟩

end Read

/-- **The kernel reads back what `mkfs` wrote.** Whatever inodes are taken and whatever bytes are appended
to them in whatever order, if the bytes fit in the inodes and in the image then `mkfs` returns, and on its
image `ilock` gives an inode whose size is the number of bytes appended to it, and `readi` the bytes
themselves, in order, at every offset and for every length. -/
theorem kernel_reads_back (hg : FreshGeometry sb) (ops : List Op) (hops : Legal sb.ninodes 1 ops)
    (hfits : Fits sb (appended ops)) :
    ∃ s, (do format sb; runOps ops) init = .ok ((), s) ∧
      ∀ i, 0 < i → i ≤ allocs ops → ∀ m k, Mounted sb s.img m → Unread m k i →
        ∃ m', run limits true (ilock k) m = .ok () m' ∧
          (m'.mem.icache k).din.size = (appended ops i).length ∧
          ∀ off < 2 ^ 32, ∀ n < 2 ^ 32, ∃ m'', run limits true (readi k off n) m'
            = .ok (readResult (appended ops i).length (fun o => (appended ops i).getD o 0) off n) m'' := by
  have hdata : sb.datastart ≤ sb.size := by
    have := hg.total
    omega
  have hw : StateWp.wp (fun _ => False) (do format sb; runOps ops) (fun _ s' =>
      s'.freeinode = 1 + allocs ops ∧ ∃ D', Inv sb s' D' (appended ops)) init := by
    rw [StateWp.wp_bind]
    refine StateWp.wp_mono (wp_format hg) fun _ s₀ h => ?_
    obtain ⟨hfree, hv⟩ := h
    refine StateWp.wp_mono_stop (wp_runOps (P := True) hg.size hdata ops hv (hfree ▸ hops) fun _ => hfits)
      (fun _ h => h trivial) fun _ s' h => ?_
    rw [hfree] at h
    exact h
  obtain ⟨_, s, hrun, hfree, D, hv⟩ := StateWp.wp_returns hw
  refine ⟨s, hrun, fun i h0 hi m k hm hk => hm.run_read hv h0 (by omega) hk⟩

/-- The kernel's machine on an image, with a slot of the cache for inode `i`. -/
def mount (img : Nat → Block) (i : Nat) : KState where
  disk := img
  buf := img
  busy := ∅
  dirty := ∅
  writes := []
  events := []
  passed := false
  mem := { bootMem with
    icache := fun k => if k = 0 then ⟨i, 1, false, false, Dinode.zero⟩ else bootMem.icache k }

/-- Two files, one of which goes on in its indirect block. -/
def twoFiles : List Op :=
  [.ialloc T_DIR, .ialloc T_FILE, .iappend 2 (List.replicate 6143 7), .iappend 1 [1, 2, 3],
    .iappend 2 [8, 9]]

theorem twoFiles_fits : Fits mkfsSuperblock (appended twoFiles) := by
  refine ⟨fun i => ?_, by decide +kernel⟩
  have h1 : (appended twoFiles i).length ≤ 6143 + 3 + 2 := by
    unfold appended twoFiles
    simp only [List.flatMap_cons, List.flatMap_nil, List.length_append, Op.chunk]
    split <;> split <;> simp only [List.length_replicate, List.length_cons, List.length_nil] <;> omega
  unfold MAXFILE NDIRECT NINDIRECT BSIZE
  omega

theorem kernel_reads_back_twoFiles :
    ∃ s, (do format mkfsSuperblock; runOps twoFiles) init = .ok ((), s) ∧
      ∃ m', run limits true (ilock 0) (mount s.img 2) = .ok () m' ∧
        (m'.mem.icache 0).din.size = 6145 ∧ ∃ m'', run limits true (readi 0 6142 100) m'
          = .ok (readResult 6145 (fun o => (appended twoFiles 2).getD o 0) 6142 100) m'' := by
  obtain ⟨s, hrun, hread⟩ := kernel_reads_back mkfs_geometry twoFiles
    ⟨by decide, Or.inl rfl, by decide, Or.inr rfl, by decide, by decide, by decide, by decide, by decide,
      by decide, trivial⟩ twoFiles_fits
  obtain ⟨m', hlock, hsize, hm'⟩ := hread 2 (by decide) (by decide) (mount s.img 2) 0
    ⟨⟨rfl, rfl⟩, rfl, fun _ _ => rfl, fun _ _ _ => rfl⟩ ⟨Nat.one_pos, rfl, rfl, rfl⟩
  have hlen : (appended twoFiles 2).length = 6145 := by decide +kernel
  rw [hlen] at hsize hm'
  exact ⟨s, hrun, m', hlock, hsize, hm' 6142 (by decide) 100 (by decide)⟩

end Xv6.Mkfs
