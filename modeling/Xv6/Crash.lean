import Xv6.Home

/-!
# Crash atomicity of the log

A transaction is a list of `log_write`s. A session boots from a disk, recovers and runs a
list of transactions; a crash keeps the disk as some of the sector writes of
the session have left it and loses everything else; recovery may crash in the same way.

The proof follows one quantity, `recovered`: what the home sectors would hold if the
log on the disk were installed. Every sector write keeps it, except the first
`write_head` of `commit_trans`, which adds the transaction to it:

* a slot write under an empty header is invisible (`recovered_update_slot`);
* installing a slot is idempotent (`installDisk_congr`), whatever was installed before;
* erasing the header after a complete install is invisible, because the home sectors
  already hold what the log says.

`Consistent` states this of the disk after a list of writes, and `Quiet` that it holds
after every prefix of the writes of a session.
-/

open Bytes Device Function Finset

namespace Xv6

/-! ### Sessions -/

/-- The `log_write`s of a transaction: sector and contents, in order. -/
abbrev Transaction := List (Nat × Block)

/-- A caller of `log_write`: read the sector, change it, log it, release it. -/
def logUpdate (w : Nat × Block) : K Unit := do
  let _ ← bread w.1
  logWrite w.1 w.2
  brelse w.1

def logUpdates : Transaction → K Unit
  | [] => pure ()
  | w :: t => do
    logUpdate w
    logUpdates t

def transaction (t : Transaction) : K Unit := do
  beginTrans
  logUpdates t
  commitTrans

def transactions : List Transaction → K Unit
  | [] => pure ()
  | t :: ts => do
    transaction t
    transactions ts

/-- Boot, recover, and run the transactions. -/
def session (ts : List Transaction) : K Unit := do
  initlog
  transactions ts

/-- `log_write` accepts each of the writes, `lh` being the sectors logged before: its test
on the size of the transaction passes and there is a buffer for the log block. With
the log `mkfs` makes the test implies the buffer. -/
def accepts (size : Nat) : List Nat → Transaction → Bool
  | _, [] => true
  | lh, w :: t =>
    decide (lh.length < LOGSIZE ∧ lh.length < size - 1 ∧ (recordSector lh w.1).length < NBUF) &&
      accepts size (recordSector lh w.1) t

/-- The disk after the sector writes `ws`, the newest first. -/
def crashDisk (d : Nat → Block) (ws : List (Nat × Block)) : Nat → Block :=
  ws.foldr (fun w d => Function.update d w.1 w.2) d

/-- The disk `d'` is left by a recovery from `d` that crashed, and was started again and
crashed again, any number of times. -/
inductive Recrash : (Nat → Block) → (Nat → Block) → Prop where
  | refl (d : Nat → Block) : Recrash d d
  | crash {d d' : Nat → Block} {s : KState} {ws : List (Nat × Block)} (h : Recrash d d')
      (hr : run limits true initlog (boot d') = .ok () s) (hw : ws <:+ s.writes) :
      Recrash d (crashDisk d' ws)

/-- The number of header writes with a non-empty header: the transactions whose first
`write_head` in `commit_trans` reached the disk. -/
def commits (start : Nat) (ws : List (Nat × Block)) : Nat :=
  ws.countP fun w => decide (w.1 = start ∧ 0 < headerLen w.2)

/-- The effect of a transaction on the sectors. -/
def applyTx (t : Transaction) (v : Nat → Block) : Nat → Block :=
  t.foldl (fun v w => Function.update v w.1 w.2) v

/-- The effect of a list of transactions. -/
def applyTxs (ts : List Transaction) (v : Nat → Block) : Nat → Block :=
  ts.foldl (fun v t => applyTx t v) v

/-- Copy the log slots from `tail` on to the sectors listed. -/
def installDisk (start : Nat) : Nat → List Nat → (Nat → Block) → Nat → Block
  | _, [], d => d
  | tail, sec :: rest, d =>
    installDisk start (tail + 1) rest (Function.update d sec (d (start + tail + 1)))

/-- What the disk holds once its log is installed. -/
def recovered (start : Nat) (d : Nat → Block) : Nat → Block :=
  installDisk start 0 (getHeader (d start)) d

/-- A block in the place of the superblock that describes the same log area. -/
def SameLog (sb : Superblock) (b : Block) : Prop :=
  (getSuperblock b).size = sb.size ∧ (getSuperblock b).nlog = sb.nlog

/-- The disk can be recovered: the superblock places the log where `sb` does, and the
header lists sectors below the log; if the superblock is among them, its copy in the
log places the log in the same way. -/
structure Recoverable (sb : Superblock) (d : Nat → Block) : Prop where
  super : SameLog sb (d 1)
  header : ∀ x ∈ getHeader (d sb.logstart), x < sb.logstart
  keep : ∀ i (h : i < (getHeader (d sb.logstart)).length),
    (getHeader (d sb.logstart))[i] = 1 → SameLog sb (d (sb.logstart + i + 1))

/-- The transaction stays out of the log area and does not move it. -/
def TxOutside (sb : Superblock) (t : Transaction) : Prop :=
  ∀ w ∈ t, w.1 < sb.logstart ∧ (w.1 = 1 → SameLog sb w.2)

/-! ### Installing the log -/

section Install

variable {start : Nat}

/-- Installing depends on the slots, and on the old contents only of the sectors that
are not installed. -/
theorem installDisk_congr {lh : List Nat} (hl : ∀ y ∈ lh, y < start) :
    ∀ {tail : Nat} {d d' : Nat → Block} {x : Nat}, (∀ i, d (start + i + 1) = d' (start + i + 1)) →
      (x ∈ lh ∨ d x = d' x) → installDisk start tail lh d x = installDisk start tail lh d' x := by
  induction lh with
  | nil =>
    intro tail d d' x _ hx
    exact hx.resolve_left List.not_mem_nil
  | cons sec rest ih =>
    intro tail d d' x hs hx
    have hsec : sec < start := hl sec List.mem_cons_self
    refine ih (fun y hy => hl y (List.mem_cons_of_mem _ hy)) (fun i => ?_) ?_
    · rw [update_of_ne (by omega), update_of_ne (by omega), hs]
    · by_cases hxs : x = sec
      · subst hxs
        rw [update_self, update_self, hs tail]
        exact Or.inr rfl
      · rw [update_of_ne hxs, update_of_ne hxs]
        exact hx.imp (fun h => (List.mem_cons.mp h).resolve_left hxs) id

/-- If every slot holds what `v` says of its sector, and `v` agrees with the disk
elsewhere, then installing gives `v`. -/
theorem installDisk_eq {lh : List Nat} (hl : ∀ y ∈ lh, y < start) {v : Nat → Block} :
    ∀ {tail : Nat} {d : Nat → Block} {x : Nat},
      (∀ i (h : i < lh.length), d (start + (tail + i) + 1) = v lh[i]) →
      (x ∉ lh → d x = v x) → installDisk start tail lh d x = v x := by
  induction lh with
  | nil => intro tail d x _ hx; exact hx List.not_mem_nil
  | cons sec rest ih =>
    intro tail d x hs hx
    have hsec : sec < start := hl sec List.mem_cons_self
    refine ih (fun y hy => hl y (List.mem_cons_of_mem _ hy)) (fun i hi => ?_) fun hxr => ?_
    · rw [update_of_ne (by omega), show tail + 1 + i = tail + (i + 1) by omega]
      exact hs (i + 1) (by simpa using hi)
    · by_cases hxs : x = sec
      · subst hxs
        rw [update_self]
        exact hs 0 (by simp)
      · rw [update_of_ne hxs]
        exact hx fun h => (List.mem_cons.mp h).elim hxs hxr

/-- Installing one slot does not change what the installed log gives. -/
theorem recovered_update_home {d : Nat → Block} {i : Nat}
    (hl : ∀ y ∈ getHeader (d start), y < start) (hi : i < (getHeader (d start)).length)
    {b : Block} {x : Nat} :
    recovered start (Function.update d (getHeader (d start))[i] b) x = recovered start d x := by
  have hsec := hl _ (List.getElem_mem hi)
  unfold recovered
  rw [update_of_ne (by omega)]
  refine installDisk_congr hl (fun j => update_of_ne (by omega) _ _) ?_
  by_cases hx : x = (getHeader (d start))[i]
  · exact Or.inl (hx ▸ List.getElem_mem hi)
  · exact Or.inr (update_of_ne hx _ _)

theorem recovered_of_header_nil {d : Nat → Block} (h : getHeader (d start) = []) :
    recovered start d = d := by
  unfold recovered
  rw [h]
  rfl

end Install

/-! ### The invariant on the writes of a session -/

section Consistency

variable {sb : Superblock} {d₀ : Nat → Block} {T : List Transaction}
variable {s : KState} {n : Nat} {t : Transaction} {Q : Unit → KState → Prop} {x : Nat}

/-- The home sectors after the first `n` transactions of `T`. -/
def after (sb : Superblock) (d₀ : Nat → Block) (T : List Transaction) (n : Nat) : Nat → Block :=
  applyTxs (T.take n) (recovered sb.logstart d₀)

/-- The writes `ws` leave a disk that can be recovered, to the state after the transactions
that committed. -/
structure Consistent (sb : Superblock) (d₀ : Nat → Block) (T : List Transaction)
    (ws : List (Nat × Block)) : Prop where
  recoverable : Recoverable sb (crashDisk d₀ ws)
  value : ∀ x < sb.logstart, recovered sb.logstart (crashDisk d₀ ws) x
    = after sb d₀ T (commits sb.logstart ws) x

/-- The machine has made consistent writes only, and `n` transactions have committed. -/
structure History (sb : Superblock) (d₀ : Nat → Block) (T : List Transaction) (n : Nat)
    (s : KState) : Prop where
  start : s.mem.log.start = sb.logstart
  size : s.mem.log.size = sb.nlog
  above : 1 < sb.logstart
  disk : s.disk = crashDisk d₀ s.writes
  all : ∀ ws, ws <:+ s.writes → Consistent sb d₀ T ws
  count : commits sb.logstart s.writes = n

theorem History.now {n : Nat} (h : History sb d₀ T n s) :
    Consistent sb d₀ T s.writes := h.all _ List.suffix_rfl

theorem History.recoverable {n : Nat} (h : History sb d₀ T n s) :
    Recoverable sb s.disk := h.disk ▸ h.now.recoverable

theorem History.value {n : Nat} (h : History sb d₀ T n s)
    (hx : x < sb.logstart) : recovered sb.logstart s.disk x = after sb d₀ T n x := by
  rw [h.disk, h.now.value x hx, h.count]

/-- One more sector write. What is asked of it is asked of the disk it leaves. -/
theorem History.write {n n' : Nat} {s s' : KState} {sec : Nat} {b : Block}
    (h : History sb d₀ T n s) (hlog : s'.mem.log.start = s.mem.log.start)
    (hsize : s'.mem.log.size = s.mem.log.size)
    (hd : s'.disk = Function.update s.disk sec b) (hw : s'.writes = (sec, b) :: s.writes)
    (hn : n' = if sec = sb.logstart ∧ 0 < headerLen b then n + 1 else n)
    (hr : Recoverable sb s'.disk)
    (hv : ∀ x < sb.logstart, recovered sb.logstart s'.disk x = after sb d₀ T n' x) :
    History sb d₀ T n' s' := by
  have hdisk : s'.disk = crashDisk d₀ s'.writes := by
    rw [hd, hw, h.disk]
    rfl
  have hcount : commits sb.logstart s'.writes = n' := by
    rw [hw, hn]
    unfold commits
    rw [List.countP_cons, show List.countP _ s.writes = n from h.count]
    by_cases hc : sec = sb.logstart ∧ 0 < headerLen b
    · simp [hc]
    · simp [hc]
  refine ⟨hlog ▸ h.start, hsize ▸ h.size, h.above, hdisk, fun ws hws => ?_, hcount⟩
  rw [hw, List.suffix_cons_iff] at hws
  rcases hws with rfl | hws
  · rw [← hw]
    exact ⟨hdisk ▸ hr, fun x hx => by rw [← hdisk, hv x hx, hcount]⟩
  · exact h.all ws hws

/-- The committed log is being installed: the header on the disk is the one in memory. -/
structure Installing (sb : Superblock) (d₀ : Nat → Block) (T : List Transaction) (n : Nat)
    (s : KState) : Prop where
  hist : History sb d₀ T n s
  head : getHeader (s.disk sb.logstart) = s.mem.log.lh
  clean : ∀ x, x ∉ s.dirty → s.buf x = s.disk x
  busy : s.busy = ∅
  passed : s.passed = false
  dirty : s.dirty ⊆ s.mem.log.lh.toFinset
  pins : ∀ x ∈ s.mem.log.lh, (insert x s.dirty).card < NBUF
  pins' : s.dirty.card < NBUF

theorem Installing.home {n : Nat} (h : Installing sb d₀ T n s)
    (hx : x ∈ s.mem.log.lh) : x < sb.logstart :=
  h.hist.recoverable.header x (h.head ▸ hx)

theorem Installing.clean_above {n : Nat} (h : Installing sb d₀ T n s)
    (hx : sb.logstart ≤ x) : s.buf x = s.disk x :=
  h.clean x fun hd => by
    have := h.home (List.mem_toFinset.mp (h.dirty hd))
    omega

/-- Copying one slot keeps the invariant. -/
theorem Installing.copy {n : Nat} (h : Installing sb d₀ T n s) {i : Nat}
    (hi : i < s.mem.log.lh.length) :
    Installing sb d₀ T n (afterCopy s (sb.logstart + i + 1) s.mem.log.lh[i]) := by
  have hmem : s.mem.log.lh[i] ∈ s.mem.log.lh := List.getElem_mem hi
  have hsec := h.home hmem
  have hslot : s.buf (sb.logstart + i + 1) = s.disk (sb.logstart + i + 1) :=
    h.clean_above (by omega)
  have hi' : i < (getHeader (s.disk sb.logstart)).length := h.head ▸ hi
  have hget : (getHeader (s.disk sb.logstart))[i] = s.mem.log.lh[i] := by
    simp only [h.head]
  have habove := h.hist.above
  have hheadS : ∀ b : Block, Function.update s.disk s.mem.log.lh[i] b sb.logstart
      = s.disk sb.logstart := fun b => update_of_ne (by omega) _ _
  have hr : Recoverable sb (Function.update s.disk s.mem.log.lh[i] (s.buf (sb.logstart + i + 1))) := by
    refine ⟨?_, ?_, ?_⟩
    · by_cases h1 : s.mem.log.lh[i] = 1
      · rw [h1, update_self, hslot]
        exact h.hist.recoverable.keep i hi' (hget.trans h1)
      · rw [update_of_ne (Ne.symm h1)]
        exact h.hist.recoverable.super
    · rw [hheadS]
      exact h.hist.recoverable.header
    · rw [hheadS]
      intro j hj h1
      rw [update_of_ne (by omega)]
      exact h.hist.recoverable.keep j hj h1
  refine ⟨?_, ?_, ?_, h.busy, ?_, ?_, ?_, ?_⟩
  · refine h.hist.write rfl rfl rfl rfl ?_ hr fun x hx => ?_
    · rw [if_neg (by omega)]
    · change recovered sb.logstart
        (Function.update s.disk s.mem.log.lh[i] (s.buf (sb.logstart + i + 1))) x = _
      rw [← hget, recovered_update_home h.hist.recoverable.header hi', h.hist.value hx]
  · change getHeader (Function.update s.disk s.mem.log.lh[i] _ sb.logstart) = s.mem.log.lh
    rw [hheadS, h.head]
  · intro x hx
    change Function.update s.buf s.mem.log.lh[i] _ x = Function.update s.disk s.mem.log.lh[i] _ x
    by_cases hxs : x = s.mem.log.lh[i]
    · rw [hxs, update_self, update_self]
    · rw [update_of_ne hxs, update_of_ne hxs]
      exact h.clean x fun hd => hx (mem_erase.mpr ⟨hxs, hd⟩)
  · change (s.passed || decide (NBUF < s.need _) || decide (NBUF < (s.lock limits _).need _)) = false
    have h1 := h.pins _ hmem
    have h2 : s.need (sb.logstart + i + 1) ≤ NBUF := by
      unfold Machine.need
      rw [h.busy, empty_union]
      have := h.pins'
      exact (card_insert_le _ _).trans (by omega)
    have h3 : (s.lock limits (sb.logstart + i + 1)).need s.mem.log.lh[i] ≤ NBUF := by
      unfold Machine.need Machine.lock
      simp only [h.busy, insert_empty_eq, singleton_union]
      rw [insert_comm]
      exact (card_insert_le _ _).trans (by omega)
    rw [h.passed, decide_eq_false (by omega), decide_eq_false (by omega)]
    rfl
  · exact (erase_subset _ _).trans h.dirty
  · intro x hx
    exact (card_le_card (insert_subset_insert _ (erase_subset _ _))).trans_lt
      (h.pins x hx)
  · exact (card_le_card (erase_subset _ _)).trans_lt h.pins'

/-- The whole loop of `install_trans`: the invariant holds at its end, the disk is
installed and no installed sector is dirty. -/
theorem Installing.install {n : Nat} {rest : List Nat} :
    ∀ {tail : Nat} {s : KState}, Installing sb d₀ T n s → s.mem.log.lh.drop tail = rest →
      Installing sb d₀ T n (afterInstall sb.logstart tail rest s) ∧
      (afterInstall sb.logstart tail rest s).mem = s.mem ∧
      (afterInstall sb.logstart tail rest s).disk = installDisk sb.logstart tail rest s.disk ∧
      (afterInstall sb.logstart tail rest s).dirty ⊆ s.dirty \ rest.toFinset := by
  induction rest with
  | nil => intro tail s h _; exact ⟨h, rfl, rfl, by simp [afterInstall]⟩
  | cons sec rest ih =>
    intro tail s h hdrop
    have htail : tail < s.mem.log.lh.length := by
      by_contra hc
      rw [List.drop_eq_nil_of_le (by omega)] at hdrop
      cases hdrop
    have hcons := List.drop_eq_getElem_cons htail
    rw [hdrop] at hcons
    obtain ⟨hsec, hrest⟩ := List.cons.inj hcons
    have hstep : Installing sb d₀ T n (afterCopy s (sb.logstart + tail + 1) sec) :=
      hsec ▸ h.copy htail
    obtain ⟨h1, h2, h3, h4⟩ := ih hstep hrest.symm
    refine ⟨h1, h2, ?_, ?_⟩
    · rw [afterInstall, h3, installDisk]
      change installDisk sb.logstart (tail + 1) rest (Function.update s.disk sec (s.buf _)) = _
      rw [h.clean_above (show sb.logstart ≤ sb.logstart + tail + 1 by omega)]
    · intro x hx
      have hx' := mem_sdiff.mp (h4 hx)
      have hne := mem_erase.mp hx'.1
      rw [mem_sdiff, List.toFinset_cons, mem_insert]
      exact ⟨hne.2, fun hc => hc.elim hne.1 hx'.2⟩

/-- Between transactions: the log is empty and every buffer is as on the disk. -/
structure Quiet (sb : Superblock) (d₀ : Nat → Block) (T : List Transaction) (n : Nat)
    (s : KState) : Prop where
  hist : History sb d₀ T n s
  head : getHeader (s.disk sb.logstart) = []
  lh : s.mem.log.lh = []
  clean : s.buf = s.disk
  busy : s.busy = ∅
  passed : s.passed = false
  dirty : s.dirty = ∅

theorem getHeader_putHeader_nil (b : Block) : getHeader (putHeader b []) = [] :=
  getHeader_putHeader (by decide) (by simp)

/-- Erasing the header after a complete install. -/
theorem Installing.erase {n : Nat} (h : Installing sb d₀ T n s)
    (hdirty : s.dirty = ∅)
    (hdone : ∀ x < sb.logstart, s.disk x = after sb d₀ T n x) :
    Quiet sb d₀ T n (afterHead (setLh s [])) := by
  have hstart : (setLh s []).mem.log.start = sb.logstart := h.hist.start
  have hdisk : (afterHead (setLh s [])).disk
      = Function.update s.disk sb.logstart (putHeader (s.buf sb.logstart) []) := by
    rw [← hstart]
    rfl
  have hheader : getHeader ((afterHead (setLh s [])).disk sb.logstart) = [] := by
    rw [hdisk, update_self, getHeader_putHeader_nil]
  have habove := h.hist.above
  have hr : Recoverable sb (afterHead (setLh s [])).disk := by
    refine ⟨?_, ?_, ?_⟩
    · rw [hdisk, update_of_ne (by omega)]
      exact h.hist.recoverable.super
    · rw [hheader]; simp
    · rw [hheader]; simp
  have hclean : ∀ x, s.buf x = s.disk x := fun x => h.clean x (by simp [hdirty])
  refine ⟨?_, hheader, rfl, ?_, h.busy, ?_, ?_⟩
  · refine h.hist.write rfl rfl hdisk (by rw [← hstart]; rfl) ?_ hr fun x hx => ?_
    · rw [headerLen_putHeader (by decide), if_neg (by simp)]
    · rw [recovered_of_header_nil hheader, hdisk, update_of_ne (by omega)]
      exact hdone x hx
  · change Function.update s.buf _ _ = Function.update s.disk _ _
    rw [funext hclean]
  · have hneed : (setLh s []).need (setLh s []).mem.log.start ≤ NBUF := by
      change (insert _ (s.busy ∪ s.dirty)).card ≤ NBUF
      rw [h.busy, hdirty]
      exact (card_insert_le _ _).trans (by decide)
    change (s.passed || decide (NBUF < (setLh s []).need (setLh s []).mem.log.start)) = false
    rw [h.passed, decide_eq_false (by omega)]
    rfl
  · change s.dirty.erase _ = ∅
    rw [hdirty]
    rfl

/-- The second half of a commit, which is also the end of recovery: install the log and
erase the header. -/
theorem kwp_installAndErase {J : Policy Event} (h : Installing sb d₀ T n s)
        (hQ : ∀ s', Quiet sb d₀ T n s' → s'.mem = (setLh s []).mem → Q () s') :
    kwp J installAndErase Q s := by
  obtain ⟨h1, h2, h3, h4⟩ := h.install List.drop_zero
  have hdirty : (afterInstall sb.logstart 0 s.mem.log.lh s).dirty = ∅ := by
    refine subset_empty.mp (h4.trans ?_)
    rw [sdiff_eq_empty_iff_subset.mpr h.dirty]
  have hdone : ∀ x < sb.logstart,
      (afterInstall sb.logstart 0 s.mem.log.lh s).disk x = after sb d₀ T n x := by
    intro x hx
    rw [h3, ← h.hist.value hx]
    unfold recovered
    rw [h.head]
  unfold installAndErase installTrans
  refine wp_bind (wp_bind (wp_get (kwp_installLoop ?_ ?_ (wp_bind (wp_modify (kwp_writeHead ?_
    ?_))))))
  · intro i _; rw [h.busy]; exact notMem_empty _
  · intro x hx
    rw [h.busy, h.hist.start]
    exact ⟨notMem_empty _, (h.home hx).le⟩
  · rw [h.hist.start]
    change _ ∉ (afterInstall sb.logstart 0 s.mem.log.lh s).busy
    rw [h1.busy]
    exact notMem_empty _
  · rw [h.hist.start]
    refine hQ _ (h1.erase hdirty hdone) ?_
    change { (afterInstall sb.logstart 0 s.mem.log.lh s).mem with
      log := { (afterInstall sb.logstart 0 s.mem.log.lh s).mem.log with lh := [] } } = _
    rw [h2]
    rfl

/-! ### Recovery -/

theorem recoverable_history (h : Recoverable sb d₀) (ha : 1 < sb.logstart)
    (hs : s.mem.log.start = sb.logstart) (hz : s.mem.log.size = sb.nlog) (hd : s.disk = d₀)
    (hw : s.writes = []) : History sb d₀ T 0 s := by
  refine ⟨hs, hz, ha, by rw [hd, hw]; rfl, fun ws hws => ?_, by rw [hw]; rfl⟩
  rw [hw] at hws
  obtain rfl := List.suffix_nil.mp hws
  exact ⟨h, fun x _ => rfl⟩

/-- **Recovery.** From a disk that can be recovered, `initlog` ends with the log installed
and erased; every prefix of its writes is consistent. -/
theorem kwp_initlog {J : Policy Event} (h : Recoverable sb d₀) (ha : 1 < sb.logstart)
        (hQ : ∀ s, Quiet sb d₀ T 0 s → s.mem.log.busy = false → Q () s) :
    kwp J initlog Q (boot d₀) := by
  have hneed : ∀ sec, decide (NBUF < (boot d₀).need sec) = false := by
    intro sec
    refine decide_eq_false (Nat.not_lt.mpr ?_)
    change (insert sec (∅ : Finset Nat)).card ≤ NBUF
    exact (card_insert_le _ _).trans (by decide)
  obtain ⟨hs, hz⟩ := h.super
  unfold initlog recoverFromLog
  refine wp_bind (kwp_readsb (notMem_empty _) (wp_bind (wp_modify (wp_bind
    (kwp_readHead (notMem_empty _) (kwp_installAndErase ?_ fun s' hs' hm => hQ s' hs' ?_))))))
  · refine ⟨recoverable_history h ha ?_ ?_ rfl rfl, ?_, fun _ _ => rfl, rfl, ?_, ?_, ?_, ?_⟩
    · change (getSuperblock (d₀ 1)).size - (getSuperblock (d₀ 1)).nlog = sb.logstart
      rw [hs, hz]
      rfl
    · exact hz
    · change getHeader (d₀ sb.logstart) = getHeader (d₀ ((getSuperblock (d₀ 1)).size
        - (getSuperblock (d₀ 1)).nlog))
      rw [hs, hz]
      rfl
    · change ((false || decide (NBUF < (boot d₀).need 1)) || decide (NBUF < (boot d₀).need
        ((getSuperblock (d₀ 1)).size - (getSuperblock (d₀ 1)).nlog))) = false
      rw [hneed, hneed]
      rfl
    · exact empty_subset _
    · intro x _
      change (insert x (∅ : Finset Nat)).card < NBUF
      exact (card_insert_le _ _).trans_lt (by decide)
    · change (∅ : Finset Nat).card < NBUF
      decide
  · rw [hm]
    rfl

/-! ### A transaction -/

/-- Inside a transaction: the updates `t` have been logged. -/
structure InTx (sb : Superblock) (d₀ : Nat → Block) (T : List Transaction) (n : Nat)
    (t : Transaction) (s : KState) : Prop where
  hist : History sb d₀ T n s
  head : getHeader (s.disk sb.logstart) = []
  homes : ∀ x < sb.logstart, s.disk x = after sb d₀ T n x
  active : s.mem.log.busy = true
  nodup : s.mem.log.lh.Nodup
  below : ∀ x ∈ s.mem.log.lh, x < sb.logstart
  slots : ∀ i (h : i < s.mem.log.lh.length),
    s.disk (sb.logstart + i + 1) = s.buf s.mem.log.lh[i]
  clean : ∀ x, x ∉ s.dirty → s.buf x = s.disk x
  busy : s.busy = ∅
  passed : s.passed = false
  dirty : s.dirty ⊆ s.mem.log.lh.toFinset
  view : ∀ x < sb.logstart, s.buf x = applyTx t (after sb d₀ T n) x
  super : SameLog sb (s.buf 1)
  room : s.mem.log.lh.length < NBUF
  nonempty : s.mem.log.lh = [] ↔ t = []

theorem Quiet.beginTx {n : Nat} (h : Quiet sb d₀ T n s) :
    InTx sb d₀ T n [] { s with mem := { s.mem with
      log := { s.mem.log with busy := true, owner := some s.mem.proc } } } := by
  have hhomes : ∀ x < sb.logstart, s.disk x = after sb d₀ T n x := by
    intro x hx
    rw [← h.hist.value hx, recovered_of_header_nil h.head]
  refine ⟨⟨h.hist.start, h.hist.size, h.hist.above, h.hist.disk, h.hist.all, h.hist.count⟩,
    h.head, hhomes, rfl, ?_, ?_, ?_, fun x _ => by rw [h.clean], h.busy, h.passed, ?_, ?_, ?_, ?_,
    iff_of_true h.lh rfl⟩
  · change s.mem.log.lh.Nodup; rw [h.lh]; exact List.nodup_nil
  · intro x hx; change x ∈ s.mem.log.lh at hx; rw [h.lh] at hx; cases hx
  · intro i hi; change i < s.mem.log.lh.length at hi; rw [h.lh] at hi; cases hi
  · change s.dirty ⊆ _; rw [h.dirty]; exact empty_subset _
  · intro x hx; change s.buf x = _; rw [h.clean, hhomes x hx]; rfl
  · change SameLog sb (s.buf 1); rw [h.clean]; exact h.hist.recoverable.super
  · change s.mem.log.lh.length < NBUF; rw [h.lh]; decide

/-- The machine after a whole `logUpdate`. -/
def afterUpdate (s : KState) (w : Nat × Block) : KState :=
  { afterLogWrite (s.lock limits w.1) w.1 w.2 with busy := s.busy }

theorem InTx.update {n : Nat} {w : Nat × Block}
    (h : InTx sb d₀ T n t s) (hw : w.1 < sb.logstart) (hw1 : w.1 = 1 → SameLog sb w.2)
    (hacc : s.mem.log.lh.length < LOGSIZE ∧ s.mem.log.lh.length < s.mem.log.size - 1 ∧
      (s.mem.log.record w.1).length < NBUF) :
    InTx sb d₀ T n (t ++ [w]) (afterUpdate s w) := by
  obtain ⟨sec, data⟩ := w
  have hstart := h.hist.start
  have habove := h.hist.above
  set slot := sb.logstart + s.mem.log.slot sec + 1 with hslot
  have hdisk : (afterUpdate s (sec, data)).disk = Function.update s.disk slot data := by
    rw [hslot, ← hstart]; rfl
  have hbuf : (afterUpdate s (sec, data)).buf
      = Function.update (Function.update s.buf sec data) slot data := by
    rw [hslot, ← hstart]; rfl
  have hdirty : (afterUpdate s (sec, data)).dirty = insert sec (s.dirty.erase slot) := by
    rw [hslot, ← hstart]; rfl
  have hlh : (afterUpdate s (sec, data)).mem.log.lh = s.mem.log.record sec := rfl
  have hsub : insert sec s.dirty ⊆ (s.mem.log.record sec).toFinset := by
    rw [toFinset_record]
    exact insert_subset_insert _ h.dirty
  have hcard : (insert sec s.dirty).card < NBUF :=
    ((card_le_card hsub).trans (List.toFinset_card_le _)).trans_lt hacc.2.2
  have hheader : getHeader ((afterUpdate s (sec, data)).disk sb.logstart) = [] := by
    rw [hdisk, update_of_ne (by omega), h.head]
  have hhomes : ∀ x < sb.logstart, (afterUpdate s (sec, data)).disk x = after sb d₀ T n x := by
    intro x hx
    rw [hdisk, update_of_ne (by omega), h.homes x hx]
  have hr : Recoverable sb (afterUpdate s (sec, data)).disk := by
    refine ⟨?_, ?_, ?_⟩
    · rw [hdisk, update_of_ne (by omega)]; exact h.hist.recoverable.super
    · rw [hheader]; simp
    · rw [hheader]; simp
  refine ⟨?_, hheader, hhomes, h.active, ?_, ?_, ?_, ?_, h.busy, ?_, ?_, ?_, ?_, ?_, ?_⟩
  · refine h.hist.write rfl rfl hdisk (by rw [hslot, ← hstart]; rfl) ?_ hr fun x hx => ?_
    · rw [if_neg (by omega)]
    · rw [recovered_of_header_nil hheader, hhomes x hx]
  · rw [hlh]; exact nodup_record _ _ h.nodup
  · intro x hx
    rw [hlh, mem_record] at hx
    exact hx.elim (h.below x) fun hx => hx ▸ hw
  · intro i hi
    simp only [hlh] at hi ⊢
    rw [hdisk, hbuf]
    by_cases hi' : i = s.mem.log.slot sec
    · subst hi'
      rw [record_getElem_slot, ← hslot, update_self, update_of_ne (by omega),
        update_self]
    · obtain ⟨hlt, hget⟩ := record_getElem_of_ne _ _ hi hi'
      have hb := h.below _ (List.getElem_mem hlt)
      have hne : s.mem.log.lh[i] ≠ sec := by
        -- a sector of the header other than the one in `slot sec` is not `sec`
        intro he
        refine hi' ?_
        unfold LogState.slot
        rw [← he, h.nodup.idxOf_getElem]
      rw [hget, update_of_ne (by omega), update_of_ne (by omega),
        update_of_ne hne, h.slots i hlt]
  · intro x hx
    rw [hdirty, mem_insert, mem_erase] at hx
    rw [hbuf, hdisk]
    by_cases hxs : x = slot
    · rw [hxs, update_self, update_self]
    · rw [update_of_ne hxs, update_of_ne hxs,
        update_of_ne (fun he => hx (Or.inl he))]
      exact h.clean x fun hd => hx (Or.inr ⟨hxs, hd⟩)
  · have hneed1 : s.need sec ≤ NBUF := by
      unfold Machine.need
      rw [h.busy, empty_union]
      omega
    have hneed2 : (s.lock limits sec).need (s.mem.log.start + s.mem.log.slot sec + 1) ≤ NBUF := by
      unfold Machine.need Machine.lock
      simp only [h.busy, insert_empty_eq, singleton_union]
      exact (card_insert_le _ _).trans (by omega)
    change ((s.passed || decide (NBUF < s.need sec)) || !decide (_ ∧ _) ||
      decide (NBUF < (s.lock limits sec).need (s.mem.log.start + s.mem.log.slot sec + 1))) = false
    rw [h.passed, decide_eq_false (by omega), decide_eq_true ⟨hacc.1, hacc.2.1⟩,
      decide_eq_false (Nat.not_lt.mpr hneed2)]
    rfl
  · rw [hdirty, hlh]
    exact (insert_subset_insert _ (erase_subset _ _)).trans hsub
  · intro x hx
    rw [hbuf, update_of_ne (by omega)]
    unfold applyTx
    rw [List.foldl_append]
    change Function.update s.buf sec data x
      = Function.update (applyTx t (after sb d₀ T n)) sec data x
    by_cases hxs : x = sec
    · rw [hxs, update_self, update_self]
    · rw [update_of_ne hxs, update_of_ne hxs, h.view x hx]
  · rw [hbuf, update_of_ne (by omega)]
    by_cases h1 : sec = 1
    · rw [h1, update_self]; exact hw1 h1
    · rw [update_of_ne (Ne.symm h1)]; exact h.super
  · exact hacc.2.2
  · have hlt := record_slot_lt s.mem.log sec
    refine iff_of_false (fun hnil => ?_) (by simp)
    change s.mem.log.record sec = [] at hnil
    rw [hnil] at hlt
    cases hlt

theorem kwp_logUpdate {n : Nat}
    {w : Nat × Block} (h : InTx sb d₀ T n t s) (hw : w.1 < sb.logstart)
    (hQ : Q () (afterUpdate s w)) : kwp total (logUpdate w) Q s := by
  have hnot : ∀ x, x ∉ s.busy := fun x => h.busy ▸ notMem_empty x
  have hstart := h.hist.start
  unfold logUpdate
  refine wp_bind (wp_bread (hnot _) (wp_bind (kwp_logWrite ?_ (fun hb => ?_) trivial
    fun _ => wp_brelse (mem_insert_self _ _) ?_)))
  · change _ ∉ insert w.1 s.busy
    rw [h.busy, mem_insert]
    rintro (he | he)
    · change s.mem.log.start + s.mem.log.slot w.1 + 1 = w.1 at he
      omega
    · exact notMem_empty _ he
  · exact absurd (show s.mem.log.busy = false from hb) (by rw [h.active]; decide)
  · change Q () { afterLogWrite (s.lock limits w.1) w.1 w.2 with
      busy := (insert w.1 s.busy).erase w.1 }
    rw [erase_insert (hnot _)]
    exact hQ

theorem kwp_logUpdates {n : Nat}
    (hout : TxOutside sb t) :
    ∀ {pre : Transaction} {s : KState}, InTx sb d₀ T n pre s → accepts sb.nlog s.mem.log.lh t = true →
      (∀ s', InTx sb d₀ T n (pre ++ t) s' → Q () s') → kwp total (logUpdates t) Q s := by
  induction t with
  | nil =>
    intro pre s h _ hQ
    exact wp_pure (hQ s (by rwa [List.append_nil]))
  | cons w t ih =>
    intro pre s h hacc hQ
    obtain ⟨hw, hw1⟩ := hout w List.mem_cons_self
    rw [accepts, Bool.and_eq_true, decide_eq_true_eq] at hacc
    unfold logUpdates
    rw [← h.hist.size] at hacc
    have hnext := h.update hw hw1 hacc.1
    rw [h.hist.size] at hacc
    refine wp_bind (kwp_logUpdate h hw (ih (fun w' hw' => hout w' (List.mem_cons_of_mem _ hw'))
      hnext hacc.2 fun s' hs' => hQ s' ?_))
    rwa [List.append_assoc] at hs'

/-- The header on the disk after the first `write_head` of a commit. -/
theorem InTx.commitHead {n : Nat} (h : InTx sb d₀ T n t s)
    (hne : s.mem.log.lh ≠ []) (hT : T.take (n + 1) = T.take n ++ [t]) :
    Installing sb d₀ T (n + 1) (afterHead s) := by
  have hstart := h.hist.start
  have habove := h.hist.above
  have hdisk : (afterHead s).disk
      = Function.update s.disk sb.logstart (putHeader (s.buf sb.logstart) s.mem.log.lh) := by
    rw [← hstart]; rfl
  have hbuf : (afterHead s).buf
      = Function.update s.buf sb.logstart (putHeader (s.buf sb.logstart) s.mem.log.lh) := by
    rw [← hstart]; rfl
  have hlen : s.mem.log.lh.length < 2 ^ 31 := h.room.trans (by decide)
  have hpos : 0 < s.mem.log.lh.length := List.length_pos_iff.mpr hne
  have hsize : sb.logstart < 2 ^ 32 := by
    have h1 := h.super.1
    have h2 := getLE_lt (s.buf 1) 0 4
    change getLE (s.buf 1) 0 4 = sb.size at h1
    unfold Superblock.logstart
    omega
  have hheader : getHeader ((afterHead s).disk sb.logstart) = s.mem.log.lh := by
    rw [hdisk, update_self]
    exact getHeader_putHeader hlen fun x hx => (h.below x hx).trans hsize
  have hslots : ∀ i (hi : i < s.mem.log.lh.length),
      (afterHead s).disk (sb.logstart + i + 1) = s.buf s.mem.log.lh[i] := by
    intro i hi
    rw [hdisk, update_of_ne (by omega), h.slots i hi]
  have hr : Recoverable sb (afterHead s).disk := by
    refine ⟨?_, ?_, ?_⟩
    · rw [hdisk, update_of_ne (by omega)]; exact h.hist.recoverable.super
    · rw [hheader]; exact h.below
    · rw [hheader]
      intro i hi h1
      rw [hslots i hi, h1]
      exact h.super
  -- installing the log now gives what the buffers show, the state after the transaction
  have hvalue : ∀ x < sb.logstart,
      recovered sb.logstart (afterHead s).disk x = after sb d₀ T (n + 1) x := by
    intro x hx
    have hafter : after sb d₀ T (n + 1) x = s.buf x := by
      unfold after applyTxs
      rw [hT, List.foldl_append, h.view x hx]
      rfl
    rw [hafter]
    unfold recovered
    rw [hheader]
    refine installDisk_eq h.below (fun i hi => by rw [Nat.zero_add]; exact hslots i hi) fun hxl => ?_
    rw [hdisk, update_of_ne (by omega)]
    exact (h.clean x fun hd => hxl (List.mem_toFinset.mp (h.dirty hd))).symm
  have hcard : ∀ A : Finset Nat, A ⊆ s.mem.log.lh.toFinset → A.card < NBUF := fun A hA =>
    ((card_le_card hA).trans (List.toFinset_card_le _)).trans_lt h.room
  have hsub : (afterHead s).dirty ⊆ s.mem.log.lh.toFinset :=
    (erase_subset _ _).trans h.dirty
  refine ⟨?_, hheader, ?_, h.busy, ?_, hsub, ?_, hcard _ hsub⟩
  · refine h.hist.write rfl rfl hdisk (by rw [← hstart]; rfl) ?_ hr hvalue
    rw [headerLen_putHeader hlen, if_pos ⟨rfl, hpos⟩]
  · intro x hx
    rw [hbuf, hdisk]
    by_cases hxs : x = sb.logstart
    · rw [hxs, update_self, update_self]
    · rw [update_of_ne hxs, update_of_ne hxs]
      refine h.clean x fun hd => hx ?_
      change x ∈ s.dirty.erase s.mem.log.start
      rw [hstart]
      exact mem_erase.mpr ⟨hxs, hd⟩
  · have hneed : s.need s.mem.log.start ≤ NBUF := by
      unfold Machine.need
      rw [h.busy, empty_union]
      exact (card_insert_le _ _).trans (hcard _ h.dirty)
    change (s.passed || decide (NBUF < s.need s.mem.log.start)) = false
    rw [h.passed, decide_eq_false (by omega)]
    rfl
  · intro x hx
    exact hcard _ (insert_subset (List.mem_toFinset.mpr hx) hsub)

/-- The number of transactions that have committed once `t` has ended. -/
def bump (t : Transaction) (n : Nat) : Nat := if t = [] then n else n + 1

theorem InTx.emit {n : Nat} (h : InTx sb d₀ T n t s) (e : Event) :
    InTx sb d₀ T n t { s with events := e :: s.events } :=
  ⟨⟨h.hist.start, h.hist.size, h.hist.above, h.hist.disk, h.hist.all, h.hist.count⟩, h.head,
    h.homes, h.active, h.nodup, h.below, h.slots, h.clean, h.busy, h.passed, h.dirty, h.view,
    h.super, h.room, h.nonempty⟩

theorem InTx.endEmpty {n : Nat} (h : InTx sb d₀ T n [] s) : Quiet sb d₀ T n s := by
  have hlh := h.nonempty.mpr rfl
  have hdirty : s.dirty = ∅ := subset_empty.mp (by
    have := h.dirty
    rwa [hlh] at this)
  exact ⟨h.hist, h.head, hlh, funext fun x => h.clean x (by simp [hdirty]), h.busy, h.passed,
    hdirty⟩

theorem Quiet.idle {n : Nat} (h : Quiet sb d₀ T n s) :
    Quiet sb d₀ T n { s with mem := { s.mem with
      log := { s.mem.log with busy := false, owner := none } } } :=
  ⟨⟨h.hist.start, h.hist.size, h.hist.above, h.hist.disk, h.hist.all, h.hist.count⟩, h.head,
    h.lh, h.clean, h.busy, h.passed, h.dirty⟩

theorem kwp_commitTrans {n : Nat}
    (h : InTx sb d₀ T n t s) (hT : t ≠ [] → T.take (n + 1) = T.take n ++ [t])
        (hQ : ∀ s', Quiet sb d₀ T (bump t n) s' → s'.mem.log.busy = false → Q () s') :
    kwp total commitTrans Q s := by
  unfold commitTrans
  refine wp_bind (wp_yield (wp_bind (wp_get (wp_bind (wp_emit fun _ => ⟨trivial, ?_⟩)))))
  by_cases ht : t = []
  · have hlen : ¬ 0 < s.mem.log.lh.length := by
      rw [h.nonempty.mpr ht]; decide
    subst ht
    rw [if_neg hlen]
    exact wp_modify (hQ _ (h.emit _).endEmpty.idle rfl)
  · have hne : s.mem.log.lh ≠ [] := fun hc => ht (h.nonempty.mp hc)
    have hbump : bump t n = n + 1 := if_neg ht
    rw [if_pos (List.length_pos_iff.mpr hne)]
    refine wp_bind (kwp_writeHead ?_ (wp_bind (kwp_installAndErase
      ((h.emit _).commitHead hne (hT ht)) fun s' hs' _ => wp_modify (hQ _ ?_ rfl))))
    · change _ ∉ s.busy
      rw [h.busy]
      exact notMem_empty _
    · rw [hbump]
      exact hs'.idle

/-- **A transaction**, from one quiet state to the next. -/
theorem kwp_transaction {n : Nat}
    (h : Quiet sb d₀ T n s) (hidle : s.mem.log.busy = false)
    (hout : TxOutside sb t) (hacc : accepts sb.nlog [] t = true)
    (hT : t ≠ [] → T.take (n + 1) = T.take n ++ [t])
    (hQ : ∀ s', Quiet sb d₀ T (bump t n) s' → s'.mem.log.busy = false → Q () s') :
    kwp total (transaction t) Q s := by
  unfold transaction beginTrans
  refine wp_bind (wp_bind (wp_yield (wp_wait (fun _ => ?_) fun hn => ?_)))
  · refine wp_bind (kwp_logUpdates hout h.beginTx ?_ fun s' hs' => kwp_commitTrans hs' hT hQ)
    change accepts sb.nlog s.mem.log.lh t = true
    rwa [h.lh]
  · rw [hidle] at hn
    cases hn

/-- The transactions of a session that write something. -/
def effective (ts : List Transaction) : List Transaction := ts.filter fun t => !t.isEmpty

theorem kwp_transactions {ts : List Transaction}
    (hout : ∀ t ∈ ts, TxOutside sb t) (hacc : ∀ t ∈ ts, accepts sb.nlog [] t = true) :
    ∀ {pre : List Transaction} {s : KState}, T = pre ++ effective ts →
      Quiet sb d₀ T pre.length s → s.mem.log.busy = false →
      (∀ s', (∃ n, Quiet sb d₀ T n s') → Q () s') → kwp total (transactions ts) Q s := by
  induction ts with
  | nil => intro pre s _ h _ hQ; exact wp_pure (hQ s ⟨_, h⟩)
  | cons t ts ih =>
    intro pre s hT h hidle hQ
    unfold transactions
    have ih' := @ih (fun t ht => hout t (List.mem_cons_of_mem _ ht))
      fun t ht => hacc t (List.mem_cons_of_mem _ ht)
    refine wp_bind (kwp_transaction h hidle (hout t List.mem_cons_self)
      (hacc t List.mem_cons_self) (fun ht => ?_) fun s' hs' hidle' => ?_)
    · rw [hT, effective, List.filter_cons_of_pos (by simpa using ht)]
      simp [List.take_append]
    · by_cases ht : t = []
      · subst ht
        exact ih' hT hs' hidle' hQ
      · have hT' : T = (pre ++ [t]) ++ effective ts := by
          rw [hT, effective, List.filter_cons_of_pos (by simpa using ht), List.append_assoc]
          rfl
        refine ih' hT' ?_ hidle' hQ
        have hbump : bump t pre.length = (pre ++ [t]).length := by
          rw [bump, if_neg ht, List.length_append, List.length_singleton]
        rwa [hbump] at hs'

end Consistency

/-! ### Crash atomicity -/

section Atomicity

variable {sb : Superblock} {d : Nat → Block}

theorem run_of_kwp_total {α : Type} {p : K α} {Q : α → KState → Prop} {s : KState}
    (h : kwp total p (fun a s' => Q a s' ∧ s'.passed = false) s) :
    ∃ a s', run limits true p s = .ok a s' ∧ Q a s' := by
  cases hr : run limits false p s with
  | ok a s' =>
    obtain ⟨-, hQ, hp⟩ := wp_ok h hr (fun _ _ => trivial) fun _ _ => trivial
    exact ⟨a, s', run_true_of_run_false limits hr hp, hQ⟩
  | stop e s' => exact (wp_stop h hr (fun _ _ => trivial) fun _ _ => trivial).2.elim

theorem run_initlog (h : Recoverable sb d) (ha : 1 < sb.logstart) :
    ∃ s, run limits true initlog (boot d) = .ok () s ∧ Quiet sb d [] 0 s := by
  have hinit : kwp total initlog (fun _ s => Quiet sb d [] 0 s ∧ s.passed = false) (boot d) :=
    kwp_initlog h ha fun s hs _ => ⟨hs, hs.passed⟩
  obtain ⟨_, s, hr, hq⟩ := run_of_kwp_total hinit
  exact ⟨s, hr, hq⟩

/-- Recovery may crash and be started again any number of times without an effect. -/
theorem Recrash.recoverable {d' : Nat → Block} (hrec : Recrash d d') (h : Recoverable sb d)
    (ha : 1 < sb.logstart) : Recoverable sb d' ∧
      ∀ x < sb.logstart, recovered sb.logstart d' x = recovered sb.logstart d x := by
  induction hrec with
  | refl => exact ⟨h, fun _ _ => rfl⟩
  | crash _ hr hw ih =>
    obtain ⟨hd', hv⟩ := ih
    obtain ⟨s, hs, hq⟩ := run_initlog hd' ha
    rw [hr] at hs
    obtain rfl := (Outcome.ok.inj hs).2
    have hc := hq.hist.all _ hw
    refine ⟨hc.recoverable, fun x hx => ?_⟩
    rw [hc.value x hx, ← hv x hx]
    simp [after, applyTxs]

/-- **Crash atomicity.** Boot from a disk that can be recovered and run any list of transactions
that `log_write` accepts and that stay out of the log. Crash after any prefix `ws`
of the sector writes made, and let recovery crash any number of times. Then running
recovery to its end leaves every sector below the log as it was after the first `k`
transactions that wrote something, where `k` is the number of transactions whose
first `write_head` in `commit_trans` is among `ws`. -/
theorem log_crash_atomic {ts : List Transaction} (h : Recoverable sb d) (ha : 1 < sb.logstart)
    (hout : ∀ t ∈ ts, TxOutside sb t) (hacc : ∀ t ∈ ts, accepts sb.nlog [] t = true) :
    ∃ s, run limits true (session ts) (boot d) = .ok () s ∧
      ∀ ws, ws <:+ s.writes → ∀ d', Recrash (crashDisk d ws) d' →
        ∃ s', run limits true initlog (boot d') = .ok () s' ∧
          ∀ x < sb.logstart, s'.disk x = applyTxs
            ((effective ts).take (commits sb.logstart ws)) (recovered sb.logstart d) x := by
  have hsession : kwp total (session ts)
      (fun _ s => (∃ n, Quiet sb d (effective ts) n s) ∧ s.passed = false) (boot d) := by
    refine wp_bind (kwp_initlog (T := effective ts) h ha fun s hs hidle => ?_)
    refine kwp_transactions hout hacc (List.nil_append _).symm hs hidle fun s' hs' => ⟨hs', ?_⟩
    obtain ⟨n, hq⟩ := hs'
    exact hq.passed
  obtain ⟨_, s, hr, n, hq⟩ := run_of_kwp_total hsession
  refine ⟨s, hr, fun ws hws d' hd' => ?_⟩
  have hc := hq.hist.all ws hws
  obtain ⟨hrec, hv⟩ := hd'.recoverable hc.recoverable ha
  obtain ⟨s', hr', hq'⟩ := run_initlog hrec ha
  refine ⟨s', hr', fun x hx => ?_⟩
  have h0 := hq'.hist.value hx
  rw [recovered_of_header_nil hq'.head] at h0
  rw [h0, after, List.take_nil, applyTxs, List.foldl_nil, hv x hx, hc.value x hx]
  rfl

/-- A disk with the geometry of `mkfs` and an empty log. -/
def blankDisk : Nat → Block :=
  Function.update (fun _ => zero) 1 (putLE (putLE zero 0 4 1024) 12 4 10)

/-- A session on it that logs sector 40 twice and sector 41 once. -/
theorem log_crash_atomic_blankDisk : ∃ s, run limits true
      (session [[(40, zero), (41, zero), (40, fun _ => 1)]]) (boot blankDisk) = .ok () s ∧
    ∀ ws, ws <:+ s.writes → ∀ d', Recrash (crashDisk blankDisk ws) d' →
      ∃ s', run limits true initlog (boot d') = .ok () s' ∧
        ∀ x < (⟨1024, 985, 200, 10⟩ : Superblock).logstart, s'.disk x = applyTxs
          ((effective [[(40, zero), (41, zero), (40, fun _ => 1)]]).take
            (commits (⟨1024, 985, 200, 10⟩ : Superblock).logstart ws))
          (recovered (⟨1024, 985, 200, 10⟩ : Superblock).logstart blankDisk) x := by
  have hempty : getHeader (blankDisk (⟨1024, 985, 200, 10⟩ : Superblock).logstart) = [] := rfl
  have hrec : Recoverable ⟨1024, 985, 200, 10⟩ blankDisk := by
    refine ⟨⟨by decide, by decide⟩, fun x hx => ?_, fun i hi => ?_⟩
    · rw [hempty] at hx
      exact absurd hx List.not_mem_nil
    · rw [hempty] at hi
      exact absurd hi (Nat.not_lt_zero i)
  refine log_crash_atomic hrec (by decide) (fun t ht w hw => ?_) (by decide)
  obtain rfl := List.mem_singleton.mp ht
  have hw : w.1 = 40 ∨ w.1 = 41 := by
    revert w
    simp
  have hne : w.1 ≠ 1 := by omega
  refine ⟨?_, fun h => absurd h hne⟩
  change w.1 < 1014
  omega

end Atomicity

end Xv6
