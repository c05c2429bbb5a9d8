import Xv6.LogSpec

/-!
# The store the file system sees

To the code above the log the disk is an array of sectors below the log, read with
`bread` and changed with `log_write`; where the log keeps its copies, which buffers are
pinned and when sectors reach the disk does not show. `Home` is that store together with
the memory and the set of locked buffers, and `View s h` says that the machine `s`
implements `h`:

* each slot of the log has the contents of the sector it stands for, so that installing
  the log changes no buffer;
* only logged buffers are dirty, so that with few sectors logged no limit is passed.

`hwp` is the weakest precondition of a program in terms of `Home`; its rules are all that the
proofs about the file system use of the log and the buffer cache.
-/

open Bytes Device Function Finset

namespace Xv6

/-- The sectors below the log, the locked buffers and the memory. `passed` is ghost: it is
set when a transaction ends in which a limit may have been passed. -/
structure Home where
  buf : Nat → Block
  locked : Finset Nat
  mem : Mem
  passed : Bool

/-- The number of logged sectors up to which no limit is passed, as long as at most three
buffers are locked at a time. -/
def ROOM : Nat := 7

/-- The machine `s` implements the store `h`. -/
structure View (s : KState) (h : Home) : Prop where
  mem : s.mem = h.mem
  busy : s.busy = h.locked
  buf : ∀ x < h.mem.log.start, s.buf x = h.buf x
  locked : ∀ x ∈ h.locked, x < h.mem.log.start
  below : ∀ x ∈ h.mem.log.lh, x < h.mem.log.start
  nodup : h.mem.log.lh.Nodup
  slots : ∀ i (hi : i < h.mem.log.lh.length),
    s.buf (h.mem.log.start + i + 1) = h.buf h.mem.log.lh[i]
  dirty : s.dirty ⊆ h.mem.log.lh.toFinset
  passed : LOGSIZE ≤ h.mem.log.size → s.passed = true →
    h.passed = true ∨ ROOM < h.mem.log.lh.length

/-- The weakest precondition of `p` for `Q`, as a predicate on stores. -/
def hwp (J : Policy Event) {α : Type} (p : K α) (Q : α → Home → Prop) (h : Home) : Prop :=
  ∀ s, View s h → kwp J p (fun a s' => ∃ h', View s' h' ∧ Q a h') s

variable {J : Policy Event} {α β : Type} {h : Home}
variable {Q : Unit → Home → Prop} {s : KState}

theorem hwp_pure {a : α} {Q : α → Home → Prop} (hQ : Q a h) : hwp J (pure a) Q h :=
  fun _ hv => wp_pure ⟨h, hv, hQ⟩

theorem hwp_bind {p : K α} {f : α → K β} {Q : β → Home → Prop}
    (hp : hwp J p (fun a h' => hwp J (f a) Q h') h) : hwp J (p >>= f) Q h := by
  intro s hv
  refine wp_seq (hp s hv) fun a s' _ hs' => ?_
  obtain ⟨h', hv', hf⟩ := hs'
  exact hf s' hv'

theorem hwp_mono {p : K α} {Q Q' : α → Home → Prop} (hp : hwp J p Q h)
    (hQ : ∀ a h', Q a h' → Q' a h') : hwp J p Q' h :=
  fun s hv => wp_mono (hp s hv) fun a _ _ ⟨h', hv', hq⟩ => ⟨h', hv', hQ a h' hq⟩

/-- The sectors logged are pairwise different. -/
theorem hwp_of_nodup {p : K α} {Q : α → Home → Prop}
    (hp : h.mem.log.lh.Nodup → hwp J p Q h) : hwp J p Q h := fun s hv => hp hv.nodup s hv

/-- All events may be reported, and no stop is acceptable. -/
def total : Policy Event := ⟨fun _ => True, fun _ => True, fun _ => False⟩

theorem run_of_hwp {p : K α} {Q : α → Home → Prop} (hp : hwp total p Q h)
    (hv : View s h) : ∃ a s' h', run limits false p s = .ok a s' ∧ View s' h' ∧ Q a h' := by
  cases hr : run limits false p s with
  | ok a s' =>
    obtain ⟨-, h', hv', hq⟩ := wp_ok (hp s hv) hr (fun _ _ => trivial) fun _ _ => trivial
    exact ⟨a, s', h', rfl, hv', hq⟩
  | stop e s' => exact (wp_stop (hp s hv) hr (fun _ _ => trivial) fun _ _ => trivial).2.elim

theorem View.passed_eq_false {s : KState} (hv : View s h) (hsize : LOGSIZE ≤ h.mem.log.size)
    (hp : h.passed = false) (hroom : h.mem.log.lh.length ≤ ROOM) : s.passed = false := by
  cases hs : s.passed with
  | false => rfl
  | true =>
    rcases hv.passed hsize hs with h' | h'
    · rw [hp] at h'
      cases h'
    · omega

/-! ### Buffers -/

section Buffers

variable {x : Nat}

theorem View.need_le {s : KState} (hv : View s h) (hc : h.locked.card ≤ 2) (y : Nat)
    (hroom : ¬ ROOM < h.mem.log.lh.length) : s.need y ≤ NBUF := by
  have h1 : s.dirty.card ≤ h.mem.log.lh.length :=
    (card_le_card hv.dirty).trans (List.toFinset_card_le _)
  have h2 := card_insert_le y (s.busy ∪ s.dirty)
  have h3 := card_union_le s.busy s.dirty
  rw [hv.busy] at h2 h3
  unfold Machine.need
  rw [hv.busy]
  unfold ROOM at hroom
  unfold NBUF
  omega

/-- The store with the buffer of `x` locked. -/
def Home.lock (h : Home) (x : Nat) : Home := { h with locked := insert x h.locked }

/-- The store with the buffer of `x` unlocked. -/
def Home.unlock (h : Home) (x : Nat) : Home := { h with locked := h.locked.erase x }

@[simp] theorem Home.lock_buf (y : Nat) : (h.lock y).buf = h.buf := rfl
@[simp] theorem Home.lock_mem (y : Nat) : (h.lock y).mem = h.mem := rfl
@[simp] theorem Home.lock_passed (y : Nat) : (h.lock y).passed = h.passed := rfl

theorem Home.mem_lock (y : Nat) : y ∈ (h.lock y).locked := mem_insert_self _ _

theorem Home.card_lock_le (y n : Nat) (hc : h.locked.card ≤ n) : (h.lock y).locked.card ≤ n + 1 :=
  (card_insert_le _ _).trans (Nat.succ_le_succ hc)

theorem Home.unlock_lock (hx : x ∉ h.locked) : (h.lock x).unlock x = h := by
  unfold Home.unlock Home.lock
  rw [erase_insert hx]

theorem hwp_bread {Q : Block → Home → Prop} (hx : x < h.mem.log.start) (hl : x ∉ h.locked)
    (hc : h.locked.card ≤ 2) (hQ : Q (h.buf x) (h.lock x)) : hwp J (bread x) Q h := by
  intro s hv
  refine wp_bread (hv.busy ▸ hl) ⟨h.lock x, ?_, ?_⟩
  · refine ⟨hv.mem, congrArg (insert x) hv.busy, hv.buf, ?_, hv.below, hv.nodup, hv.slots,
      hv.dirty, fun hsize hp => ?_⟩
    · intro y hy
      rcases mem_insert.mp hy with rfl | hy
      · exact hx
      · exact hv.locked y hy
    · rcases Bool.or_eq_true_iff.mp hp with hp | hp
      · exact hv.passed hsize hp
      · refine Or.inr (by_contra fun hroom => ?_)
        have := hv.need_le hc x hroom
        exact absurd (of_decide_eq_true hp) (Nat.not_lt.mpr this)
  · rw [hv.buf x hx]
    exact hQ

theorem hwp_brelse {Q : Unit → Home → Prop} (hl : x ∈ h.locked)
    (hQ : Q () (h.unlock x)) : hwp J (brelse x) Q h := by
  intro s hv
  refine wp_brelse (hv.busy ▸ hl) ⟨_, ?_, hQ⟩
  exact ⟨hv.mem, congrArg (Finset.erase · x) hv.busy, hv.buf,
    fun y hy => hv.locked y (mem_of_mem_erase hy), hv.below, hv.nodup, hv.slots, hv.dirty,
    hv.passed⟩

/-- The store after `log_write` of sector `x`. -/
def Home.logw (h : Home) (x : Nat) (data : Block) : Home :=
  { h with
    buf := update h.buf x data
    mem := { h.mem with log := { h.mem.log with lh := h.mem.log.record x } } }

@[simp] theorem Home.logw_locked (y : Nat) (data : Block) : (h.logw y data).locked = h.locked := rfl
@[simp] theorem Home.logw_passed (y : Nat) (data : Block) : (h.logw y data).passed = h.passed := rfl
@[simp] theorem Home.logw_buf (y : Nat) (data : Block) :
    (h.logw y data).buf = update h.buf y data := rfl

theorem Home.unlock_logw_lock (y : Nat) (data : Block) (hx : x ∉ h.locked) :
    ((h.lock x).logw y data).unlock x = h.logw y data :=
  (h.logw y data).unlock_lock hx

/-- The process running may log: it is in a transaction, and the policy allows its
`log_write`. -/
structure CanLog (J : Policy Event) (m : Mem) : Prop where
  busy : m.log.busy = true
  check : J.check (.logWrite m.proc m.log.owner)

theorem View.logw {s : KState} (hv : View s h) {data : Block} (hx : x < h.mem.log.start)
    (hc : h.locked.card ≤ 2) : View (afterLogWrite s x data) (h.logw x data) := by
  have hlt := record_slot_lt h.mem.log x
  have hmem : s.mem.log = h.mem.log := by rw [hv.mem]
  refine ⟨?_, hv.busy, ?_, hv.locked, ?_, nodup_record _ _ hv.nodup, ?_, ?_, ?_⟩
  · unfold afterLogWrite Home.logw
    rw [hv.mem]
  · intro y hy
    change update (update s.buf x data) _ data y = update h.buf x data y
    rw [hmem, update_of_ne (show y ≠ _ by change y < h.mem.log.start at hy; omega)]
    by_cases hyx : y = x
    · subst hyx
      rw [update_self, update_self]
    · rw [update_of_ne hyx, update_of_ne hyx]
      exact hv.buf y hy
  · intro y hy
    rcases (mem_record _ _).mp hy with hy | rfl
    · exact hv.below y hy
    · exact hx
  · intro i hi
    change i < (h.mem.log.record x).length at hi
    change update (update s.buf x data) (s.mem.log.start + s.mem.log.slot x + 1)
      data (h.mem.log.start + i + 1) = update h.buf x data (h.mem.log.record x)[i]
    rw [hmem]
    by_cases his : i = h.mem.log.slot x
    · subst his
      rw [update_self, record_getElem_slot _ _ hi, update_self]
    · obtain ⟨hi', he⟩ := record_getElem_of_ne _ _ hi his
      have hne : (h.mem.log.lh[i] : Nat) ≠ x := by
        intro hc
        apply his
        rw [LogState.slot, ← hc]
        exact (hv.nodup.idxOf_getElem i hi').symm
      rw [he, update_of_ne (by omega), update_of_ne (by omega),
        update_of_ne hne]
      exact hv.slots i hi'
  · intro y hy
    rw [List.mem_toFinset]
    refine (mem_record _ _).mpr ?_
    rcases mem_insert.mp hy with rfl | hy
    · exact Or.inr rfl
    · exact Or.inl (List.mem_toFinset.mp (hv.dirty (mem_of_mem_erase hy)))
  · intro hsize hp
    change h.passed = true ∨ ROOM < (h.mem.log.record x).length
    change LOGSIZE ≤ h.mem.log.size at hsize
    have hle : h.mem.log.lh.length ≤ (h.mem.log.record x).length := by
      unfold LogState.record recordSector
      split
      · exact le_rfl
      · simp
    by_cases hroom : ROOM < h.mem.log.lh.length
    · exact Or.inr (hroom.trans_le hle)
    · have hneed := hv.need_le hc (s.mem.log.start + s.mem.log.slot x + 1) hroom
      have hfit : s.mem.log.lh.length < LOGSIZE ∧ s.mem.log.lh.length < s.mem.log.size - 1 := by
        rw [hmem]
        unfold ROOM at hroom
        unfold LOGSIZE at *
        omega
      have hp' : s.passed = true := by
        simpa [afterLogWrite, hfit, Nat.not_lt.mpr hneed] using hp
      exact (hv.passed hsize hp').imp_right fun h' => absurd h' hroom

theorem hwp_logWrite {data : Block} (hx : x ∈ h.locked)
    (hc : h.locked.card ≤ 2) (hlog : CanLog J h.mem) (hQ : Q () (h.logw x data)) :
    hwp J (logWrite x data) Q h := by
  intro s hv
  have hstart := hv.locked x hx
  refine kwp_logWrite ?_ (fun hb => ?_) ?_ fun _ => ⟨_, hv.logw hstart hc, hQ⟩
  · rw [hv.busy, hv.mem]
    intro hmem
    have := hv.locked _ hmem
    omega
  · rw [hv.mem, hlog.busy] at hb
    cases hb
  · rw [hv.mem]
    exact hlog.check

end Buffers

/-! ### Memory, events and stops -/

section Memory

theorem hwp_get {Q : Mem → Home → Prop} (hQ : Q h.mem h) : hwp J get Q h :=
  fun s hv => wp_get ⟨h, hv, by rw [hv.mem]; exact hQ⟩

theorem View.setMem {s : KState} (hv : View s h) {m : Mem} (hm : m.log = h.mem.log) :
    View { s with mem := m } { h with mem := m } := by
  have hl : ({ h with mem := m } : Home).mem.log = h.mem.log := hm
  refine ⟨rfl, hv.busy, ?_, ?_, ?_, ?_, ?_, ?_, ?_⟩
  · rw [hl]; exact hv.buf
  · rw [hl]; exact hv.locked
  · rw [hl]; exact hv.below
  · rw [hl]; exact hv.nodup
  · rw [hl]; exact hv.slots
  · rw [hl]; exact hv.dirty
  · rw [hl]; exact hv.passed

theorem hwp_modify {f : Mem → Mem}
    (hf : (f h.mem).log = h.mem.log) (hQ : Q () { h with mem := f h.mem }) :
    hwp J (modify f) Q h :=
  fun s hv => wp_modify ⟨{ h with mem := f h.mem }, by rw [hv.mem]; exact hv.setMem hf, hQ⟩

theorem hwp_getModify {f : Mem → Mem} {Q : Mem → Home → Prop}
    (hf : (f h.mem).log = h.mem.log) (hQ : Q h.mem { h with mem := f h.mem }) :
    hwp J (getModify f) Q h :=
  fun s hv => wp_getModify
    ⟨{ h with mem := f h.mem }, by rw [hv.mem]; exact hv.setMem hf, by rw [hv.mem]; exact hQ⟩

theorem hwp_wait {g : Mem → Bool} {f : Mem → Mem}
    (hf : (f h.mem).log = h.mem.log)
    (hQ : g h.mem = true → Q () { h with mem := f h.mem })
    (hn : g h.mem = false → J.stop .deadlock) : hwp J (wait g f) Q h := by
  intro s hv
  refine wp_wait (fun hg => ⟨{ h with mem := f h.mem }, ?_, hQ ?_⟩) fun hg => hn ?_
  · rw [hv.mem]; exact hv.setMem hf
  · rwa [hv.mem] at hg
  · rwa [hv.mem] at hg

theorem hwp_emit {e : KState → Event}
    (hQ : ∀ s, View s h → J.good (e s) → J.check (e s) ∧ Q () h) : hwp J (emit e) Q h := by
  intro s hv
  refine wp_emit fun hg => ?_
  obtain ⟨hck, hq⟩ := hQ s hv hg
  exact ⟨hck, h, ⟨hv.mem, hv.busy, hv.buf, hv.locked, hv.below, hv.nodup, hv.slots, hv.dirty,
    hv.passed⟩, hq⟩

theorem hwp_halt {msg : String} {Q : α → Home → Prop} (hs : J.stop (.panic msg)) :
    hwp J (halt msg) Q h :=
  fun _ _ => wp_halt hs

theorem hwp_yield {Q : Unit → Home → Prop} (hQ : Q () h) : hwp J yield Q h :=
  fun _ hv => wp_yield ⟨h, hv, hQ⟩

end Memory

/-! ### Transactions -/

section Transactions

/-- The memory once `begin_trans` has returned. -/
def Mem.begun (m : Mem) : Mem := { m with log := { m.log with busy := true, owner := some m.proc } }

/-- The memory once `commit_trans` has returned. -/
def Mem.committed (m : Mem) : Mem :=
  { m with log := { m.log with lh := [], busy := false, owner := none } }

theorem hwp_beginTrans {Q : Unit → Home → Prop}
    (hQ : h.mem.log.busy = false → Q () { h with mem := h.mem.begun })
    (hn : h.mem.log.busy = true → J.stop .deadlock) : hwp J beginTrans Q h := by
  intro s hv
  unfold beginTrans
  refine wp_bind (wp_yield (wp_wait (fun hg => ⟨{ h with mem := h.mem.begun }, ?_, hQ ?_⟩)
    fun hg => hn ?_))
  · rw [hv.mem]
    exact ⟨rfl, hv.busy, hv.buf, hv.locked, hv.below, hv.nodup, hv.slots, hv.dirty, hv.passed⟩
  · rw [hv.mem] at hg
    simpa using hg
  · rw [hv.mem] at hg
    simpa using hg

theorem afterInstall_busy {start : Nat} {rest : List Nat} : ∀ {tail : Nat} {s : KState},
    (afterInstall start tail rest s).busy = s.busy := by
  induction rest with
  | nil => intro tail s; rfl
  | cons sec rest ih => intro tail s; exact ih

/-- Installing a log whose slots agree with their sectors changes no buffer. -/
theorem afterInstall_spec {start : Nat} {rest : List Nat} : ∀ {tail : Nat} {s : KState},
    (∀ i (hi : i < rest.length), s.buf (start + (tail + i) + 1) = s.buf rest[i]) →
      (∀ x ∈ rest, x < start) → s.busy = ∅ →
      (afterInstall start tail rest s).buf = s.buf ∧
        (afterInstall start tail rest s).mem = s.mem ∧
        (afterInstall start tail rest s).busy = ∅ ∧
        (afterInstall start tail rest s).events = s.events ∧
        (afterInstall start tail rest s).dirty = s.dirty \ rest.toFinset ∧
        (s.dirty.card ≤ ROOM → (afterInstall start tail rest s).passed = s.passed) := by
  induction rest with
  | nil => intro tail s _ _ hb; exact ⟨rfl, rfl, hb, rfl, by simp [afterInstall], fun _ => rfl⟩
  | cons sec rest ih =>
    intro tail s hslot hlt hb
    have hbuf : (afterCopy s (start + tail + 1) sec).buf = s.buf := by
      change update s.buf sec (s.buf (start + tail + 1)) = s.buf
      rw [show s.buf (start + tail + 1) = s.buf sec from hslot 0 (by simp),
        update_eq_self]
    have hpassed : s.dirty.card ≤ ROOM →
        (afterCopy s (start + tail + 1) sec).passed = s.passed := by
      intro hd
      have h1 := card_insert_le (start + tail + 1) s.dirty
      have h2 := card_insert_le sec (insert (start + tail + 1) s.dirty)
      unfold ROOM at hd
      have hn1 : ¬ NBUF < s.need (start + tail + 1) := by
        rw [Machine.need, hb, empty_union]
        unfold NBUF
        omega
      have hn2 : ¬ NBUF < (s.lock limits (start + tail + 1)).need sec := by
        rw [Machine.need, Machine.lock, hb]
        change ¬ NBUF < (insert sec (insert (start + tail + 1) ∅ ∪ s.dirty)).card
        rw [insert_union, empty_union]
        unfold NBUF
        omega
      simp [afterCopy, hn1, hn2]
    have ih' := @ih (tail + 1) (afterCopy s (start + tail + 1) sec) ?_
      (fun x hx => hlt x (List.mem_cons_of_mem _ hx)) hb
    · obtain ⟨e1, e2, e3, e4, e5, e6⟩ := ih'
      refine ⟨e1.trans hbuf, e2, e3, e4, ?_, fun hd =>
        (e6 ((card_le_card (erase_subset _ _)).trans hd)).trans (hpassed hd)⟩
      rw [afterInstall, e5]
      ext y
      simp only [afterCopy, mem_sdiff, mem_erase, List.mem_toFinset, List.mem_cons,
        not_or]
      tauto
    · intro i hi
      rw [hbuf]
      have := hslot (i + 1) (by simpa using hi)
      rwa [show tail + (i + 1) = tail + 1 + i by omega] at this

/-- The machine after `commit_trans` of a transaction that wrote something. -/
theorem View.commit {s s₁ s₂ : KState} (hv : View s h) (hl : h.locked = ∅)
    (h₁ : s₁ = afterHead s)
    (h₂ : s₂ = afterHead (setLh (afterInstall s₁.mem.log.start 0 s₁.mem.log.lh s₁) [])) :
    View { s₂ with mem := s₂.mem.committed }
      { h with
        mem := h.mem.committed
        passed := h.passed || decide (ROOM < h.mem.log.lh.length) } := by
  have hm₁ : s₁.mem = h.mem := by rw [h₁]; exact hv.mem
  have hbuf₁ : ∀ x, x ≠ h.mem.log.start → s₁.buf x = s.buf x := by
    intro x hx
    rw [h₁]
    change update s.buf s.mem.log.start _ x = _
    rw [update_of_ne (by rwa [hv.mem])]
  have hslot : ∀ i (hi : i < s₁.mem.log.lh.length),
      s₁.buf (s₁.mem.log.start + (0 + i) + 1) = s₁.buf s₁.mem.log.lh[i] := by
    rw [hm₁]
    intro i hi
    have hlt := hv.below _ (List.getElem_mem hi)
    rw [hbuf₁ _ (by omega), hbuf₁ _ (by omega), hv.buf _ hlt, Nat.zero_add]
    exact hv.slots i hi
  have hdirty₁ : s₁.dirty ⊆ h.mem.log.lh.toFinset := by
    rw [h₁]
    exact (erase_subset _ _).trans hv.dirty
  obtain ⟨e1, e2, e3, -, e5, e6⟩ := @afterInstall_spec s₁.mem.log.start _ _ _ hslot
    (by rw [hm₁]; exact hv.below) (by rw [h₁]; exact hv.busy.trans hl)
  generalize afterInstall s₁.mem.log.start 0 s₁.mem.log.lh s₁ = t at *
  have hdt : t.dirty = ∅ := by
    rw [e5, hm₁]
    exact sdiff_eq_empty_iff_subset.mpr hdirty₁
  have hmem₂ : s₂.mem.committed = h.mem.committed := by
    rw [h₂]
    change (setLh t []).mem.committed = _
    unfold setLh
    rw [e2, hm₁]
    rfl
  refine ⟨hmem₂, ?_, ?_, ?_, ?_, List.nodup_nil, ?_, ?_, ?_⟩
  · rw [h₂, hl]; exact e3
  · intro x hx
    change x < h.mem.log.start at hx
    rw [h₂]
    change update t.buf t.mem.log.start _ x = h.buf x
    rw [update_of_ne (by rw [e2, hm₁]; omega), e1, hbuf₁ x (by omega)]
    exact hv.buf x hx
  · intro x hx
    rw [hl] at hx
    exact absurd hx (notMem_empty x)
  · intro x hx
    exact absurd hx List.not_mem_nil
  · intro i hi
    exact absurd hi (Nat.not_lt_zero i)
  · rw [h₂]
    change t.dirty.erase _ ⊆ _
    rw [hdt]
    simp
  · intro hsize hp
    refine Or.inl ?_
    rw [h₂] at hp
    by_cases hroom : ROOM < h.mem.log.lh.length
    · simp [hroom]
    · have hd : s₁.dirty.card ≤ ROOM := ((card_le_card hdirty₁).trans
        (List.toFinset_card_le _)).trans (Nat.not_lt.mp hroom)
      have hneed : ¬ NBUF < (setLh t []).need t.mem.log.start := by
        change ¬ NBUF < (insert t.mem.log.start (t.busy ∪ t.dirty)).card
        rw [e3, hdt]
        simp [NBUF]
      have ht : t.passed = true := by
        have hor : ((setLh t []).passed || decide (NBUF < (setLh t []).need t.mem.log.start)) = true :=
          hp
        rcases Bool.or_eq_true_iff.mp hor with hor | hor
        · exact hor
        · exact absurd (of_decide_eq_true hor) hneed
      rw [e6 hd, h₁] at ht
      rcases Bool.or_eq_true_iff.mp ht with ht | ht
      · rcases hv.passed hsize ht with hp' | hp'
        · simp [hp']
        · exact absurd hp' hroom
      · have := hv.need_le (by rw [hl]; simp) s.mem.log.start hroom
        exact absurd (of_decide_eq_true ht) (Nat.not_lt.mpr this)

theorem hwp_commitTrans {Q : Unit → Home → Prop} (hl : h.locked = ∅)
    (hck : J.check (.commit h.mem.log.lh.length))
    (hQ : Q () { h with
      mem := h.mem.committed
      passed := h.passed || decide (ROOM < h.mem.log.lh.length) }) :
    hwp J commitTrans Q h := by
  intro s hv
  have hnot : ∀ x, x ∉ s.busy := fun x => by rw [hv.busy, hl]; exact notMem_empty x
  have hv' : View { s with events := .commit s.mem.log.lh.length :: s.events } h :=
    ⟨hv.mem, hv.busy, hv.buf, hv.locked, hv.below, hv.nodup, hv.slots, hv.dirty, hv.passed⟩
  unfold commitTrans
  refine wp_bind (wp_yield (wp_bind (wp_get (wp_bind (wp_emit fun _ => ⟨?_, ?_⟩)))))
  · rw [hv.mem]; exact hck
  by_cases hlen : 0 < s.mem.log.lh.length
  · rw [if_pos hlen]
    unfold installAndErase installTrans
    refine wp_bind (kwp_writeHead (hnot _) (wp_bind (wp_bind (wp_bind (wp_get (kwp_installLoop
      (fun i _ => hnot _) (fun x hx => ⟨hnot x, ?_⟩) (wp_bind (wp_modify (kwp_writeHead ?_
      (wp_modify ⟨_, hv'.commit hl rfl rfl, hQ⟩))))))))))
    · have := hv.below x (by rw [← hv.mem]; exact hx)
      change x ≤ s.mem.log.start
      rw [hv.mem]
      omega
    · intro hx
      change _ ∈ (afterInstall _ _ _ _).busy at hx
      rw [afterInstall_busy] at hx
      exact hnot _ hx
  · rw [if_neg hlen]
    have hnil : h.mem.log.lh = [] := by
      rw [hv.mem] at hlen
      exact List.length_eq_zero_iff.mp (by omega)
    refine wp_modify ⟨_, ?_, hQ⟩
    have hdirty : s.dirty = ∅ := subset_empty.mp (by
      have := hv.dirty
      rwa [hnil] at this)
    refine ⟨?_, hv.busy, hv.buf, hv.locked, ?_, List.nodup_nil, ?_, ?_, fun hsize hp => ?_⟩
    · change ({ s.mem with log := { s.mem.log with busy := false, owner := none } } : Mem) = _
      rw [hv.mem]
      unfold Mem.committed
      rw [← hnil]
    · exact fun x hx => absurd hx List.not_mem_nil
    · exact fun i hi => absurd hi (Nat.not_lt_zero i)
    · change s.dirty ⊆ _
      rw [hdirty]
      exact empty_subset _
    · refine Or.inl ?_
      rcases hv.passed hsize hp with hp' | hp'
      · simp [hp']
      · rw [hnil] at hp'
        exact absurd hp' (by simp)

end Transactions

end Xv6
