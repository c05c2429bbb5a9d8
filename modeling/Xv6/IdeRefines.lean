import Xv6.Ide

/-!
# The interrupt driven driver refines the memory disk

`ideExec` executes one request of `ide.c` at once. The invariant says that the driver executes the
requests in the order in which they were queued: the disk is as if the commands it has
executed had been executed one after another (`Inv.disk`), a process finds in its buffer what its
request leaves there (`Inv.result`), and the first request of the queue is the one the disk
works on (`Working`), but for the moments in which somebody who holds `idelock` is about to start
it (`Resting`). On the requests that `memide.c` accepts the two drivers agree (`memRun_eq`).
-/

open Function List

namespace Xv6

namespace Ide

open Linked

variable {α : Type}

/-! ### One request at a time -/

/-- A request of `ide.c`, executed at once. -/
def ideExec (disk : Nat → Nat → α) (b : Buf α) : (Nat → Nat → α) × Buf α :=
  if b.dirty then
    (update disk (b.dev % 2) (update (disk (b.dev % 2)) (lba b.sector) b.data),
      { b with valid := true, dirty := false })
  else (disk, { b with data := disk (b.dev % 2) (lba b.sector), valid := true })

/-- The disk after some requests. -/
def diskAfter (disk : Nat → Nat → α) (bs : List (Buf α)) : Nat → Nat → α :=
  bs.foldl (fun d b => (ideExec d b).1) disk

/-- What the `k`th request leaves in its buffer. -/
def outcome (disk : Nat → Nat → α) (bs : List (Buf α)) (k : Nat) (b : Buf α) : Buf α :=
  (ideExec (diskAfter disk (bs.take k)) b).2

theorem diskAfter_snoc (disk : Nat → Nat → α) (bs : List (Buf α)) (b : Buf α) :
    diskAfter disk (bs ++ [b]) = (ideExec (diskAfter disk bs) b).1 := by
  rw [diskAfter, foldl_append]
  rfl

theorem ideExec_dirty (disk : Nat → Nat → α) (b : Buf α) : (ideExec disk b).2.dirty = false := by
  rw [ideExec]
  split
  · rfl
  · next h => exact Bool.eq_false_iff.mpr h

theorem ideExec_valid (disk : Nat → Nat → α) (b : Buf α) : (ideExec disk b).2.valid = true := by
  rw [ideExec]
  split <;> rfl

theorem lba_of_lt {sector : Nat} (h : sector < 2 ^ 28) : lba sector = sector := by
  rw [lba]
  omega

/-- On a request that `memide.c` accepts both drivers do the same. -/
theorem memIderw_eq {size : UInt32} {disk : Nat → Nat → α} {mem mem' : Nat → α} {b b' : Buf α}
    (h : memIderw size mem b = .ok (mem', b')) (hd : ∀ i < disksize size, disk 1 i = mem i) :
    (ideExec disk b).2 = b' ∧ ∀ i < disksize size, (ideExec disk b).1 1 i = mem' i := by
  have hsize : disksize size ≤ 2 ^ 28 := by
    have := size.toNat_lt
    rw [disksize]
    omega
  rw [memIderw] at h
  split at h
  · cases h
  split at h
  · cases h
  split at h
  · cases h
  next hdev =>
  split at h
  · cases h
  next hsec =>
  have hdrive : b.dev % 2 = 1 := by omega
  have hlba : lba b.sector = b.sector := lba_of_lt (by omega)
  rw [ideExec, hdrive, hlba]
  split at h
  · next hdirty =>
    cases h
    rw [if_pos hdirty]
    refine ⟨rfl, fun i hi => ?_⟩
    change update disk 1 (update (disk 1) b.sector b.data) 1 i =
      update mem b.sector b.data i
    rw [update_self]
    by_cases e : i = b.sector
    · rw [e, update_self, update_self]
    · rw [update_of_ne e, update_of_ne e, hd i hi]
  · next hclean =>
    cases h
    rw [if_neg hclean]
    refine ⟨?_, hd⟩
    change { b with data := disk 1 b.sector, valid := true } = _
    rw [hd _ (by omega)]

theorem memRun_eq {size : UInt32} {bs : List (Buf α)} :
    ∀ {disk : Nat → Nat → α} {mem mem' : Nat → α} {outs : List (Buf α)},
      memRun size mem bs = .ok (mem', outs) → (∀ i < disksize size, disk 1 i = mem i) →
      (∀ i < disksize size, diskAfter disk bs 1 i = mem' i) ∧
        ∀ k b, bs[k]? = some b → outs[k]? = some (outcome disk bs k b) := by
  induction bs with
  | nil =>
    intro disk mem mem' outs h hd
    cases h
    exact ⟨hd, nofun⟩
  | cons b bs ih =>
    intro disk mem mem' outs h hd
    rw [memRun] at h
    split at h
    · cases h
    next mem₁ b₁ h1 =>
    split at h
    · cases h
    next mem₂ outs₂ h2 =>
    cases h
    obtain ⟨hb, hmem⟩ := memIderw_eq h1 hd
    obtain ⟨h3, h4⟩ := ih h2 hmem
    refine ⟨h3, fun k x hk => ?_⟩
    cases k with
    | zero =>
      cases hk
      rw [← hb]
      rfl
    | succ k => exact h4 k x hk

/-- `memide.c` accepts what `ide.c` accepts, for sectors of disk 1 that exist. -/
theorem memRun_ok {size : UInt32} {bs : List (Buf α)}
    (h : ∀ b ∈ bs, b.busy = true ∧ b.synced = false ∧ b.dev = 1 ∧ b.sector < disksize size) :
    ∀ mem : Nat → α, ∃ r, memRun size mem bs = .ok r := by
  induction bs with
  | nil => exact fun mem => ⟨_, rfl⟩
  | cons b bs ih =>
    intro mem
    obtain ⟨h1, h2, h3, h4⟩ := h b mem_cons_self
    have hb : ∃ r, memIderw size mem b = .ok r := by
      rw [memIderw, if_neg (by rw [h1]; nofun), if_neg (by rw [h2]; nofun),
        if_neg (not_not_intro h3), if_neg (by omega)]
      split <;> exact ⟨_, rfl⟩
    obtain ⟨⟨mem₁, b₁⟩, hr⟩ := hb
    obtain ⟨⟨mem₂, outs⟩, hr'⟩ := ih (fun x hx => h x (mem_cons_of_mem _ hx)) mem₁
    exact ⟨(mem₂, b₁ :: outs), by rw [memRun, hr]; simp only [hr']⟩

/-! ### The invariant -/

/-- The process holds `idelock`. -/
def owns : Pc → Bool
  | .unlink _ => true
  | .walk _ _ => true
  | .start _ => true
  | .test _ => true
  | .leave _ => true
  | _ => false

/-- The handler holds `idelock`. -/
def intrOwns : IntrPc → Bool
  | .off => false
  | .enter => false
  | _ => true

/-- The handler has taken a request off the queue and not yet started the next one. -/
def mid : IntrPc → Bool
  | .fetch _ => true
  | .setValid _ => true
  | .clearDirty _ => true
  | .wakeup _ => true
  | .next => true
  | _ => false

/-- The buffer that the handler is busy with. -/
def busyWith : IntrPc → Option Nat
  | .fetch b => some b
  | .setValid b => some b
  | .clearDirty b => some b
  | _ => none

/-- The buffer that the process has called `iderw` with. -/
def bufOf : Pc → Option Nat
  | .out => none
  | .enter b => some b
  | .unlink b => some b
  | .walk b _ => some b
  | .start b => some b
  | .test b => some b
  | .asleep b => some b
  | .wake b => some b
  | .leave b => some b

/-- The buffer whose request the process waits for. -/
def waiting : Pc → Option Nat
  | .start b => some b
  | .test b => some b
  | .asleep b => some b
  | .wake b => some b
  | .leave b => some b
  | _ => none

/-- What the buffer `b` of a request that is off the queue looks like while the handler is busy with
it, when it was `x` and the request makes it `y`. -/
def stage (b : Nat) (x y : Buf α) : IntrPc → Buf α
  | .fetch c => if c = b then x else y
  | .setValid c => if c = b then { x with data := y.data } else y
  | .clearDirty c => if c = b then { x with data := y.data, valid := true } else y
  | _ => y

namespace State

/-- The requests that are not done. -/
def queue (s : State α) : List Nat := (s.reqs.drop s.done).map Prod.fst

/-- The buffers of all requests, as they were. -/
def bufs (s : State α) : List (Buf α) := s.reqs.map Prod.snd

end State

/-- Somebody who has put his request at the head of the queue is about to start it. -/
def Launching (s : State α) : Prop := ∃ p b, s.pc p = .start b ∧ s.idequeue = some b

/-- The disk has nothing to do. -/
structure Resting (s : State α) : Prop where
  ready : ∃ d, s.device = .ready d
  irq : s.irq = false
  served : s.served = s.done
  started : s.started = (s.reqs.take s.done).map Prod.fst
  ipc : s.ipc ≠ .enter ∧ s.ipc ≠ .pop

/-- The disk works on the first request of the queue, or has executed it and the handler has not
taken notice. -/
structure Working (s : State α) : Prop where
  started : s.started = (s.reqs.take (s.done + 1)).map Prod.fst
  progress : ∃ b x, s.reqs[s.done]? = some (b, x) ∧
    (s.device = .busy x.cmd ∧ s.irq = false ∧ s.served = s.done ∧ (s.ipc = .off ∨ s.ipc = .leave) ∨
    s.served = s.done + 1 ∧
      (∃ d, s.device = .ready d ∧ (x.dirty = false → d = s.disk (x.dev % 2) (lba x.sector))) ∧
      (s.irq = true ∧ (s.ipc = .off ∨ s.ipc = .leave) ∨
        s.irq = false ∧ (s.ipc = .enter ∨ s.ipc = .pop)))

/-- The invariant of the driver, for a disk that was `disk` at first. -/
structure Inv (disk : Nat → Nat → α) (s : State α) : Prop where
  lock : ∀ p, s.lock = some (.proc p) ↔ owns (s.pc p) = true
  intr : s.lock = some .intr ↔ intrOwns s.ipc = true
  active : ∀ p b, bufOf (s.pc p) = some b → s.active b = true
  one : ∀ p q b, bufOf (s.pc p) = some b → bufOf (s.pc q) = some b → p = q
  done_le : s.done ≤ s.reqs.length
  chain : Chain s.qnext s.idequeue s.queue
  nodup : s.queue.Nodup
  /-- A request in the queue: its buffer is as it was, and a process waits for it. -/
  flight : ∀ k b x, s.done ≤ k → s.reqs[k]? = some (b, x) →
    s.buf b = x ∧ ∃ p, waiting (s.pc p) = some b ∧ s.idx p = k
  /-- Only requests with something to do are made. -/
  accepted : ∀ r ∈ s.reqs, r.2.busy = true ∧ r.2.synced = false
  fresh : ∀ p b, bufOf (s.pc p) = some b → waiting (s.pc p) = none →
    (s.buf b).busy = true ∧ (s.buf b).synced = false
  /-- The loop of `iderw` is at a link of the queue. -/
  walk : ∀ p b pp, s.pc p = .walk b pp → s.qnext b = none ∧
    (pp = .queue ∨ ∃ l c r, s.queue = l ++ c :: r ∧ pp = .next c)
  /-- A waiting process knows its request, the latest for its buffer. -/
  request : ∀ p b, waiting (s.pc p) = some b → (∃ x, s.reqs[s.idx p]? = some (b, x)) ∧
    ∀ k x, s.idx p < k → s.reqs[k]? ≠ some (b, x)
  result : ∀ p b x, waiting (s.pc p) = some b → s.reqs[s.idx p]? = some (b, x) →
    s.idx p < s.done → s.buf b = stage b x (outcome disk s.bufs (s.idx p) x) s.ipc
  left : ∀ p b, s.pc p = .leave b → s.idx p < s.done
  disk : s.disk = diskAfter disk (s.bufs.take s.served)
  /-- A process waits for the request that the handler is busy with. -/
  handled : ∀ b, busyWith s.ipc = some b → ∃ p, waiting (s.pc p) = some b ∧ s.idx p + 1 = s.done
  /-- The disk has the data that the handler is about to read. -/
  fetched : ∀ b, s.ipc = .fetch b → ∃ x d, s.reqs[s.done - 1]? = some (b, x) ∧
    s.device = .ready d ∧ (x.dirty = false → d = s.disk (x.dev % 2) (lba x.sector))
  phase : Resting s ∧ (s.idequeue = none ∨ Launching s ∨ mid s.ipc = true) ∨
    Working s ∧ ¬ Launching s ∧ mid s.ipc = false

section Steps

variable {disk : Nat → Nat → α} {s : State α} {p q b c k : Nat}

@[simp] theorem State.pc_goto_self (s : State α) (p : Nat) (c : Pc) : (s.goto p c).pc p = c :=
  update_self ..

theorem State.pc_goto_of_ne (s : State α) {p q : Nat} (c : Pc) (h : q ≠ p) :
    (s.goto p c).pc q = s.pc q := update_of_ne h ..

theorem intrOwns_of_mid {i : IntrPc} (h : mid i = true) : intrOwns i = true := by
  cases i <;> first | rfl | cases h

theorem bufOf_of_waiting {c : Pc} (h : waiting c = some b) : bufOf c = some b := by
  cases c <;> first | exact h | cases h

theorem inv_init (disk : Nat → Nat → α) (buf : Nat → Buf α) (d : α) :
    Inv disk (init disk buf d) where
  lock p := by simp [init, owns]
  intr := by simp [init, intrOwns]
  active p b h := by simp [init, bufOf] at h
  one p q b h := by simp [init, bufOf] at h
  done_le := Nat.le_refl _
  chain := trivial
  nodup := nodup_nil
  flight k b x _ h := by simp [init] at h
  accepted r h := by simp [init] at h
  fresh p b h := by simp [init, bufOf] at h
  walk p b pp h := by simp [init] at h
  request p b h := by simp [init, waiting] at h
  result p b x h := by simp [init, waiting] at h
  left p b h := by simp [init] at h
  disk := rfl
  handled b h := by simp [init, busyWith] at h
  fetched b h := by simp [init] at h
  phase := .inl ⟨⟨⟨d, rfl⟩, rfl, rfl, rfl, nofun, nofun⟩, .inl rfl⟩

namespace Inv

theorem alone (h : Inv disk s) (hp : owns (s.pc p) = true) (hq : q ≠ p) :
    owns (s.pc q) = false := by
  cases ho : owns (s.pc q) with
  | false => rfl
  | true =>
    have h1 := (h.lock p).mpr hp
    have h2 := (h.lock q).mpr ho
    rw [h1] at h2
    cases h2
    exact absurd rfl hq

theorem intr_of_owns (h : Inv disk s) (hp : owns (s.pc p) = true) : intrOwns s.ipc = false := by
  cases ho : intrOwns s.ipc with
  | false => rfl
  | true =>
    have h1 := (h.lock p).mpr hp
    have h2 := h.intr.mpr ho
    rw [h1] at h2
    cases h2

/-- While the handler is busy with a buffer, the disk is at rest. -/
theorem resting (h : Inv disk s) (hmid : mid s.ipc = true) : Resting s := by
  rcases h.phase with ⟨h1, -⟩ | ⟨-, -, h2⟩
  · exact h1
  · cases hmid.symm.trans h2

theorem launching_goto {t : State α} {c : Pc} (hp : ∀ b, t.pc p ≠ .start b)
    (hc : ∀ b, c ≠ .start b) : Launching (t.goto p c) ↔ Launching t := by
  refine exists_congr fun q => exists_congr fun b => ?_
  rcases eq_or_ne q p with rfl | e
  · rw [State.pc_goto_self]
    exact iff_of_false (fun h => hc b h.1) fun h => hp b h.1
  · rw [State.pc_goto_of_ne _ _ e]
    exact Iff.rfl

theorem mid_of_owns (h : Inv disk s) (hp : owns (s.pc p) = true) : mid s.ipc = false := by
  have := h.intr_of_owns hp
  cases hi : s.ipc <;> first | rfl | (rw [hi] at this; cases this)

theorem busyWith_of_owns (h : Inv disk s) (hp : owns (s.pc p) = true) : busyWith s.ipc = none := by
  have := h.intr_of_owns hp
  cases hi : s.ipc <;> first | rfl | (rw [hi] at this; cases this)

theorem queue_eq (h : Inv disk s) (hq : s.idequeue = some b) :
    ∃ x, s.reqs[s.done]? = some (b, x) ∧ ∃ r, s.queue = b :: r := by
  have hc := h.chain.head?
  rw [hq, State.queue] at hc
  cases hd : s.reqs.drop s.done with
  | nil => rw [hd] at hc; cases hc
  | cons y r =>
    rw [hd] at hc
    cases hc
    have hy : s.reqs[s.done]? = some y := by
      have := congrArg (·[0]?) hd
      simpa using this
    exact ⟨y.2, hy, r.map Prod.fst, by rw [State.queue, hd]; rfl⟩

/-- A process moves on; the queue and the buffers stay as they are. -/
theorem advance (h : Inv disk s) {s' : State α} {c : Pc} (hpc : s'.pc = update s.pc p c)
    (hsame : s'.buf = s.buf ∧ s'.qnext = s.qnext ∧ s'.idequeue = s.idequeue ∧ s'.disk = s.disk ∧
      s'.ipc = s.ipc ∧ s'.active = s.active ∧ s'.reqs = s.reqs ∧ s'.served = s.served ∧
      s'.done = s.done ∧ s'.idx = s.idx)
    (hbuf : bufOf c = bufOf (s.pc p)) (hwait : waiting c = waiting (s.pc p))
    (hself : s'.lock = some (.proc p) ↔ owns c = true)
    (hother : ∀ w, w ≠ .proc p → (s'.lock = some w ↔ s.lock = some w))
    (hwalk : ∀ b pp, c = .walk b pp → s.qnext b = none ∧
      (pp = .queue ∨ ∃ l c r, s.queue = l ++ c :: r ∧ pp = .next c))
    (hleave : ∀ b, c = .leave b → s.idx p < s.done)
    (hfetched : ∀ b, s.ipc = .fetch b → s'.device = s.device)
    (hphase : Resting s' ∧ (s'.idequeue = none ∨ Launching s' ∨ mid s'.ipc = true) ∨
      Working s' ∧ ¬ Launching s' ∧ mid s'.ipc = false) : Inv disk s' := by
  obtain ⟨lock, buf, qnext, idequeue, disk', device, irq, pc, ipc, active, reqs, started, served,
    done, idx⟩ := s'
  dsimp only at hpc hsame
  obtain ⟨rfl, rfl, rfl, rfl, rfl, rfl, rfl, rfl, rfl, rfl⟩ := hsame
  subst hpc
  have hb : ∀ q, bufOf (update s.pc p c q) = bufOf (s.pc q) := by
    intro q
    rcases eq_or_ne q p with rfl | e
    · rw [update_self, hbuf]
    · rw [update_of_ne e]
  have hw : ∀ q, waiting (update s.pc p c q) = waiting (s.pc q) := by
    intro q
    rcases eq_or_ne q p with rfl | e
    · rw [update_self, hwait]
    · rw [update_of_ne e]
  exact { h with
    lock := fun q => by
      dsimp only
      rcases eq_or_ne q p with rfl | e
      · rw [update_self]
        exact hself
      · rw [update_of_ne e]
        exact (hother _ fun he => e (by cases he; rfl)).trans (h.lock q)
    intr := (hother .intr nofun).trans h.intr
    active := fun q b hq => h.active q b (hb q ▸ hq)
    one := fun q q' b hq hq' => h.one q q' b (hb q ▸ hq) (hb q' ▸ hq')
    flight := fun k b x hk hr => by
      obtain ⟨h1, q, h2, h3⟩ := h.flight k b x hk hr
      exact ⟨h1, q, (hw q).trans h2, h3⟩
    fresh := fun q b hq hq' => h.fresh q b (hb q ▸ hq) (hw q ▸ hq')
    walk := fun q b pp (hq : update s.pc p c q = _) => by
      rcases eq_or_ne q p with rfl | e
      · rw [update_self] at hq
        exact hwalk b pp hq
      · rw [update_of_ne e] at hq
        exact h.walk q b pp hq
    request := fun q b hq => h.request q b (hw q ▸ hq)
    result := fun q b x hq => h.result q b x (hw q ▸ hq)
    left := fun q b (hq : update s.pc p c q = _) => by
      rcases eq_or_ne q p with rfl | e
      · rw [update_self] at hq
        exact hleave b hq
      · rw [update_of_ne e] at hq
        exact h.left q b hq
    handled := fun b hi => by
      obtain ⟨q, h1, h2⟩ := h.handled b hi
      exact ⟨q, (hw q).trans h1, h2⟩
    fetched := fun b hi => hfetched b hi ▸ h.fetched b hi
    phase := hphase }

/-- A process moves on, and may take or drop the lock; nothing else happens. -/
theorem move (h : Inv disk s) {c : Pc} {l : Option Who}
    (hbuf : bufOf c = bufOf (s.pc p)) (hwait : waiting c = waiting (s.pc p))
    (hself : l = some (.proc p) ↔ owns c = true)
    (hother : ∀ w, w ≠ .proc p → (l = some w ↔ s.lock = some w))
    (hwalk : ∀ b pp, c = .walk b pp → s.qnext b = none ∧
      (pp = .queue ∨ ∃ l c r, s.queue = l ++ c :: r ∧ pp = .next c))
    (hleave : ∀ b, c = .leave b → s.idx p < s.done)
    (hstart : ∀ b, c ≠ .start b) (hlaunch : ∀ b, s.pc p = .start b → s.idequeue ≠ some b) :
    Inv disk ({ s with lock := l }.goto p c) := by
  have hl : Launching ({ s with lock := l }.goto p c) ↔ Launching s := by
    refine exists_congr fun q => exists_congr fun b => ?_
    rcases eq_or_ne q p with rfl | e
    · rw [State.pc_goto_self]
      exact iff_of_false (fun h => hstart b h.1) fun h => hlaunch b h.1 h.2
    · rw [State.pc_goto_of_ne _ _ e]
      exact Iff.rfl
  refine h.advance rfl ⟨rfl, rfl, rfl, rfl, rfl, rfl, rfl, rfl, rfl, rfl⟩ hbuf hwait hself hother
    hwalk hleave (fun _ _ => rfl) ?_
  rw [hl]
  exact h.phase.imp (fun h => ⟨{ h.1 with }, h.2⟩) fun h => ⟨{ h.1 with }, h.2⟩

/-- A process in a call has not queued its request before, so its buffer is not in the queue. -/
theorem notMem_queue (h : Inv disk s) (hb : bufOf (s.pc p) = some b)
    (hw : waiting (s.pc p) = none) : b ∉ s.queue := by
  intro hmem
  obtain ⟨⟨b', x⟩, hx, rfl⟩ := mem_map.mp hmem
  obtain ⟨k, hk, hget⟩ := mem_iff_getElem.mp hx
  have hget' : s.reqs[s.done + k]? = some (b', x) := by
    rw [← List.getElem?_drop, List.getElem?_eq_getElem hk, hget]
  obtain ⟨-, q, hq, -⟩ := h.flight _ _ _ (Nat.le_add_right _ _) hget'
  obtain rfl := h.one p q b' hb (bufOf_of_waiting hq)
  rw [hw] at hq
  cases hq

theorem call (h : Inv disk s) (hp : s.pc p = .out) (hb : s.active b = false)
    (hok : (s.buf b).busy = true ∧ (s.buf b).synced = false) :
    Inv disk ({ s with active := update s.active b true }.goto p (.enter b)) := by
  have hwait : ∀ q, waiting (({ s with active := update s.active b true }.goto p
      (.enter b)).pc q) = waiting (s.pc q) := by
    intro q
    rcases eq_or_ne q p with rfl | e
    · rw [State.pc_goto_self, hp]
      rfl
    · rw [State.pc_goto_of_ne _ _ e]
  have hother : ∀ {t : State α} {q}, q ≠ p → (t.goto p (.enter b)).pc q = t.pc q :=
    fun e => State.pc_goto_of_ne _ _ e
  have hne : ∀ q, bufOf (s.pc q) ≠ some b := fun q hq =>
    Bool.noConfusion (hb.symm.trans (h.active q b hq))
  exact { h with
    lock := fun q => by
      rcases eq_or_ne q p with rfl | e
      · rw [State.pc_goto_self]
        refine (h.lock q).trans ?_
        rw [hp]
        exact Iff.rfl
      · rw [hother e]
        exact h.lock q
    active := fun q c hq => by
      change update s.active b true c = true
      rcases eq_or_ne c b with rfl | e
      · exact update_self ..
      · rw [update_of_ne e]
        rcases eq_or_ne q p with rfl | e'
        · rw [State.pc_goto_self] at hq
          cases hq
          exact absurd rfl e
        · rw [hother e'] at hq
          exact h.active q c hq
    one := fun q q' c hq hq' => by
      rcases eq_or_ne q p with e | e <;> rcases eq_or_ne q' p with e' | e'
      · rw [e, e']
      · rw [e, State.pc_goto_self] at hq
        cases hq
        rw [hother e'] at hq'
        exact absurd hq' (hne q')
      · rw [e', State.pc_goto_self] at hq'
        cases hq'
        rw [hother e] at hq
        exact absurd hq (hne q)
      · rw [hother e] at hq
        rw [hother e'] at hq'
        exact h.one q q' c hq hq'
    flight := fun k c x hk hr => by
      obtain ⟨h1, q, h2, h3⟩ := h.flight k c x hk hr
      exact ⟨h1, q, (hwait q).trans h2, h3⟩
    fresh := fun q c hq hq' => by
      rcases eq_or_ne q p with rfl | e
      · rw [State.pc_goto_self] at hq
        cases hq
        exact hok
      · rw [hother e] at hq hq'
        exact h.fresh q c hq hq'
    walk := fun q c pp hq => by
      rcases eq_or_ne q p with rfl | e
      · rw [State.pc_goto_self] at hq
        cases hq
      · rw [hother e] at hq
        exact h.walk q c pp hq
    request := fun q c hq => h.request q c (hwait q ▸ hq)
    result := fun q c x hq => h.result q c x (hwait q ▸ hq)
    left := fun q c hq => by
      rcases eq_or_ne q p with rfl | e
      · rw [State.pc_goto_self] at hq
        cases hq
      · rw [hother e] at hq
        exact h.left q c hq
    handled := fun c hc => by
      obtain ⟨q, h1, h2⟩ := h.handled c hc
      exact ⟨q, (hwait q).trans h1, h2⟩
    phase := by
      rw [launching_goto]
      · exact h.phase.imp (fun h => ⟨{ h.1 with }, h.2⟩) fun h => ⟨{ h.1 with }, h.2⟩
      · exact fun _ e => by cases hp.symm.trans e
      · exact fun _ e => by cases e }

theorem unlink (h : Inv disk s) (hp : s.pc p = .unlink b) :
    Inv disk ({ s with qnext := update s.qnext b none }.goto p (.walk b .queue)) := by
  have hb := h.notMem_queue (p := p) (b := b) (by rw [hp]; rfl) (by rw [hp]; rfl)
  have h' : Inv disk { s with qnext := update s.qnext b none } := {
    lock := h.lock, intr := h.intr, active := h.active, one := h.one, done_le := h.done_le
    chain := h.chain.update_of_notMem hb
    nodup := h.nodup, flight := h.flight, accepted := h.accepted, fresh := h.fresh
    walk := fun q c pp hq => by
      have howns : owns (s.pc q) = true := by
        rw [show s.pc q = .walk c pp from hq]
        rfl
      rcases eq_or_ne q p with rfl | e
      · rw [show s.pc q = .walk c pp from hq] at hp
        cases hp
      · rw [h.alone (by rw [hp]; rfl) e] at howns
        cases howns
    request := h.request, result := h.result, left := h.left, disk := h.disk
    handled := h.handled, fetched := h.fetched
    phase := h.phase.imp (fun h => ⟨{ h.1 with }, h.2⟩) fun h => ⟨{ h.1 with }, h.2⟩ }
  refine h'.move (p := p) (l := s.lock) ?_ ?_ ?_ (fun _ _ => Iff.rfl) (fun b' pp hc => ?_) nofun
    nofun ?_
  · rw [show ({ s with qnext := update s.qnext b none } : State α).pc p = _ from hp]
    rfl
  · rw [show ({ s with qnext := update s.qnext b none } : State α).pc p = _ from hp]
    rfl
  · rw [h.lock p, hp]
    exact Iff.rfl
  · cases hc
    exact ⟨update_self .., .inl rfl⟩
  · rw [show ({ s with qnext := update s.qnext b none } : State α).pc p = _ from hp]
    nofun

theorem chain_append (h : Inv disk s) {pp : Link} (hp : s.pc p = .walk b pp)
    (hload : s.load pp = none) :
    Chain (s.append p b pp).qnext (s.append p b pp).idequeue (s.queue ++ [b]) := by
  have hb := h.notMem_queue (p := p) (b := b) (by rw [hp]; rfl) (by rw [hp]; rfl)
  obtain ⟨hnext, hpos⟩ := h.walk p b pp hp
  rcases hpos with rfl | ⟨l, c, r, hq, rfl⟩
  · have hnil : s.queue = [] := by
      have := h.chain.head?
      rw [show s.idequeue = none from hload] at this
      exact List.head?_eq_none_iff.mp this.symm
    rw [hnil]
    exact Chain.cons_iff.mpr ⟨rfl, Chain.nil_iff.mpr hnext⟩
  · -- the link that is free is that of the last buffer
    have hchain := h.chain
    rw [hq] at hchain
    have hr : r = [] := by
      have := hchain.next_eq
      rw [show s.qnext c = none from hload] at this
      exact List.head?_eq_none_iff.mp this.symm
    subst hr
    rw [hq, append_assoc]
    rw [hq] at hb
    exact hchain.snoc (hq ▸ h.nodup) hb hnext

theorem append (h : Inv disk s) {pp : Link} (hp : s.pc p = .walk b pp)
    (hload : s.load pp = none) : Inv disk ((s.append p b pp).goto p (.start b)) := by
  have hb := h.notMem_queue (p := p) (b := b) (by rw [hp]; rfl) (by rw [hp]; rfl)
  have howns : owns (s.pc p) = true := by rw [hp]; rfl
  have hmid := h.mid_of_owns howns
  have hbusy := h.busyWith_of_owns howns
  have hdone := h.done_le
  -- `append` changes the queue, in one of two places, and makes a note of the request
  obtain ⟨qn, iq, ht, hchain⟩ : ∃ qn iq, s.append p b pp = { s with
      qnext := qn, idequeue := iq, reqs := s.reqs ++ [(b, s.buf b)],
      idx := update s.idx p s.reqs.length } ∧ Chain qn iq (s.queue ++ [b]) := by
    have := h.chain_append hp hload
    cases pp <;> exact ⟨_, _, rfl, this⟩
  rw [ht]
  have hqueue : ((s.reqs ++ [(b, s.buf b)]).drop s.done).map Prod.fst = s.queue ++ [b] := by
    rw [drop_append_of_le_length hdone, map_append]
    rfl
  have hold : ∀ {k y}, s.reqs[k]? = some y → (s.reqs ++ [(b, s.buf b)])[k]? = some y :=
    fun {k y} hk => by rw [List.getElem?_append_left (List.getElem?_eq_some_iff.mp hk).1, hk]
  have hcases : ∀ {k y}, (s.reqs ++ [(b, s.buf b)])[k]? = some y → s.reqs[k]? = some y ∨
      k = s.reqs.length ∧ y = (b, s.buf b) := fun {k y} hk => by
    rcases Nat.lt_or_ge k s.reqs.length with hlt | hge
    · rw [List.getElem?_append_left hlt] at hk
      exact .inl hk
    · rw [List.getElem?_append_right hge, List.getElem?_singleton] at hk
      split at hk
      · cases hk
        exact .inr ⟨by omega, rfl⟩
      · cases hk
  have hidx : ∀ {q}, q ≠ p → update s.idx p s.reqs.length q = s.idx q :=
    fun e => update_of_ne e ..
  have hbufs : ∀ k ≤ s.reqs.length,
      ((s.reqs ++ [(b, s.buf b)]).map Prod.snd).take k = s.bufs.take k := fun k hk => by
    rw [map_append, take_append_of_le_length (by simpa using hk)]
    rfl
  have hserved : s.served ≤ s.reqs.length := by
    rcases h.phase with ⟨h1, -⟩ | ⟨h1, -⟩
    · rw [h1.served]
      exact hdone
    · obtain ⟨c, x, hx, hcase⟩ := h1.progress
      have := (List.getElem?_eq_some_iff.mp hx).1
      rcases hcase with ⟨-, -, h2, -⟩ | ⟨h2, -⟩ <;> omega
  have hnotstart : ∀ q c, q ≠ p → s.pc q ≠ .start c := fun q c e hq => by
    have := h.alone howns e
    rw [hq] at this
    cases this
  exact { h with
    lock := fun q => by
      rcases eq_or_ne q p with rfl | e
      · rw [State.pc_goto_self]
        exact (h.lock q).trans (iff_of_true howns rfl)
      · rw [State.pc_goto_of_ne _ _ e]
        exact h.lock q
    active := fun q c hq => by
      rcases eq_or_ne q p with rfl | e
      · rw [State.pc_goto_self] at hq
        exact h.active q c (by rw [hp]; exact hq)
      · rw [State.pc_goto_of_ne _ _ e] at hq
        exact h.active q c hq
    one := fun q q' c hq hq' => by
      have hsame : ∀ t : State α, t.pc = s.pc →
          ∀ q, bufOf ((t.goto p (.start b)).pc q) = bufOf (s.pc q) := fun t ht q => by
        rcases eq_or_ne q p with rfl | e
        · rw [State.pc_goto_self, hp]
          rfl
        · rw [State.pc_goto_of_ne _ _ e, ht]
      exact h.one q q' c (hsame _ rfl q ▸ hq) (hsame _ rfl q' ▸ hq')
    done_le := hdone.trans (by rw [State.goto, length_append]; exact Nat.le_add_right ..)
    chain := by
      rw [← hqueue] at hchain
      exact hchain
    nodup := by
      change (map Prod.fst _).Nodup
      refine hqueue ▸ nodup_append.mpr ⟨h.nodup, nodup_singleton b, fun x hx y hy hxy => hb ?_⟩
      rw [← mem_singleton.mp hy, ← hxy]
      exact hx
    flight := fun k c x hk hr => by
      rcases hcases hr with hr' | ⟨rfl, heq⟩
      · obtain ⟨h1, q, h2, h3⟩ := h.flight k c x hk hr'
        have e : q ≠ p := by
          rintro rfl
          rw [hp] at h2
          cases h2
        exact ⟨h1, q, by rw [State.pc_goto_of_ne _ _ e]; exact h2, (hidx e).trans h3⟩
      · cases heq
        exact ⟨rfl, p, by rw [State.pc_goto_self]; rfl, update_self ..⟩
    accepted := fun r hr => by
      rcases mem_append.mp hr with hr | hr
      · exact h.accepted r hr
      · rw [mem_singleton.mp hr]
        exact h.fresh p b (by rw [hp]; rfl) (by rw [hp]; rfl)
    fresh := fun q c hq hq' => by
      rcases eq_or_ne q p with rfl | e
      · rw [State.pc_goto_self] at hq'
        cases hq'
      · rw [State.pc_goto_of_ne _ _ e] at hq hq'
        exact h.fresh q c hq hq'
    walk := fun q c pp' hq => by
      rcases eq_or_ne q p with rfl | e
      · rw [State.pc_goto_self] at hq
        cases hq
      · rw [State.pc_goto_of_ne _ _ e] at hq
        have := h.alone howns e
        rw [show s.pc q = _ from hq] at this
        cases this
    request := fun q c hq => by
      rcases eq_or_ne q p with rfl | e
      · rw [State.pc_goto_self] at hq
        cases hq
        refine ⟨⟨s.buf b, ?_⟩, fun k x hk hr => ?_⟩ <;>
          simp only [State.goto, update_self] at *
        · exact List.getElem?_concat_length ..
        · have := (List.getElem?_eq_some_iff.mp hr).1
          rw [length_append, length_singleton] at this
          omega
      · rw [State.pc_goto_of_ne _ _ e] at hq
        obtain ⟨⟨x, hx⟩, hlast⟩ := h.request q c hq
        simp only [State.goto, hidx e]
        refine ⟨⟨x, hold hx⟩, fun k y hk hr => ?_⟩
        rcases hcases hr with hr' | ⟨-, heq⟩
        · exact hlast k y hk hr'
        · cases heq
          exact e (h.one q p b (bufOf_of_waiting hq) (by rw [hp]; rfl))
    result := fun q c x hq hr hlt => by
      have e : q ≠ p := by
        rintro rfl
        simp only [State.goto, update_self] at hlt
        omega
      rw [State.pc_goto_of_ne _ _ e] at hq
      simp only [State.goto, hidx e] at hr hlt
      have hr' := (hcases hr).resolve_right fun hno => by omega
      refine (h.result q c x hq hr' hlt).trans ?_
      simp only [State.goto, hidx e, outcome, State.bufs]
      rw [hbufs _ (by omega)]
      rfl
    left := fun q c hq => by
      rcases eq_or_ne q p with rfl | e
      · rw [State.pc_goto_self] at hq
        cases hq
      · rw [State.pc_goto_of_ne _ _ e] at hq
        exact (hidx e).trans_lt (h.left q c hq)
    disk := h.disk.trans (congrArg (diskAfter disk) (hbufs _ hserved).symm)
    handled := fun c hc => by cases hbusy.symm.trans hc
    fetched := fun c hc => by
      rw [show s.ipc = .fetch c from hc] at hbusy
      cases hbusy
    phase := by
      rcases h.phase with ⟨h1, h2⟩ | ⟨h1, -, -⟩
      · refine .inl ⟨{ h1 with started := ?_ }, .inr (.inl ⟨p, b, State.pc_goto_self .., ?_⟩)⟩
        · refine h1.started.trans ?_
          rw [← take_append_of_le_length hdone]
          rfl
        · -- the queue was empty: the request has to be started
          rcases h2 with h2 | ⟨q, c, hq, -⟩ | h2
          · have hnil := h.chain.head?
            rw [h2] at hnil
            refine hchain.head?.trans ?_
            rw [List.head?_eq_none_iff.mp hnil.symm]
            rfl
          · rcases eq_or_ne q p with rfl | e
            · rw [hp] at hq
              cases hq
            · exact absurd hq (hnotstart q c e)
          · cases hmid.symm.trans h2
      · obtain ⟨c, x, hx, hcase⟩ := h1.progress
        have hlt := (List.getElem?_eq_some_iff.mp hx).1
        refine .inr ⟨⟨?_, c, x, hold hx, hcase⟩, ?_, hmid⟩
        · refine h1.started.trans ?_
          rw [← take_append_of_le_length hlt]
          rfl
        · rintro ⟨q, c', hq, hc'⟩
          rcases eq_or_ne q p with rfl | e
          · rw [State.pc_goto_self] at hq
            cases hq
            -- another request is at the head
            have hhead := hchain.head?.symm.trans hc'
            cases hqe : s.queue with
            | nil =>
              have : s.queue.length = s.reqs.length - s.done := by simp [State.queue]
              rw [hqe, length_nil] at this
              omega
            | cons y r =>
              rw [hqe] at hhead
              cases hhead
              exact hb (hqe ▸ mem_cons_self)
          · rw [State.pc_goto_of_ne _ _ e] at hq
            exact hnotstart q c' e hq }

/-- A request at the head of the queue is started; `s'` is the state after `idestart`. -/
theorem working (h : Inv disk s) {s' : State α} (hr : Resting s) (hq : s.idequeue = some b)
    (hdev : s'.device = .busy (s.buf b).cmd) (hstarted : s'.started = s.started ++ [b])
    (hsame : s'.irq = s.irq ∧ s'.served = s.served ∧ s'.done = s.done ∧ s'.reqs = s.reqs)
    (hipc : s'.ipc = .off ∨ s'.ipc = .leave) : Working s' := by
  obtain ⟨e1, e2, e3, e4⟩ := hsame
  obtain ⟨x, hx, -⟩ := h.queue_eq hq
  have hbuf := (h.flight _ _ _ (Nat.le_refl _) hx).1
  refine ⟨?_, b, x, ?_, .inl ⟨by rw [hdev, hbuf], by rw [e1, hr.irq], by rw [e2, e3, hr.served],
    hipc⟩⟩
  · rw [hstarted, hr.started, e3, e4, take_add_one, hx, map_append]
    rfl
  · rw [e3, e4, hx]

theorem start (h : Inv disk s) (hp : s.pc p = .start b) (hq : s.idequeue = some b) :
    Inv disk ((s.idestart b).goto p (.test b)) := by
  have howns : owns (s.pc p) = true := by rw [hp]; rfl
  have hintr := h.intr_of_owns howns
  have hrest : Resting s := by
    rcases h.phase with ⟨h1, -⟩ | ⟨-, h2, -⟩
    · exact h1
    · exact absurd ⟨p, b, hp, hq⟩ h2
  have hipc : s.ipc = .off := by
    have := hrest.ipc.1
    cases hi : s.ipc <;> first
      | rfl
      | exact absurd hi this
      | (rw [hi] at hintr; cases hintr)
  refine h.advance rfl ⟨rfl, rfl, rfl, rfl, rfl, rfl, rfl, rfl, rfl, rfl⟩ (by rw [hp]; rfl)
    (by rw [hp]; rfl) ?_ (fun _ _ => Iff.rfl) nofun nofun (fun c hc => ?_)
    (.inr ⟨h.working hrest hq rfl rfl ⟨rfl, rfl, rfl, rfl⟩ (.inl hipc), ?_, h.mid_of_owns howns⟩)
  · exact iff_of_true ((h.lock p).mpr howns) rfl
  · rw [hipc] at hc
    cases hc
  · rintro ⟨q, c, hqc, -⟩
    rcases eq_or_ne q p with rfl | e
    · rw [State.pc_goto_self] at hqc
      cases hqc
    · rw [State.pc_goto_of_ne _ _ e] at hqc
      have := h.alone howns e
      rw [show s.pc q = .start c from hqc] at this
      cases this

theorem leave (h : Inv disk s) (hp : s.pc p = .leave b) :
    Inv disk ({ s with lock := none, active := update s.active b false }.goto p .out) := by
  have howns : owns (s.pc p) = true := by rw [hp]; rfl
  have hbusy := h.busyWith_of_owns howns
  have hdone := h.left p b hp
  have other : ∀ {t : State α} {q}, q ≠ p → (t.goto p .out).pc q = t.pc q :=
    fun e => State.pc_goto_of_ne _ _ e
  have ne_of : ∀ {t : State α} {q} {o : Option Nat} {c}, bufOf ((t.goto p .out).pc q) = o →
      o = some c → q ≠ p := by
    rintro t q _ c hq rfl rfl
    rw [State.pc_goto_self] at hq
    cases hq
  exact { h with
    lock := fun q => by
      refine iff_of_false nofun ?_
      rcases eq_or_ne q p with rfl | e
      · rw [State.pc_goto_self]
        nofun
      · rw [other e, h.alone howns e]
        nofun
    intr := by
      refine iff_of_false nofun ?_
      change ¬ intrOwns s.ipc = true
      rw [h.intr_of_owns howns]
      nofun
    active := fun q c hq => by
      have e := ne_of hq rfl
      rw [other e] at hq
      change update s.active b false c = true
      have hc : c ≠ b := by
        rintro rfl
        exact e (h.one q p c hq (by rw [hp]; rfl))
      rw [update_of_ne hc]
      exact h.active q c hq
    one := fun q q' c hq hq' => by
      rw [other (ne_of hq rfl)] at hq
      rw [other (ne_of hq' rfl)] at hq'
      exact h.one q q' c hq hq'
    flight := fun k c x hk hr => by
      obtain ⟨h1, q, h2, h3⟩ := h.flight k c x hk hr
      have e : q ≠ p := by
        rintro rfl
        change s.done ≤ k at hk
        omega
      exact ⟨h1, q, by rw [other e]; exact h2, h3⟩
    fresh := fun q c hq hq' => by
      have e := ne_of hq rfl
      rw [other e] at hq hq'
      exact h.fresh q c hq hq'
    walk := fun q c pp hq => by
      have e : q ≠ p := by
        rintro rfl
        rw [State.pc_goto_self] at hq
        cases hq
      rw [other e] at hq
      exact h.walk q c pp hq
    request := fun q c hq => by
      rw [other (ne_of (bufOf_of_waiting hq) rfl)] at hq
      exact h.request q c hq
    result := fun q c x hq => by
      rw [other (ne_of (bufOf_of_waiting hq) rfl)] at hq
      exact h.result q c x hq
    left := fun q c hq => by
      have e : q ≠ p := by
        rintro rfl
        rw [State.pc_goto_self] at hq
        cases hq
      rw [other e] at hq
      exact h.left q c hq
    handled := fun c hc => by
      rw [show busyWith s.ipc = some c from hc] at hbusy
      cases hbusy
    phase := by
      rw [launching_goto]
      · exact h.phase.imp (fun h => ⟨{ h.1 with }, h.2⟩) fun h => ⟨{ h.1 with }, h.2⟩
      · exact fun _ e => by cases hp.symm.trans e
      · exact fun _ e => by cases e }

/-- A step of the disk or of the handler that leaves queue and buffers alone. -/
theorem steady (h : Inv disk s) {s' : State α}
    (hsame : s'.buf = s.buf ∧ s'.qnext = s.qnext ∧ s'.idequeue = s.idequeue ∧ s'.pc = s.pc ∧
      s'.active = s.active ∧ s'.reqs = s.reqs ∧ s'.done = s.done ∧ s'.idx = s.idx)
    (hlock : ∀ p, s'.lock = some (.proc p) ↔ s.lock = some (.proc p))
    (hintr : s'.lock = some .intr ↔ intrOwns s'.ipc = true)
    (hstage : ∀ (b : Nat) (x y : Buf α), stage b x y s'.ipc = stage b x y s.ipc)
    (hdisk : s'.disk = diskAfter disk (s.bufs.take s'.served))
    (hbusy : busyWith s'.ipc = none)
    (hphase : Resting s' ∧ (s'.idequeue = none ∨ Launching s' ∨ mid s'.ipc = true) ∨
      Working s' ∧ ¬ Launching s' ∧ mid s'.ipc = false) : Inv disk s' := by
  obtain ⟨lock, buf, qnext, idequeue, disk', device, irq, pc, ipc, active, reqs, started, served,
    done, idx⟩ := s'
  dsimp only at hsame
  obtain ⟨rfl, rfl, rfl, rfl, rfl, rfl, rfl, rfl⟩ := hsame
  exact { h with
    lock := fun q => (hlock q).trans (h.lock q)
    intr := hintr
    result := fun q b x hq hr hlt => (h.result q b x hq hr hlt).trans (hstage ..).symm
    disk := hdisk
    handled := fun b hb => by cases hbusy.symm.trans hb
    fetched := fun b hb => by
      rw [hb] at hbusy
      cases hbusy
    phase := hphase }

theorem not_launching_of_intr (h : Inv disk s) (hi : intrOwns s.ipc = true) : ¬ Launching s := by
  rintro ⟨q, c, hq, -⟩
  have := h.intr_of_owns (p := q) (by rw [hq]; rfl)
  rw [hi] at this
  cases this

theorem complete (h : Inv disk s) {c : Cmd α} (hc : s.device = .busy c) :
    Inv disk (Ide.complete s c) := by
  -- it is the command of the first request
  obtain ⟨h1, hl, hm⟩ : Working s ∧ ¬ Launching s ∧ mid s.ipc = false := by
    refine h.phase.resolve_left fun ⟨h1, _⟩ => ?_
    obtain ⟨d, hd⟩ := h1.ready
    rw [hc] at hd
    cases hd
  obtain ⟨b, x, hx, hcase⟩ := h1.progress
  obtain ⟨hdev, hirq, hserved, hipc⟩ : s.device = .busy x.cmd ∧ s.irq = false ∧
      s.served = s.done ∧ (s.ipc = .off ∨ s.ipc = .leave) := by
    refine hcase.resolve_right fun ⟨_, ⟨d, hd, _⟩, _⟩ => ?_
    rw [hc] at hd
    cases hd
  obtain rfl : c = x.cmd := by
    rw [hdev] at hc
    cases hc
    rfl
  have htake : s.bufs.take (s.served + 1) = s.bufs.take s.served ++ [x] := by
    rw [take_add_one, State.bufs, List.getElem?_map, hserved, hx]
    rfl
  have hsame : (Ide.complete s x.cmd).buf = s.buf ∧ (Ide.complete s x.cmd).qnext = s.qnext ∧
      (Ide.complete s x.cmd).idequeue = s.idequeue ∧ (Ide.complete s x.cmd).pc = s.pc ∧
      (Ide.complete s x.cmd).active = s.active ∧ (Ide.complete s x.cmd).reqs = s.reqs ∧
      (Ide.complete s x.cmd).done = s.done ∧ (Ide.complete s x.cmd).idx = s.idx := by
    rw [Ide.complete]
    split <;> exact ⟨rfl, rfl, rfl, rfl, rfl, rfl, rfl, rfl⟩
  have hrest : (Ide.complete s x.cmd).lock = s.lock ∧ (Ide.complete s x.cmd).ipc = s.ipc ∧
      (Ide.complete s x.cmd).irq = true ∧ (Ide.complete s x.cmd).served = s.served + 1 ∧
      (Ide.complete s x.cmd).started = s.started := by
    rw [Ide.complete]
    split <;> exact ⟨rfl, rfl, rfl, rfl, rfl⟩
  have hdisk : (Ide.complete s x.cmd).disk = (ideExec s.disk x).1 ∧
      ∃ d, (Ide.complete s x.cmd).device = .ready d ∧
        (x.dirty = false → d = (Ide.complete s x.cmd).disk (x.dev % 2) (lba x.sector)) := by
    cases hx : x.dirty with
    | true =>
      have hw : x.cmd.write = some x.data := by rw [Buf.cmd, hx]; rfl
      simp only [Ide.complete, hw, ideExec, hx, if_true]
      exact ⟨rfl, _, rfl, nofun⟩
    | false =>
      have hw : x.cmd.write = none := by rw [Buf.cmd, hx]; rfl
      simp only [Ide.complete, hw, ideExec, hx]
      exact ⟨rfl, _, rfl, fun _ => rfl⟩
  obtain ⟨r1, r2, r3, r4, r5⟩ := hrest
  have hsame' := hsame
  obtain ⟨-, -, e3, e4, -, e6, e7, -⟩ := hsame'
  have hlaunch : ¬ Launching (Ide.complete s x.cmd) := by
    rw [Launching, e3, e4]
    exact hl
  refine h.steady hsame (fun _ => by rw [r1]) (by rw [r1, r2]; exact h.intr)
    (fun _ _ _ => by rw [r2]) ?_ ?_ (.inr ⟨⟨?_, b, x, ?_, ?_⟩, hlaunch, by rw [r2, hm]⟩)
  · rw [r4, htake, diskAfter_snoc, ← h.disk]
    exact hdisk.1
  · rw [r2]
    rcases hipc with hi | hi <;> rw [hi] <;> rfl
  · rw [r5, e6, e7]
    exact h1.started
  · rw [e6, e7, hx]
  · right
    rw [r4, r3, r2, e7, hserved]
    exact ⟨rfl, hdisk.2, .inl ⟨rfl, hipc⟩⟩

theorem interrupt (h : Inv disk s) (hirq : s.irq = true) (hipc : s.ipc = .off) :
    Inv disk { s with irq := false, ipc := .enter } := by
  obtain ⟨h1, hl, -⟩ : Working s ∧ ¬ Launching s ∧ mid s.ipc = false := by
    refine h.phase.resolve_left fun ⟨h1, _⟩ => ?_
    rw [h1.irq] at hirq
    cases hirq
  obtain ⟨b, x, hx, hcase⟩ := h1.progress
  obtain ⟨hserved, hdev, -⟩ := hcase.resolve_left fun ⟨_, h2, _⟩ => by
    rw [h2] at hirq
    cases hirq
  refine h.steady ⟨rfl, rfl, rfl, rfl, rfl, rfl, rfl, rfl⟩ (fun _ => Iff.rfl) ?_
    (fun _ _ _ => by rw [hipc]; rfl) h.disk rfl
    (.inr ⟨⟨h1.started, b, x, hx, .inr ⟨hserved, hdev, .inr ⟨rfl, .inl rfl⟩⟩⟩, hl, rfl⟩)
  refine iff_of_false (fun hlock => ?_) nofun
  have := h.intr.mp hlock
  rw [hipc] at this
  cases this

theorem intrEnter (h : Inv disk s) (hipc : s.ipc = .enter) (hfree : s.lock = none) :
    Inv disk { s with lock := some .intr, ipc := .pop } := by
  obtain ⟨h1, hl, -⟩ : Working s ∧ ¬ Launching s ∧ mid s.ipc = false :=
    h.phase.resolve_left fun ⟨h1, _⟩ => h1.ipc.1 hipc
  obtain ⟨b, x, hx, hcase⟩ := h1.progress
  obtain ⟨hserved, hdev, hirq⟩ := hcase.resolve_left fun ⟨_, _, _, h2⟩ => by
    rcases h2 with h2 | h2 <;> (rw [hipc] at h2; cases h2)
  obtain ⟨hirq, -⟩ := hirq.resolve_left fun ⟨_, h2⟩ => by
    rcases h2 with h2 | h2 <;> (rw [hipc] at h2; cases h2)
  refine h.steady ⟨rfl, rfl, rfl, rfl, rfl, rfl, rfl, rfl⟩ (fun q => ?_) (iff_of_true rfl rfl)
    (fun _ _ _ => by rw [hipc]; rfl) h.disk rfl
    (.inr ⟨⟨h1.started, b, x, hx, .inr ⟨hserved, hdev, .inr ⟨hirq, .inr rfl⟩⟩⟩, hl, rfl⟩)
  rw [hfree]
  exact iff_of_false nofun nofun

theorem intrNext (h : Inv disk s) (hipc : s.ipc = .next) (hq : s.idequeue = some b) :
    Inv disk { s.idestart b with ipc := .leave } := by
  have hown : intrOwns s.ipc = true := by rw [hipc]; rfl
  have hrest := h.resting (by rw [hipc]; rfl)
  exact h.steady ⟨rfl, rfl, rfl, rfl, rfl, rfl, rfl, rfl⟩ (fun _ => Iff.rfl)
    (iff_of_true (h.intr.mpr hown) rfl) (fun _ _ _ => by rw [hipc]; rfl) h.disk rfl
    (.inr ⟨h.working hrest hq rfl rfl ⟨rfl, rfl, rfl, rfl⟩ (.inr rfl),
      h.not_launching_of_intr hown, rfl⟩)

theorem intrIdle (h : Inv disk s) (hipc : s.ipc = .next) (hq : s.idequeue = none) :
    Inv disk { s with ipc := .leave } := by
  have hown : intrOwns s.ipc = true := by rw [hipc]; rfl
  have hrest := h.resting (by rw [hipc]; rfl)
  exact h.steady ⟨rfl, rfl, rfl, rfl, rfl, rfl, rfl, rfl⟩ (fun _ => Iff.rfl)
    (iff_of_true (h.intr.mpr hown) rfl) (fun _ _ _ => by rw [hipc]; rfl) h.disk rfl
    (.inl ⟨⟨hrest.ready, hrest.irq, hrest.served, hrest.started, nofun, nofun⟩, .inl hq⟩)

theorem intrLeave (h : Inv disk s) (hipc : s.ipc = .leave) :
    Inv disk { s with lock := none, ipc := .off } := by
  have hown : intrOwns s.ipc = true := by rw [hipc]; rfl
  have hl := h.not_launching_of_intr hown
  refine h.steady ⟨rfl, rfl, rfl, rfl, rfl, rfl, rfl, rfl⟩ (fun q => ?_) (iff_of_false nofun nofun)
    (fun _ _ _ => by rw [hipc]; rfl) h.disk rfl ?_
  · rw [h.intr.mpr hown]
    exact iff_of_false nofun nofun
  · rcases h.phase with ⟨h1, h2⟩ | ⟨h1, -, -⟩
    · refine .inl ⟨⟨h1.ready, h1.irq, h1.served, h1.started, nofun, nofun⟩, .inl ?_⟩
      rcases h2 with h2 | h2 | h2
      · exact h2
      · exact absurd h2 hl
      · rw [hipc] at h2
        cases h2
    · obtain ⟨b, x, hx, hcase⟩ := h1.progress
      refine .inr ⟨⟨h1.started, b, x, hx, hcase.imp (fun ⟨a1, a2, a3, _⟩ => ⟨a1, a2, a3, .inl rfl⟩)
        fun ⟨a1, a2, a3⟩ => ⟨a1, a2, a3.imp (fun ⟨b1, _⟩ => ⟨b1, .inl rfl⟩) fun ⟨_, b2⟩ => ?_⟩⟩, hl, rfl⟩
      rcases b2 with b2 | b2 <;> (rw [hipc] at b2; cases b2)

/-- While the handler is busy with a buffer, its request is the latest one for the buffer. -/
theorem handled_last (h : Inv disk s) (hb : busyWith s.ipc = some b) :
    (∀ k x, s.done ≤ k → s.reqs[k]? ≠ some (b, x)) ∧
    ∀ q, waiting (s.pc q) = some b → s.idx q + 1 = s.done := by
  obtain ⟨p, hp, hidx⟩ := h.handled b hb
  refine ⟨fun k x hk => (h.request p b hp).2 k x (by omega), fun q hq => ?_⟩
  obtain rfl := h.one p q b (bufOf_of_waiting hp) (bufOf_of_waiting hq)
  exact hidx

theorem pop (h : Inv disk s) (hipc : s.ipc = .pop) (hq : s.idequeue = some b) :
    Inv disk { s with idequeue := s.qnext b, done := s.done + 1, ipc := .fetch b } := by
  have hown : intrOwns s.ipc = true := by rw [hipc]; rfl
  have notowns : ∀ q, owns (s.pc q) = false := fun q => by
    cases ho : owns (s.pc q) with
    | false => rfl
    | true => exact Bool.noConfusion (hown.symm.trans (h.intr_of_owns ho))
  obtain ⟨h1, hl, -⟩ : Working s ∧ ¬ Launching s ∧ mid s.ipc = false :=
    h.phase.resolve_left fun ⟨h1, _⟩ => h1.ipc.2 hipc
  obtain ⟨c, x, hx, hcase⟩ := h1.progress
  obtain ⟨x', hx', r, hr⟩ := h.queue_eq hq
  obtain ⟨rfl, rfl⟩ : c = b ∧ x = x' := by
    rw [hx] at hx'
    cases hx'
    exact ⟨rfl, rfl⟩
  obtain ⟨hserved, ⟨d, hd, hdata⟩, hirq⟩ := hcase.resolve_left fun ⟨_, _, _, h2⟩ => by
    rcases h2 with h2 | h2 <;> (rw [hipc] at h2; cases h2)
  obtain ⟨hirq, -⟩ := hirq.resolve_left fun ⟨_, h2⟩ => by
    rcases h2 with h2 | h2 <;> (rw [hipc] at h2; cases h2)
  obtain ⟨hbuf, p, hp, hidx⟩ := h.flight _ _ _ (Nat.le_refl _) hx
  have hlt := (List.getElem?_eq_some_iff.mp hx).1
  have hqueue : ({ s with idequeue := s.qnext c, done := s.done + 1, ipc := .fetch c } :
      State α).queue = r := by
    have hdrop : s.queue = c :: (s.reqs.drop (s.done + 1)).map Prod.fst := by
      rw [State.queue, ← getElem_cons_drop hlt, (List.getElem?_eq_some_iff.mp hx).2]
      rfl
    rw [hr] at hdrop
    exact (List.cons.inj hdrop).2.symm
  have hchain := h.chain
  have hnodup := h.nodup
  rw [hr] at hchain hnodup
  exact { h with
    intr := iff_of_true (h.intr.mpr hown) rfl
    done_le := hlt
    chain := hqueue ▸ (Chain.cons_iff.mp hchain).2
    nodup := hqueue ▸ (nodup_cons.mp hnodup).2
    flight := fun k c' y hk hr => h.flight k c' y (Nat.le_of_succ_le hk) hr
    walk := fun q c' pp hq => by
      have := notowns q
      rw [show s.pc q = .walk c' pp from hq] at this
      cases this
    result := fun q c' y hq hr hlt' => by
      change s.idx q < s.done + 1 at hlt'
      change s.buf c' = if c = c' then y else outcome disk s.bufs (s.idx q) y
      rcases Nat.lt_succ_iff_lt_or_eq.mp hlt' with hlt' | heq
      · have hne : c ≠ c' := by
          rintro rfl
          exact (h.request q c hq).2 s.done x hlt' hx
        rw [if_neg hne, h.result q c' y hq hr hlt', hipc]
        rfl
      · change s.reqs[s.idx q]? = some (c', y) at hr
        rw [heq, hx] at hr
        cases hr
        rw [if_pos rfl, hbuf]
    left := fun q c' hq => Nat.lt_succ_of_lt (h.left q c' hq)
    handled := fun c' hc => by
      cases hc
      exact ⟨p, hp, by rw [hidx]⟩
    fetched := fun c' hc => by
      cases hc
      exact ⟨x, d, hx, hd, hdata⟩
    phase := .inl ⟨⟨⟨d, hd⟩, hirq, hserved, h1.started, nofun, nofun⟩, .inr (.inr rfl)⟩ }

/-- The handler works on the buffer `b`, whose request is off the queue. -/
theorem handle (h : Inv disk s) {i : IntrPc} {y : Buf α} (hb : busyWith s.ipc = some b)
    (hi : intrOwns i = true ∧ mid i = true ∧ (∀ c, i ≠ .fetch c) ∧
      ∀ c, busyWith i = some c → c = b)
    (hresult : ∀ p x, waiting (s.pc p) = some b → s.idx p + 1 = s.done →
      s.reqs[s.idx p]? = some (b, x) → y = stage b x (outcome disk s.bufs (s.idx p) x) i)
    (hother : ∀ c, c ≠ b → ∀ x z : Buf α, stage c x z i = stage c x z s.ipc) :
    Inv disk { s.setBuf b y with ipc := i } := by
  have hown : intrOwns s.ipc = true := by
    cases hc : s.ipc <;> first | rfl | (rw [hc] at hb; cases hb)
  have hmid : mid s.ipc = true := by
    cases hc : s.ipc <;> first | rfl | (rw [hc] at hb; cases hb)
  have hl := h.not_launching_of_intr hown
  obtain ⟨h1, h2⟩ := h.handled_last hb
  have hrest := h.resting hmid
  exact { h with
    intr := iff_of_true (h.intr.mpr hown) hi.1
    flight := fun k c x hk hr => by
      have hne : c ≠ b := by
        rintro rfl
        exact h1 k x hk hr
      refine ⟨?_, (h.flight k c x hk hr).2⟩
      change update s.buf b y c = x
      rw [update_of_ne hne]
      exact (h.flight k c x hk hr).1
    fresh := fun q c hq hq' => by
      have hne : c ≠ b := by
        rintro rfl
        obtain ⟨p, hp, -⟩ := h.handled c hb
        obtain rfl := h.one p q c (bufOf_of_waiting hp) hq
        rw [show waiting (s.pc p) = none from hq'] at hp
        cases hp
      change (update s.buf b y c).busy = true ∧ (update s.buf b y c).synced = false
      rw [update_of_ne hne]
      exact h.fresh q c hq hq'
    result := fun q c x hq hr hlt => by
      change update s.buf b y c = stage c x (outcome disk s.bufs (s.idx q) x) i
      rcases eq_or_ne c b with rfl | e
      · rw [update_self]
        exact hresult q x hq (h2 q hq) hr
      · rw [update_of_ne e, hother c e]
        exact h.result q c x hq hr hlt
    handled := fun c hc => by
      rw [hi.2.2.2 c hc]
      exact h.handled b hb
    fetched := fun c hc => absurd hc (hi.2.2.1 c)
    phase := .inl ⟨⟨hrest.ready, hrest.irq, hrest.served, hrest.started, by
      refine ⟨?_, ?_⟩ <;> (change i ≠ _; rintro rfl; cases hi.2.1)⟩, .inr (.inr hi.2.1)⟩ }

theorem fetch (h : Inv disk s) (hipc : s.ipc = .fetch b) {y : Buf α}
    (hy : (s.buf b).dirty = true ∧ y = s.buf b ∨ (s.buf b).dirty = false ∧
      ∃ d, s.device = .ready d ∧ y = { s.buf b with data := d }) :
    Inv disk { s.setBuf b y with ipc := .setValid b } := by
  refine h.handle (by rw [hipc]; rfl) ⟨rfl, rfl, nofun, fun c hc => (Option.some.inj hc).symm⟩
    (fun p x hp hidx hx => ?_) fun c hc x z => by rw [hipc, stage, stage, if_neg hc.symm, if_neg hc.symm]
  obtain ⟨x', d', hx', hd', hdata⟩ := h.fetched b hipc
  have hidx' : s.idx p = s.done - 1 := by omega
  have hbuf := h.result p b x hp hx (by omega)
  rw [hipc, stage, if_pos rfl] at hbuf
  rw [← hidx', hx] at hx'
  cases hx'
  rw [stage, if_pos rfl, outcome, ideExec]
  rcases hy with ⟨hdirty, rfl⟩ | ⟨hclean, d, hd, rfl⟩
  · rw [hbuf] at hdirty ⊢
    rw [if_pos hdirty]
  · rw [hbuf] at hclean
    rw [hd'] at hd
    cases hd
    rw [hbuf, if_neg (by rw [hclean]; nofun), hdata hclean]
    -- the request has changed nothing on the disk
    have hserved := (h.resting (by rw [hipc]; rfl)).served
    have htake : s.bufs.take s.served = s.bufs.take (s.idx p) ++ [x] := by
      rw [hserved, ← hidx, take_add_one, State.bufs, List.getElem?_map, hx]
      rfl
    have hdisk : s.disk = diskAfter disk (s.bufs.take (s.idx p)) := by
      rw [h.disk, htake, diskAfter_snoc, ideExec, if_neg (by rw [hclean]; nofun)]
    rw [hdisk]

theorem setValid (h : Inv disk s) (hipc : s.ipc = .setValid b) :
    Inv disk { s.setBuf b { s.buf b with valid := true } with ipc := .clearDirty b } := by
  refine h.handle (by rw [hipc]; rfl) ⟨rfl, rfl, nofun, fun c hc => (Option.some.inj hc).symm⟩
    (fun p x hp hidx hx => ?_) fun c hc x z => by rw [hipc, stage, stage, if_neg hc.symm, if_neg hc.symm]
  have hbuf := h.result p b x hp hx (by omega)
  rw [hipc, stage, if_pos rfl] at hbuf
  rw [stage, if_pos rfl, hbuf]

theorem clearDirty (h : Inv disk s) (hipc : s.ipc = .clearDirty b) :
    Inv disk { s.setBuf b { s.buf b with dirty := false } with ipc := .wakeup b } := by
  refine h.handle (by rw [hipc]; rfl) ⟨rfl, rfl, nofun, nofun⟩
    (fun p x hp hidx hx => ?_) fun c hc x z => by rw [hipc]; exact (if_neg hc.symm).symm
  have hbuf := h.result p b x hp hx (by omega)
  rw [hipc, stage, if_pos rfl] at hbuf
  change { s.buf b with dirty := false } = outcome disk s.bufs (s.idx p) x
  rw [hbuf, outcome, ideExec]
  split
  · rfl
  · next hclean => rw [Bool.eq_false_iff.mpr hclean]

theorem wakeup (h : Inv disk s) (hipc : s.ipc = .wakeup b) :
    Inv disk { s with
      pc := fun p => if s.pc p = .asleep b then .wake b else s.pc p, ipc := .next } := by
  have hown : intrOwns s.ipc = true := by rw [hipc]; rfl
  have hbuf : ∀ q, bufOf (if s.pc q = .asleep b then .wake b else s.pc q) = bufOf (s.pc q) := by
    intro q
    split
    · next e => rw [e]; rfl
    · rfl
  have hwait : ∀ q, waiting (if s.pc q = .asleep b then .wake b else s.pc q) = waiting (s.pc q) := by
    intro q
    split
    · next e => rw [e]; rfl
    · rfl
  have hpc : ∀ {q c}, (if s.pc q = .asleep b then .wake b else s.pc q) = c → (∀ d, c ≠ .wake d) →
      s.pc q = c := by
    intro q c hq hc
    split at hq
    · exact absurd hq.symm (hc b)
    · exact hq
  have hrest := h.resting (by rw [hipc]; rfl)
  exact { h with
    lock := fun q => by
      refine (h.lock q).trans ?_
      change _ ↔ owns (if s.pc q = .asleep b then .wake b else s.pc q) = true
      split
      · next e => rw [e]; exact Iff.rfl
      · exact Iff.rfl
    intr := iff_of_true (h.intr.mpr hown) rfl
    active := fun q c hq => h.active q c (hbuf q ▸ hq)
    one := fun q q' c hq hq' => h.one q q' c (hbuf q ▸ hq) (hbuf q' ▸ hq')
    flight := fun k c x hk hr => by
      obtain ⟨h1, q, h2, h3⟩ := h.flight k c x hk hr
      exact ⟨h1, q, (hwait q).trans h2, h3⟩
    fresh := fun q c hq hq' => h.fresh q c (hbuf q ▸ hq) (hwait q ▸ hq')
    walk := fun q c pp hq => h.walk q c pp (hpc hq nofun)
    request := fun q c hq => h.request q c (hwait q ▸ hq)
    result := fun q c x hq hr hlt => by
      have := h.result q c x (hwait q ▸ hq) hr hlt
      rw [hipc] at this
      exact this
    left := fun q c hq => h.left q c (hpc hq nofun)
    handled := nofun
    fetched := nofun
    phase := .inl ⟨⟨hrest.ready, hrest.irq, hrest.served, hrest.started, nofun, nofun⟩,
      .inr (.inr rfl)⟩ }

theorem own (h : Inv disk s) (hb : s.active b = false) (y : Buf α) : Inv disk (s.setBuf b y) := by
  have hne : ∀ {q c}, bufOf (s.pc q) = some c → c ≠ b := by
    rintro q c hq rfl
    exact Bool.noConfusion (hb.symm.trans (h.active q c hq))
  have hbuf : ∀ {c}, c ≠ b → (s.setBuf b y).buf c = s.buf c := fun e => update_of_ne e ..
  exact { h with
    lock := h.lock, intr := h.intr, active := h.active, one := h.one, done_le := h.done_le
    chain := h.chain, nodup := h.nodup
    flight := fun k c x hk hr => by
      obtain ⟨h1, q, h2, h3⟩ := h.flight k c x hk hr
      exact ⟨(hbuf (hne (bufOf_of_waiting h2))).trans h1, q, h2, h3⟩
    fresh := fun q c hq hq' => by
      rw [hbuf (hne hq)]
      exact h.fresh q c hq hq'
    walk := h.walk, request := h.request
    result := fun q c x hq hr hlt => by
      rw [hbuf (hne (bufOf_of_waiting hq))]
      exact h.result q c x hq hr hlt
    left := h.left, disk := h.disk, handled := h.handled, fetched := h.fetched
    phase := h.phase.imp (fun h => ⟨{ h.1 with }, h.2⟩) fun h => ⟨{ h.1 with }, h.2⟩ }

theorem exec (h : Inv disk s) {s' : State α} (he : Ide.exec s p = some s') : Inv disk s' := by
  rw [Ide.exec] at he
  split at he
  · cases he
  · next b hp =>
    split at he
    · next hfree =>
      cases he
      exact h.move (by rw [hp]; rfl) (by rw [hp]; rfl) (iff_of_true rfl rfl)
        (fun w hw => iff_of_false (fun e => hw (Option.some.inj e).symm) (by rw [hfree]; nofun))
        nofun nofun nofun (by rw [hp]; nofun)
    · cases he
  · next b hp => cases he; exact h.unlink hp
  · next b pp hp =>
    split at he
    · next c hload =>
      cases he
      -- the loop goes on at the link of a buffer of the queue
      have howns : owns (s.pc p) = true := by rw [hp]; rfl
      obtain ⟨hnext, hpos⟩ := h.walk p b pp hp
      have hnew : ∃ l c' r, s.queue = l ++ c' :: r ∧ Link.next c = .next c' := by
        rcases hpos with rfl | ⟨l, c', r, hq, rfl⟩
        · obtain ⟨-, -, r, hr⟩ := h.queue_eq hload
          exact ⟨[], c, r, hr, rfl⟩
        · have hchain := h.chain
          rw [hq] at hchain
          have hr := hchain.next_eq
          rw [show s.qnext c' = some c from hload] at hr
          cases r with
          | nil => cases hr
          | cons y r =>
            cases hr
            exact ⟨l ++ [c'], c, r, by rw [hq, append_assoc]; rfl, rfl⟩
      exact h.move (l := s.lock) (by rw [hp]; rfl) (by rw [hp]; rfl)
        (iff_of_true ((h.lock p).mpr howns) rfl) (fun _ _ => Iff.rfl)
        (fun b' pp' hc => by cases hc; exact ⟨hnext, .inr hnew⟩) nofun nofun (by rw [hp]; nofun)
    · next hload => cases he; exact h.append hp hload
  · next b hp =>
    split at he
    · next hq =>
      split at he
      · cases he; exact h.start hp hq
      · cases he
    · next hq =>
      cases he
      have howns : owns (s.pc p) = true := by rw [hp]; rfl
      exact h.move (l := s.lock) (by rw [hp]; rfl) (by rw [hp]; rfl)
        (iff_of_true ((h.lock p).mpr howns) rfl) (fun _ _ => Iff.rfl) nofun nofun nofun
        fun c hc => by rw [hp] at hc; cases hc; exact hq
  · next b hp =>
    have howns : owns (s.pc p) = true := by rw [hp]; rfl
    split at he
    · next hsync =>
      cases he
      refine h.move (l := s.lock) (by rw [hp]; rfl) (by rw [hp]; rfl)
        (iff_of_true ((h.lock p).mpr howns) rfl) (fun _ _ => Iff.rfl) nofun (fun c _ => ?_) nofun
        (by rw [hp]; nofun)
      -- a request in the queue still has something to do
      obtain ⟨⟨x, hx⟩, -⟩ := h.request p b (by rw [hp]; rfl)
      by_contra hge
      have hbuf := (h.flight _ _ _ (Nat.le_of_not_lt hge) hx).1
      have := (h.accepted _ (mem_of_getElem? hx)).2
      rw [hbuf, this] at hsync
      cases hsync
    · cases he
      exact h.move (by rw [hp]; rfl) (by rw [hp]; rfl) (iff_of_false nofun nofun)
        (fun w hw => iff_of_false nofun (by
          rw [(h.lock p).mpr howns]
          exact fun e => hw (Option.some.inj e).symm))
        nofun nofun nofun (by rw [hp]; nofun)
  · cases he
  · next b hp =>
    split at he
    · next hfree =>
      cases he
      exact h.move (by rw [hp]; rfl) (by rw [hp]; rfl) (iff_of_true rfl rfl)
        (fun w hw => iff_of_false (fun e => hw (Option.some.inj e).symm) (by rw [hfree]; nofun))
        nofun nofun nofun (by rw [hp]; nofun)
    · cases he
  · next b hp => cases he; exact h.leave hp

theorem intrStep (h : Inv disk s) {s' : State α} (he : Ide.intr s = some s') : Inv disk s' := by
  rw [Ide.intr] at he
  split at he
  · cases he
  · next hipc =>
    split at he
    · next hfree => cases he; exact h.intrEnter hipc hfree
    · cases he
  · next hipc =>
    split at he
    · next hq =>
      -- the queue is not empty when the handler comes for the first request
      have hwork : Working s := (h.phase.resolve_left fun ⟨h1, _⟩ => h1.ipc.2 hipc).1
      obtain ⟨b, x, hx, -⟩ := hwork.progress
      have hhead := h.chain.head?
      rw [hq] at hhead
      have hnil := List.head?_eq_none_iff.mp hhead.symm
      have hlt := (List.getElem?_eq_some_iff.mp hx).1
      have hlen : s.queue.length = s.reqs.length - s.done := by simp [State.queue]
      rw [hnil] at hlen
      simp at hlen
      omega
    · next b hq => cases he; exact h.pop hipc hq
  · next b hipc =>
    split at he
    · next hdirty =>
      cases he
      have := h.fetch hipc (y := s.buf b) (.inl ⟨hdirty, rfl⟩)
      rw [State.setBuf, update_eq_self] at this
      exact this
    · next hclean =>
      split at he
      · next d hd =>
        cases he
        exact h.fetch hipc (.inr ⟨Bool.eq_false_iff.mpr hclean, d, hd, rfl⟩)
      · cases he
  · next b hipc => cases he; exact h.setValid hipc
  · next b hipc => cases he; exact h.clearDirty hipc
  · next b hipc => cases he; exact h.wakeup hipc
  · next hipc =>
    split at he
    · next hq => cases he; exact h.intrIdle hipc hq
    · next b hq =>
      split at he
      · cases he; exact h.intrNext hipc hq
      · cases he
  · next hipc => cases he; exact h.intrLeave hipc

theorem step (h : Inv disk s) {havedisk1 : Bool} {a : Act α} {s' : State α}
    (he : Ide.step havedisk1 s a = some s') : Inv disk s' := by
  cases a with
  | call p b =>
    simp only [Ide.step] at he
    split at he
    · next hp =>
      split at he
      · cases he
      · next hok =>
        cases he
        refine h.call hp.1 hp.2 ?_
        rw [check] at hok
        split at hok
        · cases hok
        · next hbusy =>
          split at hok
          · cases hok
          · next hsync => exact ⟨(Bool.not_eq_false _).mp hbusy, (Bool.not_eq_true _).mp hsync⟩
    · cases he
  | exec p => exact h.exec he
  | wake p =>
    simp only [Ide.step] at he
    split at he
    · next b hp =>
      cases he
      exact h.move (l := s.lock) (by rw [hp]; rfl) (by rw [hp]; rfl)
        (iff_of_false (fun hl => by have := (h.lock p).mp hl; rw [hp] at this; cases this) nofun)
        (fun _ _ => Iff.rfl) nofun nofun nofun (by rw [hp]; nofun)
    · cases he
  | complete =>
    simp only [Ide.step] at he
    split at he
    · next c hc => cases he; exact h.complete hc
    · cases he
  | interrupt =>
    simp only [Ide.step] at he
    split at he
    · next hi => cases he; exact h.interrupt hi.1 hi.2
    · cases he
  | intr => exact h.intrStep he
  | own b x =>
    simp only [Ide.step] at he
    split at he
    · next hb => cases he; exact h.own hb x
    · cases he

end Inv

theorem inv_run {havedisk1 : Bool} {acts : List (Act α)} {s' : State α} (h : Inv disk s)
    (hrun : runActs havedisk1 acts s = some s') : Inv disk s' := by
  induction acts generalizing s with
  | nil =>
    cases hrun
    exact h
  | cons a acts ih =>
    obtain ⟨s₁, h1, h2⟩ := Option.bind_eq_some_iff.mp hrun
    exact ih (h.step h1) h2

end Steps

/-! ### The driver and the memory disk -/

/-- The requests are started once each, in the order in which they were queued, and when nobody holds
`idelock` exactly the first one of those in `idequeue` has been started. -/
structure Fifo (s : State α) : Prop where
  started : s.started <+: s.reqs.map Prod.fst
  queue : Chain s.qnext s.idequeue s.queue
  first : s.lock = none →
    s.started = (s.reqs.map Prod.fst).take (s.done + min 1 s.queue.length)

/-- The command in progress is that of the first buffer of `idequeue`. When nobody holds `idelock`
there is one, unless the disk has executed it and `ideintr` has still to come. -/
structure HeadInProgress (s : State α) : Prop where
  command : ∀ c, s.device = .busy c → ∃ b, s.idequeue = some b ∧ c = (s.buf b).cmd
  head : s.lock = none → ∀ b, s.idequeue = some b →
    s.device = .busy (s.buf b).cmd ∨ s.irq = true ∨ s.ipc = .enter

/-- A process that returns from `iderw` has got its own request executed. -/
def ReturnsDone (s : State α) : Prop :=
  ∀ p b, s.pc p = .leave b → s.idx p < s.done ∧ (∃ x, s.reqs[s.idx p]? = some (b, x)) ∧
    (s.buf b).valid = true ∧ (s.buf b).dirty = false

/-- The disk is as `memide.c` leaves it after the requests that the disk has executed, and a process
returns with the buffer that `memide.c` leaves. -/
def AgreesWithMem (size : UInt32) (mem : Nat → α) (s : State α) : Prop :=
  ∀ mem' outs, memRun size mem (s.bufs.take s.served) = .ok (mem', outs) →
    (∀ sector < disksize size, s.disk 1 sector = mem' sector) ∧
      ∀ p b, s.pc p = .leave b → outs[s.idx p]? = some (s.buf b)

section Results

variable {disk : Nat → Nat → α} {s : State α}

namespace Inv

theorem fifo (h : Inv disk s) : Fifo s := by
  have hpre : ∀ k, (s.reqs.take k).map Prod.fst <+: s.reqs.map Prod.fst :=
    fun k => (List.take_prefix k s.reqs).map Prod.fst
  have hlen : s.queue.length = s.reqs.length - s.done := by simp [State.queue]
  refine ⟨?_, h.chain, fun hfree => ?_⟩
  · rcases h.phase with ⟨hr, -⟩ | ⟨hw, -⟩
    · exact hr.started ▸ hpre _
    · exact hw.started ▸ hpre _
  · rw [← map_take]
    rcases h.phase with ⟨hr, hq | ⟨p, b, hp, -⟩ | hm⟩ | ⟨hw, -⟩
    · have hhead := h.chain.head?
      rw [hq] at hhead
      rw [hr.started, List.head?_eq_none_iff.mp hhead.symm]
      rfl
    -- whoever is about to start a command holds the lock
    · have := (h.lock p).mpr (by rw [hp]; rfl)
      rw [hfree] at this
      cases this
    · have := h.intr.mpr (intrOwns_of_mid hm)
      rw [hfree] at this
      cases this
    · obtain ⟨b, x, hx, -⟩ := hw.progress
      have hlt := (List.getElem?_eq_some_iff.mp hx).1
      rw [hw.started, Nat.min_eq_left (by omega)]

theorem headInProgress (h : Inv disk s) : HeadInProgress s := by
  have hfirst : ∀ b x, s.reqs[s.done]? = some (b, x) → s.idequeue = some b ∧ s.buf b = x := by
    intro b x hx
    refine ⟨?_, (h.flight _ _ _ (Nat.le_refl _) hx).1⟩
    rw [h.chain.head?, State.queue, List.head?_map, List.head?_drop, hx]
    rfl
  refine ⟨fun c hc => ?_, fun hfree b hb => ?_⟩
  · rcases h.phase with ⟨hr, -⟩ | ⟨hw, -⟩
    · obtain ⟨d, hd⟩ := hr.ready
      rw [hd] at hc
      cases hc
    · obtain ⟨b, x, hx, ⟨hd, -⟩ | ⟨-, ⟨d, hd, -⟩, -⟩⟩ := hw.progress
      · rw [hd] at hc
        cases hc
        exact ⟨b, (hfirst b x hx).1, by rw [(hfirst b x hx).2]⟩
      · rw [hd] at hc
        cases hc
  · rcases h.phase with ⟨hr, hq | ⟨p, b', hp, -⟩ | hm⟩ | ⟨hw, -⟩
    · rw [hb] at hq
      cases hq
    · have := (h.lock p).mpr (by rw [hp]; rfl)
      rw [hfree] at this
      cases this
    · have := h.intr.mpr (intrOwns_of_mid hm)
      rw [hfree] at this
      cases this
    · obtain ⟨b', x, hx, hw⟩ := hw.progress
      obtain ⟨h1, rfl⟩ := hfirst b' x hx
      cases hb.symm.trans h1
      rcases hw with ⟨hd, -⟩ | ⟨-, -, ⟨hirq, -⟩ | ⟨-, hipc | hipc⟩⟩
      · exact .inl hd
      · exact .inr (.inl hirq)
      · exact .inr (.inr hipc)
      · have := h.intr.mpr (by rw [hipc]; rfl)
        rw [hfree] at this
        cases this

theorem buf_leave (h : Inv disk s) {p b : Nat} (hp : s.pc p = .leave b) :
    ∃ x, s.reqs[s.idx p]? = some (b, x) ∧ s.buf b = outcome disk s.bufs (s.idx p) x := by
  obtain ⟨⟨x, hx⟩, -⟩ := h.request p b (by rw [hp]; rfl)
  refine ⟨x, hx, (h.result p b x (by rw [hp]; rfl) hx (h.left p b hp)).trans ?_⟩
  -- the handler is not busy with any buffer while a process holds the lock
  have hi := h.intr_of_owns (p := p) (by rw [hp]; rfl)
  revert hi
  cases s.ipc <;> first | exact fun _ => rfl | exact fun e => Bool.noConfusion e

theorem returnsDone (h : Inv disk s) : ReturnsDone s := by
  intro p b hp
  obtain ⟨x, hx, hbuf⟩ := h.buf_leave hp
  exact ⟨h.left p b hp, ⟨x, hx⟩, by rw [hbuf]; exact ideExec_valid .., by
    rw [hbuf]; exact ideExec_dirty ..⟩

theorem done_le_served (h : Inv disk s) : s.done ≤ s.served := by
  rcases h.phase with ⟨hr, -⟩ | ⟨hw, -⟩
  · exact Nat.le_of_eq hr.served.symm
  · obtain ⟨-, -, -, ⟨-, -, hs, -⟩ | ⟨hs, -⟩⟩ := hw.progress <;> omega

theorem agreesWithMem (h : Inv disk s) (size : UInt32) : AgreesWithMem size (disk 1) s := by
  intro mem' outs hrun
  obtain ⟨hdisk, houts⟩ := memRun_eq hrun fun _ _ => rfl
  refine ⟨fun i hi => by rw [h.disk]; exact hdisk i hi, fun p b hp => ?_⟩
  obtain ⟨x, hx, hbuf⟩ := h.buf_leave hp
  have hlt : s.idx p < s.served := Nat.lt_of_lt_of_le (h.left p b hp) h.done_le_served
  have hget : (s.bufs.take s.served)[s.idx p]? = some x := by
    rw [List.getElem?_take_of_lt hlt, State.bufs, List.getElem?_map, hx]
    rfl
  rw [houts (s.idx p) x hget, hbuf, outcome, outcome, take_take, Nat.min_eq_left (Nat.le_of_lt hlt)]

end Inv

/-- **`ide.c` refines `memide.c`.** In every state that any interleaving of calls of `iderw`, of the
disk and of its interrupts leads to, the requests were started once each in the order of the
queue, with the first buffer of `idequeue` as the command in progress; whoever returns from `iderw`
has got its own request executed, with `B_VALID` set and `B_DIRTY` clear; and the disk and the
buffers are those of `memide.c` for the same requests in the same order, which `memide.c` accepts as
soon as they are for sectors of its disk. -/
theorem ide_refines_memide (size : UInt32) (havedisk1 : Bool) (disk : Nat → Nat → α)
    (buf : Nat → Buf α) (d : α) (acts : List (Act α)) (s : State α)
    (hrun : runActs havedisk1 acts (init disk buf d) = some s) :
    Fifo s ∧ HeadInProgress s ∧ ReturnsDone s ∧ AgreesWithMem size (disk 1) s ∧
      ((∀ b ∈ s.bufs, b.dev = 1 ∧ b.sector < disksize size) →
        ∃ r, memRun size (disk 1) (s.bufs.take s.served) = .ok r) := by
  have h := inv_run (inv_init disk buf d) hrun
  refine ⟨h.fifo, h.headInProgress, h.returnsDone, h.agreesWithMem size, fun hb => ?_⟩
  refine memRun_ok (fun b hmem => ?_) _
  have hmem := mem_of_mem_take hmem
  obtain ⟨r, hr, rfl⟩ := mem_map.mp hmem
  exact ⟨(h.accepted r hr).1, (h.accepted r hr).2, hb _ hmem⟩

/-- A process writes sector 3 of disk 1 while another one reads it. -/
def writeRead : List (Act Nat) :=
  [.call 0 0, .call 1 1, .exec 0, .exec 0, .exec 0, .exec 0, .exec 0,
    .exec 1, .exec 1, .exec 1, .exec 1, .exec 1, .exec 1,
    .complete, .interrupt, .intr, .intr, .intr, .intr, .intr, .intr, .intr, .intr,
    .complete, .interrupt, .intr, .intr, .intr, .intr, .intr, .intr, .intr, .intr,
    .exec 1, .exec 1]

/-- The buffer of the process that writes 7, and the one that is to be filled. -/
def writeReadBufs (b : Nat) : Buf Nat :=
  if b = 0 then ⟨true, true, true, 1, 3, 7⟩ else ⟨true, false, false, 1, 3, 0⟩

theorem ide_refines_memide_writeRead :
    ∃ s, runActs true writeRead (init (fun _ _ => 0) writeReadBufs 0) = some s ∧
      s.pc 1 = .leave 1 ∧ (s.buf 1).data = 7 ∧ Fifo s ∧ HeadInProgress s ∧ ReturnsDone s ∧
      AgreesWithMem 4096 (fun _ => 0) s ∧
      ∃ r, memRun 4096 (fun _ => 0) (s.bufs.take s.served) = .ok r := by
  have hrun : (runActs true writeRead (init (fun _ _ => 0) writeReadBufs 0)).map
      (fun s => (s.pc 1, (s.buf 1).data, s.bufs.map fun b => (b.dev, b.sector))) =
      some (.leave 1, 7, [(1, 3), (1, 3)]) := by decide +kernel
  obtain ⟨s, hs, h⟩ := Option.map_eq_some_iff.mp hrun
  obtain ⟨hpc, h⟩ := Prod.ext_iff.mp h
  obtain ⟨hdata, hbufs⟩ := Prod.ext_iff.mp h
  obtain ⟨h1, h2, h3, h4, h5⟩ := ide_refines_memide 4096 true _ _ _ _ s hs
  refine ⟨s, hs, hpc, hdata, h1, h2, h3, h4, h5 fun b hb => ?_⟩
  have hmem := mem_map_of_mem (f := fun b : Buf Nat => (b.dev, b.sector)) hb
  rw [show s.bufs.map (fun b => (b.dev, b.sector)) = [(1, 3), (1, 3)] from hbufs] at hmem
  have hval : (b.dev, b.sector) = (1, 3) := by simpa using hmem
  obtain ⟨hdev, hsec⟩ := Prod.ext_iff.mp hval
  exact ⟨hdev, by rw [show b.sector = 3 from hsec]; decide⟩

end Results

end Ide

end Xv6
