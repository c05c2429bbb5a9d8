import Xv6.Lib.Spinlock

/-!
# Sleep and wakeup

`sleep` and `wakeup` of `proc.c`, instruction by instruction, used with one condition, one lock
`lk` and one channel by any number of processes. Waiters run
`acquire(lk); while(!cond) sleep(chan, lk); use; release(lk)`; wakers run
`acquire(lk); make cond true; release(lk)` with `wakeup(chan)` before or after the release.

What a process still has to do is a term of type `Code`: it holds a lock exactly if it is on a CPU
and the next thing its code does with the lock is to release it (`owns`). A CPU that runs no process
runs the scheduler, which takes and drops `ptable.lock` and hands it to the process it switches to.

The invariant (`Inv`) is that a process which is asleep, or which has let go of `lk` in order to
fall asleep, while the condition holds is about to be looked at by a waker (`pending`). The
window between `release(lk)` and `SLEEPING` is covered because the whole of it is inside
`ptable.lock`, which `wakeup` needs.
-/

open Function

namespace Xv6

/-- `enum procstate`. -/
inductive ProcState where
  | UNUSED
  | EMBRYO
  | SLEEPING
  | RUNNABLE
  | RUNNING
  | ZOMBIE
  deriving DecidableEq, Repr

namespace SleepWakeup

/-- The two spin locks: `lk` and `ptable.lock`. -/
inductive Lock where
  | lk
  | ptable
  deriving DecidableEq, Repr

/-- What is left of the code that a process executes. -/
inductive Code where
  | idle
  | acquire (l : Lock) (k : Code)
  | release (l : Lock) (k : Code)
  /-- The test of `while(!cond)`. -/
  | test
  /-- The use of the condition, which may make it false. -/
  | use (k : Code)
  /-- Make the condition true. -/
  | signal (k : Code)
  /-- `proc->chan = chan` -/
  | setChan (k : Code)
  /-- `proc->state = st` -/
  | setState (st : ProcState) (k : Code)
  /-- `sched()` up to its return. -/
  | sched (k : Code)
  /-- `proc->chan = 0` -/
  | clearChan (k : Code)
  /-- The loop of `wakeup1(chan)` at slot `i`. -/
  | wakeup1 (i : Nat) (k : Code)
  deriving DecidableEq, Repr

open Lock Code ProcState Spinlock

/-- `sleep(chan, lk)`, followed by `k`. -/
def sleep (k : Code) : Code :=
  acquire ptable <| release lk <| setChan <| setState SLEEPING <| sched <| clearChan <|
    release ptable <| acquire lk k

/-- `wakeup(chan)`, followed by `k`. -/
def wakeup (k : Code) : Code := acquire ptable <| wakeup1 0 <| release ptable k

/-- `yield()`, followed by `k`. -/
def yield (k : Code) : Code :=
  acquire ptable <| setState RUNNABLE <| sched <| release ptable k

/-- What a process may do next: wait for the condition, or make it true and wake up the waiters
before or after it releases the lock. -/
inductive Role where
  | waiter
  | wakerBefore
  | wakerAfter
  deriving DecidableEq, Repr

def Role.code : Role → Code
  | .waiter => acquire lk test
  | .wakerBefore => acquire lk <| signal <| wakeup <| release lk idle
  | .wakerAfter => acquire lk <| signal <| release lk <| wakeup idle

/-- The state of the machine. `chan p` says whether `p->chan` is the channel or 0, `onCpu p`
whether a CPU executes process `p`. -/
structure State where
  holder : Lock → Option Holder
  cond : Bool
  state : Nat → ProcState
  chan : Nat → Bool
  onCpu : Nat → Bool
  code : Nat → Code

/-- The steps of the machine: a process begins a round, executes an instruction (`b` says whether
the condition still holds after it is used) or is interrupted; a scheduler takes
`ptable.lock`, switches to a process, or drops the lock. -/
inductive Act where
  | start (p : Nat) (r : Role)
  | exec (p : Nat) (b : Bool)
  | interrupt (p : Nat)
  | lockTable
  | dispatch (p : Nat)
  | unlockTable
  deriving DecidableEq, Repr

/-- The code holds `l`: its next operation on it is `release`. -/
def owns (l : Lock) : Code → Bool
  | idle => false
  | acquire l' k => if l' = l then false else owns l k
  | release l' k => if l' = l then true else owns l k
  | test => decide (l = lk)
  | use k => owns l k
  | signal k => owns l k
  | setChan k => owns l k
  | setState _ k => owns l k
  | sched k => owns l k
  | clearChan k => owns l k
  | wakeup1 _ k => owns l k

/-- Process `p` goes on with the code `k`. -/
def State.goto (s : State) (p : Nat) (k : Code) : State :=
  { s with code := update s.code p k }

/-- One instruction of process `p`, among `n` slots of the process table. A lock that is not
free is not taken: the process spins. -/
def exec (n : Nat) (s : State) (p : Nat) (b : Bool) : Code → Option State
  | idle => none
  | acquire l k =>
    if s.holder l = none then
      some ({ s with holder := update s.holder l (some (.proc p)) }.goto p k)
    else none
  | release l k =>
    if s.holder l = some (.proc p) then
      some ({ s with holder := update s.holder l none }.goto p k)
    else none
  | test => some (s.goto p (if s.cond then use (release lk idle) else sleep test))
  | use k => some ({ s with cond := s.cond && b }.goto p k)
  | signal k => some ({ s with cond := true }.goto p k)
  | setChan k => some ({ s with chan := update s.chan p true }.goto p k)
  | setState st k => some ({ s with state := update s.state p st }.goto p k)
  | sched k =>
    -- the CPU goes on with the scheduler, which holds `ptable.lock` from now on
    if s.holder ptable = some (.proc p) then
      some ({ s with
        holder := update s.holder ptable (some .scheduler)
        onCpu := update s.onCpu p false }.goto p k)
    else none
  | clearChan k => some ({ s with chan := update s.chan p false }.goto p k)
  | wakeup1 i k =>
    if i < n then
      if s.state i = SLEEPING ∧ s.chan i = true then
        some ({ s with state := update s.state i RUNNABLE }.goto p (wakeup1 (i + 1) k))
      else some (s.goto p (wakeup1 (i + 1) k))
    else some (s.goto p k)

def step (n : Nat) (s : State) : Act → Option State
  | .start p r =>
    if p < n ∧ s.onCpu p = true ∧ s.code p = idle then some (s.goto p r.code) else none
  | .exec p b => if p < n ∧ s.onCpu p = true then exec n s p b (s.code p) else none
  | .interrupt p =>
    -- interrupts are off while a process holds a spin lock
    if p < n ∧ s.onCpu p = true ∧ owns lk (s.code p) = false ∧ owns ptable (s.code p) = false then
      some (s.goto p (yield (s.code p)))
    else none
  | .lockTable =>
    if s.holder ptable = none then
      some { s with holder := update s.holder ptable (some .scheduler) }
    else none
  | .dispatch p =>
    if p < n ∧ s.holder ptable = some .scheduler ∧ s.state p = RUNNABLE then
      some { s with
        holder := update s.holder ptable (some (.proc p))
        state := update s.state p RUNNING
        onCpu := update s.onCpu p true }
    else none
  | .unlockTable =>
    if s.holder ptable = some .scheduler then
      some { s with holder := update s.holder ptable none }
    else none

/-- The processes are ready to run for the first time (`forkret`); the condition is any. -/
def init (cond : Bool) : State where
  holder _ := none
  cond := cond
  state _ := RUNNABLE
  chan _ := false
  onCpu _ := false
  code _ := release ptable idle

def runActs (n : Nat) : List Act → State → Option State
  | [], s => some s
  | a :: as, s => (step n s a).bind (runActs n as)

/-! ### What the code promises -/

/-- The code is in `sleep`, past `release(lk)` and not yet past `proc->state = SLEEPING`. -/
def falling : Code → Bool
  | setChan _ => true
  | setState st _ => decide (st = SLEEPING)
  | _ => false

/-- The code is in `sleep`, before `release(lk)`. -/
def dropping : Code → Bool
  | acquire _ k => dropping k
  | release _ k => falling k
  | _ => false

/-- The code has made the condition true and will still look at slot `p` in `wakeup1`. -/
def pending (p : Nat) : Code → Bool
  | acquire _ k => pending p k
  | release _ k => pending p k
  | setState _ k => pending p k
  | sched k => pending p k
  | wakeup1 i _ => decide (i ≤ p)
  | _ => false

/-- The code is between making the condition true and the end of `wakeup`. -/
def waking : Code → Bool
  | acquire _ k => waking k
  | release _ k => waking k
  | setState _ k => waking k
  | sched k => waking k
  | wakeup1 _ _ => true
  | _ => false

/-- The code is not in `sleep` before the process is asleep. -/
def Awake (c : Code) : Prop := falling c = false ∧ dropping c = false

/-- Locks are taken and dropped in turn, and everything is done under the lock it needs. -/
def Wf : Code → Prop
  | idle => True
  | test => True
  | acquire l k => Wf k ∧ owns l k = true ∧ falling k = false ∧ (l = lk → dropping k = false)
  | release l k => Wf k ∧ owns l k = false ∧ dropping k = false ∧
      (falling k = true → l = lk ∧ ∃ k', k = setChan k')
  | use k => Wf k ∧ owns lk k = true ∧ Awake k
  | signal k => Wf k ∧ owns lk k = true ∧ Awake k ∧ ∀ p, pending p k = true
  | setChan k => Wf k ∧ owns ptable k = true ∧ dropping k = false
  | setState _ k => Wf k ∧ owns ptable k = true ∧ ∃ k', k = sched k'
  | sched k => Wf k ∧ owns ptable k = true ∧ owns lk k = false ∧ Awake k
  | clearChan k => Wf k ∧ owns ptable k = true ∧ Awake k
  | wakeup1 _ k => Wf k ∧ owns ptable k = true ∧ Awake k

theorem wf_sleep_test : Wf (sleep test) := by
  simp [sleep, Wf, Awake, owns, falling, dropping]

theorem wf_role (r : Role) : Wf r.code := by
  cases r <;> simp [Role.code, wakeup, Wf, Awake, owns, falling, dropping, pending]

theorem wf_yield {k : Code} (hk : Wf k) (h1 : owns lk k = false) (h2 : owns ptable k = false)
    (ha : Awake k) : Wf (yield k) := by
  have hrel : Wf (release ptable k) := ⟨hk, h2, ha.2, fun h => by rw [ha.1] at h; cases h⟩
  have hsched : Wf (sched (release ptable k)) :=
    ⟨hrel, by simp [owns], by simp [owns, h1], rfl, ha.1⟩
  exact ⟨⟨hsched, by simp [owns], _, rfl⟩, by simp [owns], rfl, nofun⟩

theorem owns_of_falling {c : Code} (hc : Wf c) (hf : falling c = true) : owns ptable c = true := by
  cases c with
  | setChan k => exact hc.2.1
  | setState _ k => exact hc.2.1
  | _ => cases hf

theorem owns_of_dropping {c : Code} (hc : Wf c) (hd : dropping c = true) : owns lk c = true := by
  induction c with
  | acquire l k ih =>
    obtain ⟨hk, -, -, hl⟩ := hc
    have hne : l ≠ lk := fun e => by
      rw [show dropping (acquire l k) = dropping k from rfl, hl e] at hd
      cases hd
    rw [owns, if_neg hne]
    exact ih hk hd
  | release l k ih =>
    rw [owns, if_pos (hc.2.2.2 hd).1]
  | _ => cases hd

theorem waking_of_pending {p : Nat} {c : Code} (h : pending p c = true) : waking c = true := by
  induction c with
  | acquire l k ih => exact ih h
  | release l k ih => exact ih h
  | setState st k ih => exact ih h
  | sched k ih => exact ih h
  | wakeup1 i k ih => rfl
  | _ => cases h

/-! ### Locks -/

@[simp] theorem code_goto_self (s : State) (p : Nat) (k : Code) : (s.goto p k).code p = k :=
  update_self ..

theorem code_goto_of_ne (s : State) {p q : Nat} (k : Code) (h : q ≠ p) :
    (s.goto p k).code q = s.code q := update_of_ne h ..

/-- **The lock discipline.** -/
structure Locked (s : State) : Prop where
  wf : ∀ p, Wf (s.code p)
  held : Held owns ptable s.holder s.onCpu s.code
  /-- A process that is not on a CPU is not in the middle of falling asleep. -/
  off : ∀ p, s.onCpu p = false → falling (s.code p) = false
  /-- A process on a CPU is `RUNNING` until it enters the scheduler. -/
  running : ∀ p, s.onCpu p = true → s.state p = RUNNING ∨ ∃ k, s.code p = sched k

section Locks

variable {n : Nat} {s : State} {p q : Nat} {l : Lock} {k : Code}

theorem locked_init (cond : Bool) : Locked (init cond) where
  wf _ := by simp [init, Wf, owns, falling, dropping]
  held := by
    refine ⟨fun l p => ?_, fun p _ l => ?_⟩
    · simp [init]
    · cases l <;> rfl
  off _ _ := rfl
  running _ h := nomatch h

theorem Locked.unique (h : Locked s) (hp : s.onCpu p = true) (hq : s.onCpu q = true)
    (h1 : owns l (s.code p) = true) (h2 : owns l (s.code q) = true) : p = q :=
  h.held.unique hp hq h1 h2

theorem Locked.on (h : Locked s) (h1 : owns lk (s.code p) = true) : s.onCpu p = true :=
  h.held.on_of_owns (l := lk) nofun h1

theorem Locked.on_of_falling (h : Locked s) (h1 : falling (s.code p) = true) :
    s.onCpu p = true := by
  cases hp : s.onCpu p with
  | true => rfl
  | false => rw [h.off p hp] at h1; cases h1

theorem Locked.one (h : Locked s) {s' : State} (p : Nat)
    (hheld : Held owns ptable s'.holder s'.onCpu s'.code)
    (hcode : ∀ q ≠ p, s'.code q = s.code q) (hcpu : ∀ q ≠ p, s'.onCpu q = s.onCpu q)
    (hstate : ∀ q ≠ p, s.state q = RUNNING → s'.state q = RUNNING)
    (hwf : Wf (s'.code p)) (hoff : s'.onCpu p = false → falling (s'.code p) = false)
    (hrun : s'.onCpu p = true → s'.state p = RUNNING ∨ ∃ k, s'.code p = Code.sched k) :
    Locked s' := by
  refine ⟨fun q => ?_, hheld, fun q hq => ?_, fun q hq => ?_⟩ <;> rcases eq_or_ne q p with rfl | e
  · exact hwf
  · rw [hcode q e]; exact h.wf q
  · exact hoff hq
  · rw [hcode q e]; exact h.off q (hcpu q e ▸ hq)
  · exact hrun hq
  · rw [hcode q e]; exact (h.running q (hcpu q e ▸ hq)).imp_left (hstate q e)

theorem Locked.running_of_ne (h : Locked s) (hp : s.onCpu p = true)
    (hc : ∀ k, s.code p ≠ Code.sched k) : s.state p = RUNNING :=
  (h.running p hp).resolve_right fun ⟨k, e⟩ => hc k e

theorem Locked.local (h : Locked s) (hp : s.onCpu p = true) (hk : Wf k)
    (howns : ∀ l, owns l k = owns l (s.code p)) {s' : State} (hh : s'.holder = s.holder)
    (hcpu : s'.onCpu = s.onCpu) (hcode : s'.code = update s.code p k)
    (hrun : s'.state p = RUNNING ∨ ∃ k', k = Code.sched k')
    (hst : ∀ q ≠ p, s.state q = RUNNING → s'.state q = RUNNING) : Locked s' := by
  have self : s'.code p = k := by rw [hcode, update_self]
  have hp' : s'.onCpu p = true := by rw [hcpu]; exact hp
  refine h.one p ?_ (fun q hq => by rw [hcode, update_of_ne hq])
    (fun q _ => by rw [hcpu]) hst (self ▸ hk)
    (fun hf => Bool.noConfusion (hp'.symm.trans hf)) fun _ => self ▸ hrun
  rw [hh, hcpu, hcode]
  exact h.held.goto hp howns

theorem Locked.acquire (h : Locked s) (hp : s.onCpu p = true) (hc : s.code p = Code.acquire l k)
    (hfree : s.holder l = none) :
    Locked ({ s with holder := update s.holder l (some (.proc p)) }.goto p k) := by
  have hwf := h.wf p
  rw [hc] at hwf
  obtain ⟨hk, hown, -, -⟩ := hwf
  refine h.one p (h.held.acquire hp hfree hown fun l' e => ?_) (fun q hq => code_goto_of_ne _ _ hq)
    (fun _ _ => rfl) (fun _ _ hr => hr) (by rw [code_goto_self]; exact hk)
    (fun hf => Bool.noConfusion (hp.symm.trans hf))
    fun _ => Or.inl (h.running_of_ne hp fun k e => by rw [hc] at e; cases e)
  rw [hc, owns, if_neg e.symm]

theorem Locked.release (h : Locked s) (hp : s.onCpu p = true) (hc : s.code p = Code.release l k)
    (hheld : s.holder l = some (.proc p)) :
    Locked ({ s with holder := update s.holder l none }.goto p k) := by
  have hwf := h.wf p
  rw [hc] at hwf
  obtain ⟨hk, hown, -⟩ := hwf
  refine h.one p (h.held.release hp hheld hown fun l' e => ?_)
    (fun q hq => code_goto_of_ne _ _ hq) (fun _ _ => rfl) (fun _ _ hr => hr)
    (by rw [code_goto_self]; exact hk) (fun hf => Bool.noConfusion (hp.symm.trans hf))
    fun _ => Or.inl (h.running_of_ne hp fun k e => by rw [hc] at e; cases e)
  rw [hc, owns, if_neg e.symm]

theorem Locked.sched (h : Locked s) (hc : s.code p = Code.sched k)
    (hheld : s.holder ptable = some (.proc p)) :
    Locked ({ s with
      holder := update s.holder ptable (some .scheduler)
      onCpu := update s.onCpu p false }.goto p k) := by
  have hwf := h.wf p
  rw [hc] at hwf
  obtain ⟨hk, hpt, hlk, hfall, -⟩ := hwf
  refine h.one p (h.held.enter hheld (fun l' e => ?_) fun l' => ?_)
    (fun q hq => code_goto_of_ne _ _ hq) (fun q hq => update_of_ne hq ..)
    (fun _ _ hr => hr) (by rw [code_goto_self]; exact hk)
    (fun _ => by rw [code_goto_self]; exact hfall) (fun hq => ?_)
  · -- the code does not own `lk`, the only other lock
    cases l' with
    | lk => rw [hc, owns, hlk]
    | ptable => exact absurd rfl e
  · cases l' with
    | lk => exact hlk
    | ptable => exact hpt
  · change update s.onCpu p false p = true at hq
    rw [update_self] at hq
    cases hq

theorem Locked.table (h : Locked s) (hfree : ∀ q, s.holder ptable ≠ some (.proc q))
    {o : Option Holder} (ho : ∀ q, o ≠ some (.proc q)) :
    Locked { s with holder := update s.holder ptable o } :=
  ⟨h.wf, h.held.setTable hfree ho, h.off, h.running⟩

theorem Locked.off_of_runnable (h : Locked s) (hsch : s.holder ptable = some .scheduler)
    (hst : s.state p = RUNNABLE) : s.onCpu p = false := by
  cases hp : s.onCpu p with
  | false => rfl
  | true =>
    -- a process on a CPU that is not `RUNNING` is in `sched`, and holds the lock
    rcases h.running p hp with hr | ⟨k, hk⟩
    · rw [hst] at hr; cases hr
    · have hwf := h.wf p
      rw [hk] at hwf
      have := (h.held.holds ptable p).mpr ⟨hp, by rw [hk]; exact hwf.2.1⟩
      rw [hsch] at this
      cases this

theorem Locked.dispatch (h : Locked s) (hsch : s.holder ptable = some .scheduler)
    (hst : s.state p = RUNNABLE) :
    Locked { s with
      holder := update s.holder ptable (some (.proc p))
      state := update s.state p RUNNING
      onCpu := update s.onCpu p true } := by
  refine h.one p (h.held.dispatch hsch (h.off_of_runnable hsch hst)) (fun _ _ => rfl)
    (fun q hq => update_of_ne hq ..) (fun q hq hr => (update_of_ne hq ..).trans hr)
    (h.wf p) (fun hf => ?_) fun _ => Or.inl (update_self ..)
  change update s.onCpu p true p = false at hf
  rw [update_self] at hf
  cases hf

end Locks

/-! ### What a step can do -/

/-- What one instruction of process `p` can do. -/
inductive Exec (n : Nat) (s : State) (p : Nat) : State → Prop where
  | acquire {l : Lock} {k : Code} (hc : s.code p = acquire l k) (hfree : s.holder l = none) :
      Exec n s p ({ s with holder := update s.holder l (some (.proc p)) }.goto p k)
  | release {l : Lock} {k : Code} (hc : s.code p = release l k)
      (hheld : s.holder l = some (.proc p)) :
      Exec n s p ({ s with holder := update s.holder l none }.goto p k)
  | test (hc : s.code p = test) :
      Exec n s p (s.goto p (if s.cond then use (release lk idle) else sleep test))
  | use {k : Code} (b : Bool) (hc : s.code p = use k) :
      Exec n s p ({ s with cond := s.cond && b }.goto p k)
  | signal {k : Code} (hc : s.code p = signal k) : Exec n s p ({ s with cond := true }.goto p k)
  | setChan {k : Code} (hc : s.code p = setChan k) :
      Exec n s p ({ s with chan := update s.chan p true }.goto p k)
  | setState {st : ProcState} {k : Code} (hc : s.code p = setState st k) :
      Exec n s p ({ s with state := update s.state p st }.goto p k)
  | sched {k : Code} (hc : s.code p = sched k) (hheld : s.holder ptable = some (.proc p)) :
      Exec n s p ({ s with
        holder := update s.holder ptable (some .scheduler)
        onCpu := update s.onCpu p false }.goto p k)
  | clearChan {k : Code} (hc : s.code p = clearChan k) :
      Exec n s p ({ s with chan := update s.chan p false }.goto p k)
  | wake {i : Nat} {k : Code} (hc : s.code p = wakeup1 i k) (hi : i < n)
      (hs : s.state i = SLEEPING ∧ s.chan i = true) :
      Exec n s p ({ s with state := update s.state i RUNNABLE }.goto p (wakeup1 (i + 1) k))
  | skip {i : Nat} {k : Code} (hc : s.code p = wakeup1 i k) (hi : i < n)
      (hs : ¬ (s.state i = SLEEPING ∧ s.chan i = true)) :
      Exec n s p (s.goto p (wakeup1 (i + 1) k))
  | done {i : Nat} {k : Code} (hc : s.code p = wakeup1 i k) (hi : ¬ i < n) :
      Exec n s p (s.goto p k)

theorem exec_cases {n : Nat} {s s' : State} {p : Nat} {b : Bool}
    (h : exec n s p b (s.code p) = some s') : Exec n s p s' := by
  cases hc : s.code p with
  | idle => rw [hc] at h; cases h
  | acquire l k =>
    simp only [hc, exec] at h
    split at h
    · next hfree => cases h; exact .acquire hc hfree
    · cases h
  | release l k =>
    simp only [hc, exec] at h
    split at h
    · next hheld => cases h; exact .release hc hheld
    · cases h
  | test => simp only [hc, exec] at h; cases h; exact .test hc
  | use k => simp only [hc, exec] at h; cases h; exact .use b hc
  | signal k => simp only [hc, exec] at h; cases h; exact .signal hc
  | setChan k => simp only [hc, exec] at h; cases h; exact .setChan hc
  | setState st k => simp only [hc, exec] at h; cases h; exact .setState hc
  | sched k =>
    simp only [hc, exec] at h
    split at h
    · next hheld => cases h; exact .sched hc hheld
    · cases h
  | clearChan k => simp only [hc, exec] at h; cases h; exact .clearChan hc
  | wakeup1 i k =>
    simp only [hc, exec] at h
    split at h
    · next hi =>
      split at h
      · next hs => cases h; exact .wake hc hi hs
      · next hs => cases h; exact .skip hc hi hs
    · next hi => cases h; exact .done hc hi

section Steps

variable {n : Nat} {s s' : State} {p q : Nat} {k : Code}

theorem Locked.exec (h : Locked s) (hp : s.onCpu p = true) (he : Exec n s p s') : Locked s' := by
  have hwf := h.wf p
  have hrun : ∀ c, s.code p = c → (∀ k, c ≠ Code.sched k) → s.state p = RUNNING := fun c hc hne =>
    h.running_of_ne hp fun k e => hne k (hc ▸ e)
  cases he with
  | acquire hc hfree => exact h.acquire hp hc hfree
  | release hc hheld => exact h.release hp hc hheld
  | sched hc hheld => exact h.sched hc hheld
  | test hc =>
    refine h.local hp ?_ (fun l => ?_) rfl rfl rfl (Or.inl (hrun _ hc nofun)) fun _ _ hr => hr
    · split
      · simp [Wf, Awake, owns, falling, dropping]
      · exact wf_sleep_test
    · rw [hc]
      split <;> cases l <;> rfl
  | use b hc =>
    rw [hc] at hwf
    exact h.local hp hwf.1 (fun l => by rw [hc, owns]) rfl rfl rfl (Or.inl (hrun _ hc nofun))
      fun _ _ hr => hr
  | signal hc | setChan hc | clearChan hc =>
    rw [hc] at hwf
    exact h.local hp hwf.1 (fun l => by rw [hc, owns]) rfl rfl rfl (Or.inl (hrun _ hc nofun))
      fun _ _ hr => hr
  | setState hc =>
    rw [hc] at hwf
    exact h.local hp hwf.1 (fun l => by rw [hc, owns]) rfl rfl rfl (Or.inr hwf.2.2)
      fun q hq hr => (update_of_ne hq ..).trans hr
  | @wake i k hc hi hs =>
    rw [hc] at hwf
    have hne : ∀ q, s.state q = RUNNING → q ≠ i := fun q hr e => by
      rw [← e, hr] at hs
      cases hs.1
    refine h.local hp (k := wakeup1 (i + 1) k) hwf (fun l => by rw [hc, owns, owns]) rfl rfl rfl
      (Or.inl ?_) fun q _ hr => (update_of_ne (hne q hr) ..).trans hr
    have hr := hrun _ hc nofun
    exact (update_of_ne (hne p hr) ..).trans hr
  | @skip i k hc hi hs =>
    rw [hc] at hwf
    exact h.local hp (k := wakeup1 (i + 1) k) hwf (fun l => by rw [hc, owns, owns]) rfl rfl rfl
      (Or.inl (hrun _ hc nofun)) fun _ _ hr => hr
  | done hc hi =>
    rw [hc] at hwf
    exact h.local hp hwf.1 (fun l => by rw [hc, owns]) rfl rfl rfl (Or.inl (hrun _ hc nofun))
      fun _ _ hr => hr

end Steps

/-! ### No wakeup is lost -/

/-- Process `p` is asleep or about to be. -/
def Committed (s : State) (p : Nat) : Prop := s.state p = SLEEPING ∨ falling (s.code p) = true

/-- **No wakeup is lost.** -/
structure Heard (n : Nat) (s : State) : Prop where
  chan : ∀ p, s.state p = SLEEPING ∨ (∃ k, s.code p = setState SLEEPING k) → s.chan p = true
  dropping : ∀ p, dropping (s.code p) = true → s.cond = false
  /-- A process that is asleep, or about to be, although the condition holds will be woken up. -/
  woken : s.cond = true → ∀ p < n, Committed s p → ∃ q < n, pending p (s.code q) = true

theorem heard_init (n : Nat) (cond : Bool) : Heard n (init cond) where
  chan _ h := by simp [init] at h
  dropping _ h := nomatch h
  woken _ p _ h := by simp [Committed, init, falling] at h

section Heard

variable {n : Nat} {s s' : State} {p q : Nat} {k : Code}

/-- An instruction of `p` that changes neither the condition nor the state of a process. -/
theorem Heard.local (h : Heard n s) (hcond : s'.cond = s.cond) (hstate : s'.state = s.state)
    (hchan : s'.chan = s.chan) (hcode : s'.code = update s.code p k)
    (hset : (∃ k', k = setState SLEEPING k') → s.chan p = true)
    (hdrop : SleepWakeup.dropping k = true → s.cond = false)
    (hfall : falling k = true → falling (s.code p) = true ∨ s.cond = false)
    (hpend : ∀ q < n, pending q (s.code p) = true → Committed s q → pending q k = true) :
    Heard n s' := by
  have self : s'.code p = k := by rw [hcode, update_self]
  have other : ∀ q ≠ p, s'.code q = s.code q := fun q hq => by
    rw [hcode, update_of_ne hq]
  refine ⟨fun q hq => ?_, fun q hq => ?_, fun hc q hq hcom => ?_⟩
  · rw [hchan]
    rw [hstate] at hq
    rcases eq_or_ne q p with rfl | e
    · rw [self] at hq
      exact hq.elim (fun hs => h.chan q (Or.inl hs)) hset
    · rw [other q e] at hq
      exact h.chan q hq
  · rw [hcond]
    rcases eq_or_ne q p with rfl | e
    · rw [self] at hq
      exact hdrop hq
    · rw [other q e] at hq
      exact h.dropping q hq
  · rw [hcond] at hc
    have hcom' : Committed s q := by
      unfold Committed at hcom
      rw [hstate] at hcom
      refine hcom.imp_right fun hf => ?_
      rcases eq_or_ne q p with rfl | e
      · rw [self] at hf
        exact (hfall hf).resolve_right fun hn => by rw [hc] at hn; cases hn
      · rwa [other q e] at hf
    obtain ⟨w, hw, hpw⟩ := h.woken hc q hq hcom'
    refine ⟨w, hw, ?_⟩
    rcases eq_or_ne w p with rfl | e
    · rw [self]
      exact hpend q hq hpw hcom'
    · rw [other w e]
      exact hpw

/-- The channel of `p` is set or cleared; `p` is not asleep if it is cleared. -/
theorem Heard.setChan (h : Heard n s) (b : Bool)
    (hb : b = false → s.state p ≠ SLEEPING ∧ ∀ k, s.code p ≠ setState SLEEPING k) :
    Heard n { s with chan := update s.chan p b } := by
  refine ⟨fun q hq => ?_, h.dropping, h.woken⟩
  change update s.chan p b q = true
  rcases eq_or_ne q p with rfl | e
  · rw [update_self]
    cases hb' : b with
    | true => rfl
    | false => exact (hq.elim (hb hb').1 fun ⟨k, hk⟩ => (hb hb').2 k hk).elim
  · rw [update_of_ne e]
    exact h.chan q hq

theorem Heard.awaken (h : Heard n s) (i : Nat) {st : ProcState} (hst : st ≠ SLEEPING) :
    Heard n { s with state := update s.state i st } := by
  have hs : ∀ q, update s.state i st q = SLEEPING → s.state q = SLEEPING := by
    intro q hq
    rcases eq_or_ne q i with rfl | e
    · rw [update_self] at hq
      exact absurd hq hst
    · rwa [update_of_ne e] at hq
  exact ⟨fun q hq => h.chan q (hq.imp_left (hs q)), h.dropping,
    fun hc q hq hcom => h.woken hc q hq (hcom.imp_left (hs q))⟩

theorem Heard.fallAsleep (h : Heard n s) (hchan : s.chan p = true) (hcom : Committed s p) :
    Heard n { s with state := update s.state p SLEEPING } := by
  refine ⟨fun q hq => ?_, h.dropping, fun hc q hq hcom' => h.woken hc q hq ?_⟩ <;>
    rcases eq_or_ne q p with rfl | e
  · exact hchan
  · exact h.chan q (hq.imp_left fun hs => (update_of_ne e ..).symm.trans hs)
  · exact hcom
  · exact hcom'.imp_left fun hs => (update_of_ne e ..).symm.trans hs

/-- The condition changes while no process is about to fall asleep. -/
theorem Heard.setCond (h : Heard n s) {b : Bool}
    (hdrop : b = true → ∀ q, SleepWakeup.dropping (s.code q) = false)
    (hwoken : b = true → ∀ q < n, Committed s q → ∃ w < n, pending q (s.code w) = true) :
    Heard n { s with cond := b } := by
  refine ⟨h.chan, fun q hq => ?_, hwoken⟩
  cases hb : b with
  | false => rfl
  | true => exact Bool.noConfusion ((hdrop hb q).symm.trans hq)

theorem Heard.exec (h : Heard n s) (hl : Locked s) (hpn : p < n) (hp : s.onCpu p = true)
    (he : Exec n s p s') : Heard n s' := by
  have hwf := hl.wf p
  have hfalse : ∀ {k : Code}, falling k = false → falling k = true →
      falling (s.code p) = true ∨ s.cond = false := fun h1 h2 => Bool.noConfusion (h1.symm.trans h2)
  have hnset : ∀ {k : Code}, falling k = false → (∃ k', k = Code.setState SLEEPING k') →
      s.chan p = true := fun h1 ⟨k', e⟩ => by subst e; cases h1
  have hnpend : ∀ {c : Code}, s.code p = c → (∀ q, pending q c = false) →
      ∀ q, pending q (s.code p) = true → False := fun hc hn q hq => by
    rw [hc, hn q] at hq
    cases hq
  -- whoever is about to fall asleep holds `lk`
  have halone : ∀ {c : Code}, s.code p = c → owns lk c = true →
      SleepWakeup.dropping c = false → ∀ q, SleepWakeup.dropping (s.code q) = false := by
    intro c hc hown hnd q
    cases hd : SleepWakeup.dropping (s.code q) with
    | false => rfl
    | true =>
      have hq := owns_of_dropping (hl.wf q) hd
      have e := hl.unique hp (hl.on hq) (hc ▸ hown) hq
      rw [← e, hc, hnd] at hd
      cases hd
  -- and whoever is falling asleep holds `ptable.lock`
  have hnfall : ∀ {c : Code}, s.code p = c → owns ptable c = true → falling c = false →
      ∀ q, falling (s.code q) = true → False := by
    intro c hc hown hnf q hf
    have e := hl.unique hp (hl.on_of_falling hf) (hc ▸ hown) (owns_of_falling (hl.wf q) hf)
    rw [← e, hc, hnf] at hf
    cases hf
  cases he with
  | acquire hc hfree =>
    rw [hc] at hwf
    refine h.local rfl rfl rfl rfl (hnset hwf.2.2.1) (fun hd => ?_) (hfalse hwf.2.2.1)
      fun q _ hpq _ => by rwa [hc] at hpq
    exact h.dropping p (by rw [hc]; exact hd)
  | release hc hheld =>
    rw [hc] at hwf
    refine h.local rfl rfl rfl rfl (fun ⟨k', e⟩ => ?_) (fun hd => ?_)
      (fun hf => Or.inr (h.dropping p (by rw [hc]; exact hf))) fun q _ hpq _ => by rwa [hc] at hpq
    · obtain ⟨-, k'', e'⟩ := hwf.2.2.2 (by rw [e]; rfl)
      rw [e] at e'
      cases e'
    · exact Bool.noConfusion (hwf.2.2.1.symm.trans hd)
  | test hc =>
    refine h.local rfl rfl rfl rfl (fun ⟨k', e⟩ => ?_) (fun hd => ?_) (fun hf => ?_)
      fun q _ hpq _ => (hnpend hc (fun _ => rfl) q hpq).elim <;> cases hcond : s.cond
    · rw [hcond] at e; cases e
    · rw [hcond] at e; cases e
    · rfl
    · rw [hcond] at hd; cases hd
    · exact Or.inr rfl
    · rw [hcond] at hf; cases hf
  | @use k b hc =>
    rw [hc] at hwf
    have h' : Heard n { s with cond := s.cond && b } := by
      refine h.setCond (fun _ => halone hc hwf.2.1 rfl) fun hb q hq hcom => ?_
      exact h.woken (Bool.and_eq_true_iff.mp hb).1 q hq hcom
    exact h'.local rfl rfl rfl rfl (hnset hwf.2.2.1)
      (fun hd => Bool.noConfusion (hwf.2.2.2.symm.trans hd))
      (fun hf => Bool.noConfusion (hwf.2.2.1.symm.trans hf))
      fun q _ hpq _ => (hnpend hc (fun _ => rfl) q hpq).elim
  | @signal k hc =>
    rw [hc] at hwf
    obtain ⟨hk, hown, haw, hpend⟩ := hwf
    -- the signaller itself is the one that will wake up everybody
    refine ⟨fun q hq => ?_, fun q hq => ?_, fun _ q _ _ => ⟨p, hpn, ?_⟩⟩
    · rcases eq_or_ne q p with rfl | e
      · rw [code_goto_self] at hq
        exact hq.elim (fun hs => h.chan q (Or.inl hs)) (hnset haw.1)
      · rw [code_goto_of_ne _ _ e] at hq
        exact h.chan q hq
    · exfalso
      rcases eq_or_ne q p with rfl | e
      · rw [code_goto_self, haw.2] at hq
        cases hq
      · rw [code_goto_of_ne _ _ e] at hq
        exact Bool.noConfusion ((halone hc hown rfl q).symm.trans hq)
    · rw [code_goto_self]
      exact hpend q
  | @setChan k hc =>
    rw [hc] at hwf
    have h' := h.setChan (p := p) true nofun
    exact h'.local rfl rfl rfl rfl (fun _ => update_self ..)
      (fun hd => Bool.noConfusion (hwf.2.2.symm.trans hd))
      (fun _ => Or.inl (show falling (s.code p) = true by rw [hc]; rfl))
      fun q _ hpq _ => (hnpend hc (fun _ => rfl) q hpq).elim
  | @setState st k hc =>
    rw [hc] at hwf
    obtain ⟨k', rfl⟩ := hwf.2.2
    have h' : Heard n { s with state := update s.state p st } := by
      by_cases hst : st = SLEEPING
      · subst hst
        exact h.fallAsleep (h.chan p (Or.inr ⟨_, hc⟩)) (Or.inr (by rw [hc]; rfl))
      · exact h.awaken p hst
    exact h'.local rfl rfl rfl rfl nofun nofun nofun
      fun q _ hpq _ => by
        change pending q (s.code p) = true at hpq
        rwa [hc] at hpq
  | @sched k hc hheld =>
    rw [hc] at hwf
    exact h.local rfl rfl rfl rfl (hnset hwf.2.2.2.1)
      (fun hd => Bool.noConfusion (hwf.2.2.2.2.symm.trans hd)) (hfalse hwf.2.2.2.1)
      fun q _ hpq _ => by rwa [hc] at hpq
  | @clearChan k hc =>
    rw [hc] at hwf
    have hrun := hl.running_of_ne hp fun k e => by rw [hc] at e; cases e
    have h' := h.setChan (p := p) false fun _ =>
      ⟨by rw [hrun]; nofun, fun k' e => by rw [hc] at e; cases e⟩
    exact h'.local rfl rfl rfl rfl (fun ⟨k', e⟩ => by rw [e] at hwf; cases hwf.2.2.1)
      (fun hd => Bool.noConfusion (hwf.2.2.2.symm.trans hd)) (hfalse hwf.2.2.1)
      fun q _ hpq _ => (hnpend hc (fun _ => rfl) q hpq).elim
  | @wake i k hc hi hs =>
    rw [hc] at hwf
    refine (h.awaken i (show RUNNABLE ≠ SLEEPING from nofun)).local rfl rfl rfl rfl nofun nofun nofun
      fun q _ hpq hcom => ?_
    change pending q (s.code p) = true at hpq
    rw [hc] at hpq
    have hle : i ≤ q := of_decide_eq_true hpq
    have hne : i ≠ q := by
      rintro rfl
      refine hcom.elim (fun e => ?_) (hnfall hc hwf.2.1 rfl i)
      change update s.state i RUNNABLE i = SLEEPING at e
      rw [update_self] at e
      cases e
    exact decide_eq_true (by omega)
  | @skip i k hc hi hs =>
    rw [hc] at hwf
    refine h.local rfl rfl rfl rfl nofun nofun nofun fun q _ hpq hcom => ?_
    rw [hc] at hpq
    have hle : i ≤ q := of_decide_eq_true hpq
    have hne : i ≠ q := by
      rintro rfl
      exact hcom.elim (fun e => hs ⟨e, h.chan i (Or.inl e)⟩) (hnfall hc hwf.2.1 rfl i)
    exact decide_eq_true (by omega)
  | @done i k hc hi =>
    rw [hc] at hwf
    refine h.local rfl rfl rfl rfl (hnset hwf.2.2.1)
      (fun hd => Bool.noConfusion (hwf.2.2.2.symm.trans hd)) (hfalse hwf.2.2.1) fun q hq hpq _ => ?_
    rw [hc] at hpq
    have := of_decide_eq_true hpq
    omega

theorem inv_step {a : Act} (hl : Locked s) (h : Heard n s) (ha : step n s a = some s') :
    Locked s' ∧ Heard n s' := by
  cases a with
  | start p r =>
    simp only [step] at ha
    split at ha
    · next hg =>
      cases ha
      obtain ⟨-, hp, hc⟩ := hg
      have hrun := hl.running_of_ne hp fun k e => by rw [hc] at e; cases e
      refine ⟨hl.local hp (wf_role r) (fun l => ?_) rfl rfl rfl (Or.inl hrun) fun _ _ hr => hr,
        h.local rfl rfl rfl rfl ?_ ?_ ?_ fun q _ hpq _ => by rw [hc] at hpq; cases hpq⟩
      · rw [hc]
        cases r <;> cases l <;> rfl
      · rintro ⟨k', e⟩
        cases r <;> cases e
      · intro e
        cases r <;> cases e
      · intro e
        cases r <;> cases e
    · cases ha
  | exec p b =>
    simp only [step] at ha
    split at ha
    · next hg =>
      have he := exec_cases ha
      exact ⟨hl.exec hg.2 he, h.exec hl hg.1 hg.2 he⟩
    · cases ha
  | interrupt p =>
    simp only [step] at ha
    split at ha
    · next hg =>
      cases ha
      obtain ⟨-, hp, h1, h2⟩ := hg
      -- a process in `sleep` holds a lock, so it is not interrupted there
      have haw : Awake (s.code p) := by
        constructor
        · cases hf : falling (s.code p) with
          | false => rfl
          | true => rw [owns_of_falling (hl.wf p) hf] at h2; cases h2
        · cases hd : SleepWakeup.dropping (s.code p) with
          | false => rfl
          | true => rw [owns_of_dropping (hl.wf p) hd] at h1; cases h1
      have hrun : s.state p = RUNNING := hl.running_of_ne hp fun k e => by
        have hwf := hl.wf p
        rw [e] at hwf h2
        rw [owns, hwf.2.1] at h2
        cases h2
      refine ⟨hl.local hp (wf_yield (hl.wf p) h1 h2 haw) (fun l => ?_) rfl rfl rfl (Or.inl hrun)
        fun _ _ hr => hr, h.local rfl rfl rfl rfl nofun nofun nofun fun q _ hpq _ => hpq⟩
      cases l with
      | lk => rw [h1]; simp [yield, owns, h1]
      | ptable => rw [h2]; rfl
    · cases ha
  | lockTable =>
    simp only [step] at ha
    split at ha
    · next hg =>
      cases ha
      exact ⟨hl.table (fun q => by rw [hg]; nofun) fun q => by nofun,
        h.chan, h.dropping, h.woken⟩
    · cases ha
  | dispatch p =>
    simp only [step] at ha
    split at ha
    · next hg =>
      cases ha
      have h' := h.awaken p (show RUNNING ≠ SLEEPING from nofun)
      exact ⟨hl.dispatch hg.2.1 hg.2.2, h'.chan, h'.dropping, h'.woken⟩
    · cases ha
  | unlockTable =>
    simp only [step] at ha
    split at ha
    · next hg =>
      cases ha
      exact ⟨hl.table (fun q => by rw [hg]; nofun) fun q => by nofun,
        h.chan, h.dropping, h.woken⟩
    · cases ha

theorem inv_run {as : List Act} (hl : Locked s) (h : Heard n s) (hr : runActs n as s = some s') :
    Locked s' ∧ Heard n s' := by
  induction as generalizing s with
  | nil => cases hr; exact ⟨hl, h⟩
  | cons a as ih =>
    obtain ⟨t, ht, hr'⟩ := Option.bind_eq_some_iff.mp hr
    obtain ⟨hl', h'⟩ := inv_step hl h ht
    exact ih hl' h' hr'

end Heard

/-- **No lost wakeup.** In every state that any number of waiters and wakers can reach by any
interleaving of their instructions, of interrupts and of the schedulers: if the condition
holds, both locks are free and no waker is between making the condition true and the end
of its `wakeup`, no process is asleep on the channel. -/
theorem no_lost_wakeup {n : Nat} {cond : Bool} {as : List Act} {s : State}
    (hr : runActs n as (init cond) = some s) (hcond : s.cond = true)
    (_hlk : s.holder lk = none) (_hpt : s.holder ptable = none)
    (hidle : ∀ q < n, waking (s.code q) = false) (p : Nat) (hp : p < n) :
    ¬ (s.state p = SLEEPING ∧ s.chan p = true) := by
  rintro ⟨hs, -⟩
  obtain ⟨-, h⟩ := inv_run (locked_init cond) (heard_init n cond) hr
  obtain ⟨q, hq, hpend⟩ := h.woken hcond p hp (Or.inl hs)
  exact Bool.noConfusion ((hidle q hq).symm.trans (waking_of_pending hpend))

/-- Process 0 waits for the condition and falls asleep. -/
def fallAsleep : List Act :=
  [.lockTable, .dispatch 0, .exec 0 true, .start 0 .waiter] ++ List.replicate 7 (.exec 0 true) ++
    [.unlockTable]

/-- Process 1 makes the condition true and wakes up the sleepers after releasing the lock. -/
def wakeAfter : List Act :=
  [.lockTable, .dispatch 1, .exec 1 true, .start 1 .wakerAfter] ++ List.replicate 8 (.exec 1 true)

/-- Process 0 falls asleep, process 1 signals: nobody is asleep when it is done. -/
theorem no_lost_wakeup_after :
    (runActs 2 fallAsleep (init false)).map (fun s => (s.state 0, s.cond))
      = some (SLEEPING, false) ∧
    ∃ s, runActs 2 (fallAsleep ++ wakeAfter) (init false) = some s ∧ s.cond = true ∧
      ∀ p < 2, ¬ (s.state p = SLEEPING ∧ s.chan p = true) := by
  have hs : (runActs 2 (fallAsleep ++ wakeAfter) (init false)).isSome = true := rfl
  refine ⟨rfl, _, (Option.some_get hs).symm, rfl,
    no_lost_wakeup (Option.some_get hs).symm rfl rfl rfl fun q hq => ?_⟩
  rcases (by omega : q = 0 ∨ q = 1) with rfl | rfl <;> rfl

end SleepWakeup

end Xv6
