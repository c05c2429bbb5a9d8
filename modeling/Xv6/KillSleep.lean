import Xv6.PipeBuf
import Xv6.Console
import Xv6.Kill

/-!
# Killing a process that is about to sleep

`kill` holds `ptable.lock` only. `piperead`, `pipewrite`, `consoleread` and `sys_sleep` test
`proc->killed` under a lock of their own and call `sleep` afterwards, which takes `ptable.lock`. A
`kill` between the test and the moment at which the process is `SLEEPING` finds nobody to wake up
and returns, and the process sleeps with its mark (`kill_slept_through`).

A `kill` that comes at any other time is noticed. `wait` tests `proc->killed` under `ptable.lock`, which
it keeps until it is asleep, so there is no such moment in it (`kill_noticed`).
-/

namespace Xv6

open Monitor

/-! ### The clock -/

namespace Ticks

/-- What processes sleep on: `&ticks`. -/
inductive Chan where
  | ticks
  deriving DecidableEq, Repr

/-- The statements of `sys_sleep`. -/
inductive SleepAt where
  | enter
  /-- `ticks0 = ticks` -/
  | start
  /-- `while(ticks - ticks0 < n)` -/
  | loop
  /-- `proc->killed` -/
  | killed
  | sleep
  /-- `release` and `return -1` -/
  | fail
  /-- `release` and `return 0` -/
  | leave
  deriving DecidableEq, Repr

/-- The statements of `trap` for a timer interrupt on the first CPU. -/
inductive TimerAt where
  | enter
  /-- `ticks++` -/
  | count
  | wake
  | leave
  deriving DecidableEq, Repr

/-- Where a process is: in `sys_sleep` with `n` and `ticks0`, or in the timer interrupt. -/
inductive Pc where
  | idle
  | sleep (n : Int) (ticks0 : UInt32) (l : SleepAt)
  | timer (l : TimerAt)
  deriving DecidableEq, Repr

/-- `sys_sleep()` with the argument `n`, which C compares as `uint`. -/
def sysSleep (n : Int) (ticks0 : UInt32) : SleepAt → Instr UInt32 Pc Chan
  | .enter => .acquire (.sleep n ticks0 .start)
  | .start => .data fun ticks => (ticks, .sleep n ticks .loop)
  | .loop => .data fun ticks =>
    (ticks, .sleep n ticks0 (if ticks - ticks0 < UInt32.ofInt n then .killed else .leave))
  | .killed => .killed (.sleep n ticks0 .fail) (.sleep n ticks0 .sleep)
  | .sleep => .sleep .ticks (.sleep n ticks0 .loop)
  | .fail => .release .idle
  | .leave => .release .idle

/-- The part of `trap` for the timer. -/
def timer : TimerAt → Instr UInt32 Pc Chan
  | .enter => .acquire (.timer .count)
  | .count => .data fun ticks => (ticks + 1, .timer .wake)
  | .wake => .wakeup .ticks (.timer .leave)
  | .leave => .release .idle

inductive Op where
  | sleep (n : Int)
  | timer
  deriving DecidableEq, Repr

/-- `ticks` with `tickslock` as a monitor. -/
def clock : Prog UInt32 Pc Chan Op where
  instr _
    | .idle => .idle
    | .sleep n ticks0 l => sysSleep n ticks0 l
    | .timer l => timer l
  entry
    | .sleep n => .sleep n 0 .enter
    | .timer => .timer .enter

def init : State UInt32 Pc Chan := start 0 .idle

/-- `proc->killed` was tested, and the next thing is `sleep`. -/
def tested : Pc → Bool
  | .sleep _ _ .sleep => true
  | _ => false

theorem tests_clock : clock.Tests tested where
  instr p pc := by
    cases pc with
    | idle => rfl
    | sleep n ticks0 l =>
      cases l with
      | loop =>
        intro ticks
        change tested (.sleep n ticks0 (if _ then _ else _)) = false
        split <;> rfl
      | sleep => exact ⟨rfl, rfl⟩
      | start => exact fun _ => rfl
      | enter | killed | fail | leave => rfl
    | timer l =>
      cases l with
      | count => exact fun _ => rfl
      | wake => exact nofun
      | enter | leave => rfl
  entry op := by cases op <;> rfl

end Ticks

/-! ### Pipes and the console -/

namespace PipeBuf

/-- `proc->killed` was tested, and what remains before `sleep` is at most a `wakeup`. -/
def tested : Pc → Bool
  | .write _ _ _ .wake => true
  | .write _ _ _ .sleep => true
  | .read _ _ .sleep => true
  | _ => false

theorem tests_pipe : pipe.Tests tested where
  instr p pc := by
    cases pc with
    | idle => rfl
    | write addr n i l =>
      cases l with
      | loop =>
        intro d
        change tested (ite _ _ _ : Buf × Pc).2 = false
        split
        · split <;> rfl
        · rfl
      | full =>
        intro d
        change tested (ite _ _ _) = false
        split <;> rfl
      | wake => exact fun _ => rfl
      | sleep => exact ⟨rfl, rfl⟩
      | fail | done => exact fun _ => rfl
      | wakeLast => exact nofun
      | enter | killed | leave => rfl
    | read n i l =>
      cases l with
      | loop =>
        intro d
        change tested (ite _ _ _) = false
        split <;> rfl
      | copy =>
        intro d
        change tested (ite _ _ _ : Buf × Pc).2 = false
        split <;> rfl
      | sleep => exact ⟨rfl, rfl⟩
      | fail => exact fun _ => rfl
      | wake => exact nofun
      | enter | killed | leave => rfl
    | close w l =>
      cases l with
      | set => exact fun _ => rfl
      | wake => exact nofun
      | enter | leave => rfl
  entry op := by cases op <;> rfl

end PipeBuf

namespace Console

/-- `proc->killed` was tested, and the next thing is `sleep`. -/
def tested : Pc → Bool
  | .read _ _ .sleep => true
  | _ => false

theorem tested_take (p : Nat) (target n : Int) (d : Input) :
    tested (take p target n d).2 = false := by
  unfold take
  dsimp only
  split
  · split <;> rfl
  · change tested (.read target (n - 1) (ite _ _ _)) = false
    split <;> rfl

theorem tests_console : console.Tests tested where
  instr p pc := by
    cases pc with
    | idle => rfl
    | intr cs l =>
      cases l with
      | loop =>
        cases cs with
        | nil => exact fun _ => rfl
        | cons c cs => exact fun _ => rfl
      | wake => exact nofun
      | enter | leave => rfl
    | read target n l =>
      cases l with
      | loop =>
        intro d
        change tested (ite _ _ _ : Input × Pc).2 = false
        split
        · split
          · rfl
          · exact tested_take p target n d
        · rfl
      | sleep => exact ⟨rfl, rfl⟩
      | fail | done => exact fun _ => rfl
      | enter | killed | leave => rfl
  entry op := by cases op <;> rfl

end Console

/-! ### `wait` -/

namespace ProcTable

open ProcState Spinlock Code

/-- The next instruction makes the process sleep on a slot of the table, as only `wait` does. -/
def naps : Code → Bool
  | asleep (.proc _) _ => true
  | _ => false

/-- Whoever sleeps in `wait`, or is about to, has no mark. -/
structure Unmarked (s : State) : Prop where
  falling : ∀ p, naps (s.code p) = true → (s.proc p).killed = false
  asleep : ∀ p, Asleep p s → (s.proc p).killed = false

variable {n : Nat} {s s' : State} {p q i : Nat} {k : Code} {f : Proc → Proc}

theorem naps_of_quiet (h : quiet k = true) : naps k = false := by
  cases k with
  | asleep c k =>
    cases c with
    | proc q => cases h
    | other a => rfl
  | _ => rfl

/-- Whoever is about to sleep in `wait` holds `ptable.lock` on a CPU. -/
theorem Locked.of_naps (h : Locked s) (hn : naps (s.code p) = true) :
    s.onCpu p = true ∧ owns (s.code p) = true := by
  have hwf := h.wf p
  have hres := h.resumes p
  cases hc : s.code p with
  | asleep c k =>
    rw [hc] at hwf hres
    exact ⟨Bool.of_not_eq_false fun e => Bool.noConfusion (hres e), hwf.2.1⟩
  | _ => rw [hc] at hn; cases hn

namespace Unmarked

theorem of_eq (h : Unmarked s) (hproc : s'.proc = s.proc) (hcode : s'.code = s.code) :
    Unmarked s' := by
  refine ⟨?_, ?_⟩ <;> simp only [Asleep, hproc, hcode]
  · exact h.falling
  · exact h.asleep

theorem log (h : Unmarked s) (e : Event) : Unmarked (s.log e) := h.of_eq rfl rfl

theorem goto (h : Unmarked s) (hk : naps k = true → (s.proc p).killed = false) :
    Unmarked (s.goto p k) where
  falling q hq := by
    rcases eq_or_ne q p with rfl | e
    · rw [State.code_goto_self] at hq
      exact hk hq
    · rw [State.code_goto_of_ne e] at hq
      exact h.falling q hq
  asleep := h.asleep

theorem on (h : Unmarked s) (hk : naps k = false) : Unmarked (s.goto p k) :=
  h.goto fun hn => Bool.noConfusion (hk.symm.trans hn)

theorem set (h : Unmarked s) (hkilled : (f (s.proc i)).killed = true → (s.proc i).killed = true)
    (hasleep : (f (s.proc i)).state = SLEEPING → (f (s.proc i)).chan = some (.proc i) →
      Asleep i s) : Unmarked (s.set i f) := by
  have clear : (s.proc i).killed = false → (f (s.proc i)).killed = false := fun hk =>
    Bool.eq_false_iff.mpr fun hk' => Bool.noConfusion (hk.symm.trans (hkilled hk'))
  refine ⟨fun q hq => ?_, fun q hq => ?_⟩ <;> rcases eq_or_ne q i with rfl | e
  · rw [State.proc_set_self]
    exact clear (h.falling q hq)
  · rw [State.proc_set_of_ne e]
    exact h.falling q hq
  · rw [Asleep, State.proc_set_self] at hq
    rw [State.proc_set_self]
    exact clear (h.asleep q (hasleep hq.1 hq.2))
  · rw [Asleep, State.proc_set_of_ne e] at hq
    rw [State.proc_set_of_ne e]
    exact h.asleep q hq

/-- An assignment after which slot `i` is not asleep, by someone who may mark it. -/
theorem mark (h : Unmarked s) (hnaps : naps (s.code i) = false)
    (hstate : (f (s.proc i)).state ≠ SLEEPING) : Unmarked (s.set i f) := by
  refine ⟨fun q hq => ?_, fun q hq => ?_⟩ <;> rcases eq_or_ne q i with rfl | e
  · exact Bool.noConfusion (hnaps.symm.trans hq)
  · rw [State.proc_set_of_ne e]
    exact h.falling q hq
  · rw [Asleep, State.proc_set_self] at hq
    exact absurd hq.1 hstate
  · rw [Asleep, State.proc_set_of_ne e] at hq
    rw [State.proc_set_of_ne e]
    exact h.asleep q hq

theorem wake (h : Unmarked s) (c : Option Chan) : Unmarked (s.set i (Proc.wake c)) := by
  refine h.set ?_ ?_ <;> rw [Proc.wake] <;> split
  · exact id
  · exact id
  · exact (by rintro ⟨⟩)
  · exact fun h1 h2 => ⟨h1, h2⟩

/-- `p` falls asleep. If that is in `wait` it is not marked, as it was not before. -/
theorem fall (h : Unmarked s) {c : Chan} (hc : s.code p = Code.asleep c k) :
    Unmarked (s.set p ({ · with chan := some c, state := SLEEPING })) := by
  refine ⟨fun q hq => ?_, fun q hq => ?_⟩ <;> rcases eq_or_ne q p with rfl | e
  · rw [State.proc_set_self]
    exact h.falling q hq
  · rw [State.proc_set_of_ne e]
    exact h.falling q hq
  · rw [Asleep, State.proc_set_self] at hq
    rw [State.proc_set_self]
    obtain rfl : c = .proc q := Option.some.inj hq.2
    exact h.falling q (by rw [hc]; rfl)
  · rw [Asleep, State.proc_set_of_ne e] at hq
    rw [State.proc_set_of_ne e]
    exact h.asleep q hq

end Unmarked

/-- `wait` goes to sleep only after it has seen that it is not killed. -/
theorem wait_tests {ok b : Bool} (he : exec n s p ok (wait i b) = some s')
    (hn : naps (s'.code p) = true) : (s.proc p).killed = false := by
  simp only [exec] at he
  split at he
  · split at he
    · split at he <;> cases he <;> rw [State.code_goto_self] at hn <;> cases hn
    · cases he
      rw [State.code_goto_self] at hn
      cases hn
  · split at he
    · cases he
      rw [State.code_goto_self] at hn
      cases hn
    · next ht =>
      rw [Bool.or_eq_true, not_or] at ht
      exact Bool.eq_false_iff.mpr ht.2

namespace Unmarked

theorem exec (h : Inv n s) (hm : Unmarked s) {ok : Bool} (hp : s.onCpu p = true)
    (he : exec n s p ok (s.code p) = some s') : Unmarked s' := by
  have hwf := h.locked.wf p
  cases exec_cases he with
  | acquire hc _ | release hc _ =>
    rw [hc] at hwf
    exact (hm.on (naps_of_quiet hwf.2.2)).of_eq rfl rfl
  | sched hc _ =>
    rw [hc] at hwf
    exact (hm.on (naps_of_quiet hwf.2.2.2)).of_eq rfl rfl
  | woken hc _ =>
    rw [hc] at hwf
    obtain ⟨k', rfl⟩ | ⟨j, rfl⟩ := hwf.2.2
    · exact hm.on rfl
    · exact hm.on rfl
  | taken hc | copyuvm hc | exit hc | skip hc _ | passed hc _ | pass hc _ | miss hc | give hc =>
    exact hm.on rfl
  | kstack hc => exact (hm.on rfl).on rfl
  | waitSleep hc _ =>
    rw [hc] at he
    exact hm.goto fun _ => wait_tests he (by rw [State.code_goto_self]; rfl)
  | asleep hc =>
    rw [hc] at hwf
    obtain ⟨k', rfl⟩ := hwf.2.2
    exact (hm.fall hc).on rfl
  | runnable hc =>
    rw [hc] at hwf
    obtain ⟨k', rfl⟩ := hwf.2.2
    exact (hm.set (f := ({ · with state := RUNNABLE })) id (by rintro ⟨⟩)).on rfl
  | clearChan hc =>
    rw [hc] at hwf
    exact (hm.set (f := ({ · with chan := none })) id (by rintro _ ⟨⟩)).on (naps_of_quiet hwf.2.2)
  | wake hc => exact (hm.wake _).on rfl
  | found hc _ _ =>
    exact ((hm.set (f := ({ · with state := EMBRYO, pid := s.nextpid })) id (by rintro ⟨⟩)).on rfl).of_eq
      rfl rfl
  | fail _ hc => exact (hm.set (f := ({ · with state := UNUSED })) id (by rintro ⟨⟩)).on rfl
  | adopt hc => exact (hm.set (f := ({ · with parent := some p })) id fun h1 h2 => ⟨h1, h2⟩).on rfl
  | reparent hc _ =>
    refine (hm.set (f := ({ · with parent := some initproc })) id fun h1 h2 => ⟨h1, h2⟩).on ?_
    split <;> rfl
  | born hc => exact ((hm.set (f := ({ · with state := RUNNABLE })) id (by rintro ⟨⟩)).log _).on rfl
  | zombie hc => exact ((hm.set (f := ({ · with state := ZOMBIE })) id (by rintro ⟨⟩)).log _).on rfl
  | reap hc _ _ => exact ((hm.set (f := Proc.free) (by rintro ⟨⟩) (by rintro ⟨⟩)).log _).on rfl
  | @mark i pid hc hi hpid =>
    -- `kill` has `ptable.lock`, so nobody is about to sleep in `wait`
    have hnaps : naps (s.code i) = false := Bool.eq_false_iff.mpr fun hn => by
      obtain ⟨hcpu, ho⟩ := h.locked.of_naps hn
      obtain rfl := h.locked.unique hp hcpu (by rw [hc]; rfl) ho
      rw [hc] at hn
      cases hn
    refine ((hm.mark (f := Proc.kill) hnaps ?_).log _).on rfl
    rw [Proc.kill]
    dsimp only
    split
    · rintro ⟨⟩
    · next hst => exact hst

theorem call (h : Inv n s) (hm : Unmarked s) {c : Call} (hp : s.onCpu p = true)
    (hc : s.code p = user) (he : call s p c = some s') : Unmarked s' := by
  cases c with
  | fork | wait | kill _ | sleep _ | wakeup _ | yield => cases he; exact hm.on rfl
  | exit =>
    simp only [ProcTable.call] at he
    split at he
    · cases he
    · cases he; exact hm.on rfl
  | trap =>
    simp only [ProcTable.call] at he
    split at he
    · split at he
      · cases he
      · cases he; exact (hm.log _).on rfl
    · cases he; exact hm
  | fault =>
    cases he
    have hr := h.locked.running_of_ne hp (by rw [hc]; rintro _ ⟨⟩)
    refine (hm.mark (i := p) (f := ({ · with killed := true })) (by rw [hc]; rfl) ?_).of_eq rfl rfl
    change (s.proc p).state ≠ SLEEPING
    rw [hr]
    rintro ⟨⟩

theorem step (h : Inv n s) (hm : Unmarked s) {a : Act} (he : step n s a = some s') :
    Unmarked s' := by
  cases a with
  | call p c =>
    simp only [ProcTable.step] at he
    split at he
    · next hp => exact hm.call h hp.2.1 hp.2.2 he
    · cases he
  | exec p ok =>
    simp only [ProcTable.step] at he
    split at he
    · next hp => exact hm.exec h hp.2 he
    · cases he
  | tick p | device p c =>
    simp only [ProcTable.step] at he
    split at he
    · cases he; exact hm.on rfl
    · cases he
  | lockTable | unlockTable =>
    simp only [ProcTable.step] at he
    split at he
    · cases he; exact hm.of_eq rfl rfl
    · cases he
  | dispatch p =>
    simp only [ProcTable.step] at he
    split at he
    · cases he
      exact (hm.set (i := p) (f := ({ · with state := RUNNING })) id (by rintro ⟨⟩)).of_eq rfl rfl
    · cases he

end Unmarked

theorem unmarked_init : Unmarked init where
  falling _ h := nomatch h
  asleep p h := by
    simp only [Asleep, init] at h
    split at h
    · cases h.1
    · cases h.1

theorem unmarked_run {acts : List Act} (hrun : runActs n acts init = some s) : Unmarked s :=
  (runActs_induction (P := fun s => Inv n s ∧ Unmarked s)
    (fun _ _ _ h he => ⟨h.1.step he, h.2.step h.1 he⟩) ⟨inv_init, unmarked_init⟩ hrun).2

end ProcTable

/-! ### Kills -/

section Notice

variable {σ Pc C Op : Type} [DecidableEq C]

/-- In every run from `s₀` in which no `kill` marks a process between its test of `proc->killed`
and its sleep, nobody sleeps with a mark. -/
def NoticesKill (P : Prog σ Pc C Op) (tested : Pc → Bool) (s₀ : State σ Pc C) : Prop :=
  ∀ acts s, GuardedRun P (Seen tested) acts s₀ → run P acts s₀ = some s →
    ∀ p, s.killed p = true → ∀ c, (s.mode p).sleepsOn c = false

theorem noticesKill_start {P : Prog σ Pc C Op} {tested : Pc → Bool} (hP : P.Tests tested) (d : σ)
    (pc : Pc) : NoticesKill P tested (start d pc) := by
  intro acts s hg hr p hk c
  have hawake := ((alert_run hP hg hr).awake p hk).2
  cases hm : s.mode p with
  | asleep c' k => exact absurd hm (hawake c' k)
  | _ => rfl

/-- The process that is marked by this step, if any, is asleep. -/
def hitsSleeper (s : State σ Pc C) : Act Op → Bool
  | .exec p =>
    match s.mode p with
    | .mark t _ =>
      match s.mode t with
      | .asleep _ _ => true
      | _ => false
    | _ => true
  | _ => true

omit [DecidableEq C] in
theorem seen_of_hitsSleeper {tested : Pc → Bool} (s : State σ Pc C) (a : Act Op)
    (h : hitsSleeper s a = true) : Seen tested s a := by
  cases a with
  | call p op | kill p t => trivial
  | exec p =>
    intro t k hm hw
    simp only [hitsSleeper, hm] at h
    split at h
    · next ht =>
      rw [ht] at hw
      exact hw
    · cases h

end Notice

/-- **A kill is noticed, unless it falls between the test and the sleep.** Any number of processes
use a pipe, the console, `sleep` or `wait`, and kill each other. If no `kill` marks a process after
its test of `proc->killed` and before it is asleep, then no process that has a mark is asleep in
`piperead`, `pipewrite`, `consoleread` or `sys_sleep`; and none is ever asleep in `wait`. -/
theorem kill_noticed (junk : Nat → UInt8) :
    NoticesKill PipeBuf.pipe PipeBuf.tested (PipeBuf.init junk) ∧
    NoticesKill Console.console Console.tested Console.init ∧
    NoticesKill Ticks.clock Ticks.tested Ticks.init ∧
    ∀ n acts s, ProcTable.runActs n acts ProcTable.init = some s →
      ∀ p, (s.proc p).killed = true → ¬ ProcTable.Asleep p s := by
  refine ⟨noticesKill_start PipeBuf.tests_pipe _ _,
    noticesKill_start Console.tests_console _ _, noticesKill_start Ticks.tests_clock _ _, ?_⟩
  intro n acts s hrun p hk hasleep
  exact Bool.noConfusion (hk.symm.trans ((ProcTable.unmarked_run hrun).asleep p hasleep))

/-- Process 0 sleeps in `piperead`, and process 1 kills it. -/
def killReader : List (Act PipeBuf.Op) :=
  List.flatten [[.call 0 (.read 1)], List.replicate 6 (.exec 0), [.kill 1 0, .exec 1, .exec 1]]

theorem kill_noticed_killReader : ∃ s, run PipeBuf.pipe killReader (PipeBuf.init fun _ => 0) =
    some s ∧ s.killed 0 = true ∧ (s.mode 0).sleepsOn .nread = false := by
  obtain ⟨s, hs⟩ := Option.isSome_iff_exists.mp
    (show (run PipeBuf.pipe killReader (PipeBuf.init fun _ => 0)).isSome = true by decide +kernel)
  have hval : (run PipeBuf.pipe killReader (PipeBuf.init fun _ => 0)).map (·.killed 0) =
      some true := by decide +kernel
  have hg : GuardedRun PipeBuf.pipe (Seen PipeBuf.tested) killReader (PipeBuf.init fun _ => 0) :=
    guardedRun_of_check seen_of_hitsSleeper (by decide +kernel)
  rw [hs] at hval
  have hk := Option.some.inj hval
  exact ⟨s, hs, hk, (kill_noticed fun _ => 0).1 killReader s hg hs 0 hk .nread⟩

/-- Process 1 kills process 0 when that has taken `m` steps in the call `op`, of which the last is
the test of `proc->killed`; then process 0 goes on to sleep. -/
def killEarly {Op : Type} (op : Op) (m : Nat) : List (Act Op) :=
  List.flatten [[.call 0 op], List.replicate m (.exec 0), [.kill 1 0, .exec 1, .exec 1],
    List.replicate 3 (.exec 0)]

/-- Process 0 tests `proc->killed`, process 1 executes `kill` and returns, and process 0 sleeps: in
`piperead` on an empty pipe, in `consoleread` without input, and in `sys_sleep`. -/
theorem kill_slept_through :
    (run PipeBuf.pipe (killEarly (.read 1) 3) (PipeBuf.init fun _ => 0)).map (fun s =>
      (s.table, s.killed 0, (s.mode 0).sleepsOn .nread)) = some (none, true, true) ∧
    (run Console.console (killEarly (.read 1) 3) Console.init).map (fun s =>
      (s.table, s.killed 0, (s.mode 0).sleepsOn .r)) = some (none, true, true) ∧
    (run Ticks.clock (killEarly (.sleep 10) 4) Ticks.init).map (fun s =>
      (s.table, s.killed 0, (s.mode 0).sleepsOn .ticks)) = some (none, true, true) := by
  refine ⟨?_, ?_, ?_⟩ <;> decide +kernel

end Xv6
