import Mathlib

/-!
# Interrupts and kernel threads

Each CPU counts its open `pushcli` in `ncli` and remembers in `intena` whether interrupts were on
before the first one. Both belong to the CPU, but the calls they count belong to the thread that
runs on it, and `swtch` changes the thread: `ptable.lock` is acquired by one thread and
released by another, and `sched` saves `intena` around the switch.

Any number of processes, and a scheduler on each of any number of CPUs, execute `acquire`, `release`,
`pushcli`, `popcli`, `yield` and `sleep` instruction by instruction. Interrupts come whenever they are
on; a handler runs on the stack of the thread it interrupts. The state records for each thread which `pushcli` it is
responsible for (`tags`) and for each lock who holds it (`holder`); `swtch` hands both over.

A thread that calls `yield` or `sleep` with a `pushcli` of its own still open dies in `sched`
(`yield_with_pushcli`). Otherwise the bookkeeping is right (`interrupts_follow_threads`): the
proof follows the code that each thread has still to execute (`Ok`).
-/

open Function (update update_eq_self update_of_ne update_self)

namespace Xv6

namespace Interrupts

/-! ### The machine -/

/-- Kernel threads: the processes, and the scheduler of each CPU. -/
inductive Tid where
  | proc (p : Nat)
  | sched (c : Nat)
  deriving DecidableEq, Repr

/-- What a `pushcli` belongs to: the `acquire` of a lock, or the thread's own code. -/
inductive Tag where
  | lock (lk : Nat)
  | own
  deriving DecidableEq, Repr

/-- The number of `ptable.lock` among the spin locks. -/
def ptable : Nat := 0

/-- A CPU: its fields of `struct cpu`, and the interrupt flag of its `eflags`. -/
structure Cpu where
  ncli : Int
  intena : Bool
  iflag : Bool
  deriving DecidableEq, Repr

/-- `struct spinlock` -/
structure Lock where
  locked : Bool
  cpu : Option Nat
  deriving DecidableEq, Repr

inductive ProcState where
  | UNUSED
  | SLEEPING
  | RUNNABLE
  | RUNNING
  deriving DecidableEq, Repr

open ProcState

/-- The interrupt state of a thread: whether interrupts are on, whether they are on once its open
`pushcli` are undone, and which these are. -/
structure Snap where
  iflag : Bool
  ena : Bool
  tags : List Tag
  deriving DecidableEq, Repr

inductive Instr where
  /-- `pushcli`: `eflags = readeflags()`, then `cli()`, then the count. -/
  | readeflags (tag : Tag)
  | cli (eflags : Bool) (tag : Tag)
  | count (eflags : Bool) (tag : Tag)
  /-- `popcli`: the test of `eflags`, then the count, then `sti()`. -/
  | popCheck
  | uncount (tag : Tag)
  | popSti
  /-- `acquire`, after its `pushcli`. -/
  | acqCheck (lk : Nat)
  | xchg (lk : Nat)
  | setCpu (lk : Nat)
  /-- `release`, before its `popcli`. -/
  | relCheck (lk : Nat)
  | clearCpu (lk : Nat)
  | unlock (lk : Nat)
  /-- `proc->state = state` -/
  | setState (state : ProcState)
  /-- `sched`: its tests, `intena = cpu->intena`, `swtch`, `cpu->intena = intena`. -/
  | schedCheck
  | save
  | swtch (intena : Bool)
  | restore (intena : Bool)
  /-- The end of a `yield` or `sleep` that was called in the state `snap`. -/
  | ret (snap : Snap)
  /-- The end of an interrupt handler, or of a system call: `eflags` is restored. -/
  | iret (iflag : Bool)
  /-- `scheduler`: the outer loop, `sti()`, the inner loop, and the `swtch` in it. -/
  | loop
  | sti
  | top
  | go
  deriving DecidableEq, Repr

open Instr

abbrev Code := List Instr

def acquire (lk : Nat) (k : Code) : Code :=
  readeflags (.lock lk) :: acqCheck lk :: xchg lk :: k

def release (lk : Nat) (k : Code) : Code :=
  relCheck lk :: clearCpu lk :: popCheck :: uncount (.lock lk) :: k

def sched (k : Code) : Code := schedCheck :: save :: k

/-- `yield()` -/
def yield (k : Code) : Code :=
  acquire ptable <| setState RUNNABLE :: (sched <| release ptable k)

/-- `sleep(chan, lk)` -/
def sleep (lk : Nat) (k : Code) : Code :=
  if lk = ptable then setState SLEEPING :: sched k
  else acquire ptable <| release lk <| setState SLEEPING :: (sched <| release ptable <| acquire lk k)

/-- `forkret`, and the return to user space. -/
def forkret : Code := release ptable [iret true]

inductive Panic where
  | acquire
  | release
  | popcliInterruptible
  | popcli
  | schedPtableLock
  | schedLocks
  | schedRunning
  | schedInterruptible
  deriving DecidableEq, Repr

structure State where
  cpu : Nat → Cpu
  /-- The thread that runs on a CPU. -/
  cur : Nat → Tid
  lock : Nat → Lock
  pstate : Nat → ProcState
  code : Tid → Code
  panic : Option Panic
  /-- The open `pushcli` that a thread is responsible for. -/
  tags : Tid → List Tag
  /-- Who holds a lock. -/
  holder : Nat → Option Tid

namespace State

def goto (s : State) (t : Tid) (k : Code) : State := { s with code := update s.code t k }

def onCpu (s : State) (c : Nat) (f : Cpu → Cpu) : State :=
  { s with cpu := update s.cpu c (f (s.cpu c)) }

def onLock (s : State) (lk : Nat) (f : Lock → Lock) : State :=
  { s with lock := update s.lock lk (f (s.lock lk)) }

def hold (s : State) (lk : Nat) (o : Option Tid) : State :=
  { s with holder := update s.holder lk o }

def tag (s : State) (t : Tid) (ts : List Tag) : State :=
  { s with tags := update s.tags t ts }

def setProc (s : State) (p : Nat) (st : ProcState) : State :=
  { s with pstate := update s.pstate p st }

def die (s : State) (p : Panic) : State := { s with panic := some p }

/-- CPU `c` goes on with thread `u`, which takes over what the present one is responsible for. -/
def switch (s : State) (c : Nat) (u : Tid) : State :=
  { s with
    cur := update s.cur c u
    tags := update (update s.tags u (s.tags (s.cur c))) (s.cur c) []
    holder := fun lk => if s.holder lk = some (s.cur c) then some u else s.holder lk }

/-- `holding(lock)` on CPU `c`. -/
def holding (s : State) (c lk : Nat) : Bool :=
  (s.lock lk).locked && decide ((s.lock lk).cpu = some c)

/-- The interrupt state of the thread on CPU `c`. -/
def snap (s : State) (c : Nat) : Snap where
  iflag := (s.cpu c).iflag
  ena := if (s.cpu c).ncli = 0 then (s.cpu c).iflag else (s.cpu c).intena
  tags := s.tags (s.cur c)

end State

/-- The next instruction of the thread `t` on CPU `c`, followed by `k`. -/
def instr (s : State) (c : Nat) (t : Tid) (k : Code) : Instr → Option State
  | readeflags tag => some (s.goto t (cli (s.cpu c).iflag tag :: k))
  | cli ef tag => some ((s.onCpu c ({ · with iflag := false })).goto t (count ef tag :: k))
  | count ef tag =>
    some ((s.onCpu c fun r =>
      { r with ncli := r.ncli + 1, intena := if r.ncli = 0 then ef else r.intena }).tag t
        (tag :: s.tags t) |>.goto t k)
  | popCheck => if (s.cpu c).iflag then some (s.die .popcliInterruptible) else some (s.goto t k)
  | uncount tag =>
    if (s.cpu c).ncli - 1 < 0 then some (s.die .popcli)
    else some ((s.onCpu c fun r => { r with ncli := r.ncli - 1 }).tag t ((s.tags t).erase tag)
      |>.goto t (popSti :: k))
  | popSti =>
    some ((s.onCpu c fun r =>
      { r with iflag := if r.ncli = 0 ∧ r.intena = true then true else r.iflag }).goto t k)
  | acqCheck lk => if s.holding c lk then some (s.die .acquire) else some (s.goto t k)
  | xchg lk =>
    -- the loop spins while somebody else has the lock
    if (s.lock lk).locked then none
    else some ((s.onLock lk ({ · with locked := true })).hold lk (some t) |>.goto t (setCpu lk :: k))
  | setCpu lk => some ((s.onLock lk ({ · with cpu := some c })).goto t k)
  | relCheck lk => if s.holding c lk then some (s.goto t k) else some (s.die .release)
  | clearCpu lk => some ((s.onLock lk ({ · with cpu := none })).goto t (unlock lk :: k))
  | unlock lk => some ((s.onLock lk ({ · with locked := false })).hold lk none |>.goto t k)
  | setState st =>
    match t with
    | .proc p => some ((s.setProc p st).goto t k)
    | .sched _ => none
  | schedCheck =>
    match t with
    | .proc p =>
      if s.holding c ptable = false then some (s.die .schedPtableLock)
      else if (s.cpu c).ncli ≠ 1 then some (s.die .schedLocks)
      else if s.pstate p = RUNNING then some (s.die .schedRunning)
      else if (s.cpu c).iflag then some (s.die .schedInterruptible)
      else some (s.goto t k)
    | .sched _ => none
  | save => some (s.goto t (swtch (s.cpu c).intena :: k))
  | swtch intena => some ((s.switch c (.sched c)).goto t (restore intena :: k))
  | restore intena => some ((s.onCpu c ({ · with intena := intena })).goto t k)
  | ret _ => some (s.goto t k)
  | iret iflag =>
    -- a handler undoes what it has done before it returns
    if s.tags t = [] then some ((s.onCpu c ({ · with iflag := iflag })).goto t k) else none
  | loop => some (s.goto t (sti :: acquire ptable [top]))
  | sti => some ((s.onCpu c ({ · with iflag := true })).goto t k)
  | top => none
  | go => none

def exec (s : State) (c : Nat) : Option State :=
  match s.code (s.cur c) with
  | [] => none
  | i :: k => instr s c (s.cur c) k i

/-- What a thread can call. `wakeup p` stands for the assignment in `wakeup1` and `kill`, `spawn p`
for the end of `fork`. -/
inductive Op where
  | acquire (lk : Nat)
  | release (lk : Nat)
  | pushcli
  | popcli
  | yield
  | sleep (lk : Nat)
  | wakeup (p : Nat)
  | spawn (p : Nat)
  deriving DecidableEq, Repr

/-- A thread can make a call: a process at any time, a scheduler in an interrupt handler only. -/
def idle : Tid → Code → Bool
  | .proc _, [] => true
  | _, iret _ :: _ => true
  | _, _ => false

/-- The locks that the thread holds. -/
def locks (ts : List Tag) : List Tag := ts.filter (· ≠ .own)

/-- The thread on CPU `c` makes a call. It releases only what it holds and undoes only what it has
done, sleeps with no lock but `lk`, and yields with none. -/
def call (s : State) (c : Nat) : Op → Option State
  | .acquire lk => some (s.goto (s.cur c) (acquire lk (s.code (s.cur c))))
  | .release lk =>
    if s.holder lk = some (s.cur c) then
      some (s.goto (s.cur c) (release lk (s.code (s.cur c))))
    else none
  | .pushcli => some (s.goto (s.cur c) (readeflags .own :: s.code (s.cur c)))
  | .popcli =>
    if .own ∈ s.tags (s.cur c) then
      some (s.goto (s.cur c) (popCheck :: uncount .own :: s.code (s.cur c)))
    else none
  | .yield =>
    match s.cur c with
    | .proc p =>
      if locks (s.tags (.proc p)) = [] then
        some (s.goto (.proc p) (yield (ret (s.snap c) :: s.code (.proc p))))
      else none
    | .sched _ => none
  | .sleep lk =>
    match s.cur c with
    | .proc p =>
      if locks (s.tags (.proc p)) = [.lock lk] then
        some (s.goto (.proc p) (sleep lk (ret (s.snap c) :: s.code (.proc p))))
      else none
    | .sched _ => none
  | .wakeup p =>
    if s.holder ptable = some (s.cur c) ∧ s.pstate p = SLEEPING then
      some (s.setProc p RUNNABLE)
    else none
  | .spawn p =>
    if s.pstate p = UNUSED then some ((s.setProc p RUNNABLE).goto (.proc p) forkret) else none

/-- The steps of the machine: a CPU executes an instruction or is interrupted, the thread on it makes
a call; a scheduler enters `switchuvm`, switches to a process, or leaves its loop. -/
inductive Act where
  | exec (c : Nat)
  | interrupt (c : Nat)
  | call (c : Nat) (op : Op)
  | choose (c : Nat)
  | dispatch (c p : Nat)
  | leave (c : Nat)
  deriving DecidableEq, Repr

/-- One step. After a panic there is none. -/
def step (s : State) (a : Act) : Option State :=
  if s.panic ≠ none then none
  else match a with
  | .exec c => exec s c
  | .interrupt c =>
    if (s.cpu c).iflag then
      some ((s.onCpu c ({ · with iflag := false })).goto (s.cur c) (iret true :: s.code (s.cur c)))
    else none
  | .call c op => if idle (s.cur c) (s.code (s.cur c)) then call s c op else none
  | .choose c =>
    if s.code (s.cur c) = [top] then
      -- `switchuvm`
      some (s.goto (s.cur c) [readeflags .own, popCheck, uncount .own, go])
    else none
  | .dispatch c p =>
    if s.code (s.cur c) = [go] ∧ s.pstate p = RUNNABLE then
      some (((s.setProc p RUNNING).goto (s.cur c) [top]).switch c (.proc p))
    else none
  | .leave c =>
    if s.code (s.cur c) = [top] then some (s.goto (s.cur c) (release ptable [loop])) else none

def run : List Act → State → Option State
  | [], s => some s
  | a :: as, s => (step s a).bind (run as)

/-- The machine when the CPUs enter `scheduler`, with the first process ready to run. -/
def init : State where
  cpu _ := ⟨0, false, false⟩
  cur c := .sched c
  lock _ := ⟨false, none⟩
  pstate p := if p = 0 then RUNNABLE else UNUSED
  code
    | .proc _ => forkret
    | .sched _ => [loop]
  panic := none
  tags _ := []
  holder _ := none

/-! ### Code that keeps the books -/

/-- The state of a thread as the proof sees it: whether its interrupts are on when it has no
`pushcli` open, its open `pushcli`, the locks it holds, and whether its state is `RUNNING`. -/
structure Abs where
  ena : Bool
  tags : List Tag
  held : Finset Nat
  running : Bool

namespace Abs

def push (a : Abs) (tag : Tag) : Abs := { a with tags := tag :: a.tags }

def pop (a : Abs) (tag : Tag) : Abs := { a with tags := a.tags.erase tag }

def take (a : Abs) (lk : Nat) : Abs := { a with held := insert lk a.held }

def drop (a : Abs) (lk : Nat) : Abs := { a with held := a.held.erase lk }

/-- Between calls: every open `pushcli` is its own or belongs to a lock that it holds, one for
each. -/
structure Rest (a : Abs) : Prop where
  held : ∀ lk, lk ∈ a.held ↔ .lock lk ∈ a.tags
  once : ∀ lk, a.tags.count (.lock lk) ≤ 1
  running : a.running = true

/-- It holds `ptable.lock` and nothing else. -/
def Only (a : Abs) : Prop := a.tags = [.lock ptable] ∧ a.held = {ptable}

end Abs

/-- A process that a scheduler has just switched to, or a scheduler after a process has switched
back. -/
def resumed (ena : Bool) : Abs := ⟨ena, [.lock ptable], {ptable}, true⟩

/-- The thread `t` can execute the code from the state `a` on: no test fails, `yield` and `sleep` end
in the state in which they were called, and between calls all is in order. -/
def Ok (t : Tid) : Code → Abs → Prop
  | [], a => a.Rest
  | readeflags tag :: k, a => Ok t k (a.push tag)
  | cli ef tag :: k, a => (a.tags = [] → ef = a.ena) ∧ Ok t k (a.push tag)
  | count ef tag :: k, a => (a.tags = [] → ef = a.ena) ∧ Ok t k (a.push tag)
  | popCheck :: k, a => a.tags ≠ [] ∧ Ok t k a
  | uncount tag :: k, a => tag ∈ a.tags ∧ (∀ lk, tag = .lock lk → lk ∉ a.held) ∧ Ok t k (a.pop tag)
  | popSti :: k, a => Ok t k a
  | acqCheck lk :: k, a => lk ∉ a.held → Ok t k a
  | xchg lk :: k, a => lk ∉ a.held ∧ .lock lk ∈ a.tags ∧ Ok t k (a.take lk)
  | setCpu lk :: k, a => lk ∈ a.held ∧ Ok t k a
  | relCheck lk :: k, a => lk ∈ a.held ∧ Ok t k a
  | clearCpu lk :: k, a => lk ∈ a.held ∧ (lk = ptable → a.running = true) ∧ Ok t k (a.drop lk)
  | unlock lk :: k, a => lk ∈ a.held ∧ (lk = ptable → a.running = true) ∧ Ok t k (a.drop lk)
  | setState st :: k, a => (∃ p, t = .proc p) ∧ (st = RUNNABLE ∨ st = SLEEPING) ∧
      ptable ∈ a.held ∧ Ok t k { a with running := false }
  | schedCheck :: k, a => (∃ p, t = .proc p) ∧ a.Only ∧ a.running = false ∧ Ok t k a
  | save :: k, a => (∃ p, t = .proc p) ∧ a.Only ∧ a.running = false ∧ Ok t k (resumed a.ena)
  | swtch intena :: k, a => (∃ p, t = .proc p) ∧ a.Only ∧ a.running = false ∧ intena = a.ena ∧
      Ok t k (resumed a.ena)
  | restore intena :: k, a => intena = a.ena ∧ a.tags ≠ [] ∧ Ok t k a
  | ret snap :: k, a => snap.ena = a.ena ∧ snap.tags = a.tags ∧
      snap.iflag = (if a.tags = [] then a.ena else false) ∧ Ok t k a
  | iret iflag :: k, a => a.Rest ∧ Ok t k ⟨iflag, [], ∅, true⟩
  | loop :: _, a => (∃ c, t = .sched c) ∧ a.tags = [] ∧ a.held = ∅ ∧ a.running = true
  | sti :: k, a => a.tags = [] ∧ Ok t k { a with ena := true }
  | top :: _, a => (∃ c, t = .sched c) ∧ a.Only ∧ a.running = true
  | go :: _, a => (∃ c, t = .sched c) ∧ a.Only ∧ a.running = true

/-- Instructions that exist only as the next one: the rest of a `pushcli`, `popcli`, `xchg` or
`swtch` that has begun. -/
def special : Instr → Bool
  | count _ _ => true
  | popSti => true
  | setCpu _ => true
  | unlock _ => true
  | swtch _ => true
  | restore _ => true
  | _ => false

/-- Interrupts are off at this point, whatever `ncli` is. -/
def shut : Code → Bool
  | count _ _ :: _ => true
  | popSti :: _ => true
  | _ => false

/-- The point between the count and the `sti()` of `popcli`. -/
def reopening : Code → Bool
  | popSti :: _ => true
  | _ => false

/-- The point after `swtch` at which `intena` is not yet restored. -/
def restoring : Code → Bool
  | restore _ :: _ => true
  | _ => false

/-- The lock whose field `cpu` is not set, though it is held. -/
def bare : Code → Option Nat
  | setCpu lk :: _ => some lk
  | unlock lk :: _ => some lk
  | _ => none

def plain : Code → Bool
  | [] => true
  | i :: _ => !special i

/-- The registers of the CPU are as they should be for its thread. -/
structure Agrees (r : Cpu) (a : Abs) (k : Code) : Prop where
  ncli : r.ncli = a.tags.length
  off : a.tags ≠ [] ∨ shut k = true → r.iflag = false
  live : a.tags = [] → shut k = false → r.iflag = a.ena
  saved : a.tags ≠ [] ∨ reopening k = true → restoring k = false → r.intena = a.ena

variable {s s' : State} {c d lk p : Nat} {a a' : Abs} {r : Cpu} {t u : Tid} {k k' : Code} {i : Instr}
  {op : Op} {act : Act}

theorem plain_cases (h : plain k = true) :
    shut k = false ∧ reopening k = false ∧ restoring k = false ∧ bare k = none := by
  cases k with
  | nil => exact ⟨rfl, rfl, rfl, rfl⟩
  | cons i k =>
    cases i with
    | count | popSti | setCpu | unlock | swtch | restore => cases h
    | _ => exact ⟨rfl, rfl, rfl, rfl⟩

/-- At most points the registers are simply those of the thread. -/
theorem agrees_plain (hk : plain k = true) (hncli : r.ncli = a.tags.length)
    (hoff : a.tags ≠ [] → r.iflag = false ∧ r.intena = a.ena)
    (hlive : a.tags = [] → r.iflag = a.ena) : Agrees r a k := by
  obtain ⟨h1, h2, h3, -⟩ := plain_cases hk
  refine ⟨hncli, fun h => ?_, fun h _ => hlive h, fun h _ => ?_⟩
  · rcases h with h | h
    · exact (hoff h).1
    · rw [h1] at h
      cases h
  · rcases h with h | h
    · exact (hoff h).2
    · rw [h2] at h
      cases h

theorem ok_acquire (hlk : lk ∉ a.held) (h : Ok t k ((a.push (.lock lk)).take lk)) :
    Ok t (acquire lk k) a :=
  fun _ => ⟨hlk, List.mem_cons_self, h⟩

theorem ok_release (hlk : lk ∈ a.held) (hrun : lk = ptable → a.running = true)
    (htag : .lock lk ∈ a.tags) (h : Ok t k ((a.drop lk).pop (.lock lk))) :
    Ok t (release lk k) a := by
  refine ⟨hlk, hlk, hrun, List.ne_nil_of_mem htag, htag, ?_, h⟩
  rintro lk' ⟨⟩
  exact Finset.notMem_erase lk a.held

theorem ok_sched (ht : ∃ p, t = .proc p) (honly : a.Only) (h : Ok t k (resumed a.ena))
    {st : ProcState} (hst : st = RUNNABLE ∨ st = SLEEPING) : Ok t (setState st :: sched k) a :=
  ⟨ht, hst, by rw [honly.2]; exact Finset.mem_singleton_self _, ht, honly, rfl, ht, honly, rfl, h⟩

theorem Abs.Rest.of_nil (h : a.Rest) (hnil : a.tags = []) : a = ⟨a.ena, [], ∅, true⟩ := by
  obtain ⟨ena, tags, held, running⟩ := a
  obtain rfl : tags = [] := hnil
  obtain rfl : running = true := h.running
  obtain rfl : held = ∅ := Finset.eq_empty_of_forall_notMem fun lk hlk => nomatch (h.held lk).mp hlk
  rfl

theorem Abs.Rest.of_lock (h : a.Rest) (hlock : a.tags = [.lock lk]) :
    a = ⟨a.ena, [.lock lk], {lk}, true⟩ := by
  obtain ⟨ena, tags, held, running⟩ := a
  obtain rfl : tags = [.lock lk] := hlock
  obtain rfl : running = true := h.running
  obtain rfl : held = {lk} := by
    ext lk'
    rw [Finset.mem_singleton]
    refine (h.held lk').trans ?_
    rw [List.mem_singleton]
    exact ⟨fun e => Tag.lock.inj e, congrArg Tag.lock⟩
  rfl

/-- After its last lock, a thread is where it was before it took it. -/
theorem release_resumed (ena : Bool) :
    ((resumed ena).drop ptable).pop (.lock ptable) = ⟨ena, [], ∅, true⟩ := rfl

theorem ok_yield (ht : ∃ p, t = .proc p) {ena : Bool} (h : Ok t k ⟨ena, [], ∅, true⟩) :
    Ok t (yield k) ⟨ena, [], ∅, true⟩ := by
  refine ok_acquire (Finset.notMem_empty _) (ok_sched ht ⟨rfl, rfl⟩ ?_ (.inl rfl))
  refine ok_release (Finset.mem_singleton_self _) (fun _ => rfl) List.mem_cons_self ?_
  rw [release_resumed]
  exact h

theorem ok_sleep (ht : ∃ p, t = .proc p) {ena : Bool} (h : Ok t k ⟨ena, [.lock lk], {lk}, true⟩) :
    Ok t (sleep lk k) ⟨ena, [.lock lk], {lk}, true⟩ := by
  rw [sleep]
  split
  · next e =>
    subst e
    exact ok_sched ht ⟨rfl, rfl⟩ h (.inr rfl)
  · next hne =>
    have h0 : ptable ∉ ({lk} : Finset Nat) := by
      rw [Finset.mem_singleton]
      exact fun e => hne e.symm
    refine ok_acquire h0 ?_
    refine ok_release (Finset.mem_insert_of_mem (Finset.mem_singleton_self _)) (fun _ => rfl)
      (List.mem_cons_of_mem _ List.mem_cons_self) ?_
    -- what is left is `ptable.lock`
    refine ok_sched ht ⟨?_, ?_⟩ ?_ (.inr rfl)
    · change ([Tag.lock ptable, Tag.lock lk].erase (.lock lk)) = [Tag.lock ptable]
      rw [List.erase_cons_tail (by simpa using fun e => hne e.symm), List.erase_cons_head]
    · change (insert ptable ({lk} : Finset Nat)).erase lk = {ptable}
      rw [Finset.erase_insert_of_ne fun e => hne e.symm, Finset.erase_singleton]
      rfl
    · refine ok_release (Finset.mem_singleton_self _) (fun _ => rfl) List.mem_cons_self ?_
      exact ok_acquire (Finset.notMem_empty _) h

/-! ### The invariant -/

/-- What holds of CPU `c` and its thread. -/
structure On (s : State) (c : Nat) (a : Abs) : Prop where
  agrees : Agrees (s.cpu c) a (s.code (s.cur c))
  ok : Ok (s.cur c) (s.code (s.cur c)) a
  tags : s.tags (s.cur c) = a.tags
  held : ∀ lk, s.holder lk = some (s.cur c) ↔ lk ∈ a.held
  tagged : ∀ lk ∈ a.held, .lock lk ∈ a.tags
  marked : ∀ lk ∈ a.held, bare (s.code (s.cur c)) ≠ some lk → (s.lock lk).cpu = some c
  /-- A thread that is not `RUNNING` has `ptable.lock`. -/
  settled : a.running = false → ptable ∈ a.held
  running : ∀ p, s.cur c = .proc p → (s.pstate p = RUNNING ↔ a.running = true) ∧ s.pstate p ≠ UNUSED

/-- A thread that runs on no CPU goes on with `ptable.lock`, which the other side of the switch has
for it. A new process, or a scheduler, does not care for `intena`. -/
def Resumable (t : Tid) (k : Code) : Prop :=
  (∃ intena k', k = restore intena :: k' ∧ Ok t k (resumed intena)) ∨
    plain k = true ∧ ∀ ena, Ok t k (resumed ena)

structure Inv (s : State) : Prop where
  /-- A thread runs on one CPU, a scheduler on its own. -/
  apart : Function.Injective s.cur
  home : ∀ c d, s.cur c = .sched d → d = c
  on : ∀ c, ∃ a, On s c a
  away : ∀ t, (∀ c, s.cur c ≠ t) → (∀ p, t = .proc p → s.pstate p ≠ UNUSED) →
    Resumable t (s.code t)
  free : ∀ t, (∀ c, s.cur c ≠ t) → ∀ lk, s.holder lk ≠ some t
  locked : ∀ lk, (s.lock lk).locked = true ↔ (s.holder lk).isSome = true
  tail : ∀ t, ∀ i ∈ (s.code t).tail, special i = false

section Frame

@[simp] theorem State.code_goto_self : (s.goto t k).code t = k := update_self ..

theorem State.code_goto_of_ne (h : u ≠ t) : (s.goto t k).code u = s.code u :=
  update_of_ne h ..

/-- The thread of another CPU does not notice a step. -/
theorem On.frame (h : On s d a) (hcur : s'.cur d = s.cur d) (hcpu : s'.cpu d = s.cpu d)
    (hcode : s'.code (s.cur d) = s.code (s.cur d)) (htags : s'.tags (s.cur d) = s.tags (s.cur d))
    (hholder : ∀ lk, s'.holder lk = some (s.cur d) ↔ s.holder lk = some (s.cur d))
    (hlock : ∀ lk, s.holder lk = some (s.cur d) → (s'.lock lk).cpu = (s.lock lk).cpu)
    (hproc : ∀ p, s.cur d = .proc p → s'.pstate p = s.pstate p) : On s' d a := by
  refine ⟨?_, ?_, ?_, fun lk => ?_, h.tagged, fun lk hlk => ?_, h.settled, fun p hp => ?_⟩
  · rw [hcur, hcpu, hcode]
    exact h.agrees
  · rw [hcur, hcode]
    exact h.ok
  · rw [hcur, htags]
    exact h.tags
  · rw [hcur, hholder]
    exact h.held lk
  · rw [hcur, hcode, hlock lk ((h.held lk).mpr hlk)]
    exact h.marked lk hlk
  · rw [hcur] at hp
    rw [hproc p hp]
    exact h.running p hp

/-- A step of the thread `t` on CPU `c` that concerns nobody else. -/
theorem Inv.local (h : Inv s) (ht : s.cur c = t) (hcur : s'.cur = s.cur)
    (hcode : ∀ u ≠ t, s'.code u = s.code u) (htags : ∀ u ≠ t, s'.tags u = s.tags u)
    (hcpu : ∀ d ≠ c, s'.cpu d = s.cpu d)
    (hholder : ∀ lk, ∀ u ≠ t, (s'.holder lk = some u ↔ s.holder lk = some u))
    (hlock : ∀ lk, ∀ u ≠ t, s.holder lk = some u → (s'.lock lk).cpu = (s.lock lk).cpu)
    (hlocked : ∀ lk, (s'.lock lk).locked = true ↔ (s'.holder lk).isSome = true)
    (hproc : ∀ p, t ≠ .proc p → s'.pstate p = s.pstate p)
    (htail : ∀ i ∈ (s'.code t).tail, special i = false) (hon : ∃ a, On s' c a) : Inv s' := by
  have off : ∀ u, (∀ d, s'.cur d ≠ u) → u ≠ t ∧ ∀ d, s.cur d ≠ u := fun u hu =>
    ⟨fun e => hu c (by rw [hcur, ht, e]), fun d => by rw [← hcur]; exact hu d⟩
  refine ⟨by rw [hcur]; exact h.apart, by rw [hcur]; exact h.home, fun d => ?_, fun u hu hp => ?_,
    fun u hu lk => ?_, hlocked, fun u => ?_⟩
  · rcases eq_or_ne d c with rfl | hd
    · exact hon
    · obtain ⟨a, ha⟩ := h.on d
      have hne : s.cur d ≠ t := fun e => hd (h.apart (e.trans ht.symm))
      exact ⟨a, ha.frame (by rw [hcur]) (hcpu d hd) (hcode _ hne) (htags _ hne)
        (fun lk => hholder lk _ hne) (fun lk => hlock lk _ hne)
        fun p hp => hproc p fun e => hne (hp.trans e.symm)⟩
  · obtain ⟨hne, hoff⟩ := off u hu
    rw [hcode u hne]
    refine h.away u hoff fun p e => ?_
    rw [← hproc p fun e' => hne (e.trans e'.symm)]
    exact hp p e
  · obtain ⟨hne, hoff⟩ := off u hu
    rw [Ne, hholder lk u hne]
    exact h.free u hoff lk
  · rcases eq_or_ne u t with rfl | hne
    · exact htail
    · rw [hcode u hne]
      exact h.tail u

theorem On.of (hcur : s.cur c = t) (hcode : s.code t = k) (hcpu : s.cpu c = r) (hag : Agrees r a k)
    (hok : Ok t k a) (htags : s.tags t = a.tags) (hheld : ∀ lk, s.holder lk = some t ↔ lk ∈ a.held)
    (htagged : ∀ lk ∈ a.held, .lock lk ∈ a.tags)
    (hmarked : ∀ lk ∈ a.held, bare k ≠ some lk → (s.lock lk).cpu = some c)
    (hsettled : a.running = false → ptable ∈ a.held)
    (hrunning : ∀ p, t = .proc p → (s.pstate p = RUNNING ↔ a.running = true) ∧ s.pstate p ≠ UNUSED) :
    On s c a := by
  subst hcur hcode hcpu
  exact ⟨hag, hok, htags, hheld, htagged, hmarked, hsettled, hrunning⟩

/-- A step that changes the registers of the CPU and the code of its thread only. -/
theorem Inv.regs (h : Inv s) (hon : On s c a) (ht : s.cur c = t) (hcur : s'.cur = s.cur)
    (hlock : s'.lock = s.lock) (hholder : s'.holder = s.holder) (htags : s'.tags = s.tags)
    (hproc : s'.pstate = s.pstate) (hcode : s'.code = update s.code t k')
    (hcpu : s'.cpu = update s.cpu c r) (hbare : bare (s.code t) = none)
    (htail : ∀ i ∈ k'.tail, special i = false) (ena : Bool)
    (hagrees : Agrees r { a with ena := ena } k') (hok : Ok t k' { a with ena := ena }) :
    Inv s' := by
  subst ht
  have hself : s'.code (s.cur c) = k' := by rw [hcode, update_self]
  refine h.local rfl hcur (fun u hu => by rw [hcode, update_of_ne hu])
    (fun _ _ => by rw [htags]) (fun d hd => by rw [hcpu, update_of_ne hd])
    (fun _ _ _ => by rw [hholder]) (fun _ _ _ _ => by rw [hlock])
    (by rw [hlock, hholder]; exact h.locked) (fun _ _ => by rw [hproc]) (by rw [hself]; exact htail)
    ⟨{ a with ena := ena }, ?_⟩
  refine .of (by rw [hcur]) hself (by rw [hcpu, update_self]) hagrees hok
    (by rw [htags]; exact hon.tags) (by rw [hholder]; exact hon.held) hon.tagged
    (fun lk hlk _ => ?_) hon.settled (by rw [hproc]; exact hon.running)
  rw [hlock]
  exact hon.marked lk hlk (by rw [hbare]; nofun)

theorem Inv.goto (h : Inv s) (hon : On s c a) (ht : s.cur c = t) (hbare : bare (s.code t) = none)
    (htail : ∀ i ∈ k'.tail, special i = false) (hagrees : Agrees (s.cpu c) a k')
    (hok : Ok t k' a) : Inv (s.goto t k') :=
  h.regs hon ht rfl rfl rfl rfl rfl rfl (update_eq_self _ _).symm hbare htail a.ena
    hagrees hok

theorem Inv.onCpu {f : Cpu → Cpu} (h : Inv s) (hon : On s c a) (ht : s.cur c = t)
    (hbare : bare (s.code t) = none) (htail : ∀ i ∈ k'.tail, special i = false) (ena : Bool)
    (hagrees : Agrees (f (s.cpu c)) { a with ena := ena } k') (hok : Ok t k' { a with ena := ena }) :
    Inv ((s.onCpu c f).goto t k') :=
  h.regs hon ht rfl rfl rfl rfl rfl rfl rfl hbare htail ena hagrees hok

end Frame

theorem Agrees.same (h : Agrees r a k) (h1 : shut k' = shut k) (h2 : reopening k' = reopening k)
    (h3 : restoring k' = restoring k) : Agrees r a k' := by
  refine ⟨h.ncli, ?_, ?_, ?_⟩
  · rw [h1]
    exact h.off
  · rw [h1]
    exact h.live
  · rw [h2, h3]
    exact h.saved

/-- The locks do not matter to the registers. -/
theorem Agrees.of (h : Agrees r a k) (hena : a'.ena = a.ena) (htags : a'.tags = a.tags) :
    Agrees r a' k := by
  refine ⟨?_, ?_, ?_, ?_⟩ <;> simp only [hena, htags]
  · exact h.ncli
  · exact h.off
  · exact h.live
  · exact h.saved

theorem Agrees.plain (h : Agrees r a k) (hk : plain k = true) (hk' : plain k' = true) :
    Agrees r a k' := by
  obtain ⟨h1, h2, h3, -⟩ := plain_cases hk
  obtain ⟨h1', h2', h3', -⟩ := plain_cases hk'
  exact h.same (h1'.trans h1.symm) (h2'.trans h2.symm) (h3'.trans h3.symm)

/-- What follows the next instruction is not the rest of one that has begun. -/
theorem Inv.tail_of (h : Inv s) (hc : s.code t = i :: k) :
    plain k = true ∧ (∀ j ∈ k, special j = false) ∧ ∀ j ∈ k.tail, special j = false := by
  have htail := h.tail t
  rw [hc] at htail
  refine ⟨?_, htail, fun j hj => htail j (List.mem_of_mem_tail hj)⟩
  cases k with
  | nil => rfl
  | cons j k =>
    rw [plain, htail j List.mem_cons_self]
    rfl

section Instructions

variable (h : Inv s) (hon : On s c a) (ht : s.cur c = t)
include h hon ht

theorem Inv.advance (hc : s.code t = i :: k)
    (hi : special i = false) (hok : Ok t k a) : Inv (s.goto t k) := by
  have hplain : plain (i :: k) = true := by rw [plain, hi]; rfl
  have hag := hon.agrees
  rw [ht, hc] at hag
  refine h.goto hon ht ?_
    (h.tail_of hc).2.2 (hag.plain hplain (h.tail_of hc).1) hok
  rw [hc]
  exact (plain_cases hplain).2.2.2

theorem Inv.readeflags {tag : Tag}
    (hc : s.code t = Instr.readeflags tag :: k) : Inv (s.goto t (cli (s.cpu c).iflag tag :: k)) := by
  have hag := hon.agrees
  have hok := hon.ok
  rw [ht, hc] at hag hok
  refine h.goto hon ht (by rw [hc]; rfl)
    (h.tail_of hc).2.1 (hag.same rfl rfl rfl) ?_
  exact ⟨fun hnil => hag.live hnil rfl, hok⟩

theorem Inv.cli {ef : Bool} {tag : Tag}
    (hc : s.code t = Instr.cli ef tag :: k) :
    Inv ((s.onCpu c ({ · with iflag := false })).goto t (count ef tag :: k)) := by
  have hag := hon.agrees
  have hok := hon.ok
  rw [ht, hc] at hag hok
  refine h.onCpu hon ht (by rw [hc]; rfl) (h.tail_of hc).2.1
    a.ena ?_ hok
  refine ⟨hag.ncli, fun _ => rfl, fun _ hno => (nomatch hno), fun hor _ => ?_⟩
  exact hag.saved (hor.imp_right fun e => (nomatch e)) rfl

/-- The `sti()` of `popcli` turns interrupts on exactly if that was the state before. -/
theorem Inv.popSti
    (hc : s.code t = Instr.popSti :: k) :
    Inv ((s.onCpu c fun r =>
      { r with iflag := if r.ncli = 0 ∧ r.intena = true then true else r.iflag }).goto t k) := by
  have hag := hon.agrees
  have hok := hon.ok
  rw [ht, hc] at hag hok
  have hoff : (s.cpu c).iflag = false := hag.off (.inr rfl)
  have hena : (s.cpu c).intena = a.ena := hag.saved (.inr rfl) rfl
  have hncli := hag.ncli
  refine h.onCpu hon ht (by rw [hc]; rfl) (h.tail_of hc).2.2
    a.ena ?_ hok
  refine agrees_plain (h.tail_of hc).1 hncli (fun hne => ⟨?_, hena⟩) fun hnil => ?_
  · have hpos : 0 < a.tags.length := List.length_pos_of_ne_nil hne
    dsimp only
    rw [if_neg (by omega), hoff]
  · have hzero : (s.cpu c).ncli = 0 := by rw [hncli, hnil]; rfl
    dsimp only
    rw [hzero, hena, hoff]
    cases a.ena <;> rfl

theorem Inv.restore {b : Bool}
    (hc : s.code t = Instr.restore b :: k) :
    Inv ((s.onCpu c ({ · with intena := b })).goto t k) := by
  have hag := hon.agrees
  have hok := hon.ok
  rw [ht, hc] at hag hok
  obtain ⟨rfl, hne, hok⟩ := hok
  refine h.onCpu hon ht (by rw [hc]; rfl) (h.tail_of hc).2.2
    a.ena ?_ hok
  exact agrees_plain (h.tail_of hc).1 hag.ncli (fun _ => ⟨hag.off (.inl hne), rfl⟩)
    fun hnil => absurd hnil hne

/-- `eflags` is set, with no `pushcli` open. -/
theorem Inv.setFlag {b : Bool}
    (hc : s.code t = i :: k) (hi : bare (i :: k) = none) (hnil : a.tags = [])
    (hok : Ok t k { a with ena := b }) :
    Inv ((s.onCpu c ({ · with iflag := b })).goto t k) := by
  refine h.onCpu hon ht (by rw [hc]; exact hi) (h.tail_of hc).2.2 _ ?_ hok
  exact agrees_plain (h.tail_of hc).1 hon.agrees.ncli (fun hne => absurd hnil hne) fun _ => rfl

theorem Inv.count {ef : Bool} {tag : Tag}
    (hc : s.code t = Instr.count ef tag :: k) :
    Inv ((s.onCpu c fun r =>
      { r with ncli := r.ncli + 1, intena := if r.ncli = 0 then ef else r.intena }).tag t
        (tag :: s.tags t) |>.goto t k) := by
  have hag := hon.agrees
  have hok := hon.ok
  have htags := hon.tags
  rw [ht] at htags
  rw [ht, hc] at hag hok
  refine h.local ht rfl (fun u hu => update_of_ne hu ..)
    (fun u hu => update_of_ne hu ..) (fun d hd => update_of_ne hd ..)
    (fun _ _ _ => Iff.rfl) (fun _ _ _ _ => rfl) h.locked (fun _ _ => rfl)
    (by rw [State.code_goto_self]; exact (h.tail_of hc).2.2) ⟨a.push tag, ?_⟩
  refine .of ht State.code_goto_self (update_self ..) ?_ hok.2
    ((update_self ..).trans (congrArg (tag :: ·) htags)) (ht ▸ hon.held)
    (fun lk hlk => List.mem_cons_of_mem tag (hon.tagged lk hlk))
    (fun lk hlk _ => hon.marked lk hlk (by rw [ht, hc]; nofun)) hon.settled (ht ▸ hon.running)
  refine agrees_plain (h.tail_of hc).1 ?_ (fun _ => ⟨hag.off (.inr rfl), ?_⟩) nofun
  · change (s.cpu c).ncli + 1 = (tag :: a.tags).length
    rw [hag.ncli, List.length_cons]
    rfl
  · -- the first `pushcli` sets `intena`, the others find it set
    change (if (s.cpu c).ncli = 0 then ef else (s.cpu c).intena) = a.ena
    by_cases hnil : a.tags = []
    · rw [hag.ncli, hnil]
      exact hok.1 hnil
    · have hpos : 0 < a.tags.length := List.length_pos_of_ne_nil hnil
      rw [if_neg (by rw [hag.ncli]; omega)]
      exact hag.saved (.inl hnil) rfl

theorem Inv.uncount {tag : Tag}
    (hc : s.code t = Instr.uncount tag :: k) (he : instr s c t k (.uncount tag) = some s') :
    Inv s' ∧ s'.panic = s.panic := by
  have hag := hon.agrees
  have hok := hon.ok
  have htags := hon.tags
  rw [ht] at htags
  rw [ht, hc] at hag hok
  obtain ⟨hmem, hfree, hok⟩ := hok
  have hpos : 0 < a.tags.length := List.length_pos_of_mem hmem
  have hne : a.tags ≠ [] := List.ne_nil_of_mem hmem
  have hncli := hag.ncli
  rw [instr, if_neg (by omega)] at he
  cases he
  refine ⟨h.local ht rfl (fun u hu => update_of_ne hu ..)
    (fun u hu => update_of_ne hu ..) (fun d hd => update_of_ne hd ..)
    (fun _ _ _ => Iff.rfl) (fun _ _ _ _ => rfl) h.locked (fun _ _ => rfl)
    (by rw [State.code_goto_self]; exact (h.tail_of hc).2.1) ⟨a.pop tag, ?_⟩, rfl⟩
  refine .of ht State.code_goto_self (update_self ..) ?_ hok
    ((update_self ..).trans (congrArg (·.erase tag) htags)) (ht ▸ hon.held)
    (fun lk hlk => ?_) (fun lk hlk _ => hon.marked lk hlk (by rw [ht, hc]; nofun)) hon.settled
    (ht ▸ hon.running)
  · refine ⟨?_, fun _ => hag.off (.inl hne), fun _ hno => (nomatch hno),
      fun _ _ => hag.saved (.inl hne) rfl⟩
    change (s.cpu c).ncli - 1 = (a.tags.erase tag).length
    rw [List.length_erase_of_mem hmem, hncli]
    omega
  · refine (List.mem_erase_of_ne ?_).mpr (hon.tagged lk hlk)
    rintro rfl
    exact hfree lk rfl hlk

/-- A held lock that is marked with the CPU is what `holding` finds. -/
theorem Inv.holding (hlk : lk ∈ a.held)
    (hbare : bare (s.code t) = none) : s.holding c lk = true := by
  have hlocked : (s.lock lk).locked = true :=
    (h.locked lk).mpr (by rw [(hon.held lk).mpr hlk]; rfl)
  rw [State.holding, hlocked, hon.marked lk hlk (by rw [ht, hbare]; nofun), decide_eq_true rfl]
  rfl

/-- A step of the holder of `lk`, or of a thread that takes it while nobody holds it, that concerns
this lock only. -/
theorem Inv.onLock {f : Lock → Lock}
    {o : Option Tid} (hmine : s.holder lk = some t ∨ s.holder lk = none)
    (ho : o = some t ∨ o = none) (hlocked : (f (s.lock lk)).locked = o.isSome)
    (hbare : ∀ lk' ≠ lk, bare (s.code t) ≠ some lk')
    (htail : ∀ i ∈ k'.tail, special i = false) (hagrees : Agrees (s.cpu c) a' k')
    (hok : Ok t k' a') (htags : a'.tags = a.tags) (hrunning : a'.running = a.running)
    (hheld : ∀ lk', lk' ∈ a'.held ↔ if lk' = lk then o = some t else lk' ∈ a.held)
    (htagged : lk ∈ a'.held → .lock lk ∈ a.tags)
    (hmarked : lk ∈ a'.held → bare k' ≠ some lk → (f (s.lock lk)).cpu = some c)
    (hsettled : a'.running = false → ptable ∈ a'.held) :
    Inv (((s.onLock lk f).hold lk o).goto t k') := by
  have hholder : ∀ lk' ≠ lk, (((s.onLock lk f).hold lk o).goto t k').holder lk' = s.holder lk' :=
    fun lk' hne => update_of_ne hne ..
  have hholder' : (((s.onLock lk f).hold lk o).goto t k').holder lk = o := update_self ..
  have hlock : ∀ lk' ≠ lk, (((s.onLock lk f).hold lk o).goto t k').lock lk' = s.lock lk' :=
    fun lk' hne => update_of_ne hne ..
  have hlock' : (((s.onLock lk f).hold lk o).goto t k').lock lk = f (s.lock lk) :=
    update_self ..
  refine h.local ht rfl (fun u hu => update_of_ne hu ..) (fun u hu => rfl)
    (fun d hd => rfl) (fun lk' u hu => ?_) (fun lk' u hu hu' => ?_) (fun lk' => ?_)
    (fun _ _ => rfl) (by rw [State.code_goto_self]; exact htail) ⟨a', ?_⟩
  · rcases eq_or_ne lk' lk with rfl | hne
    · rw [hholder']
      refine iff_of_false ?_ ?_
      · rcases ho with rfl | rfl
        · exact fun e => hu (Option.some.inj e).symm
        · nofun
      · rcases hmine with e | e <;> rw [e]
        · exact fun e => hu (Option.some.inj e).symm
        · nofun
    · rw [hholder lk' hne]
  · have hne : lk' ≠ lk := by
      rintro rfl
      rcases hmine with e | e <;> rw [e] at hu'
      · exact hu (Option.some.inj hu').symm
      · cases hu'
    rw [hlock lk' hne]
  · rcases eq_or_ne lk' lk with rfl | hne
    · rw [hlock', hholder', hlocked]
    · rw [hlock lk' hne, hholder lk' hne]
      exact h.locked lk'
  · refine .of ht State.code_goto_self rfl hagrees hok ?_ (fun lk' => ?_) (fun lk' hlk' => ?_)
      (fun lk' hlk' hb => ?_) hsettled (by rw [hrunning]; exact ht ▸ hon.running)
    · rw [htags, ← hon.tags, ht]
      rfl
    · rw [hheld lk']
      rcases eq_or_ne lk' lk with rfl | hne
      · rw [if_pos rfl, hholder']
      · rw [if_neg hne, hholder lk' hne, ← ht]
        exact hon.held lk'
    · rw [htags]
      rcases eq_or_ne lk' lk with rfl | hne
      · exact htagged hlk'
      · rw [hheld, if_neg hne] at hlk'
        exact hon.tagged lk' hlk'
    · rcases eq_or_ne lk' lk with rfl | hne
      · rw [hlock']
        exact hmarked hlk' hb
      · rw [hheld, if_neg hne] at hlk'
        rw [hlock lk' hne]
        exact hon.marked lk' hlk' (by rw [ht]; exact hbare lk' hne)

omit h hon ht in
theorem State.hold_self (s : State) (lk : Nat) : s.hold lk (s.holder lk) = s := by
  rw [State.hold, update_eq_self]

theorem Inv.xchg
    (hc : s.code t = Instr.xchg lk :: k) (hfree : (s.lock lk).locked = false) :
    Inv ((s.onLock lk ({ · with locked := true })).hold lk (some t) |>.goto t (setCpu lk :: k)) := by
  have hag := hon.agrees
  have hok := hon.ok
  rw [ht, hc] at hag hok
  have hnone : s.holder lk = none := by
    have := (h.locked lk).not.mp (by rw [hfree]; nofun)
    simpa using this
  have hag : Agrees (s.cpu c) a (Instr.setCpu lk :: k) := hag.same rfl rfl rfl
  have hag' : Agrees (s.cpu c) (a.take lk) (Instr.setCpu lk :: k) := hag.of rfl rfl
  refine h.onLock hon ht (.inr hnone) (.inl rfl) rfl (fun lk' _ => by rw [hc]; nofun)
    (h.tail_of hc).2.1 hag'
    ⟨Finset.mem_insert_self _ _, hok.2.2⟩ rfl rfl (fun lk' => ?_) (fun _ => hok.2.1)
    (fun _ hb => absurd rfl hb) fun hr => Finset.mem_insert_of_mem (hon.settled hr)
  change lk' ∈ insert lk a.held ↔ _
  split
  · next e =>
    subst e
    exact iff_of_true (Finset.mem_insert_self _ _) rfl
  · next hne => rw [Finset.mem_insert, or_iff_right hne]

theorem Inv.setCpu
    (hc : s.code t = Instr.setCpu lk :: k) :
    Inv ((s.onLock lk ({ · with cpu := some c })).goto t k) := by
  have hag := hon.agrees
  have hok := hon.ok
  rw [ht, hc] at hag hok
  have hmine : s.holder lk = some t := ht ▸ (hon.held lk).mpr hok.1
  have hstate : s.onLock lk ({ · with cpu := some c }) =
      (s.onLock lk ({ · with cpu := some c })).hold lk (some t) := by
    rw [← hmine]
    exact (State.hold_self _ lk).symm
  rw [hstate]
  refine h.onLock hon ht (.inl hmine) (.inl rfl) ((h.locked lk).mpr (by rw [hmine]; rfl))
    (fun lk' hne => by rw [hc]; exact fun e => hne (Option.some.inj e).symm) (h.tail_of hc).2.2
    (hag.same (plain_cases (h.tail_of hc).1).1 (plain_cases (h.tail_of hc).1).2.1
      (plain_cases (h.tail_of hc).1).2.2.1)
    hok.2 rfl rfl (fun lk' => ?_) (hon.tagged lk) (fun _ _ => rfl) hon.settled
  split
  · next e =>
    subst e
    exact iff_of_true hok.1 rfl
  · rfl

theorem Inv.clearCpu
    (hc : s.code t = Instr.clearCpu lk :: k) :
    Inv ((s.onLock lk ({ · with cpu := none })).goto t (unlock lk :: k)) := by
  have hag := hon.agrees
  have hok := hon.ok
  rw [ht, hc] at hag hok
  have hmine : s.holder lk = some t := ht ▸ (hon.held lk).mpr hok.1
  have hstate : s.onLock lk ({ · with cpu := none }) =
      (s.onLock lk ({ · with cpu := none })).hold lk (some t) := by
    rw [← hmine]
    exact (State.hold_self _ lk).symm
  rw [hstate]
  refine h.onLock hon ht (.inl hmine) (.inl rfl) ((h.locked lk).mpr (by rw [hmine]; rfl))
    (fun lk' _ => by rw [hc]; nofun) (h.tail_of hc).2.1 (hag.same rfl rfl rfl) hok rfl rfl
    (fun lk' => ?_) (hon.tagged lk) (fun _ hb => absurd rfl hb) hon.settled
  split
  · next e =>
    subst e
    exact iff_of_true hok.1 rfl
  · rfl

theorem Inv.unlock
    (hc : s.code t = Instr.unlock lk :: k) :
    Inv ((s.onLock lk ({ · with locked := false })).hold lk none |>.goto t k) := by
  have hag := hon.agrees
  have hok := hon.ok
  rw [ht, hc] at hag hok
  obtain ⟨hlk, hrun, hok⟩ := hok
  have hplain := plain_cases (h.tail_of hc).1
  have hag' : Agrees (s.cpu c) (a.drop lk) k :=
    (hag.same hplain.1 hplain.2.1 hplain.2.2.1).of rfl rfl
  refine h.onLock hon ht (.inl (ht ▸ (hon.held lk).mpr hlk)) (.inr rfl) rfl
    (fun lk' hne => by rw [hc]; exact fun e => hne (Option.some.inj e).symm) (h.tail_of hc).2.2
    hag' hok rfl rfl (fun lk' => ?_)
    (fun hno => absurd hno (Finset.notMem_erase _ _))
    (fun hno => absurd hno (Finset.notMem_erase _ _)) fun hr => ?_
  · change lk' ∈ a.held.erase lk ↔ _
    rw [Finset.mem_erase]
    split
    · next e => exact iff_of_false (fun hno => hno.1 e) nofun
    · next hne => rw [and_iff_right hne]
  · refine Finset.mem_erase.mpr ⟨fun e => ?_, hon.settled hr⟩
    exact Bool.noConfusion ((hrun e.symm).symm.trans hr)

end Instructions

theorem Inv.setState (h : Inv s) (hon : On s c a) (ht : s.cur c = .proc p) {st : ProcState}
    (hc : s.code (.proc p) = Instr.setState st :: k) :
    Inv ((s.setProc p st).goto (.proc p) k) := by
  have hag := hon.agrees
  have hok := hon.ok
  rw [ht, hc] at hag hok
  obtain ⟨-, hst, hptable, hok⟩ := hok
  refine h.local ht rfl (fun u hu => update_of_ne hu ..) (fun u hu => rfl)
    (fun d hd => rfl) (fun _ _ _ => Iff.rfl) (fun _ _ _ _ => rfl) h.locked
    (fun q hq => update_of_ne (fun e => hq (congrArg Tid.proc e.symm)) ..)
    (by rw [State.code_goto_self]; exact (h.tail_of hc).2.2) ⟨{ a with running := false }, ?_⟩
  have hag' : Agrees (s.cpu c) { a with running := false } k :=
    (hag.plain rfl (h.tail_of hc).1).of rfl rfl
  refine .of ht State.code_goto_self rfl hag' hok (ht ▸ hon.tags) (ht ▸ hon.held) hon.tagged
    (fun lk hlk _ => hon.marked lk hlk (by rw [ht, hc]; nofun)) (fun _ => hptable) ?_
  rintro q ⟨⟩
  have hself : ((s.setProc p st).goto (.proc p) k).pstate p = st := update_self ..
  rw [hself]
  rcases hst with rfl | rfl
  · exact ⟨iff_of_false nofun nofun, nofun⟩
  · exact ⟨iff_of_false nofun nofun, nofun⟩

/-! ### Switching -/

/-- CPU `c` switches from its thread, which has `ptable.lock` only and goes on with `k'` later, to
the thread `u` that is on no CPU. -/
theorem Inv.switch (h : Inv s) (hon : On s c a) (ht : s.cur c = t) (honly : a.Only)
    (hbare : bare (s.code t) = none) (hu : ∀ d, s.cur d ≠ u) (hhome : ∀ d, u = .sched d → d = c)
    (hresume : Resumable u (s.code u)) (hk' : Resumable t k')
    (htail : ∀ i ∈ k'.tail, special i = false) (st : Nat → ProcState)
    (hsame : ∀ q, u ≠ .proc q → st q = s.pstate q) (hrun : ∀ q, u = .proc q → st q = RUNNING) :
    Inv ({ s with pstate := st, code := update s.code t k' }.switch c u) := by
  have hne : u ≠ t := fun e => hu c (ht.trans e.symm)
  have hag := hon.agrees
  have hoff : (s.cpu c).iflag = false := hag.off (.inl (by rw [honly.1]; nofun))
  have hncli : (s.cpu c).ncli = 1 := by rw [hag.ncli, honly.1]; rfl
  have hmine : ∀ lk, s.holder lk = some t ↔ lk = ptable := fun lk => by
    rw [← ht, hon.held lk, honly.2, Finset.mem_singleton]
  set s₁ := { s with pstate := st, code := update s.code t k' }.switch c u with hs₁
  have hcur : s₁.cur = update s.cur c u := rfl
  have hcode : s₁.code = update s.code t k' := rfl
  have htags : s₁.tags = update (update s.tags u (s.tags t)) t [] := by
    rw [hs₁, ← ht]
    rfl
  have hholder : ∀ lk, s₁.holder lk = if lk = ptable then some u else s.holder lk := fun lk => by
    change (if s.holder lk = some (s.cur c) then some u else s.holder lk) = _
    rw [ht]
    exact if_congr (hmine lk) rfl rfl
  have hother : ∀ v, v ≠ t → v ≠ u → ∀ lk, (s₁.holder lk = some v ↔ s.holder lk = some v) := by
    intro v hv hvu lk
    rw [hholder]
    split
    · next e =>
      rw [(hmine lk).mpr e]
      exact iff_of_false (fun e => hvu (Option.some.inj e).symm) fun e => hv (Option.some.inj e).symm
    · rfl
  refine ⟨?_, ?_, fun d => ?_, fun v hv hp => ?_, fun v hv lk => ?_, fun lk => ?_, fun v => ?_⟩
  · -- nobody else runs on two CPUs, and `u` ran on none
    intro d d' e
    rw [hcur] at e
    rcases eq_or_ne d c with hd | hd <;> rcases eq_or_ne d' c with hd' | hd'
    · exact hd.trans hd'.symm
    · rw [hd, update_self, update_of_ne hd'] at e
      exact absurd e.symm (hu d')
    · rw [hd', update_self, update_of_ne hd] at e
      exact absurd e (hu d)
    · rw [update_of_ne hd, update_of_ne hd'] at e
      exact h.apart e
  · intro d d' e
    rw [hcur] at e
    rcases eq_or_ne d c with rfl | hd
    · rw [update_self] at e
      exact hhome d' e
    · rw [update_of_ne hd] at e
      exact h.home d d' e
  · rcases eq_or_ne d c with rfl | hd
    · -- the thread that goes on: `intena` is what the CPU has, or what `restore` will set
      have hcur' : s₁.cur d = u := update_self ..
      have hcode' : s₁.code u = s.code u := update_of_ne hne ..
      have htags' : s₁.tags u = [.lock ptable] := by
        rw [htags, update_of_ne hne, update_self, ← ht, hon.tags, honly.1]
      have hheld' : ∀ lk, s₁.holder lk = some u ↔ lk ∈ ({ptable} : Finset Nat) := by
        intro lk
        rw [hholder, Finset.mem_singleton]
        split
        · next e => exact iff_of_true rfl e
        · next e => exact iff_of_false (h.free u hu lk) e
      have hmark : ∀ lk ∈ ({ptable} : Finset Nat), (s₁.lock lk).cpu = some d := by
        intro lk hlk
        exact hon.marked lk (by rw [honly.2]; exact hlk) (by rw [ht, hbare]; nofun)
      have hrun' : ∀ q, u = .proc q → (s₁.pstate q = RUNNING ↔ true = true) ∧
          s₁.pstate q ≠ UNUSED := by
        intro q hq
        have e : s₁.pstate q = RUNNING := hrun q hq
        rw [e]
        exact ⟨iff_of_true rfl rfl, nofun⟩
      rcases hresume with ⟨b, k'', e, hok⟩ | ⟨hplain, hok⟩
      · refine ⟨resumed b, .of hcur' hcode' rfl ⟨hncli, fun _ => hoff, nofun, ?_⟩ hok htags' hheld'
          (fun lk hlk => ?_) (fun lk hlk _ => hmark lk hlk) nofun hrun'⟩
        · rw [e]
          exact fun _ hno => nomatch hno
        · rw [Finset.mem_singleton.mp hlk]
          exact List.mem_cons_self
      · refine ⟨resumed (s.cpu d).intena, .of hcur' hcode' rfl (agrees_plain hplain hncli
          (fun _ => ⟨hoff, rfl⟩) nofun) (hok _) htags' hheld' (fun lk hlk => ?_)
          (fun lk hlk _ => hmark lk hlk) nofun hrun'⟩
        rw [Finset.mem_singleton.mp hlk]
        exact List.mem_cons_self
    · obtain ⟨b, hb⟩ := h.on d
      have hnt : s.cur d ≠ t := fun e => hd (h.apart (e.trans ht.symm))
      have hnu : s.cur d ≠ u := hu d
      refine ⟨b, hb.frame (by rw [hcur, update_of_ne hd]) rfl
        (by rw [hcode, update_of_ne hnt]) ?_ (hother _ hnt hnu) (fun _ _ => rfl)
        fun q hq => hsame q fun e => hnu (hq.trans e.symm)⟩
      rw [htags, update_of_ne hnt, update_of_ne hnu]
  · have hvu : v ≠ u := fun e => hv c (by rw [hcur, update_self, e])
    rcases eq_or_ne v t with rfl | hvt
    · rw [hcode, update_self]
      exact hk'
    · rw [hcode, update_of_ne hvt]
      refine h.away v (fun d hd => ?_) fun q hq => ?_
      · have hdc : d ≠ c := by
          rintro rfl
          exact hvt (hd.symm.trans ht)
        exact hv d (by rw [hcur, update_of_ne hdc, hd])
      · have := hp q hq
        rwa [show s₁.pstate q = s.pstate q from hsame q fun e => hvu (hq.trans e.symm)] at this
  · have hvu : v ≠ u := fun e => hv c (by rw [hcur, update_self, e])
    rw [hholder]
    split
    · exact fun e => hvu (Option.some.inj e).symm
    · next hlk =>
      rcases eq_or_ne v t with rfl | hvt
      · exact fun e => hlk ((hmine lk).mp e)
      · refine h.free v (fun d hd => ?_) lk
        have hdc : d ≠ c := by
          rintro rfl
          exact hvt (hd.symm.trans ht)
        exact hv d (by rw [hcur, update_of_ne hdc, hd])
  · rw [hholder]
    split
    · next e => exact iff_of_true ((h.locked lk).mpr (by rw [(hmine lk).mpr e]; rfl)) rfl
    · exact h.locked lk
  · rcases eq_or_ne v t with rfl | hvt
    · rw [hcode, update_self]
      exact htail
    · rw [hcode, update_of_ne hvt]
      exact h.tail v

/-! ### Steps -/

theorem Inv.die (h : Inv s) (e : Panic) : Inv (s.die e) where
  apart := h.apart
  home := h.home
  on c := by
    obtain ⟨a, ha⟩ := h.on c
    exact ⟨a, ha.frame rfl rfl rfl rfl (fun _ => Iff.rfl) (fun _ _ => rfl) fun _ _ => rfl⟩
  away := h.away
  free := h.free
  locked := h.locked
  tail := h.tail

/-- No panic, but for a lock that is acquired twice. -/
def Calm (s s' : State) : Prop := s'.panic = s.panic ∨ s'.panic = some .acquire

theorem Inv.instr (h : Inv s) (hon : On s c a) (ht : s.cur c = t) (hc : s.code t = i :: k)
    (he : instr s c t k i = some s') : Inv s' ∧ Calm s s' := by
  have hag := hon.agrees
  have hok := hon.ok
  rw [ht, hc] at hag hok
  have hsp : ∀ {j}, s.code t = j :: k → special j = false → bare (s.code t) = none := by
    intro j hj hs
    rw [hj]
    exact (plain_cases (by rw [plain, hs]; rfl)).2.2.2
  cases i with
  | readeflags tag => cases he; exact ⟨h.readeflags hon ht hc, .inl rfl⟩
  | cli ef tag => cases he; exact ⟨h.cli hon ht hc, .inl rfl⟩
  | count ef tag => cases he; exact ⟨h.count hon ht hc, .inl rfl⟩
  | popCheck =>
    have hoff : (s.cpu c).iflag = false := hag.off (.inl hok.1)
    rw [Interrupts.instr, hoff] at he
    cases he
    exact ⟨h.advance hon ht hc rfl hok.2, .inl rfl⟩
  | uncount tag => exact (h.uncount hon ht hc he).imp_right .inl
  | popSti => cases he; exact ⟨h.popSti hon ht hc, .inl rfl⟩
  | acqCheck lk =>
    rw [Interrupts.instr] at he
    split at he
    · cases he
      exact ⟨h.die _, .inr rfl⟩
    · next hno =>
      cases he
      refine ⟨h.advance hon ht hc rfl (hok fun hlk => hno ?_), .inl rfl⟩
      exact h.holding hon ht hlk (hsp hc rfl)
  | xchg lk =>
    rw [Interrupts.instr] at he
    split at he
    · cases he
    · next hfree =>
      cases he
      exact ⟨h.xchg hon ht hc (by simpa using hfree), .inl rfl⟩
  | setCpu lk => cases he; exact ⟨h.setCpu hon ht hc, .inl rfl⟩
  | relCheck lk =>
    rw [Interrupts.instr, if_pos (h.holding hon ht hok.1 (hsp hc rfl))] at he
    cases he
    exact ⟨h.advance hon ht hc rfl hok.2, .inl rfl⟩
  | clearCpu lk => cases he; exact ⟨h.clearCpu hon ht hc, .inl rfl⟩
  | unlock lk => cases he; exact ⟨h.unlock hon ht hc, .inl rfl⟩
  | setState st =>
    obtain ⟨p, rfl⟩ := hok.1
    cases he
    exact ⟨h.setState hon ht hc, .inl rfl⟩
  | schedCheck =>
    -- none of the four tests fails
    obtain ⟨⟨p, rfl⟩, honly, hrun, hok⟩ := hok
    have hhold : s.holding c ptable = true :=
      h.holding hon ht (by rw [honly.2]; exact Finset.mem_singleton_self _) (hsp hc rfl)
    have hncli : (s.cpu c).ncli = 1 := by rw [hag.ncli, honly.1]; rfl
    have hst : s.pstate p ≠ RUNNING := fun e =>
      Bool.noConfusion (hrun.symm.trans ((hon.running p ht).1.mp e))
    have hoff : (s.cpu c).iflag = false := hag.off (.inl (by rw [honly.1]; nofun))
    rw [Interrupts.instr, hhold, hncli, hoff] at he
    simp only [ne_eq, not_true_eq_false, Bool.true_eq_false, Bool.false_eq_true, if_false, hst] at he
    cases he
    exact ⟨h.advance hon ht hc rfl hok, .inl rfl⟩
  | save =>
    obtain ⟨hp, honly, hrun, hok⟩ := hok
    have hena : (s.cpu c).intena = a.ena := hag.saved (.inl (by rw [honly.1]; nofun)) rfl
    cases he
    refine ⟨h.goto hon ht (hsp hc rfl)
      (h.tail_of hc).2.1 (hag.same rfl rfl rfl) ⟨hp, honly, hrun, hena, hok⟩,
      .inl rfl⟩
  | swtch b =>
    obtain ⟨⟨p, rfl⟩, honly, -, rfl, hok⟩ := hok
    have hu : ∀ d, s.cur d ≠ .sched c := fun d e => by
      obtain rfl := h.home d c e
      cases ht.symm.trans e
    have hresume := h.away (.sched c) hu nofun
    have hk' : Resumable (.proc p) (Instr.restore a.ena :: k) :=
      .inl ⟨a.ena, k, rfl, rfl, by nofun, hok⟩
    have := h.switch hon ht honly (by rw [hc]; rfl) hu (fun d e => (Tid.sched.inj e).symm) hresume
      hk' (h.tail_of hc).2.1 s.pstate (fun _ _ => rfl) nofun
    cases he
    exact ⟨this, .inl rfl⟩
  | restore b => cases he; exact ⟨h.restore hon ht hc, .inl rfl⟩
  | ret snap => cases he; exact ⟨h.advance hon ht hc rfl hok.2.2.2, .inl rfl⟩
  | iret b =>
    rw [Interrupts.instr] at he
    split at he
    · next htags =>
      have hnil : a.tags = [] := by rw [← hon.tags, ht, htags]
      cases he
      refine ⟨h.setFlag hon ht hc rfl hnil ?_, .inl rfl⟩
      rw [hok.1.of_nil hnil]
      exact hok.2
    · cases he
  | loop =>
    obtain ⟨hsched, hnil, hempty, hrun⟩ := hok
    cases he
    refine ⟨h.goto hon ht (hsp hc rfl)
      (by decide) (hag.plain rfl rfl) ⟨hnil, ok_acquire ?_ ⟨hsched, ⟨?_, ?_⟩, hrun⟩⟩,
      .inl rfl⟩
    · rw [hempty]
      exact Finset.notMem_empty _
    · exact congrArg (Tag.lock ptable :: ·) hnil
    · exact congrArg (insert ptable) hempty
  | sti => cases he; exact ⟨h.setFlag hon ht hc rfl hok.1 hok.2, .inl rfl⟩
  | top => cases he
  | go => cases he

theorem Inv.exec (h : Inv s) (he : exec s c = some s') : Inv s' ∧ Calm s s' := by
  obtain ⟨a, hon⟩ := h.on c
  rw [Interrupts.exec] at he
  split at he
  · cases he
  · next i k hc => exact h.instr hon rfl hc he

theorem Inv.interrupt (h : Inv s) (hflag : (s.cpu c).iflag = true) :
    Inv ((s.onCpu c ({ · with iflag := false })).goto (s.cur c)
      (Instr.iret true :: s.code (s.cur c))) := by
  obtain ⟨a, hon⟩ := h.on c
  have hag := hon.agrees
  have hok := hon.ok
  have hnil : a.tags = [] := by
    by_contra hne
    exact Bool.noConfusion (hflag.symm.trans (hag.off (.inl hne)))
  have hempty : a.held = ∅ := Finset.eq_empty_of_forall_notMem fun lk hlk => by
    have := hon.tagged lk hlk
    rw [hnil] at this
    cases this
  have hrun : a.running = true := Bool.of_not_eq_false fun hr => by
    have := hon.settled hr
    rw [hempty] at this
    exact Finset.notMem_empty _ this
  -- so it is not in the middle of anything
  have hplain : plain (s.code (s.cur c)) = true := by
    cases hc : s.code (s.cur c) with
    | nil => rfl
    | cons i k =>
      rw [hc] at hag hok
      cases i with
      | count | popSti => exact Bool.noConfusion (hflag.symm.trans (hag.off (.inr rfl)))
      | setCpu lk | unlock lk =>
        have := hok.1
        rw [hempty] at this
        exact absurd this (Finset.notMem_empty _)
      | swtch b =>
        have := hok.2.1.1
        rw [hnil] at this
        cases this
      | restore b => exact absurd hnil hok.2.1
      | _ => rfl
  have hena : a.ena = true := (hag.live hnil (plain_cases hplain).1).symm.trans hflag
  have ha : a = ⟨true, [], ∅, true⟩ := by
    obtain ⟨ena, tags, held, running⟩ := a
    subst hnil hempty hrun hena
    rfl
  refine h.onCpu hon rfl (plain_cases hplain).2.2.2 ?_ false
    (agrees_plain rfl hag.ncli (fun hne => absurd hnil hne) fun _ => rfl) ⟨?_, ?_⟩
  · intro j hj
    cases hc : s.code (s.cur c) with
    | nil =>
      rw [hc] at hj
      cases hj
    | cons i k =>
      rw [hc] at hj hplain
      rcases List.mem_cons.mp hj with rfl | hj
      · simpa [plain] using hplain
      · have := h.tail (s.cur c) j
        rw [hc] at this
        exact this hj
  · subst ha
    exact ⟨fun lk => iff_of_false (Finset.notMem_empty _) List.not_mem_nil, fun lk => Nat.zero_le _,
      rfl⟩
  · rw [← ha]
    exact hok

/-! ### Calls -/

/-- Between calls the books are in order, and any orderly state will do for what follows. -/
theorem ok_idle (hidle : idle t k = true) (h : Ok t k a) :
    a.Rest ∧ ∀ a' : Abs, a'.Rest → Ok t k a' := by
  cases k with
  | nil => exact ⟨h, fun _ h' => h'⟩
  | cons i k =>
    cases i with
    | iret b => exact ⟨h.1, fun _ h' => ⟨h', h.2⟩⟩
    | _ => cases t <;> cases hidle

theorem plain_idle (hidle : idle t k = true) : plain k = true := by
  cases k with
  | nil => rfl
  | cons i k =>
    cases i with
    | iret b => rfl
    | _ => cases t <;> cases hidle

theorem Inv.begin (h : Inv s) (hon : On s c a) (ht : s.cur c = t) (hplain : plain (s.code t) = true)
    (hk' : plain k' = true) (htail : ∀ i ∈ k'.tail, special i = false) (hok : Ok t k' a) :
    Inv (s.goto t k') := by
  have hag := hon.agrees
  rw [ht] at hag
  exact h.goto hon ht
    (plain_cases hplain).2.2.2 htail (hag.plain hplain hk') hok

theorem own_ne (lk : Nat) : Tag.own ≠ .lock lk := nofun

theorem Abs.Rest.push_own (h : a.Rest) : (a.push .own).Rest where
  held lk := by
    change lk ∈ a.held ↔ Tag.lock lk ∈ Tag.own :: a.tags
    rw [List.mem_cons, or_iff_right (own_ne lk).symm]
    exact h.held lk
  once lk := by
    change (Tag.own :: a.tags).count (.lock lk) ≤ 1
    rw [List.count_cons_of_ne (own_ne lk)]
    exact h.once lk
  running := h.running

theorem Abs.Rest.pop_own (h : a.Rest) : (a.pop .own).Rest where
  held lk := by
    change lk ∈ a.held ↔ Tag.lock lk ∈ a.tags.erase .own
    rw [List.mem_erase_of_ne (own_ne lk).symm]
    exact h.held lk
  once lk := (List.Sublist.count_le _ List.erase_sublist).trans (h.once lk)
  running := h.running

theorem Abs.Rest.acquired (h : a.Rest) (hlk : lk ∉ a.held) :
    ((a.push (.lock lk)).take lk).Rest where
  held lk' := by
    change lk' ∈ insert lk a.held ↔ Tag.lock lk' ∈ Tag.lock lk :: a.tags
    rw [Finset.mem_insert, List.mem_cons, h.held lk', Tag.lock.injEq]
  once lk' := by
    change (Tag.lock lk :: a.tags).count (.lock lk') ≤ 1
    rcases eq_or_ne lk lk' with rfl | hne
    · rw [List.count_cons_self, List.count_eq_zero_of_not_mem fun hmem => hlk ((h.held lk).mpr hmem)]
    · rw [List.count_cons_of_ne fun e => hne (Tag.lock.inj e)]
      exact h.once lk'
  running := h.running

theorem Abs.Rest.released (h : a.Rest) : ((a.drop lk).pop (.lock lk)).Rest where
  held lk' := by
    change lk' ∈ a.held.erase lk ↔ Tag.lock lk' ∈ a.tags.erase (.lock lk)
    rw [Finset.mem_erase, h.held lk']
    rcases eq_or_ne lk' lk with rfl | hne
    · refine iff_of_false (fun hno => hno.1 rfl) fun hmem => ?_
      -- there was only one
      have hpos := List.count_pos_iff.mpr hmem
      have honce := h.once lk'
      rw [List.count_erase_self] at hpos
      omega
    · rw [and_iff_right hne, List.mem_erase_of_ne fun e => hne (Tag.lock.inj e)]
  once lk' := (List.Sublist.count_le _ List.erase_sublist).trans (h.once lk')
  running := h.running

theorem special_acquire (hk : ∀ i ∈ k, special i = false) :
    ∀ i ∈ (acquire lk k), special i = false := by
  simpa [acquire, special] using hk

theorem special_release (hk : ∀ i ∈ k, special i = false) :
    ∀ i ∈ (release lk k), special i = false := by
  simpa [release, special] using hk

theorem special_sched (hk : ∀ i ∈ k, special i = false) :
    ∀ i ∈ (sched k), special i = false := by
  simpa [sched, special] using hk

theorem special_yield (hk : ∀ i ∈ k, special i = false) :
    ∀ i ∈ (yield k), special i = false := by
  refine special_acquire (List.forall_mem_cons.mpr ⟨rfl, special_sched (special_release hk)⟩)

theorem special_sleep (hk : ∀ i ∈ k, special i = false) :
    ∀ i ∈ (sleep lk k), special i = false := by
  rw [sleep]
  split
  · exact List.forall_mem_cons.mpr ⟨rfl, special_sched hk⟩
  · exact special_acquire (special_release (List.forall_mem_cons.mpr
      ⟨rfl, special_sched (special_release (special_acquire hk))⟩))

/-- `yield` and `sleep` are called with no open `pushcli` of the thread's own. -/
def Closed (s : State) : Act → Prop
  | .call c .yield => .own ∉ s.tags (s.cur c)
  | .call c (.sleep _) => .own ∉ s.tags (s.cur c)
  | _ => True

theorem locks_eq {ts : List Tag} (h : .own ∉ ts) : locks ts = ts := by
  refine List.filter_eq_self.mpr fun x hx => decide_eq_true ?_
  rintro rfl
  exact h hx

/-- What a thread between calls finds is its own interrupt state. -/
theorem snap_spec (hon : On s c a) (hplain : plain (s.code (s.cur c)) = true) :
    (s.snap c).ena = a.ena ∧ (s.snap c).tags = a.tags ∧
      (s.snap c).iflag = if a.tags = [] then a.ena else false := by
  have hag := hon.agrees
  have hflags := plain_cases hplain
  refine ⟨?_, hon.tags, ?_⟩
  · rw [State.snap, hag.ncli]
    dsimp only
    by_cases hnil : a.tags = []
    · rw [hnil, if_pos (by rfl)]
      exact hag.live hnil hflags.1
    · have hpos : 0 < a.tags.length := List.length_pos_of_ne_nil hnil
      rw [if_neg (by omega)]
      exact hag.saved (.inl hnil) hflags.2.2.1
  · rw [State.snap]
    dsimp only
    split
    · next hnil => exact hag.live hnil hflags.1
    · next hne => exact hag.off (.inl hne)

/-- A process that is on a CPU and not `RUNNING` is not between calls, but on its way into the
scheduler with `ptable.lock`. -/
theorem Inv.off_of_state (h : Inv s) (hon : On s c a) (hrest : a.running = true)
    (hholder : s.holder ptable = some (s.cur c)) (hst : s.pstate p ≠ RUNNING) :
    ∀ d, s.cur d ≠ .proc p := by
  intro d hd
  obtain ⟨b, hb⟩ := h.on d
  have hrun : b.running = false := Bool.eq_false_iff.mpr fun e => hst ((hb.running p hd).1.mpr e)
  have hmine := (hb.held ptable).mpr (hb.settled hrun)
  obtain rfl : c = d := h.apart (Option.some.inj (hholder.symm.trans hmine))
  have := (hon.running p hd).1.mpr hrest
  exact hst this

/-- The state of a process that is on no CPU is changed, and perhaps its code. -/
theorem Inv.setAway (h : Inv s) (hp : ∀ d, s.cur d ≠ .proc p) (st : ProcState)
    (hk' : Resumable (.proc p) k') (htail : ∀ i ∈ k'.tail, special i = false) :
    Inv ((s.setProc p st).goto (.proc p) k') where
  apart := h.apart
  home := h.home
  on d := by
    obtain ⟨a, ha⟩ := h.on d
    refine ⟨a, ha.frame rfl rfl (update_of_ne (hp d) ..) rfl (fun _ => Iff.rfl)
      (fun _ _ => rfl) fun q hq => update_of_ne ?_ ..⟩
    rintro rfl
    exact hp d hq
  away u hu hst := by
    rcases eq_or_ne u (.proc p) with rfl | hne
    · rw [State.code_goto_self]
      exact hk'
    · rw [State.code_goto_of_ne hne]
      refine h.away u hu fun q hq => ?_
      have := hst q hq
      rwa [show ((s.setProc p st).goto (.proc p) k').pstate q = s.pstate q from
        update_of_ne (fun e => hne (hq.trans (congrArg Tid.proc e))) ..] at this
  free := h.free
  locked := h.locked
  tail u := by
    rcases eq_or_ne u (.proc p) with rfl | hne
    · rw [State.code_goto_self]
      exact htail
    · rw [State.code_goto_of_ne hne]
      exact h.tail u

theorem resumable_forkret : Resumable (.proc p) forkret := by
  refine .inr ⟨rfl, fun ena => ok_release (Finset.mem_singleton_self _) (fun _ => rfl)
    List.mem_cons_self ?_⟩
  have hrest : ∀ b, Abs.Rest ⟨b, [], ∅, true⟩ := fun b =>
    ⟨fun lk => iff_of_false (Finset.notMem_empty _) List.not_mem_nil, fun _ => Nat.zero_le _, rfl⟩
  rw [release_resumed]
  exact ⟨hrest ena, hrest true⟩

theorem Inv.call (h : Inv s) (hidle : idle (s.cur c) (s.code (s.cur c)) = true)
    (hclosed : Closed s (.call c op)) (he : call s c op = some s') : Inv s' ∧ s'.panic = s.panic := by
  obtain ⟨a, hon⟩ := h.on c
  have hplain := plain_idle hidle
  obtain ⟨hrest, hnext⟩ := ok_idle hidle hon.ok
  have hstatic : ∀ i ∈ s.code (s.cur c), special i = false := by
    intro i hi
    cases hc : s.code (s.cur c) with
    | nil =>
      rw [hc] at hi
      cases hi
    | cons j k =>
      rw [hc] at hi hplain
      rcases List.mem_cons.mp hi with rfl | hi
      · simpa [plain] using hplain
      · exact (h.tail_of hc).2.1 i hi
  cases op with
  | acquire lk =>
    cases he
    refine ⟨h.begin hon rfl hplain rfl
      (fun i hi => special_acquire hstatic i (List.mem_of_mem_tail hi)) ?_, rfl⟩
    intro hlk
    exact ok_acquire hlk (hnext _ (hrest.acquired hlk)) hlk
  | release lk =>
    simp only [Interrupts.call] at he
    split at he
    · next hmine =>
      cases he
      have hlk := (hon.held lk).mp hmine
      refine ⟨h.begin hon rfl hplain rfl
        (fun i hi => special_release hstatic i (List.mem_of_mem_tail hi)) ?_, rfl⟩
      exact ok_release hlk (fun _ => hrest.running) ((hrest.held lk).mp hlk)
        (hnext _ hrest.released)
    · cases he
  | pushcli =>
    cases he
    exact ⟨h.begin hon rfl hplain rfl hstatic (hnext _ hrest.push_own), rfl⟩
  | popcli =>
    simp only [Interrupts.call] at he
    split at he
    · next hown =>
      cases he
      rw [hon.tags] at hown
      refine ⟨h.begin hon rfl hplain rfl (List.forall_mem_cons.mpr ⟨rfl, hstatic⟩) ?_, rfl⟩
      exact ⟨List.ne_nil_of_mem hown, hown, fun lk e => absurd e (own_ne lk),
        hnext _ hrest.pop_own⟩
    · cases he
  | yield =>
    simp only [Interrupts.call] at he
    split at he
    · next p hp =>
      split at he
      · next hlocks =>
        cases he
        have hnil : a.tags = [] := by
          rw [← hon.tags, ← locks_eq hclosed, hp, hlocks]
        have hsnap := snap_spec hon hplain
        have hok := hnext a hrest
        rw [hp] at hplain hstatic hok
        refine ⟨h.begin hon hp hplain rfl (fun i hi => special_yield
          (List.forall_mem_cons.mpr ⟨rfl, hstatic⟩) i (List.mem_of_mem_tail hi)) ?_, rfl⟩
        have ha := hrest.of_nil hnil
        have hret : Ok (.proc p) (Instr.ret (s.snap c) :: s.code (.proc p)) a :=
          ⟨hsnap.1, hsnap.2.1, hsnap.2.2, hok⟩
        rw [ha] at hret ⊢
        exact ok_yield ⟨p, rfl⟩ hret
      · cases he
    · cases he
  | sleep lk =>
    simp only [Interrupts.call] at he
    split at he
    · next p hp =>
      split at he
      · next hlocks =>
        cases he
        have hone : a.tags = [.lock lk] := by
          rw [← hon.tags, ← locks_eq hclosed, hp, hlocks]
        have hsnap := snap_spec hon hplain
        have hok := hnext a hrest
        rw [hp] at hplain hstatic hok
        have ha := hrest.of_lock hone
        have hret : Ok (.proc p) (Instr.ret (s.snap c) :: s.code (.proc p)) a :=
          ⟨hsnap.1, hsnap.2.1, hsnap.2.2, hok⟩
        refine ⟨h.begin hon hp hplain ?_ (fun i hi => special_sleep
          (List.forall_mem_cons.mpr ⟨rfl, hstatic⟩) i (List.mem_of_mem_tail hi)) ?_, rfl⟩
        · rw [sleep]
          split <;> rfl
        · rw [ha] at hret ⊢
          exact ok_sleep ⟨p, rfl⟩ hret
      · cases he
    · cases he
  | wakeup p =>
    simp only [Interrupts.call] at he
    split at he
    · next hcond =>
      cases he
      have hoff := h.off_of_state hon hrest.running hcond.1 (p := p) (by rw [hcond.2]; nofun)
      have hresume : Resumable (.proc p) (s.code (.proc p)) := by
        refine h.away _ hoff ?_
        rintro q ⟨⟩
        rw [hcond.2]
        nofun
      have := h.setAway hoff RUNNABLE hresume (h.tail _)
      rw [State.goto, show (s.setProc p RUNNABLE).code = s.code from rfl,
        update_eq_self] at this
      exact ⟨this, rfl⟩
    · cases he
  | spawn p =>
    simp only [Interrupts.call] at he
    split at he
    · next hunused =>
      cases he
      have hoff : ∀ d, s.cur d ≠ .proc p := fun d hd => by
        obtain ⟨b, hb⟩ := h.on d
        exact (hb.running p hd).2 hunused
      exact ⟨h.setAway hoff _ resumable_forkret (by decide), rfl⟩
    · cases he

theorem Inv.dispatch (h : Inv s) (hc : s.code (s.cur c) = [go]) (hst : s.pstate p = RUNNABLE) :
    Inv (((s.setProc p RUNNING).goto (s.cur c) [top]).switch c (.proc p)) := by
  obtain ⟨a, hon⟩ := h.on c
  have hok := hon.ok
  rw [hc] at hok
  obtain ⟨⟨d, hd⟩, honly, hrun⟩ := hok
  have hmine : s.holder ptable = some (s.cur c) :=
    (hon.held ptable).mpr (by rw [honly.2]; exact Finset.mem_singleton_self _)
  have hoff := h.off_of_state hon hrun hmine (p := p) (by rw [hst]; nofun)
  have hresume : Resumable (.proc p) (s.code (.proc p)) := by
    refine h.away _ hoff ?_
    rintro q ⟨⟩
    rw [hst]
    nofun
  have htop : Resumable (s.cur c) [top] := .inr ⟨rfl, fun ena => ⟨⟨d, hd⟩, ⟨rfl, rfl⟩, rfl⟩⟩
  refine h.switch hon rfl honly (by rw [hc]; rfl) hoff nofun hresume htop nofun
    (update s.pstate p RUNNING) (fun q hq => update_of_ne ?_ ..) ?_
  · rintro rfl
    exact hq rfl
  · rintro q ⟨⟩
    exact update_self ..

theorem Inv.step (h : Inv s) (hclosed : Closed s act) (he : step s act = some s') :
    Inv s' ∧ Calm s s' := by
  unfold Interrupts.step at he
  split at he
  · cases he
  cases act with
  | exec c => exact h.exec he
  | interrupt c =>
    dsimp only at he
    split at he
    · next hflag =>
      cases he
      exact ⟨h.interrupt hflag, .inl rfl⟩
    · cases he
  | call c op =>
    dsimp only at he
    split at he
    · next hidle => exact (h.call hidle hclosed he).imp_right .inl
    · cases he
  | choose c =>
    dsimp only at he
    split at he
    · next hc =>
      cases he
      obtain ⟨a, hon⟩ := h.on c
      have hok := hon.ok
      rw [hc] at hok
      refine ⟨h.begin hon rfl (by rw [hc]; rfl) rfl (by decide) ?_, .inl rfl⟩
      exact ⟨nofun, List.mem_cons_self, fun lk e => absurd e (own_ne lk), hok⟩
    · cases he
  | dispatch c p =>
    dsimp only at he
    split at he
    · next hcond =>
      cases he
      exact ⟨h.dispatch hcond.1 hcond.2, .inl rfl⟩
    · cases he
  | leave c =>
    dsimp only at he
    split at he
    · next hc =>
      cases he
      obtain ⟨a, hon⟩ := h.on c
      have hok := hon.ok
      rw [hc] at hok
      obtain ⟨hsched, honly, hrun⟩ := hok
      refine ⟨h.begin hon rfl (by rw [hc]; rfl) rfl (by decide) ?_, .inl rfl⟩
      refine ok_release (by rw [honly.2]; exact Finset.mem_singleton_self _) (fun _ => hrun)
        (by rw [honly.1]; exact List.mem_cons_self) ⟨hsched, ?_, ?_, hrun⟩
      · change a.tags.erase (.lock ptable) = []
        rw [honly.1]
        rfl
      · change a.held.erase ptable = ∅
        rw [honly.2]
        rfl
    · cases he

/-! ### Runs -/

theorem inv_init : Inv init where
  apart c d h := Tid.sched.inj h
  home c d h := (Tid.sched.inj h).symm
  on c := by
    refine ⟨⟨false, [], ∅, true⟩, ?_⟩
    exact {
      agrees := agrees_plain rfl rfl (fun h => absurd rfl h) fun _ => rfl
      ok := ⟨⟨c, rfl⟩, rfl, rfl, rfl⟩
      tags := rfl
      held := fun lk => ⟨nofun, nofun⟩
      tagged := nofun
      marked := nofun
      settled := nofun
      running := nofun }
  away t ht _ := by
    cases t with
    | proc p => exact resumable_forkret
    | sched c => exact absurd rfl (ht c)
  free _ _ _ := nofun
  locked _ := ⟨nofun, nofun⟩
  tail
    | .proc _ => (by decide : ∀ i ∈ forkret.tail, special i = false)
    | .sched _ => nofun

instance (s : State) (a : Act) : Decidable (Closed s a) :=
  match a with
  | .call c .yield => inferInstanceAs (Decidable (.own ∉ s.tags (s.cur c)))
  | .call c (.sleep _) => inferInstanceAs (Decidable (.own ∉ s.tags (s.cur c)))
  | .call _ (.acquire _) | .call _ (.release _) | .call _ .pushcli | .call _ .popcli
  | .call _ (.wakeup _) | .call _ (.spawn _) | .exec _ | .interrupt _ | .choose _ | .dispatch ..
  | .leave _ => isTrue trivial

/-- All calls of the run are as `Closed` says. -/
def ClosedRun : List Act → State → Prop
  | [], _ => True
  | a :: as, s => Closed s a ∧ ∀ s' ∈ step s a, ClosedRun as s'

instance decidableClosedRun : ∀ as s, Decidable (ClosedRun as s)
  | [], _ => isTrue trivial
  | a :: as, s =>
    have : ∀ s', Decidable (ClosedRun as s') := decidableClosedRun as
    inferInstanceAs (Decidable (_ ∧ ∀ s' ∈ step s a, ClosedRun as s'))

theorem Inv.run {acts : List Act} (h : Inv s) (hp : s.panic = none ∨ s.panic = some .acquire)
    (hclosed : ClosedRun acts s) (hr : run acts s = some s') :
    Inv s' ∧ (s'.panic = none ∨ s'.panic = some .acquire) := by
  induction acts generalizing s with
  | nil =>
    cases hr
    exact ⟨h, hp⟩
  | cons act acts ih =>
    obtain ⟨s₁, hs, hr⟩ := Option.bind_eq_some_iff.mp hr
    obtain ⟨hi, hcalm⟩ := h.step hclosed.1 hs
    refine ih hi ?_ (hclosed.2 s₁ hs) hr
    rcases hcalm with he | he
    · rw [he]
      exact hp
    · exact .inr he

/-- The interrupt state of each CPU is that of its thread. -/
structure Follows (s : State) : Prop where
  /-- Interrupts are off while `ncli` is positive. -/
  off : ∀ c, 0 < (s.cpu c).ncli → (s.cpu c).iflag = false
  /-- `ncli` counts the `pushcli` that the thread is responsible for. -/
  depth : ∀ c, (s.cpu c).ncli = (s.tags (s.cur c)).length
  /-- Every lock that it holds is among them, and between calls there is one `pushcli` for each lock
  that it holds, and the others are its own. -/
  mine : ∀ c lk, s.holder lk = some (s.cur c) → .lock lk ∈ s.tags (s.cur c)
  between : ∀ c, idle (s.cur c) (s.code (s.cur c)) = true → ∀ lk,
    (.lock lk ∈ s.tags (s.cur c) ↔ s.holder lk = some (s.cur c)) ∧
      (s.tags (s.cur c)).count (.lock lk) ≤ 1
  /-- A lock is taken when somebody holds it, who then runs on a CPU. -/
  locked : ∀ lk, (s.lock lk).locked = true ↔ ∃ c, s.holder lk = some (s.cur c)
  /-- A thread runs on one CPU at a time. -/
  apart : ∀ c d, s.cur c = s.cur d → c = d
  /-- `yield` and `sleep` return in the state in which they were called, on whatever CPU. -/
  returns : ∀ c snap k, s.code (s.cur c) = ret snap :: k → s.snap c = snap

theorem Inv.follows (h : Inv s) : Follows s where
  off c hpos := by
    obtain ⟨a, hon⟩ := h.on c
    refine hon.agrees.off (.inl fun hnil => ?_)
    rw [hon.agrees.ncli, hnil] at hpos
    cases hpos
  depth c := by
    obtain ⟨a, hon⟩ := h.on c
    rw [hon.tags]
    exact hon.agrees.ncli
  mine c lk hlk := by
    obtain ⟨a, hon⟩ := h.on c
    rw [hon.tags]
    exact hon.tagged lk ((hon.held lk).mp hlk)
  between c hidle lk := by
    obtain ⟨a, hon⟩ := h.on c
    have hrest := (ok_idle hidle hon.ok).1
    rw [hon.tags, hon.held lk]
    exact ⟨(hrest.held lk).symm, hrest.once lk⟩
  locked lk := by
    rw [h.locked lk]
    refine ⟨fun hs => ?_, fun ⟨c, hc⟩ => by rw [hc]; rfl⟩
    obtain ⟨t, ht⟩ := Option.isSome_iff_exists.mp hs
    -- a thread that is not on a CPU holds nothing
    by_contra hno
    refine h.free t (fun c hc => hno ⟨c, ?_⟩) lk ht
    rw [hc]
    exact ht
  apart c d he := h.apart he
  returns c snap k hk := by
    obtain ⟨a, hon⟩ := h.on c
    obtain ⟨hena, htags, hflag⟩ := snap_spec hon (by rw [hk]; rfl)
    have hok := hon.ok
    rw [hk] at hok
    obtain ⟨hena', htags', hflag', -⟩ := hok
    calc s.snap c = ⟨(s.snap c).iflag, (s.snap c).ena, (s.snap c).tags⟩ := rfl
      _ = ⟨snap.iflag, snap.ena, snap.tags⟩ := by
        rw [hflag, hena, htags, hflag', hena', htags']
      _ = snap := rfl

/-- **Interrupt state belongs to the kernel thread.** For any number of CPUs and processes, in every
run in which `yield` and `sleep` are called without an open `pushcli` of the caller's own, the
interrupt state of each CPU is that of its thread, and there is no panic but for a lock that is
acquired twice. -/
theorem interrupts_follow_threads {acts : List Act} {s : State} (hclosed : ClosedRun acts init)
    (hr : run acts init = some s) :
    Follows s ∧ (s.panic = none ∨ s.panic = some .acquire) :=
  (inv_init.run (.inl rfl) hclosed hr).imp_left Inv.follows

/-- The scheduler of CPU `c` takes `ptable.lock` and switches to process `p`. -/
def takeOver (c p : Nat) : List Act :=
  List.flatten [List.replicate 8 (.exec c), [.choose c], List.replicate 6 (.exec c),
    [.dispatch c p]]

/-- Process 0 starts on CPU 0, acquires lock 1 and sleeps with it; it is woken up from CPU 1
in an interrupt and returns from `sleep` on that CPU. -/
def migrate : List Act :=
  List.flatten [takeOver 0 0, List.replicate 7 (.exec 0),
    [.call 0 (.acquire 1)], List.replicate 6 (.exec 0),
    [.call 0 (.sleep 1)], List.replicate 16 (.exec 0),
    [.leave 0], List.replicate 6 (.exec 0),
    [.exec 1, .exec 1, .interrupt 1, .call 1 (.acquire 0)], List.replicate 6 (.exec 1),
    [.call 1 (.wakeup 0), .call 1 (.release 0)], List.replicate 7 (.exec 1),
    (takeOver 1 0).drop 2, List.replicate 13 (.exec 1)]

/-- Process 0 sleeps on CPU 0 and comes back on CPU 1. -/
theorem interrupts_follow_threads_migrate : ∃ s, run migrate init = some s ∧ s.cur 1 = .proc 0 ∧
    Follows s ∧ (s.panic = none ∨ s.panic = some .acquire) := by
  have hval : (run migrate init).map (fun s => (s.cur 1, s.code (.proc 0))) =
      some (.proc 0, [ret ⟨false, true, [.lock 1]⟩]) := by decide +kernel
  obtain ⟨s, hs, hcur⟩ := Option.map_eq_some_iff.mp hval
  have hclosed : ClosedRun migrate init := by decide +kernel
  exact ⟨s, hs, (Prod.mk.inj hcur).1, interrupts_follow_threads hclosed hs⟩

/-- Process 0 starts on CPU 0, and calls `pushcli` and then `yield`. -/
def openYield : List Act :=
  List.flatten [takeOver 0 0, List.replicate 7 (.exec 0), [.call 0 .pushcli],
    List.replicate 3 (.exec 0), [.call 0 .yield], List.replicate 8 (.exec 0)]

/-- A process that holds no lock calls `yield` with a `pushcli` open: `sched` panics. -/
theorem yield_with_pushcli : ∃ s, run openYield init = some s ∧ s.panic = some .schedLocks := by
  have hval : (run openYield init).map State.panic = some (some .schedLocks) := by decide +kernel
  exact Option.map_eq_some_iff.mp hval

end Interrupts

end Xv6
