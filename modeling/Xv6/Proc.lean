import Xv6.Sleep

/-!
# The process table

`proc.c`, instruction by instruction: `allocproc`, `fork`, `exit`, `wait`, `sleep`, `wakeup`,
`yield`, `kill` and `scheduler`, executed by the processes of a table of `n` slots on any number
of CPUs. What a process still has to do is a term of type `Code`; the loops over the table
take one step for each slot, and interleave with the assignments that `fork` makes to the new slot
without the lock.

Two assignments of one process to its own slot are one step where both are made under the lock
(`chan` and `state` in `sleep`; the fields that `wait` clears).
-/

namespace Xv6

namespace ProcTable

open ProcState Spinlock

/-- What a process sleeps on: a slot of the process table (in `wait`), or something else. -/
inductive Chan where
  | proc (p : Nat)
  | other (a : Nat)
  deriving DecidableEq, Repr

/-- `struct proc`, as far as `proc.c` decides anything on it. -/
structure Proc where
  state : ProcState
  pid : Int
  parent : Option Nat
  chan : Option Chan
  killed : Bool
  deriving DecidableEq, Repr

/-- `initproc`: `userinit` finds the first slot unused. -/
def initproc : Nat := 0

/-- What is left of the code that a process executes. -/
inductive Code where
  /-- Outside of `proc.c`. -/
  | user
  | acquire (k : Code)
  | release (k : Code)
  /-- `proc->chan = chan; proc->state = SLEEPING` -/
  | asleep (c : Chan) (k : Code)
  /-- `proc->state = RUNNABLE` -/
  | runnable (k : Code)
  /-- `sched()` up to its return. -/
  | sched (k : Code)
  /-- `proc->chan = 0` -/
  | clearChan (k : Code)
  /-- The loop of `wakeup1(chan)` at slot `i`. -/
  | wakeup1 (c : Option Chan) (i : Nat) (k : Code)
  /-- The loop of `allocproc` at slot `i`. -/
  | alloc (i : Nat)
  /-- `p->kstack = kalloc()` for slot `i`. -/
  | kstack (i : Nat)
  /-- `np->pgdir = copyuvm(proc->pgdir, proc->sz)` for slot `i`. -/
  | copyuvm (i : Nat)
  /-- `np->parent = proc` -/
  | setParent (i : Nat)
  /-- `np->state = RUNNABLE` -/
  | setRunnable (i : Nat)
  /-- `exit`, once it holds `ptable.lock`. -/
  | exit
  /-- The loop of `exit` at slot `i`. -/
  | reparent (i : Nat)
  /-- `proc->state = ZOMBIE` -/
  | zombie
  /-- After the `sched()` of `exit`. -/
  | dead
  /-- The loop of `wait` at slot `i`. -/
  | wait (i : Nat) (havekids : Bool)
  /-- The loop of `kill(pid)` at slot `i`. -/
  | kill (pid : Int) (i : Nat)
  deriving DecidableEq, Repr

open Code

/-- `wakeup(chan)`, followed by `k`. -/
def wakeup (c : Chan) (k : Code) : Code := acquire <| wakeup1 (some c) 0 <| release k

/-- `yield()`, followed by `k`. -/
def yield (k : Code) : Code := acquire <| runnable <| sched <| release k

/-- What a process can do with the process table. `sleep` stands for the calls from outside of
`proc.c`, which never sleep on a slot of the table. `trap` is the check of `killed` on the way
between the kernel and user space, `fault` a trap that user code causes. -/
inductive Call where
  | fork
  | exit
  | wait
  | kill (pid : Int)
  | sleep (a : Nat)
  | wakeup (c : Chan)
  | yield
  | trap
  | fault
  deriving DecidableEq, Repr

/-- What has happened, for the statements: slot `i` was taken for `pid`; `p` has forked `pid` in
slot `i`; `p` has exited; `wait` of `p` returned the `pid` of slot `i`; `kill(pid)` found slot
`i`; the process of slot `p` misbehaved; it was made to exit. -/
inductive Event where
  | alloc (i : Nat) (pid : Int)
  | fork (p i : Nat) (pid : Int)
  | exit (p : Nat)
  | reap (p i : Nat) (pid : Int)
  | kill (i : Nat) (pid : Int)
  | fault (p : Nat)
  | force (p : Nat)
  deriving DecidableEq, Repr

/-- The state of the machine: `ptable.lock`, `ptable.proc`, `nextpid`, who is on a CPU, where
everyone is in the code, and what has happened, latest first. -/
structure State where
  lock : Option Holder
  proc : Nat → Proc
  nextpid : Int
  onCpu : Nat → Bool
  code : Nat → Code
  hist : List Event

/-- The code runs with `ptable.lock` held. -/
def owns : Code → Bool
  | user => false
  | acquire _ => false
  | release _ => true
  | asleep _ k => owns k
  | runnable k => owns k
  | sched k => owns k
  | clearChan k => owns k
  | wakeup1 _ _ k => owns k
  | kstack _ => false
  | copyuvm _ => false
  | setParent _ => false
  | setRunnable _ => false
  | alloc _ => true
  | exit => true
  | reparent _ => true
  | zombie => true
  | dead => true
  | wait _ _ => true
  | kill _ _ => true

namespace State

/-- Process `p` goes on with the code `k`. -/
def goto (s : State) (p : Nat) (k : Code) : State :=
  { s with code := Function.update s.code p k }

/-- An assignment to slot `i`. -/
def set (s : State) (i : Nat) (f : Proc → Proc) : State :=
  { s with proc := Function.update s.proc i (f (s.proc i)) }

def log (s : State) (e : Event) : State := { s with hist := e :: s.hist }

end State

/-- The body of the loop of `wakeup1`. -/
def Proc.wake (c : Option Chan) (p : Proc) : Proc :=
  if p.state = SLEEPING ∧ p.chan = c then { p with state := RUNNABLE } else p

/-- What `kill` does to the process it finds. -/
def Proc.kill (p : Proc) : Proc :=
  { p with killed := true, state := if p.state = SLEEPING then RUNNABLE else p.state }

/-- What `wait` leaves of a zombie. -/
def Proc.free (p : Proc) : Proc :=
  { p with state := UNUSED, pid := 0, parent := none, killed := false }

/-- `n++` of an `int`. -/
def incr (n : Int) : Int := (n + 1).bmod (2 ^ 32)

/-- One instruction of process `p`. `ok` says whether `kalloc` or `copyuvm` succeed. A lock that
is not free is not taken: the process spins. -/
def exec (n : Nat) (s : State) (p : Nat) (ok : Bool) : Code → Option State
  | user => none
  | acquire k => if s.lock = none then some ({ s with lock := some (.proc p) }.goto p k) else none
  | release k =>
    if s.lock = some (.proc p) then some ({ s with lock := none }.goto p k) else none
  | asleep c k => some ((s.set p ({ · with chan := some c, state := SLEEPING })).goto p k)
  | runnable k => some ((s.set p ({ · with state := RUNNABLE })).goto p k)
  | sched k =>
    -- the CPU goes on with the scheduler, which holds `ptable.lock` from now on
    if s.lock = some (.proc p) then
      some ({ s with lock := some .scheduler, onCpu := Function.update s.onCpu p false }.goto p k)
    else none
  | clearChan k => some ((s.set p ({ · with chan := none })).goto p k)
  | wakeup1 c i k =>
    if i < n then some ((s.set i (Proc.wake c)).goto p (wakeup1 c (i + 1) k))
    else some (s.goto p k)
  | alloc i =>
    if i < n then
      if (s.proc i).state = UNUSED then
        some (({ s with nextpid := incr s.nextpid }.set i
          ({ · with state := EMBRYO, pid := s.nextpid })).log (.alloc i s.nextpid)
            |>.goto p (release (kstack i)))
      else some (s.goto p (alloc (i + 1)))
    else some (s.goto p (release user))
  | kstack i =>
    -- the context of the new process starts in `forkret`, with `ptable.lock` held
    if ok then some ((s.goto i (release user)).goto p (copyuvm i))
    else some ((s.set i ({ · with state := UNUSED })).goto p user)
  | copyuvm i =>
    if ok then some (s.goto p (setParent i))
    else some ((s.set i ({ · with state := UNUSED })).goto p user)
  | setParent i => some ((s.set i ({ · with parent := some p })).goto p (setRunnable i))
  | setRunnable i =>
    some ((s.set i ({ · with state := RUNNABLE })).log (.fork p i (s.proc i).pid) |>.goto p user)
  | exit => some (s.goto p (wakeup1 ((s.proc p).parent.map .proc) 0 (reparent 0)))
  | reparent i =>
    if i < n then
      if (s.proc i).parent = some p then
        some ((s.set i ({ · with parent := some initproc })).goto p
          (if (s.proc i).state = ZOMBIE then
            wakeup1 (some (.proc initproc)) 0 (reparent (i + 1))
          else reparent (i + 1)))
      else some (s.goto p (reparent (i + 1)))
    else some (s.goto p zombie)
  | zombie => some ((s.set p ({ · with state := ZOMBIE })).log (.exit p) |>.goto p (sched dead))
  | dead => none
  | wait i havekids =>
    if i < n then
      if (s.proc i).parent = some p then
        if (s.proc i).state = ZOMBIE then
          some ((s.set i Proc.free).log (.reap p i (s.proc i).pid) |>.goto p (release user))
        else some (s.goto p (wait (i + 1) true))
      else some (s.goto p (wait (i + 1) havekids))
    else if !havekids || (s.proc p).killed then some (s.goto p (release user))
    else some (s.goto p (asleep (.proc p) (sched (clearChan (wait 0 false)))))
  | kill pid i =>
    if i < n then
      if (s.proc i).pid = pid then
        some ((s.set i Proc.kill).log (.kill i pid) |>.goto p (release user))
      else some (s.goto p (kill pid (i + 1)))
    else some (s.goto p (release user))

/-- Process `p` makes a call. `init` never exits: the kernel panics. -/
def call (s : State) (p : Nat) : Call → Option State
  | .fork => some (s.goto p (acquire (alloc 0)))
  | .exit => if p = initproc then none else some (s.goto p (acquire exit))
  | .wait => some (s.goto p (acquire (wait 0 false)))
  | .kill pid => some (s.goto p (acquire (kill pid 0)))
  | .sleep a => some (s.goto p (acquire (asleep (.other a) (sched (clearChan (release user))))))
  | .wakeup c => some (s.goto p (wakeup c user))
  | .yield => some (s.goto p (yield user))
  | .trap =>
    if (s.proc p).killed then
      if p = initproc then none else some ((s.log (.force p)).goto p (acquire exit))
    else some s
  | .fault => some ((s.set p ({ · with killed := true })).log (.fault p))

/-- The steps of the machine: a process makes a call, executes an instruction, or is interrupted,
by a clock tick or by a device that wakes up processes; a scheduler takes `ptable.lock`,
switches to a process, or drops the lock. -/
inductive Act where
  | call (p : Nat) (c : Call)
  | exec (p : Nat) (ok : Bool)
  | tick (p : Nat)
  | device (p : Nat) (c : Chan)
  | lockTable
  | dispatch (p : Nat)
  | unlockTable
  deriving DecidableEq, Repr

def step (n : Nat) (s : State) : Act → Option State
  | .call p c => if p < n ∧ s.onCpu p = true ∧ s.code p = user then call s p c else none
  | .exec p ok => if p < n ∧ s.onCpu p = true then exec n s p ok (s.code p) else none
  | .tick p =>
    -- interrupts are off while a process holds a spin lock
    if p < n ∧ s.onCpu p = true ∧ owns (s.code p) = false then
      some (s.goto p (yield (s.code p)))
    else none
  | .device p c =>
    if p < n ∧ s.onCpu p = true ∧ owns (s.code p) = false then
      some (s.goto p (wakeup c (s.code p)))
    else none
  | .lockTable => if s.lock = none then some { s with lock := some .scheduler } else none
  | .dispatch p =>
    if p < n ∧ s.lock = some .scheduler ∧ (s.proc p).state = RUNNABLE then
      some { s.set p ({ · with state := RUNNING }) with
        lock := some (.proc p), onCpu := Function.update s.onCpu p true }
    else none
  | .unlockTable => if s.lock = some .scheduler then some { s with lock := none } else none

/-- The table after `userinit`: the first process is ready to run, all other slots are as the
boot loader cleared them. -/
def init : State where
  lock := none
  proc i :=
    if i = initproc then ⟨RUNNABLE, 1, none, none, false⟩ else ⟨UNUSED, 0, none, none, false⟩
  nextpid := 2
  onCpu _ := false
  code _ := release user
  hist := [.alloc initproc 1]

def runActs (n : Nat) : List Act → State → Option State
  | [], s => some s
  | a :: as, s => (step n s a).bind (runActs n as)

end ProcTable

end Xv6
