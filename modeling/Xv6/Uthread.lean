import Xv6.Lib.Cyclic

/-!
# User-level threads

`uthread.c`: the threads that a process schedules by itself, in a table of `MAX_UTHREADS` pointers.
The calls run to completion one after the other, so one step of the machine is one call, made
by `main` or by the running thread. `malloc` may fail at any time; what it returns otherwise is
any block that is not in use.

The table is right after every call (`Inv`), unless `uthread_create` gets a `uthread_t` and no
stack: it frees the `uthread_t` and leaves the pointer to it in the table
(`dangling_after_failed_create`).
-/

open Function Finset

namespace Xv6

namespace Uthread

def MAX_UTHREADS : Nat := 64

def UTHREAD_STACK_SIZE : Nat := 4000

/-- `uthread_t`. Addresses are numbers, and 0 is the null pointer. -/
structure UThread where
  tid : Int
  ss_sp : Nat
  ss_esp : Nat
  ss_ebp : Nat
  priority : Int
  entryfunc : Nat
  virgin : Bool
  deriving Repr, DecidableEq, Inhabited

/-- `first_uthread`, `ut_table`, the heap and the two registers. `thread a` is what is stored at the
address `a`, and stays there when `a` is freed; `allocated` are the blocks in use.

The last five fields are for the statements: whether `uthread_start_all` has succeeded and whether
`exit` was called, how many threads were created, which of them is at an address, and whose
entry functions were entered, the latest first. -/
structure State where
  first_uthread : Bool
  cur_threads : Int
  highest_p : Int
  threads : Nat → Nat
  running_tid : Int
  thread : Nat → UThread
  allocated : Nat → Bool
  esp : Nat
  ebp : Nat
  started : Bool
  exited : Bool
  created : Nat
  serial : Nat → Nat
  entered : List Nat

namespace State

/-- `ut_table.threads[i] = a`. Behind the array is `running_tid`. -/
def setSlot (s : State) (i a : Nat) : State :=
  if i < MAX_UTHREADS then { s with threads := update s.threads i a }
  else { s with running_tid := a }

/-- An assignment to fields of the `uthread_t` at `a`. -/
def set (s : State) (a : Nat) (f : UThread → UThread) : State :=
  { s with thread := update s.thread a (f (s.thread a)) }

/-- `malloc` returns `a`. -/
def malloc (s : State) (a : Nat) : State :=
  { s with allocated := update s.allocated a true }

/-- `free(a)`: only the headers of blocks are written, so what is stored at `a` stays. -/
def free (s : State) (a : Nat) : State :=
  { s with allocated := update s.allocated a false }

/-- The table before the first thread. -/
def firstInit (s : State) : State :=
  if s.first_uthread then
    { s with
      cur_threads := 0, highest_p := 9, running_tid := -1, threads := fun _ => 0
      first_uthread := false }
  else s

end State

/-- The first free place of the table, `MAX_UTHREADS` if there is none. -/
def freeSlot (s : State) : Nat :=
  ((List.range MAX_UTHREADS).find? fun i => s.threads i = 0).getD MAX_UTHREADS

/-- `uthread_create`, where the two calls of `malloc` return `m` and `sp`. -/
def uthreadCreate (s : State) (start_func : Nat) (priority : Int) (m sp : Nat) : Int × State :=
  let s := s.firstInit
  if s.cur_threads = MAX_UTHREADS then (-1, s)
  else
    let ut_id := freeSlot s
    if m = 0 then (-1, s.setSlot ut_id 0)
    else
      let s := ((s.setSlot ut_id m).malloc m).set m ({ · with ss_sp := sp })
      if sp = 0 then (-1, s.free m)
      else
        let s := (s.malloc sp).set m fun t =>
          { t with
            ss_esp := sp + (UTHREAD_STACK_SIZE - 4), ss_ebp := sp + (UTHREAD_STACK_SIZE - 4)
            priority := priority, tid := ut_id, entryfunc := start_func, virgin := true }
        (ut_id, { s with
          cur_threads := s.cur_threads + 1
          highest_p := if s.highest_p > priority then priority else s.highest_p
          created := s.created + 1
          serial := update s.serial m s.created })

/-- The scheduling policies of `next_thread`. -/
inductive Sched where
  | ROUND_ROBIN
  | PRIORITY_BASED
  deriving DecidableEq, Repr

/-- `SCHED_PB` is not defined. -/
def sched : Sched := .ROUND_ROBIN

/-- The loop of `next_thread` for `k` rounds. It reads the table and changes nothing, so if
`MAX_UTHREADS` rounds find no thread then the loop never ends. -/
def nextThread (s : State) : Nat → Nat → Option Nat
  | 0, _ => none
  | k + 1, start =>
    let next := s.threads start
    if next ≠ 0 ∧ (sched = .ROUND_ROBIN ∨ (s.thread next).priority = s.highest_p) then some next
    else nextThread s k ((start + 1) % MAX_UTHREADS)

/-- `uthread_self()`. -/
def uthreadSelf (s : State) : UThread := s.thread (s.threads s.running_tid.toNat)

namespace State

/-- The first time that the thread at `a` runs: `CALL(wrap_function)` with its entry function. -/
def enter (s : State) (a : Nat) : State :=
  { s.set a ({ · with virgin := false }) with entered := s.serial a :: s.entered }

/-- The switch to the thread at `next`. -/
def load (s : State) (next : Nat) : State :=
  { s with
    running_tid := (s.thread next).tid, esp := (s.thread next).ss_esp
    ebp := (s.thread next).ss_ebp }

/-- The common end of `uthread_yield` and `uthread_exit`. -/
def switch (s : State) (next : Nat) : State :=
  if (s.thread next).virgin then (s.load next).enter next else s.load next

end State

/-- `uthread_yield`, called with the registers `esp` and `ebp`. -/
def uthreadYield (s : State) (esp ebp : Nat) : Option State :=
  let self := s.threads (uthreadSelf s).tid.toNat
  let s := s.set self ({ · with ss_esp := esp, ss_ebp := ebp })
  (nextThread s MAX_UTHREADS (((s.thread self).tid.toNat + 1) % MAX_UTHREADS)).map s.switch

/-- `get_highest_p`. -/
def getHighestP (s : State) : Int :=
  (List.range MAX_UTHREADS).foldl (fun cur i =>
    if s.threads i ≠ 0 ∧ (s.thread (s.threads i)).priority < cur then
      (s.thread (s.threads i)).priority
    else cur) 9

/-- `uthread_exit`. -/
def uthreadExit (s : State) : Option State :=
  let self := s.threads (uthreadSelf s).tid.toNat
  let tid := (s.thread self).tid.toNat
  let s := (s.free (s.thread self).ss_sp).free (s.threads tid)
  -- `s_self->tid` is read from the block that was just freed
  let s := s.setSlot (s.thread self).tid.toNat 0
  let s := { s with cur_threads := s.cur_threads - 1 }
  let s := { s with highest_p := getHighestP s }
  if s.cur_threads = 0 then some { s with exited := true }
  else (nextThread s MAX_UTHREADS ((tid + 1) % MAX_UTHREADS)).map s.switch

/-- `uthread_start_all`: the result, if it returns, and the state then or when the first thread
is entered. -/
def uthreadStartAll (s : State) : Option (Option Int × State) :=
  if s.first_uthread ∨ s.cur_threads = 0 ∨ s.running_tid ≠ -1 then some (some (-1), s)
  else (nextThread s MAX_UTHREADS 0).map fun next =>
    (none, { (s.load next).enter next with started := true })

/-- `uthread_setpr`: the old priority. -/
def uthreadSetpr (s : State) (priority : Int) : Int × State :=
  let self := s.threads s.running_tid.toNat
  ((s.thread self).priority, s.set self ({ · with priority := priority }))

/-- A call of the package, with what `malloc` returns and the registers at the call. -/
inductive Op where
  | create (start_func : Nat) (priority : Int) (m sp : Nat)
  | startAll
  | yield (esp ebp : Nat)
  | setpr (priority : Int)
  | exit
  deriving DecidableEq, Repr

/-- `malloc` fails, or returns a block that is not in use. -/
def Fresh (s : State) (m sp : Nat) : Prop :=
  (m ≠ 0 → s.allocated m = false) ∧ (sp ≠ 0 → s.allocated sp = false ∧ sp ≠ m)

instance (s : State) (m sp : Nat) : Decidable (Fresh s m sp) := by
  unfold Fresh
  infer_instance

/-- One call. `uthread_yield`, `uthread_setpr` and `uthread_exit` are calls of a thread. There is no
next state if the call never returns. -/
def step (s : State) (op : Op) : Option State :=
  if s.exited then none
  else match op with
    | .create f priority m sp =>
      if Fresh s m sp then some (uthreadCreate s f priority m sp).2 else none
    | .startAll => (uthreadStartAll s).map (·.2)
    | .yield esp ebp => if s.started then uthreadYield s esp ebp else none
    | .setpr priority => if s.started then some (uthreadSetpr s priority).2 else none
    | .exit => if s.started then uthreadExit s else none

/-- The process when `main` begins: global variables are 0 or initialised. -/
def init : State where
  first_uthread := true
  cur_threads := 0
  highest_p := 0
  threads _ := 0
  running_tid := 0
  thread _ := default
  allocated _ := false
  esp := 0
  ebp := 0
  started := false
  exited := false
  created := 0
  serial _ := 0
  entered := []

def run : List Op → State → Option State
  | [], s => some s
  | op :: ops, s => (step s op).bind (run ops)

/-! ### The policy as a parameter

`next_thread` and the calls that use it as they are compiled for either policy. -/

/-- The loop of `next_thread` for `k` rounds. -/
def nextThreadBy (p : Sched) (s : State) : Nat → Nat → Option Nat
  | 0, _ => none
  | k + 1, start =>
    let next := s.threads start
    if next ≠ 0 ∧ (p = .ROUND_ROBIN ∨ (s.thread next).priority = s.highest_p) then some next
    else nextThreadBy p s k ((start + 1) % MAX_UTHREADS)

def uthreadYieldBy (p : Sched) (s : State) (esp ebp : Nat) : Option State :=
  let self := s.threads (uthreadSelf s).tid.toNat
  let s := s.set self ({ · with ss_esp := esp, ss_ebp := ebp })
  (nextThreadBy p s MAX_UTHREADS (((s.thread self).tid.toNat + 1) % MAX_UTHREADS)).map s.switch

def uthreadExitBy (p : Sched) (s : State) : Option State :=
  let self := s.threads (uthreadSelf s).tid.toNat
  let tid := (s.thread self).tid.toNat
  let s := (s.free (s.thread self).ss_sp).free (s.threads tid)
  let s := s.setSlot (s.thread self).tid.toNat 0
  let s := { s with cur_threads := s.cur_threads - 1 }
  let s := { s with highest_p := getHighestP s }
  if s.cur_threads = 0 then some { s with exited := true }
  else (nextThreadBy p s MAX_UTHREADS ((tid + 1) % MAX_UTHREADS)).map s.switch

def uthreadStartAllBy (p : Sched) (s : State) : Option (Option Int × State) :=
  if s.first_uthread ∨ s.cur_threads = 0 ∨ s.running_tid ≠ -1 then some (some (-1), s)
  else (nextThreadBy p s MAX_UTHREADS 0).map fun next =>
    (none, { (s.load next).enter next with started := true })

def stepBy (p : Sched) (s : State) (op : Op) : Option State :=
  if s.exited then none
  else match op with
    | .create f priority m sp =>
      if Fresh s m sp then some (uthreadCreate s f priority m sp).2 else none
    | .startAll => (uthreadStartAllBy p s).map (·.2)
    | .yield esp ebp => if s.started then uthreadYieldBy p s esp ebp else none
    | .setpr priority => if s.started then some (uthreadSetpr s priority).2 else none
    | .exit => if s.started then uthreadExitBy p s else none

def runBy (p : Sched) : List Op → State → Option State
  | [], s => some s
  | op :: ops, s => (stepBy p s op).bind (runBy p ops)

theorem nextThreadBy_sched : nextThreadBy sched = nextThread := by
  funext s k start
  induction k generalizing start with
  | zero => rfl
  | succ k ih => rw [nextThreadBy, nextThread, ih]

/-- The calls are those of the policy that the source is compiled with. -/
theorem stepBy_sched : stepBy sched = step := by
  funext s op
  cases op <;> simp only [stepBy, step, uthreadYieldBy, uthreadYield, uthreadExitBy, uthreadExit,
    uthreadStartAllBy, uthreadStartAll, nextThreadBy_sched]

theorem runBy_sched : runBy sched = run := by
  funext ops s
  induction ops generalizing s with
  | nil => rfl
  | cons op ops ih =>
    rw [runBy, run, stepBy_sched]
    exact congrArg (Option.bind _) (funext ih)

/-! ### The table -/

/-- The places of the table that are not null. -/
def used (s : State) : Finset Nat := (Finset.range MAX_UTHREADS).filter fun i => s.threads i ≠ 0

/-- The stack of the thread in place `i`. -/
def stack (s : State) (i : Nat) : Nat := (s.thread (s.threads i)).ss_sp

/-- The places of the table and the blocks that they point to. -/
structure Rows (s : State) : Prop where
  count : s.cur_threads = (used s).card
  /-- An entry points to a `uthread_t` of its own, which has the place as its number. -/
  block : ∀ i ∈ used s, s.allocated (s.threads i) = true ∧ (s.thread (s.threads i)).tid = i
  distinct : ∀ i ∈ used s, ∀ j ∈ used s, s.threads i = s.threads j → i = j
  /-- Every thread has a stack of its own. -/
  hasStack : ∀ i ∈ used s, stack s i ≠ 0 ∧ s.allocated (stack s i) = true
  apart : ∀ i ∈ used s, ∀ j ∈ used s, stack s i ≠ s.threads j ∧ (stack s i = stack s j → i = j)
  /-- No entry function is entered twice. -/
  once : s.entered.Nodup

/-- What should hold after every call. -/
structure TableOk (s : State) : Prop extends Rows s where
  idle : s.started = false → s.running_tid = -1
  running : s.started = true → s.exited = false → ∃ i ∈ used s, s.running_tid = i
  /-- `next_thread` ends, wherever it starts, at a thread of the table. -/
  next : s.started = true → s.exited = false → ∀ start < MAX_UTHREADS,
    ∃ i ∈ used s, nextThread s MAX_UTHREADS start = some (s.threads i)

/-- The table is set up, and only threads that were not entered are `virgin`. -/
structure Threads (s : State) : Prop extends Rows s where
  first : s.first_uthread = false
  serial : ∀ i ∈ used s, ∀ j ∈ used s, s.serial (s.threads i) = s.serial (s.threads j) → i = j
  virgin : ∀ i ∈ used s, (s.thread (s.threads i)).virgin = true →
    s.serial (s.threads i) ∉ s.entered
  born : (∀ i ∈ used s, s.serial (s.threads i) < s.created) ∧ ∀ k ∈ s.entered, k < s.created
  unstarted : s.started = false → s.entered = []

/-- The invariant: the running thread is in the table. -/
structure Inv (s : State) : Prop extends Threads s where
  idle : s.started = false → s.running_tid = -1
  running : s.started = true → s.exited = false → ∃ i ∈ used s, s.running_tid = i

variable {s s' : State} {i j a m sp start k d : Nat}

theorem mem_used : i ∈ used s ↔ i < MAX_UTHREADS ∧ s.threads i ≠ 0 := by
  simp [used]

/-- The places that `next_thread` looks for. -/
def Eligible (p : Sched) (s : State) (i : Nat) : Prop :=
  s.threads i ≠ 0 ∧ (p = .ROUND_ROBIN ∨ (s.thread (s.threads i)).priority = s.highest_p)

instance (p : Sched) (s : State) : DecidablePred (Eligible p s) := fun i => by
  unfold Eligible
  infer_instance

variable {p : Sched}

theorem nextThreadBy_eq :
    nextThreadBy p s k start =
      (Cyclic.scan MAX_UTHREADS (Eligible p s) k start).map s.threads := by
  induction k generalizing start with
  | zero => rfl
  | succ k ih =>
    rw [nextThreadBy, Cyclic.scan, ih]
    by_cases h : Eligible p s start
    · rw [if_pos h, Option.map_some]
      exact if_pos h
    · rw [if_neg h]
      exact if_neg h

theorem mod_lt_max (n : Nat) : n % MAX_UTHREADS < MAX_UTHREADS := Nat.mod_lt _ (by decide)

theorem nextThreadBy_some (hstart : start < MAX_UTHREADS)
    (h : nextThreadBy p s MAX_UTHREADS start = some a) :
    ∃ i ∈ used s, a = s.threads i ∧ Cyclic.First MAX_UTHREADS (Eligible p s) start i := by
  rw [nextThreadBy_eq] at h
  obtain ⟨i, hi, rfl⟩ := Option.map_eq_some_iff.mp h
  have hfirst := Cyclic.First.of_scan hstart hi
  exact ⟨i, mem_used.mpr ⟨hfirst.lt, hfirst.holds.1⟩, rfl, hfirst⟩

/-- `next_thread` ends if there is a thread of the kind that it looks for. -/
theorem nextThreadBy_finds (hi : i < MAX_UTHREADS) (he : Eligible p s i)
    (hstart : start < MAX_UTHREADS) : ∃ a, nextThreadBy p s MAX_UTHREADS start = some a := by
  obtain ⟨j, hj⟩ := Cyclic.exists_scan hstart hi he
  exact ⟨s.threads j, by rw [nextThreadBy_eq, hj, Option.map_some]⟩

/-- In turn, `next_thread` finds a thread if there is one. -/
theorem nextThread_finds (hi : i ∈ used s) (hstart : start < MAX_UTHREADS) :
    ∃ j ∈ used s, nextThread s MAX_UTHREADS start = some (s.threads j) := by
  obtain ⟨hlt, hne⟩ := mem_used.mp hi
  rw [← nextThreadBy_sched]
  obtain ⟨a, ha⟩ := nextThreadBy_finds hlt (p := sched) ⟨hne, .inl rfl⟩ hstart
  obtain ⟨j, hj, rfl, -⟩ := nextThreadBy_some hstart ha
  exact ⟨j, hj, ha⟩

theorem Inv.ok (h : Inv s) : TableOk s :=
  { h with
    next := fun h1 h2 _ hstart =>
      let ⟨_, hi, _⟩ := h.running h1 h2
      nextThread_finds hi hstart }

/-! ### What a call changes -/

theorem used_insert (hi : i < MAX_UTHREADS) (hm : m ≠ 0)
    (h : s'.threads = update s.threads i m) : used s' = insert i (used s) := by
  ext j
  rw [mem_used, mem_insert, mem_used, h]
  by_cases hj : j = i
  · subst hj
    simp [hi, hm]
  · simp [hj]

theorem used_erase (h : s'.threads = update s.threads i 0) :
    used s' = (used s).erase i := by
  ext j
  rw [mem_used, mem_erase, mem_used, h]
  by_cases hj : j = i
  · subst hj
    simp
  · simp [hj]

namespace Threads

/-- An assignment to fields that the table does not depend on. -/
theorem set (h : Threads s) {f : UThread → UThread} (htid : ∀ t, (f t).tid = t.tid)
    (hsp : ∀ t, (f t).ss_sp = t.ss_sp) (hv : ∀ t, (f t).virgin = t.virgin) : Threads (s.set a f) := by
  have ht : ∀ b, ((s.set a f).thread b).tid = (s.thread b).tid ∧
      ((s.set a f).thread b).ss_sp = (s.thread b).ss_sp ∧
      ((s.set a f).thread b).virgin = (s.thread b).virgin := fun b => by
    by_cases hb : b = a
    · subst hb
      simp [State.set, htid, hsp, hv]
    · simp [State.set, update_of_ne hb]
  have hst : ∀ i, stack (s.set a f) i = stack s i := fun i => (ht _).2.1
  exact { h with
    block := fun i hi => ⟨(h.block i hi).1, (ht _).1.trans (h.block i hi).2⟩
    hasStack := fun i hi => by
      rw [hst]
      exact h.hasStack i hi
    apart := fun i hi j hj => by
      rw [hst, hst]
      exact h.apart i hi j hj
    virgin := fun i hi hv => h.virgin i hi ((ht _).2.2.symm.trans hv) }

theorem enter (h : Threads s) (hi : i ∈ used s) (hst : s.started = true)
    (hv : s.serial (s.threads i) ∉ s.entered) : Threads (s.enter (s.threads i)) := by
  set s' := s.enter (s.threads i) with hs'
  have ht : ∀ b, (s'.thread b).tid = (s.thread b).tid ∧ (s'.thread b).ss_sp = (s.thread b).ss_sp :=
    fun b => by
      by_cases hb : b = s.threads i
      · subst hb
        simp [hs', State.enter, State.set]
      · simp [hs', State.enter, State.set, update_of_ne hb]
  have hst' : ∀ j, stack s' j = stack s j := fun j => (ht _).2
  exact { h with
    block := fun j hj => ⟨(h.block j hj).1, (ht _).1.trans (h.block j hj).2⟩
    hasStack := fun j hj => by
      rw [hst']
      exact h.hasStack j hj
    apart := fun j hj k hk => by
      rw [hst', hst']
      exact h.apart j hj k hk
    once := List.nodup_cons.mpr ⟨hv, h.once⟩
    virgin := fun j hj hvj => by
      by_cases hji : s.threads j = s.threads i
      · have : (s'.thread (s.threads i)).virgin = false := by
          simp [hs', State.enter, State.set]
        rw [show s'.threads j = s.threads i from hji, this] at hvj
        cases hvj
      · have hold : (s.thread (s.threads j)).virgin = true := by
          rw [← hvj]
          exact congrArg UThread.virgin (update_of_ne hji _ _).symm
        refine fun hmem => ?_
        rcases List.mem_cons.mp hmem with he | hmem
        · exact hji (congrArg s.threads (h.serial j hj i hi he))
        · exact h.virgin j hj hold hmem
    born := ⟨h.born.1, fun k hk => by
      rcases List.mem_cons.mp hk with rfl | hk
      · exact h.born.1 i hi
      · exact h.born.2 k hk⟩
    unstarted := fun h0 => absurd (h0.symm.trans hst) Bool.false_ne_true }

theorem load (h : Threads s) (hi : i ∈ used s) :
    Inv { s.load (s.threads i) with started := true } :=
  { h with
    idle := nofun
    running := fun _ _ => ⟨i, hi, (h.block i hi).2⟩
    unstarted := nofun }

theorem switch (h : Threads s) (hi : i ∈ used s) (hst : s.started = true) :
    Inv (s.switch (s.threads i)) := by
  have hload : Inv (s.load (s.threads i)) := by
    have hs : s.load (s.threads i) = { s.load (s.threads i) with started := true } := by
      rw [← hst]
      rfl
    exact hs ▸ h.load hi
  unfold State.switch
  split
  · next hv =>
    exact { hload.toThreads.enter hi hst (h.virgin i hi hv) with
      idle := hload.idle
      running := hload.running }
  · exact hload

theorem insert (h : Threads s) (hi : i < MAX_UTHREADS) (hfree : s.threads i = 0) (hm : m ≠ 0)
    (hsp : sp ≠ 0) (hfresh : Fresh s m sp) {t : UThread} (htid : t.tid = i) (hstack : t.ss_sp = sp)
    (hthread : s'.thread = update s.thread m t)
    (hthreads : s'.threads = update s.threads i m)
    (halloc : s'.allocated = update (update s.allocated m true) sp true)
    (hserial : s'.serial = update s.serial m s.created)
    (hcreated : s'.created = s.created + 1) (hcount : s'.cur_threads = s.cur_threads + 1)
    (hsame : s'.started = s.started ∧ s'.entered = s.entered ∧
      s'.first_uthread = s.first_uthread) : Threads s' := by
  obtain ⟨hstarted, hentered, hfirst⟩ := hsame
  have hused := used_insert hi hm hthreads
  have hnot : i ∉ used s := fun hmem => (mem_used.mp hmem).2 hfree
  -- an old thread is where it was, at other addresses than the new blocks
  have hold : ∀ j ∈ used s, s'.threads j = s.threads j ∧ s.threads j ≠ m ∧ s.threads j ≠ sp ∧
      stack s j ≠ m ∧ stack s j ≠ sp := fun j hj => by
    have hji : j ≠ i := fun e => hnot (e ▸ hj)
    have hb := (h.block j hj).1
    have hs := (h.hasStack j hj).2
    refine ⟨by rw [hthreads, update_of_ne hji], fun e => ?_, fun e => ?_, fun e => ?_,
      fun e => ?_⟩
    · rw [e, hfresh.1 hm] at hb
      cases hb
    · rw [e, (hfresh.2 hsp).1] at hb
      cases hb
    · rw [e, hfresh.1 hm] at hs
      cases hs
    · rw [e, (hfresh.2 hsp).1] at hs
      cases hs
  have hnew : s'.threads i = m := by rw [hthreads, update_self]
  have htnew : s'.thread m = t := by rw [hthread, update_self]
  have htold : ∀ j ∈ used s, s'.thread (s'.threads j) = s.thread (s.threads j) := fun j hj => by
    rw [(hold j hj).1, hthread, update_of_ne (hold j hj).2.1]
  have hsnew : stack s' i = sp := by rw [stack, hnew, htnew, hstack]
  have hsold : ∀ j ∈ used s, stack s' j = stack s j := fun j hj =>
    congrArg UThread.ss_sp (htold j hj)
  have hserold : ∀ j ∈ used s, s'.serial (s'.threads j) = s.serial (s.threads j) := fun j hj => by
    rw [(hold j hj).1, hserial, update_of_ne (hold j hj).2.1]
  have hsernew : s'.serial (s'.threads i) = s.created := by
    rw [hnew, hserial, update_self]
  have halloc' : ∀ b, s.allocated b = true → s'.allocated b = true := fun b hb => by
    rw [halloc]
    by_cases h1 : b = sp <;> by_cases h2 : b = m <;> simp_all
  have hcases : ∀ {P : Nat → Prop}, P i → (∀ j ∈ used s, P j) → ∀ j ∈ used s', P j :=
    fun h1 h2 j hj => by
      rw [hused] at hj
      rcases mem_insert.mp hj with rfl | hj
      · exact h1
      · exact h2 j hj
  exact {
    count := by
      rw [hcount, h.count, hused, card_insert_of_notMem hnot]
      rfl
    block := by
      refine hcases ⟨?_, ?_⟩ fun j hj => ⟨?_, ?_⟩
      · rw [hnew, halloc, update_of_ne (hfresh.2 hsp).2.symm, update_self]
      · rw [hnew, htnew, htid]
      · rw [(hold j hj).1]
        exact halloc' _ (h.block j hj).1
      · rw [htold j hj]
        exact (h.block j hj).2
    distinct := by
      refine hcases (hcases (fun _ => rfl) fun j hj he => ?_) fun j hj =>
        hcases (fun he => ?_) fun k hk he => ?_
      · rw [hnew, (hold j hj).1] at he
        exact absurd he.symm (hold j hj).2.1
      · rw [hnew, (hold j hj).1] at he
        exact absurd he (hold j hj).2.1
      · rw [(hold j hj).1, (hold k hk).1] at he
        exact h.distinct j hj k hk he
    hasStack := by
      refine hcases ⟨hsnew ▸ hsp, ?_⟩ fun j hj => ?_
      · rw [hsnew, halloc, update_self]
      · rw [hsold j hj]
        exact ⟨(h.hasStack j hj).1, halloc' _ (h.hasStack j hj).2⟩
    apart := by
      refine hcases (hcases ⟨?_, fun _ => rfl⟩ fun j hj => ⟨?_, fun he => ?_⟩) fun j hj =>
        hcases ⟨?_, fun he => ?_⟩ fun k hk => ?_
      · rw [hsnew, hnew]
        exact (hfresh.2 hsp).2
      · rw [hsnew, (hold j hj).1]
        exact (hold j hj).2.2.1.symm
      · rw [hsnew, hsold j hj] at he
        exact absurd he.symm (hold j hj).2.2.2.2
      · rw [hsold j hj, hnew]
        exact (hold j hj).2.2.2.1
      · rw [hsnew, hsold j hj] at he
        exact absurd he (hold j hj).2.2.2.2
      · rw [hsold j hj, hsold k hk, (hold k hk).1]
        exact h.apart j hj k hk
    once := hentered ▸ h.once
    first := hfirst ▸ h.first
    serial := by
      refine hcases (hcases (fun _ => rfl) fun j hj he => ?_) fun j hj =>
        hcases (fun he => ?_) fun k hk he => ?_
      · rw [hsernew, hserold j hj] at he
        exact absurd he (h.born.1 j hj).ne'
      · rw [hsernew, hserold j hj] at he
        exact absurd he (h.born.1 j hj).ne
      · rw [hserold j hj, hserold k hk] at he
        exact h.serial j hj k hk he
    virgin := by
      refine hcases (fun _ => ?_) fun j hj hv => ?_
      · rw [hsernew, hentered]
        exact fun hmem => lt_irrefl _ (h.born.2 _ hmem)
      · rw [hserold j hj, hentered]
        exact h.virgin j hj (htold j hj ▸ hv)
    born := by
      rw [hcreated, hentered]
      refine ⟨hcases ?_ fun j hj => ?_, fun k hk => (h.born.2 k hk).trans (Nat.lt_succ_self _)⟩
      · rw [hsernew]
        exact Nat.lt_succ_self _
      · rw [hserold j hj]
        exact (h.born.1 j hj).trans (Nat.lt_succ_self _)
    unstarted := by
      rw [hstarted, hentered]
      exact h.unstarted }

theorem remove (h : Threads s) (hi : i ∈ used s) (hthread : s'.thread = s.thread)
    (hthreads : s'.threads = update s.threads i 0)
    (halloc : s'.allocated =
      update (update s.allocated (stack s i) false) (s.threads i) false)
    (hcount : s'.cur_threads = s.cur_threads - 1)
    (hsame : s'.started = s.started ∧ s'.entered = s.entered ∧
      s'.first_uthread = s.first_uthread ∧ s'.serial = s.serial ∧ s'.created = s.created) :
    Threads s' := by
  obtain ⟨hstarted, hentered, hfirst, hserial, hcreated⟩ := hsame
  have hused := used_erase hthreads
  -- the other threads keep their blocks
  have hold : ∀ j ∈ used s', j ∈ used s ∧ j ≠ i ∧ s'.threads j = s.threads j := fun j hj => by
    rw [hused] at hj
    obtain ⟨hji, hj⟩ := mem_erase.mp hj
    exact ⟨hj, hji, by rw [hthreads, update_of_ne hji]⟩
  have hstack : ∀ j ∈ used s', stack s' j = stack s j := fun j hj => by
    rw [stack, stack, hthread, (hold j hj).2.2]
  have hkeep : ∀ b, b ≠ s.threads i → b ≠ stack s i → s'.allocated b = s.allocated b :=
    fun b h1 h2 => by rw [halloc, update_of_ne h1, update_of_ne h2]
  exact {
    count := by
      have hpos := card_pos.mpr ⟨i, hi⟩
      rw [hcount, h.count, hused, card_erase_of_mem hi]
      omega
    block := fun j hj => by
      obtain ⟨hj', hji, he⟩ := hold j hj
      rw [he, hthread, hkeep]
      · exact h.block j hj'
      · exact fun e => hji (h.distinct j hj' i hi e)
      · exact (h.apart i hi j hj').1.symm
    distinct := fun j hj k hk e => by
      rw [(hold j hj).2.2, (hold k hk).2.2] at e
      exact h.distinct j (hold j hj).1 k (hold k hk).1 e
    hasStack := fun j hj => by
      obtain ⟨hj', hji, -⟩ := hold j hj
      rw [hstack j hj, hkeep]
      · exact h.hasStack j hj'
      · exact (h.apart j hj' i hi).1
      · exact fun e => hji ((h.apart j hj' i hi).2 e)
    apart := fun j hj k hk => by
      rw [hstack j hj, hstack k hk, (hold k hk).2.2]
      exact h.apart j (hold j hj).1 k (hold k hk).1
    once := hentered ▸ h.once
    first := hfirst ▸ h.first
    serial := fun j hj k hk e => by
      rw [hserial, (hold j hj).2.2, (hold k hk).2.2] at e
      exact h.serial j (hold j hj).1 k (hold k hk).1 e
    virgin := fun j hj hv => by
      rw [(hold j hj).2.2, hserial, hentered]
      rw [hthread, (hold j hj).2.2] at hv
      exact h.virgin j (hold j hj).1 hv
    born := by
      rw [hcreated, hentered]
      refine ⟨fun j hj => ?_, h.born.2⟩
      rw [hserial, (hold j hj).2.2]
      exact h.born.1 j (hold j hj).1
    unstarted := by
      rw [hstarted, hentered]
      exact h.unstarted }

end Threads

/-! ### The calls -/

theorem firstInit_of_not (h : s.first_uthread = false) : s.firstInit = s := by
  simp [State.firstInit, h]

/-- If the table is not full then `uthread_create` finds a place. -/
theorem freeSlot_spec (h : Rows s) (hcount : s.cur_threads ≠ MAX_UTHREADS) :
    freeSlot s < MAX_UTHREADS ∧ s.threads (freeSlot s) = 0 := by
  have hex : ∃ i < MAX_UTHREADS, s.threads i = 0 := by
    by_contra hnone
    push Not at hnone
    have hall : used s = Finset.range MAX_UTHREADS :=
      filter_true_of_mem fun i hi => hnone i (mem_range.mp hi)
    exact hcount (by rw [h.count, hall, card_range])
  obtain ⟨i, hi, h0⟩ := hex
  cases hf : (List.range MAX_UTHREADS).find? fun i => s.threads i = 0 with
  | none =>
    have := List.find?_eq_none.mp hf i (List.mem_range.mpr hi)
    simp [h0] at this
  | some j =>
    have h1 := List.mem_range.mp (List.mem_of_find?_eq_some hf)
    have h2 := List.find?_some hf
    rw [freeSlot, hf]
    exact ⟨h1, of_decide_eq_true h2⟩

theorem self_eq (h : Rows s) (hi : i ∈ used s) (hrun : s.running_tid = i) :
    (uthreadSelf s).tid.toNat = i := by
  rw [uthreadSelf, hrun, Int.toNat_natCast, (h.block i hi).2, Int.toNat_natCast]

/-- What a call needs: `uthread_create` gets a stack if it gets a `uthread_t`, and is called before
`uthread_start_all`. -/
def OpOk (s : State) : Op → Prop
  | .create _ _ m sp => s.firstInit.cur_threads ≠ MAX_UTHREADS → m ≠ 0 → sp ≠ 0
  | .startAll => s.first_uthread = false
  | _ => True

namespace Inv

theorem create (h : Inv s) {f : Nat} {priority : Int} (hfresh : Fresh s m sp)
    (hok : s.cur_threads ≠ MAX_UTHREADS → m ≠ 0 → sp ≠ 0) :
    Inv (uthreadCreate s f priority m sp).2 := by
  rw [uthreadCreate, firstInit_of_not h.first]
  by_cases hfull : s.cur_threads = MAX_UTHREADS
  · rwa [if_pos hfull]
  obtain ⟨hlt, hfree⟩ := freeSlot_spec h.toRows hfull
  rw [if_neg hfull]
  by_cases hm : m = 0
  · -- the null pointer that `malloc` returns goes where there was one
    rw [if_pos hm, State.setSlot, if_pos hlt, ← hfree, update_eq_self]
    exact h
  have hsp := hok hfull hm
  rw [if_neg hm, if_neg hsp]
  have hthreads := @Threads.insert s (uthreadCreate s f priority m sp).2 _ m sp h.toThreads hlt
    hfree hm hsp hfresh ⟨freeSlot s, sp, sp + (UTHREAD_STACK_SIZE - 4),
      sp + (UTHREAD_STACK_SIZE - 4), priority, f, true⟩ rfl rfl
  simp only [uthreadCreate, firstInit_of_not h.first, if_neg hfull, if_neg hm, if_neg hsp,
    State.setSlot, if_pos hlt, State.malloc, State.set, update_idem, update_self,
    true_implies, and_self] at hthreads ⊢
  refine { hthreads with idle := h.idle, running := fun h1 h2 => ?_ }
  obtain ⟨j, hj, he⟩ := h.running h1 h2
  exact ⟨j, by rw [used_insert hlt hm rfl]; exact mem_insert_of_mem hj, he⟩

theorem startAll (h : Inv s) (hex : s.exited = false) {r : Option Int × State}
    (he : uthreadStartAllBy p s = some r) : Inv r.2 := by
  rw [uthreadStartAllBy] at he
  split at he
  · cases he
    exact h
  next hcond =>
    push Not at hcond
    obtain ⟨-, hcount, hrun⟩ := hcond
    have hst : s.started = false := by
      by_contra hst
      obtain ⟨i, -, hi⟩ := h.running (Bool.not_eq_false _ ▸ hst) hex
      omega
    obtain ⟨a, ha, rfl⟩ := Option.map_eq_some_iff.mp he
    obtain ⟨i, hi, rfl, -⟩ := nextThreadBy_some (by decide) ha
    -- nothing was entered before, so the first thread was not
    have hload := h.toThreads.load hi
    have hnew : s.serial (s.threads i) ∉ s.entered := by
      rw [h.unstarted hst]
      exact List.not_mem_nil
    exact { hload.toThreads.enter hi rfl hnew with idle := nofun, running := hload.running }

/-- The end of `uthread_yield` and `uthread_exit`: the next thread that is found runs. -/
theorem of_next (h : Threads s) (hst : s.started = true) (hstart : start < MAX_UTHREADS)
    (he : (nextThreadBy p s MAX_UTHREADS start).map s.switch = some s') : Inv s' := by
  obtain ⟨a, ha, rfl⟩ := Option.map_eq_some_iff.mp he
  obtain ⟨j, hj, rfl, -⟩ := nextThreadBy_some hstart ha
  exact h.switch hj hst

theorem yield (h : Inv s) (hst : s.started = true) {esp ebp : Nat}
    (he : uthreadYieldBy p s esp ebp = some s') : Inv s' := by
  have hset := h.toThreads.set (a := s.threads (uthreadSelf s).tid.toNat)
    (f := ({ · with ss_esp := esp, ss_ebp := ebp })) (fun _ => rfl) (fun _ => rfl) fun _ => rfl
  exact of_next hset hst (mod_lt_max _) he

theorem setpr (h : Inv s) (priority : Int) : Inv (uthreadSetpr s priority).2 := by
  have hset : Threads (uthreadSetpr s priority).2 :=
    h.toThreads.set (f := ({ · with priority := priority })) (fun _ => rfl) (fun _ => rfl)
      fun _ => rfl
  exact { hset with idle := h.idle, running := h.running }

end Inv

/-- The state in which `uthread_exit`, called by the thread in place `i`, recomputes `highest_p`. -/
def removed (s : State) (i : Nat) : State :=
  { s with
    allocated :=
      update (update s.allocated (stack s i) false) (s.threads i) false
    threads := update s.threads i 0
    cur_threads := s.cur_threads - 1 }

theorem uthreadExitBy_eq (h : Rows s) (hi : i ∈ used s) (hrun : s.running_tid = i) :
    uthreadExitBy p s =
      let s1 := { removed s i with highest_p := getHighestP (removed s i) }
      if s1.cur_threads = 0 then some { s1 with exited := true }
      else (nextThreadBy p s1 MAX_UTHREADS ((i + 1) % MAX_UTHREADS)).map s1.switch := by
  have hself := self_eq h hi hrun
  have htid : (s.thread (s.threads i)).tid.toNat = i := by
    rw [(h.block i hi).2, Int.toNat_natCast]
  simp only [uthreadExitBy, removed, hself, htid, State.free, State.setSlot, stack,
    if_pos (mem_used.mp hi).1]
  rfl

theorem Threads.removed (h : Threads s) (hi : i ∈ used s) : Threads (removed s i) :=
  h.remove hi rfl rfl rfl rfl ⟨rfl, rfl, rfl, rfl, rfl⟩

namespace Inv

theorem exit (h : Inv s) (hst : s.started = true) (hex : s.exited = false)
    (he : uthreadExitBy p s = some s') : Inv s' := by
  obtain ⟨i, hi, hrun⟩ := h.running hst hex
  have h1 := h.toThreads.removed hi
  rw [uthreadExitBy_eq h.toRows hi hrun] at he
  dsimp only at he
  split at he
  · cases he
    exact { h1 with
      idle := fun h0 => absurd (h0.symm.trans hst) Bool.false_ne_true
      running := nofun }
  · have h2 : Threads { removed s i with highest_p := getHighestP (removed s i) } := { h1 with }
    exact of_next h2 hst (mod_lt_max _) he

/-- Whatever the policy, a call that meets its condition keeps the invariant. -/
theorem stepBy (h : Inv s) {op : Op} (hok : OpOk s op) (he : stepBy p s op = some s') :
    Inv s' := by
  unfold Uthread.stepBy at he
  split at he
  · cases he
  next hex =>
  rw [Bool.not_eq_true] at hex
  cases op with
  | create f priority m sp =>
    dsimp only at he
    split at he
    · next hfresh =>
      cases he
      refine h.create hfresh fun hfull => hok ?_
      rwa [firstInit_of_not h.first]
    · cases he
  | startAll =>
    obtain ⟨r, hr, rfl⟩ := Option.map_eq_some_iff.mp he
    exact h.startAll hex hr
  | yield esp ebp =>
    dsimp only at he
    split at he
    · next hst => exact h.yield hst he
    · cases he
  | setpr priority =>
    dsimp only at he
    split at he
    · cases he
      exact h.setpr priority
    · cases he
  | exit =>
    dsimp only at he
    split at he
    · next hst => exact h.exit hst hex he
    · cases he

theorem step (h : Inv s) {op : Op} (hok : OpOk s op) (he : step s op = some s') : Inv s' :=
  h.stepBy hok (stepBy_sched ▸ he)

end Inv

/-! ### Runs -/

theorem used_empty (h : ∀ i, s.threads i = 0) : used s = ∅ :=
  filter_eq_empty_iff.mpr fun i _ => not_not.mpr (h i)

theorem inv_firstInit : Inv init.firstInit := by
  have hused : used init.firstInit = ∅ := used_empty fun _ => rfl
  have hnone : ∀ {P : Nat → Prop}, ∀ i ∈ used init.firstInit, P i := fun i hi => by
    rw [hused] at hi
    exact absurd hi (notMem_empty i)
  exact {
    count := by
      rw [hused]
      rfl
    block := hnone
    distinct := hnone
    hasStack := hnone
    apart := hnone
    once := List.nodup_nil
    first := rfl
    serial := hnone
    virgin := hnone
    born := ⟨hnone, nofun⟩
    unstarted := fun _ => rfl
    idle := fun _ => rfl
    running := nofun }

theorem Inv.step_init {op : Op} (hok : OpOk init op) (he : Uthread.step init op = some s') :
    Inv s' := by
  cases op with
  | create f priority m sp =>
    have hok : OpOk init.firstInit (.create f priority m sp) := hok
    exact inv_firstInit.step hok he
  | startAll => cases hok
  | yield esp ebp => cases he
  | setpr priority => cases he
  | exit => cases he

/-- All calls of the sequence meet their condition. -/
def OkRun : List Op → State → Prop
  | [], _ => True
  | op :: ops, s => OpOk s op ∧ ∀ s', step s op = some s' → OkRun ops s'

theorem inv_run {ops : List Op} (h : Inv s) (hok : OkRun ops s) (hrun : run ops s = some s') :
    Inv s' := by
  induction ops generalizing s with
  | nil =>
    cases hrun
    exact h
  | cons op ops ih =>
    obtain ⟨s1, h1, h2⟩ := Option.bind_eq_some_iff.mp hrun
    exact ih (h.step hok.1 h1) (hok.2 s1 h1) h2

theorem step_create {f : Nat} {priority : Int} (he : step s (.create f priority m sp) = some s') :
    s' = (uthreadCreate s f priority m sp).2 := by
  unfold step at he
  split at he
  · cases he
  · dsimp only at he
    split at he
    · cases he
      rfl
    · cases he

/-- A `uthread_create` that gets no stack leaves a pointer to a block that is not allocated. -/
theorem not_ok_create (h : Inv s.firstInit) {f : Nat} {priority : Int}
    (hbad : ¬ OpOk s (.create f priority m sp)) :
    ¬ TableOk (uthreadCreate s f priority m sp).2 := by
  rw [OpOk] at hbad
  push Not at hbad
  obtain ⟨hfull, hm, hsp⟩ := hbad
  obtain ⟨hlt, hfree⟩ := freeSlot_spec h.toRows hfull
  intro hok
  have hmem : freeSlot s.firstInit ∈ used (uthreadCreate s f priority m sp).2 := by
    rw [mem_used]
    refine ⟨hlt, ?_⟩
    simp [uthreadCreate, hfull, hm, hsp, State.setSlot, hlt, State.malloc, State.set, State.free]
  have := (hok.block _ hmem).1
  simp [uthreadCreate, hfull, hm, hsp, State.setSlot, hlt, State.malloc, State.set,
    State.free] at this

/-- `main` creates two threads and starts them, the first yields, and the second exits. -/
def twoThreads : List Op :=
  [.create 100 0 1 2, .create 200 1 3 4, .startAll, .yield 1000 1004]

end Uthread

end Xv6
