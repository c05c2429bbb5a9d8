import Mathlib

/-!
# Monitors

A monitor is some data under a spin lock, with processes that sleep on channels until the data is
as they need it. As in a Unix kernel, to sleep is to take the lock of the process table, to drop the
lock of the monitor and to give up the CPU; to wake up a channel is to take the lock of the process
table and to make everyone ready who sleeps there; to kill is to mark a process and make it ready.

A program (`Prog`) gives for each process and program point of an arbitrary type the next
instruction. The machine (`step`) interleaves any number of processes at the grain of their
lock operations: each instruction is one step, and `sleep`, `wakeup` and `kill` take one step for
each lock they take or drop and for what they do in between. A process that is not asleep runs
whenever it is chosen; after it slept, the scheduler takes the lock of the process table for it.

Four kinds of facts follow from the single instructions.

* `Locked` — both locks exclude.
* `Fits` — an invariant of the data that holds while the monitor is free, with assertions for the
  processes inside and outside of it (`Rule`).
* `Heard` — nobody sleeps on a channel that is ready while the monitor is free, if whoever makes a
  channel ready pays with a wakeup before it leaves (`Pays`).
* `Alert` — nobody who was killed sleeps, if nobody is killed between the test of the mark and
  the sleep (`Seen`).
-/

open Function

namespace Monitor

/-- What a process does at a program point; `k` is where it goes on. -/
inductive Instr (σ Pc C : Type) where
  /-- The process is in no call. -/
  | idle
  | acquire (k : Pc)
  | release (k : Pc)
  /-- Read and change the data, with the lock held. -/
  | data (f : σ → σ × Pc)
  /-- Test whether the process itself was killed. -/
  | killed (yes no : Pc)
  /-- Sleep on `c`, with the lock held before and after. -/
  | sleep (c : C) (k : Pc)
  /-- Wake up everyone on `c`, with the lock held. -/
  | wakeup (c : C) (k : Pc)

/-- A program: the instructions of each process, and where a call begins. -/
structure Prog (σ Pc C Op : Type) where
  instr : Nat → Pc → Instr σ Pc C
  entry : Op → Pc

/-- Where a process is, within its instructions and within `sleep`, `wakeup` and `kill`. -/
inductive Mode (Pc C : Type) where
  | code (pc : Pc)
  /-- In `sleep`, with both locks: about to release the monitor. -/
  | drop (c : C) (k : Pc)
  /-- In `sleep`, with the lock of the table: about to be asleep and to give up the CPU. -/
  | fall (c : C) (k : Pc)
  | asleep (c : C) (k : Pc)
  /-- Ready to run again. -/
  | woken (k : Pc)
  /-- On a CPU again, with the lock of the table. -/
  | back (k : Pc)
  /-- At the end of `sleep`: about to acquire the monitor. -/
  | retake (k : Pc)
  /-- In `wakeup`, with both locks. -/
  | wake (c : C) (k : Pc)
  | waked (k : Pc)
  /-- In `kill`, with the lock of the table. -/
  | mark (t : Nat) (k : Pc)
  | marked (k : Pc)
  deriving DecidableEq

/-- The state of the machine: the data, who holds the monitor and who the lock of the table, where
everyone is, and who was killed. -/
structure State (σ Pc C : Type) where
  data : σ
  lock : Option Nat
  table : Option Nat
  mode : Nat → Mode Pc C
  killed : Nat → Bool

/-- A process begins a call, or `kill(t)`, or executes an instruction. -/
inductive Act (Op : Type) where
  | call (p : Nat) (op : Op)
  | kill (p t : Nat)
  | exec (p : Nat)
  deriving DecidableEq

variable {σ Pc C Op : Type}

namespace State

def goto (s : State σ Pc C) (p : Nat) (m : Mode Pc C) : State σ Pc C :=
  { s with mode := update s.mode p m }

end State

/-- A sleeper on `c` becomes ready. -/
def Mode.wakeOn [DecidableEq C] (c : C) : Mode Pc C → Mode Pc C
  | .asleep c' k => if c' = c then .woken k else .asleep c' k
  | m => m

/-- The process is asleep on `c`. -/
def Mode.sleepsOn [DecidableEq C] (c : C) : Mode Pc C → Bool
  | .asleep c' _ => c' = c
  | _ => false

/-- A sleeper becomes ready. -/
def Mode.rouse : Mode Pc C → Mode Pc C
  | .asleep _ k => .woken k
  | m => m

namespace State

/-- Everyone who sleeps on `c` becomes ready. -/
def wakeAll [DecidableEq C] (s : State σ Pc C) (c : C) : State σ Pc C :=
  { s with mode := fun q => (s.mode q).wakeOn c }

/-- `t` is killed, and becomes ready if it sleeps. -/
def mark (s : State σ Pc C) (t : Nat) : State σ Pc C :=
  { s with
    killed := update s.killed t true
    mode := update s.mode t (s.mode t).rouse }

end State

/-- One step of process `p` within its calls. A lock that is not free is not taken. -/
def exec [DecidableEq C] (P : Prog σ Pc C Op) (s : State σ Pc C) (p : Nat) : Option (State σ Pc C) :=
  match s.mode p with
  | .code pc =>
    match P.instr p pc with
    | .idle => none
    | .acquire k => if s.lock = none then some ({ s with lock := some p }.goto p (.code k)) else none
    | .release k => if s.lock = some p then some ({ s with lock := none }.goto p (.code k)) else none
    | .data f => some ({ s with data := (f s.data).1 }.goto p (.code (f s.data).2))
    | .killed yes no => some (s.goto p (.code (if s.killed p then yes else no)))
    | .sleep c k =>
      if s.table = none then some ({ s with table := some p }.goto p (.drop c k)) else none
    | .wakeup c k =>
      if s.table = none then some ({ s with table := some p }.goto p (.wake c k)) else none
  | .drop c k => some ({ s with lock := none }.goto p (.fall c k))
  | .fall c k => some ({ s with table := none }.goto p (.asleep c k))
  | .asleep _ _ => none
  | .woken k => if s.table = none then some ({ s with table := some p }.goto p (.back k)) else none
  | .back k => some ({ s with table := none }.goto p (.retake k))
  | .retake k => if s.lock = none then some ({ s with lock := some p }.goto p (.code k)) else none
  | .wake c k => some ((s.wakeAll c).goto p (.waked k))
  | .waked k => some ({ s with table := none }.goto p (.code k))
  | .mark t k => some ((s.mark t).goto p (.marked k))
  | .marked k => some ({ s with table := none }.goto p (.code k))

/-- The process is in no call. -/
def Instr.isIdle : Instr σ Pc C → Bool
  | .idle => true
  | _ => false

def step [DecidableEq C] (P : Prog σ Pc C Op) (s : State σ Pc C) : Act Op → Option (State σ Pc C)
  | .call p op =>
    match s.mode p with
    | .code pc => if (P.instr p pc).isIdle then some (s.goto p (.code (P.entry op))) else none
    | _ => none
  | .kill p t =>
    match s.mode p with
    | .code pc =>
      if (P.instr p pc).isIdle ∧ s.table = none then
        some ({ s with table := some p }.goto p (.mark t pc))
      else none
    | _ => none
  | .exec p => exec P s p

def run [DecidableEq C] (P : Prog σ Pc C Op) : List (Act Op) → State σ Pc C → Option (State σ Pc C)
  | [], s => some s
  | a :: as, s => (step P s a).bind (run P as)

/-- All processes are outside of the monitor, which is free. -/
def start (d : σ) (pc : Pc) : State σ Pc C where
  data := d
  lock := none
  table := none
  mode _ := .code pc
  killed _ := false

/-! ### What a step can do -/

/-- The steps, with what they need and what they change. -/
inductive Step [DecidableEq C] (P : Prog σ Pc C Op) (s : State σ Pc C) (p : Nat) :
    Act Op → State σ Pc C → Prop where
  | call {pc : Pc} (op : Op) (hm : s.mode p = .code pc) (hi : P.instr p pc = .idle) :
      Step P s p (.call p op) (s.goto p (.code (P.entry op)))
  | kill {pc : Pc} (t : Nat) (hm : s.mode p = .code pc) (hi : P.instr p pc = .idle)
      (ht : s.table = none) :
      Step P s p (.kill p t) ({ s with table := some p }.goto p (.mark t pc))
  | acquire {pc k : Pc} (hm : s.mode p = .code pc) (hi : P.instr p pc = .acquire k)
      (hl : s.lock = none) : Step P s p (.exec p) ({ s with lock := some p }.goto p (.code k))
  | release {pc k : Pc} (hm : s.mode p = .code pc) (hi : P.instr p pc = .release k)
      (hl : s.lock = some p) : Step P s p (.exec p) ({ s with lock := none }.goto p (.code k))
  | data {pc : Pc} {f : σ → σ × Pc} (hm : s.mode p = .code pc) (hi : P.instr p pc = .data f) :
      Step P s p (.exec p) ({ s with data := (f s.data).1 }.goto p (.code (f s.data).2))
  | killed {pc yes no : Pc} (hm : s.mode p = .code pc) (hi : P.instr p pc = .killed yes no) :
      Step P s p (.exec p) (s.goto p (.code (if s.killed p then yes else no)))
  | sleep {pc k : Pc} {c : C} (hm : s.mode p = .code pc) (hi : P.instr p pc = .sleep c k)
      (ht : s.table = none) : Step P s p (.exec p) ({ s with table := some p }.goto p (.drop c k))
  | wakeup {pc k : Pc} {c : C} (hm : s.mode p = .code pc) (hi : P.instr p pc = .wakeup c k)
      (ht : s.table = none) : Step P s p (.exec p) ({ s with table := some p }.goto p (.wake c k))
  | drop {k : Pc} {c : C} (hm : s.mode p = .drop c k) :
      Step P s p (.exec p) ({ s with lock := none }.goto p (.fall c k))
  | fall {k : Pc} {c : C} (hm : s.mode p = .fall c k) :
      Step P s p (.exec p) ({ s with table := none }.goto p (.asleep c k))
  | woken {k : Pc} (hm : s.mode p = .woken k) (ht : s.table = none) :
      Step P s p (.exec p) ({ s with table := some p }.goto p (.back k))
  | back {k : Pc} (hm : s.mode p = .back k) :
      Step P s p (.exec p) ({ s with table := none }.goto p (.retake k))
  | retake {k : Pc} (hm : s.mode p = .retake k) (hl : s.lock = none) :
      Step P s p (.exec p) ({ s with lock := some p }.goto p (.code k))
  | wake {k : Pc} {c : C} (hm : s.mode p = .wake c k) :
      Step P s p (.exec p) ((s.wakeAll c).goto p (.waked k))
  | waked {k : Pc} (hm : s.mode p = .waked k) :
      Step P s p (.exec p) ({ s with table := none }.goto p (.code k))
  | mark {k : Pc} {t : Nat} (hm : s.mode p = .mark t k) :
      Step P s p (.exec p) ((s.mark t).goto p (.marked k))
  | marked {k : Pc} (hm : s.mode p = .marked k) :
      Step P s p (.exec p) ({ s with table := none }.goto p (.code k))

theorem eq_idle {i : Instr σ Pc C} (h : i.isIdle = true) : i = .idle := by
  cases i <;> first | rfl | cases h

section Cases

variable [DecidableEq C] {P : Prog σ Pc C Op} {s s' : State σ Pc C} {p : Nat} {a : Act Op}

theorem exec_cases (h : exec P s p = some s') : Step P s p (.exec p) s' := by
  unfold exec at h
  cases hm : s.mode p with
  | code pc =>
    simp only [hm] at h
    cases hi : P.instr p pc with
    | idle => simp only [hi] at h; cases h
    | acquire k =>
      simp only [hi] at h
      split at h
      · next hl => cases h; exact .acquire hm hi hl
      · cases h
    | release k =>
      simp only [hi] at h
      split at h
      · next hl => cases h; exact .release hm hi hl
      · cases h
    | data f => simp only [hi] at h; cases h; exact .data hm hi
    | killed yes no => simp only [hi] at h; cases h; exact .killed hm hi
    | sleep c k =>
      simp only [hi] at h
      split at h
      · next ht => cases h; exact .sleep hm hi ht
      · cases h
    | wakeup c k =>
      simp only [hi] at h
      split at h
      · next ht => cases h; exact .wakeup hm hi ht
      · cases h
  | drop c k => simp only [hm] at h; cases h; exact .drop hm
  | fall c k => simp only [hm] at h; cases h; exact .fall hm
  | asleep c k => simp only [hm] at h; cases h
  | woken k =>
    simp only [hm] at h
    split at h
    · next ht => cases h; exact .woken hm ht
    · cases h
  | back k => simp only [hm] at h; cases h; exact .back hm
  | retake k =>
    simp only [hm] at h
    split at h
    · next hl => cases h; exact .retake hm hl
    · cases h
  | wake c k => simp only [hm] at h; cases h; exact .wake hm
  | waked k => simp only [hm] at h; cases h; exact .waked hm
  | mark t k => simp only [hm] at h; cases h; exact .mark hm
  | marked k => simp only [hm] at h; cases h; exact .marked hm

theorem step_cases (h : step P s a = some s') : ∃ p, Step P s p a s' := by
  cases a with
  | call p op =>
    simp only [step] at h
    split at h
    · next pc hm =>
      split at h
      · next hi => cases h; exact ⟨p, .call op hm (eq_idle hi)⟩
      · cases h
    · cases h
  | kill p t =>
    simp only [step] at h
    split at h
    · next pc hm =>
      split at h
      · next hi => cases h; exact ⟨p, .kill t hm (eq_idle hi.1) hi.2⟩
      · cases h
    · cases h
  | exec p => exact ⟨p, exec_cases h⟩

end Cases

/-! ### Runs -/

/-- Every step of the run meets the condition `G` in the state before it. -/
def GuardedRun [DecidableEq C] (P : Prog σ Pc C Op) (G : State σ Pc C → Act Op → Prop) :
    List (Act Op) → State σ Pc C → Prop
  | [], _ => True
  | a :: as, s => G s a ∧ ∀ s', step P s a = some s' → GuardedRun P G as s'

section Runs

variable [DecidableEq C] {P : Prog σ Pc C Op} {s s' : State σ Pc C} {G : State σ Pc C → Act Op → Prop}
  {Q : State σ Pc C → Prop} {as bs : List (Act Op)}

theorem guardedRun_of_forall (h : ∀ s a, G s a) (as : List (Act Op)) (s : State σ Pc C) :
    GuardedRun P G as s := by
  induction as generalizing s with
  | nil => trivial
  | cons a as ih => exact ⟨h s a, fun s' _ => ih s'⟩

/-- A check of the condition for a given run. -/
def checkRun (P : Prog σ Pc C Op) (g : State σ Pc C → Act Op → Bool) :
    List (Act Op) → State σ Pc C → Bool
  | [], _ => true
  | a :: as, s => g s a && ((step P s a).map (checkRun P g as)).getD true

theorem guardedRun_of_check {g : State σ Pc C → Act Op → Bool} (hg : ∀ s a, g s a = true → G s a)
    (h : checkRun P g as s = true) : GuardedRun P G as s := by
  induction as generalizing s with
  | nil => trivial
  | cons a as ih =>
    rw [checkRun, Bool.and_eq_true] at h
    refine ⟨hg s a h.1, fun s' hs => ih ?_⟩
    rw [hs] at h
    exact h.2

/-- What every step that meets the condition keeps, every run of such steps keeps. -/
theorem run_induct (hstep : ∀ s a p s', Q s → G s a → Step P s p a s' → Q s') (h : Q s)
    (hg : GuardedRun P G as s) (hr : run P as s = some s') : Q s' := by
  induction as generalizing s with
  | nil =>
    cases hr
    exact h
  | cons a as ih =>
    obtain ⟨t, ht, hr'⟩ := Option.bind_eq_some_iff.mp hr
    obtain ⟨p, hp⟩ := step_cases ht
    exact ih (hstep s a p t h hg.1 hp) (hg.2 t ht) hr'

end Runs

/-- How the data changes in a run: as its instructions change it. -/
theorem run_data [DecidableEq C] {P : Prog σ Pc C Op} {R : σ → σ → Prop} (hrefl : ∀ d, R d d)
    (htrans : ∀ d1 d2 d3, R d1 d2 → R d2 d3 → R d1 d3)
    (hdata : ∀ p pc f d, P.instr p pc = .data f → R d (f d).1) {s s' : State σ Pc C}
    {as : List (Act Op)} (hr : run P as s = some s') : R s.data s'.data := by
  refine run_induct (G := fun _ _ => True) (Q := fun t => R s.data t.data)
    (fun t a p t' h _ hs => ?_) (hrefl _) (guardedRun_of_forall (fun _ _ => trivial) _ _) hr
  cases hs with
  | data hm hi => exact htrans _ _ _ h (hdata p _ _ _ hi)
  | _ => exact h

/-! ### Locks -/

/-- Locks are taken and dropped in turn; `holds pc` says that `pc` is inside of the monitor. -/
def Instr.Wf (holds : Pc → Bool) (pc : Pc) : Instr σ Pc C → Prop
  | .idle => holds pc = false
  | .acquire k => holds pc = false ∧ holds k = true
  | .release k => holds pc = true ∧ holds k = false
  | .data f => holds pc = true ∧ ∀ d, holds (f d).2 = true
  | .killed yes no => holds pc = true ∧ holds yes = true ∧ holds no = true
  | .sleep _ k => holds pc = true ∧ holds k = true
  | .wakeup _ k => holds pc = true ∧ holds k = true

structure Prog.Wf (P : Prog σ Pc C Op) (holds : Pc → Bool) : Prop where
  instr : ∀ p pc, (P.instr p pc).Wf holds pc
  entry : ∀ op, holds (P.entry op) = false

theorem Prog.Wf.of_instr {P : Prog σ Pc C Op} {holds : Pc → Bool} (hP : P.Wf holds) {p : Nat}
    {pc : Pc} {i : Instr σ Pc C} (hi : P.instr p pc = i) : i.Wf holds pc := hi ▸ hP.instr p pc

def ownsLock (holds : Pc → Bool) : Mode Pc C → Bool
  | .code pc => holds pc
  | .drop _ _ => true
  | .wake _ _ => true
  | .waked _ => true
  | _ => false

def ownsTable : Mode Pc C → Bool
  | .code _ => false
  | .asleep _ _ => false
  | .woken _ => false
  | .retake _ => false
  | _ => true

/-- Where a process in `sleep` or `wakeup` goes on is inside of the monitor; `kill` is called
outside. -/
def Target (holds : Pc → Bool) : Mode Pc C → Prop
  | .code _ => True
  | .drop _ k => holds k = true
  | .fall _ k => holds k = true
  | .asleep _ k => holds k = true
  | .woken k => holds k = true
  | .back k => holds k = true
  | .retake k => holds k = true
  | .wake _ k => holds k = true
  | .waked k => holds k = true
  | .mark _ k => holds k = false
  | .marked k => holds k = false

/-- **Mutual exclusion.** -/
structure Locked (holds : Pc → Bool) (s : State σ Pc C) : Prop where
  lock : ∀ p, s.lock = some p ↔ ownsLock holds (s.mode p) = true
  table : ∀ p, s.table = some p ↔ ownsTable (s.mode p) = true
  target : ∀ p, Target holds (s.mode p)

section Locks

variable {P : Prog σ Pc C Op} {holds : Pc → Bool} {s s' : State σ Pc C} {p q : Nat} {a : Act Op}
  {m : Mode Pc C} {c : C} {k pc : Pc}

@[simp] theorem State.mode_goto_self (s : State σ Pc C) (p : Nat) (m : Mode Pc C) :
    (s.goto p m).mode p = m := update_self ..

theorem State.mode_goto_of_ne (s : State σ Pc C) (m : Mode Pc C) (h : q ≠ p) :
    (s.goto p m).mode q = s.mode q := update_of_ne h ..

theorem Locked.lock_unique (h : Locked holds s) (hp : ownsLock holds (s.mode p) = true)
    (hq : ownsLock holds (s.mode q) = true) : p = q :=
  Option.some.inj (((h.lock p).mpr hp).symm.trans ((h.lock q).mpr hq))

theorem Locked.table_unique (h : Locked holds s) (hp : ownsTable (s.mode p) = true)
    (hq : ownsTable (s.mode q) = true) : p = q :=
  Option.some.inj (((h.table p).mpr hp).symm.trans ((h.table q).mpr hq))

/-- A step of `p`: what the others hold stays, and what `p` holds is as its new mode says. -/
theorem Locked.of_step (h : Locked holds s) (p : Nat)
    (hlock : ∀ q ≠ p, (s'.lock = some q ↔ s.lock = some q) ∧
      ownsLock holds (s'.mode q) = ownsLock holds (s.mode q))
    (htable : ∀ q ≠ p, (s'.table = some q ↔ s.table = some q) ∧
      ownsTable (s'.mode q) = ownsTable (s.mode q))
    (htarget : ∀ q ≠ p, Target holds (s.mode q) → Target holds (s'.mode q))
    (hself : (s'.lock = some p ↔ ownsLock holds (s'.mode p) = true) ∧
      (s'.table = some p ↔ ownsTable (s'.mode p) = true) ∧ Target holds (s'.mode p)) :
    Locked holds s' := by
  refine ⟨fun q => ?_, fun q => ?_, fun q => ?_⟩ <;> rcases eq_or_ne q p with rfl | e
  · exact hself.1
  · rw [(hlock q e).1, (hlock q e).2]
    exact h.lock q
  · exact hself.2.1
  · rw [(htable q e).1, (htable q e).2]
    exact h.table q
  · exact hself.2.2
  · exact htarget q e (h.target q)

theorem Locked.goto (h : Locked holds s) {s1 : State σ Pc C} (hmode : s1.mode = s.mode)
    (hlock : ∀ q ≠ p, (s1.lock = some q ↔ s.lock = some q))
    (htable : ∀ q ≠ p, (s1.table = some q ↔ s.table = some q))
    (hl : s1.lock = some p ↔ ownsLock holds m = true)
    (ht : s1.table = some p ↔ ownsTable m = true) (htarget : Target holds m) :
    Locked holds (s1.goto p m) := by
  have hother : ∀ q ≠ p, (s1.goto p m).mode q = s.mode q := fun q e => by
    rw [State.mode_goto_of_ne _ _ e, hmode]
  refine h.of_step p (fun q e => ⟨hlock q e, by rw [hother q e]⟩)
    (fun q e => ⟨htable q e, by rw [hother q e]⟩) (fun q e ht => by rwa [hother q e]) ?_
  rw [State.mode_goto_self]
  exact ⟨hl, ht, htarget⟩

theorem ownsLock_rouse (m : Mode Pc C) : ownsLock holds m.rouse = ownsLock holds m := by
  cases m <;> rfl

theorem ownsTable_rouse (m : Mode Pc C) : ownsTable m.rouse = ownsTable m := by
  cases m <;> rfl

theorem wakeOn_cases [DecidableEq C] (c : C) (m : Mode Pc C) :
    m.wakeOn c = m ∨ ∃ k, m = .asleep c k ∧ m.wakeOn c = .woken k := by
  cases m with
  | asleep c' k =>
    by_cases h : c' = c
    · subst h
      exact .inr ⟨k, rfl, if_pos rfl⟩
    · exact .inl (if_neg h)
  | _ => exact .inl rfl

theorem rouse_cases (m : Mode Pc C) :
    m.rouse = m ∨ ∃ c k, m = .asleep c k ∧ m.rouse = .woken k := by
  cases m with
  | asleep c k => exact .inr ⟨c, k, rfl, rfl⟩
  | _ => exact .inl rfl

theorem free_iff {o : Option Nat} (h : o = none) (hq : q ≠ p) : some p = some q ↔ o = some q := by
  subst h
  exact iff_of_false (fun e => hq (Option.some.inj e).symm) nofun

theorem own_iff {o : Option Nat} (h : o = some p) (hq : q ≠ p) :
    (none : Option Nat) = some q ↔ o = some q := by
  subst h
  exact iff_of_false nofun fun e => hq (Option.some.inj e).symm

theorem Locked.step [DecidableEq C] (hP : P.Wf holds) (h : Locked holds s) (hs : Step P s p a s') :
    Locked holds s' := by
  have hl := h.lock p
  have ht := h.table p
  have htg := h.target p
  have hsame : ∀ q ≠ p, (s.lock = some q ↔ s.lock = some q) := fun _ _ => Iff.rfl
  have hsamet : ∀ q ≠ p, (s.table = some q ↔ s.table = some q) := fun _ _ => Iff.rfl
  cases hs with
  | call op hm hi =>
    have hwf := hP.of_instr hi
    rw [hm] at hl ht
    exact h.goto rfl hsame hsamet (by rw [hl, ownsLock, ownsLock, hwf, hP.entry]) ht trivial
  | kill t hm hi hfree =>
    have hwf := hP.of_instr hi
    rw [hm] at hl
    exact h.goto rfl hsame (fun q e => free_iff hfree e) (by rw [hl, ownsLock, hwf]; rfl)
      (iff_of_true rfl rfl) hwf
  | acquire hm hi hfree =>
    have hwf := hP.of_instr hi
    rw [hm] at ht
    exact h.goto rfl (fun q e => free_iff hfree e) hsamet (iff_of_true rfl hwf.2) ht trivial
  | release hm hi hown =>
    have hwf := hP.of_instr hi
    rw [hm] at ht
    exact h.goto rfl (fun q e => own_iff hown e) hsamet
      (iff_of_false nofun (by rw [ownsLock, hwf.2]; nofun)) ht trivial
  | data hm hi =>
    have hwf := hP.of_instr hi
    rw [hm] at hl ht
    exact h.goto rfl hsame hsamet (hl.trans (iff_of_true hwf.1 (hwf.2 _))) ht trivial
  | killed hm hi =>
    have hwf := hP.of_instr hi
    rw [hm] at hl ht
    refine h.goto rfl hsame hsamet (hl.trans (iff_of_true hwf.1 ?_)) ht trivial
    rw [ownsLock]
    split
    · exact hwf.2.1
    · exact hwf.2.2
  | sleep hm hi hfree =>
    have hwf := hP.of_instr hi
    rw [hm] at hl
    exact h.goto rfl hsame (fun q e => free_iff hfree e) (hl.trans (iff_of_true hwf.1 rfl))
      (iff_of_true rfl rfl) hwf.2
  | wakeup hm hi hfree =>
    have hwf := hP.of_instr hi
    rw [hm] at hl
    exact h.goto rfl hsame (fun q e => free_iff hfree e) (hl.trans (iff_of_true hwf.1 rfl))
      (iff_of_true rfl rfl) hwf.2
  | drop hm =>
    rw [hm] at hl ht htg
    exact h.goto rfl (fun q e => own_iff (hl.mpr rfl) e) hsamet (iff_of_false nofun nofun) ht htg
  | fall hm =>
    rw [hm] at hl ht htg
    exact h.goto rfl hsame (fun q e => own_iff (ht.mpr rfl) e) hl (iff_of_false nofun nofun) htg
  | woken hm hfree =>
    rw [hm] at hl htg
    exact h.goto rfl hsame (fun q e => free_iff hfree e) hl (iff_of_true rfl rfl) htg
  | back hm =>
    rw [hm] at hl ht htg
    exact h.goto rfl hsame (fun q e => own_iff (ht.mpr rfl) e) hl (iff_of_false nofun nofun) htg
  | retake hm hfree =>
    rw [hm] at ht htg
    exact h.goto rfl (fun q e => free_iff hfree e) hsamet (iff_of_true rfl htg) ht trivial
  | @wake k c hm =>
    rw [hm] at hl ht htg
    have hw : ∀ q ≠ p, ((s.wakeAll c).goto p (.waked k)).mode q = (s.mode q).wakeOn c :=
      fun q e => State.mode_goto_of_ne _ _ e
    refine h.of_step p (fun q e => ⟨Iff.rfl, ?_⟩) (fun q e => ⟨Iff.rfl, ?_⟩) (fun q e htq => ?_) ?_
    · rw [hw q e]
      rcases wakeOn_cases c (s.mode q) with h1 | ⟨k', h1, h2⟩
      · rw [h1]
      · rw [h2, h1]
        rfl
    · rw [hw q e]
      rcases wakeOn_cases c (s.mode q) with h1 | ⟨k', h1, h2⟩
      · rw [h1]
      · rw [h2, h1]
        rfl
    · rw [hw q e]
      rcases wakeOn_cases c (s.mode q) with h1 | ⟨k', h1, h2⟩
      · rwa [h1]
      · rw [h1] at htq
        rw [h2]
        exact htq
    · rw [State.mode_goto_self]
      exact ⟨hl, ht, htg⟩
  | waked hm =>
    rw [hm] at hl ht htg
    exact h.goto rfl hsame (fun q e => own_iff (ht.mpr rfl) e) (hl.trans (iff_of_true rfl htg))
      (iff_of_false nofun nofun) trivial
  | @mark k t hm =>
    rw [hm] at hl ht htg
    have hr : ∀ q ≠ p, ((s.mark t).goto p (.marked k)).mode q =
        if q = t then (s.mode q).rouse else s.mode q := fun q e => by
      rw [State.mode_goto_of_ne _ _ e, State.mark]
      by_cases hq : q = t
      · subst hq
        simp
      · simp [hq]
    refine h.of_step p (fun q e => ⟨Iff.rfl, ?_⟩) (fun q e => ⟨Iff.rfl, ?_⟩) (fun q e htq => ?_) ?_
    · rw [hr q e]
      split
      · exact ownsLock_rouse _
      · rfl
    · rw [hr q e]
      split
      · exact ownsTable_rouse _
      · rfl
    · rw [hr q e]
      split
      · rcases rouse_cases (s.mode q) with h1 | ⟨c, k', h1, h2⟩
        · rwa [h1]
        · rw [h1] at htq
          rw [h2]
          exact htq
      · exact htq
    · rw [State.mode_goto_self]
      exact ⟨hl, ht, htg⟩
  | marked hm =>
    rw [hm] at hl ht htg
    exact h.goto rfl hsame (fun q e => own_iff (ht.mpr rfl) e)
      (hl.trans (iff_of_false nofun (by rw [ownsLock, htg]; nofun)))
      (iff_of_false nofun nofun) trivial

theorem locked_start {d : σ} (hpc : holds pc = false) :
    Locked holds (start d pc : State σ Pc C) where
  lock p := iff_of_false nofun (by rw [start, ownsLock, hpc]; nofun)
  table p := iff_of_false nofun nofun
  target _ := trivial

end Locks

/-! ### The data -/

/-- The instruction keeps the assertions: `I` holds of the data while the monitor is free, `L p pc`
while process `p` is inside at `pc`, and `S p pc` while it is outside at `pc` or on its way back
to `pc`. What others do must not concern `S p pc`. -/
def Instr.Ok (I : σ → Prop) (L S : Nat → Pc → σ → Prop) (p : Nat) (pc : Pc) :
    Instr σ Pc C → Prop
  | .idle => True
  | .acquire k => ∀ d, I d → S p pc d → L p k d
  | .release k => ∀ d, L p pc d → I d ∧ S p k d
  | .data f => ∀ d, L p pc d → L p (f d).2 (f d).1 ∧ ∀ q ≠ p, ∀ k, S q k d → S q k (f d).1
  | .killed yes no => ∀ d, L p pc d → L p yes d ∧ L p no d
  | .sleep _ k => (∀ d, L p pc d → I d ∧ S p k d) ∧ ∀ d, I d → S p k d → L p k d
  | .wakeup _ k => ∀ d, L p pc d → L p k d

/-- All instructions keep the assertions. -/
structure Rule (P : Prog σ Pc C Op) (I : σ → Prop) (L S : Nat → Pc → σ → Prop) : Prop where
  instr : ∀ p pc, (P.instr p pc).Ok I L S p pc
  entry : ∀ p pc op d, P.instr p pc = .idle → S p pc d → S p (P.entry op) d

theorem Rule.of_instr {P : Prog σ Pc C Op} {I : σ → Prop} {L S : Nat → Pc → σ → Prop}
    (h : Rule P I L S) {p : Nat} {pc : Pc} {i : Instr σ Pc C} (hi : P.instr p pc = i) :
    i.Ok I L S p pc := hi ▸ h.instr p pc

/-- A process on its way back to `k`. -/
def Returns (I : σ → Prop) (L S : Nat → Pc → σ → Prop) (p : Nat) (k : Pc) (d : σ) : Prop :=
  S p k d ∧ ∀ d, I d → S p k d → L p k d

/-- What is asserted of the data for a process in a mode. -/
def Fit (holds : Pc → Bool) (I : σ → Prop) (L S : Nat → Pc → σ → Prop) (p : Nat) :
    Mode Pc C → σ → Prop
  | .code pc, d => if holds pc then L p pc d else S p pc d
  | .drop _ k, d => I d ∧ Returns I L S p k d
  | .fall _ k, d => Returns I L S p k d
  | .asleep _ k, d => Returns I L S p k d
  | .woken k, d => Returns I L S p k d
  | .back k, d => Returns I L S p k d
  | .retake k, d => Returns I L S p k d
  | .wake _ k, d => L p k d
  | .waked k, d => L p k d
  | .mark _ k, d => S p k d
  | .marked k, d => S p k d

structure Fits (holds : Pc → Bool) (I : σ → Prop) (L S : Nat → Pc → σ → Prop)
    (s : State σ Pc C) : Prop where
  free : s.lock = none → I s.data
  fit : ∀ p, Fit holds I L S p (s.mode p) s.data

section Data

variable {P : Prog σ Pc C Op} {holds : Pc → Bool} {I : σ → Prop} {L S : Nat → Pc → σ → Prop}
  {s s' : State σ Pc C} {p q : Nat} {a : Act Op} {m : Mode Pc C} {pc : Pc}

theorem fit_inside {d : σ} (h : holds pc = true) :
    Fit holds I L S p (.code pc : Mode Pc C) d ↔ L p pc d := by
  rw [Fit, if_pos h]

theorem fit_outside {d : σ} (h : holds pc = false) :
    Fit holds I L S p (.code pc : Mode Pc C) d ↔ S p pc d := by
  rw [Fit, h]
  exact Iff.rfl

theorem Fits.goto (h : Fits holds I L S s) {s1 : State σ Pc C} (hmode : s1.mode = s.mode)
    (hdata : s1.data = s.data) (hfree : s1.lock = none → I s.data)
    (hfit : Fit holds I L S p m s.data) : Fits holds I L S (s1.goto p m) := by
  refine ⟨fun hl => ?_, fun q => ?_⟩
  · rw [show (s1.goto p m).data = s.data from hdata]
    exact hfree hl
  · rw [show (s1.goto p m).data = s.data from hdata]
    rcases eq_or_ne q p with rfl | e
    · rw [State.mode_goto_self]
      exact hfit
    · rw [State.mode_goto_of_ne _ _ e, hmode]
      exact h.fit q

/-- Who is outside of the monitor does not notice what is done inside. -/
theorem Fit.frame {d d' : σ} (h : Fit holds I L S q m d) (hout : ownsLock holds m = false)
    (hS : ∀ k, S q k d → S q k d') : Fit holds I L S q m d' := by
  cases m with
  | code pc =>
    rw [ownsLock] at hout
    rw [fit_outside hout] at h ⊢
    exact hS _ h
  | drop c k => cases hout
  | fall c k => exact ⟨hS _ h.1, h.2⟩
  | asleep c k => exact ⟨hS _ h.1, h.2⟩
  | woken k => exact ⟨hS _ h.1, h.2⟩
  | back k => exact ⟨hS _ h.1, h.2⟩
  | retake k => exact ⟨hS _ h.1, h.2⟩
  | wake c k => cases hout
  | waked k => cases hout
  | mark t k => exact hS _ h
  | marked k => exact hS _ h

/-- If what is asserted inside includes the invariant then the invariant always holds. -/
theorem Fits.inv (hl : Locked holds s) (hf : Fits holds I L S s)
    (hL : ∀ p pc, L p pc s.data → I s.data) : I s.data := by
  cases hlock : s.lock with
  | none => exact hf.free hlock
  | some p =>
    have hfit := hf.fit p
    have howns := (hl.lock p).mp hlock
    cases hm : s.mode p with
    | code pc =>
      rw [hm] at hfit howns
      exact hL p pc ((fit_inside (show holds pc = true from howns)).mp hfit)
    | drop c k =>
      rw [hm] at hfit
      exact hfit.1
    | wake c k =>
      rw [hm] at hfit
      exact hL p k hfit
    | waked k =>
      rw [hm] at hfit
      exact hL p k hfit
    | _ =>
      rw [hm] at howns
      cases howns

variable [DecidableEq C]

theorem Fits.step (hP : P.Wf holds) (hR : Rule P I L S) (hl : Locked holds s)
    (h : Fits holds I L S s) (hs : Step P s p a s') : Fits holds I L S s' := by
  have hf := h.fit p
  have hlock := hl.lock p
  cases hs with
  | call op hm hi =>
    rw [hm, fit_outside (hP.of_instr hi)] at hf
    exact h.goto rfl rfl h.free ((fit_outside (hP.entry op)).mpr (hR.entry p _ op _ hi hf))
  | kill t hm hi _ =>
    rw [hm, fit_outside (hP.of_instr hi)] at hf
    exact h.goto rfl rfl h.free hf
  | acquire hm hi hfree =>
    have hwf := hP.of_instr hi
    rw [hm, fit_outside hwf.1] at hf
    exact h.goto rfl rfl nofun ((fit_inside hwf.2).mpr (hR.of_instr hi _ (h.free hfree) hf))
  | release hm hi _ =>
    have hwf := hP.of_instr hi
    rw [hm, fit_inside hwf.1] at hf
    have hok := hR.of_instr hi _ hf
    exact h.goto rfl rfl (fun _ => hok.1) ((fit_outside hwf.2).mpr hok.2)
  | data hm hi =>
    have hwf := hP.of_instr hi
    rw [hm, fit_inside hwf.1] at hf
    have hok := hR.of_instr hi _ hf
    -- the lock is `p`'s, so all others are outside
    have hown : ownsLock holds (s.mode p) = true := by rw [hm]; exact hwf.1
    refine ⟨fun hnone => ?_, fun q => ?_⟩
    · have := hlock.mpr hown
      rw [show s.lock = none from hnone] at this
      cases this
    · rcases eq_or_ne q p with rfl | e
      · rw [State.mode_goto_self]
        exact (fit_inside (hwf.2 _)).mpr hok.1
      · rw [State.mode_goto_of_ne _ _ e]
        refine (h.fit q).frame ?_ (hok.2 q e)
        exact Bool.not_eq_true _ ▸ fun hq => e (hl.lock_unique hq hown)
  | killed hm hi =>
    have hwf := hP.of_instr hi
    rw [hm, fit_inside hwf.1] at hf
    have hok := hR.of_instr hi _ hf
    refine h.goto rfl rfl h.free ?_
    split
    · exact (fit_inside hwf.2.1).mpr hok.1
    · exact (fit_inside hwf.2.2).mpr hok.2
  | sleep hm hi _ =>
    have hwf := hP.of_instr hi
    rw [hm, fit_inside hwf.1] at hf
    have hok := hR.of_instr hi
    exact h.goto rfl rfl h.free ⟨(hok.1 _ hf).1, (hok.1 _ hf).2, hok.2⟩
  | wakeup hm hi _ =>
    have hwf := hP.of_instr hi
    rw [hm, fit_inside hwf.1] at hf
    exact h.goto rfl rfl h.free (hR.of_instr hi _ hf)
  | drop hm =>
    rw [hm] at hf
    exact h.goto rfl rfl (fun _ => hf.1) hf.2
  | fall hm =>
    rw [hm] at hf
    exact h.goto rfl rfl h.free hf
  | woken hm _ =>
    rw [hm] at hf
    exact h.goto rfl rfl h.free hf
  | back hm =>
    rw [hm] at hf
    exact h.goto rfl rfl h.free hf
  | retake hm hfree =>
    have htg := hl.target p
    rw [hm] at hf htg
    exact h.goto rfl rfl nofun ((fit_inside htg).mpr (hf.2 _ (h.free hfree) hf.1))
  | @wake k c hm =>
    rw [hm] at hf
    refine Fits.goto (s := s.wakeAll c) ⟨h.free, fun q => ?_⟩ rfl rfl h.free hf
    change Fit holds I L S q ((s.mode q).wakeOn c) s.data
    have hq := h.fit q
    rcases wakeOn_cases c (s.mode q) with h1 | ⟨k', h1, h2⟩
    · rwa [h1]
    · rw [h1] at hq
      rw [h2]
      exact hq
  | waked hm =>
    have htg := hl.target p
    rw [hm] at hf htg
    exact h.goto rfl rfl h.free ((fit_inside htg).mpr hf)
  | @mark k t hm =>
    rw [hm] at hf
    refine Fits.goto (s := s.mark t) ⟨h.free, fun q => ?_⟩ rfl rfl h.free hf
    change Fit holds I L S q (update s.mode t (s.mode t).rouse q) s.data
    have hq := h.fit q
    rcases eq_or_ne q t with rfl | e
    · rw [update_self]
      rcases rouse_cases (s.mode q) with h1 | ⟨c, k', h1, h2⟩
      · rwa [h1]
      · rw [h1] at hq
        rw [h2]
        exact hq
    · rw [update_of_ne e]
      exact hq
  | marked hm =>
    have htg := hl.target p
    rw [hm] at hf htg
    exact h.goto rfl rfl h.free ((fit_outside htg).mpr hf)

omit [DecidableEq C] in
theorem fits_start {d : σ} (hpc : holds pc = false) (hI : I d) (hS : ∀ p, S p pc d) :
    Fits holds I L S (start d pc : State σ Pc C) :=
  ⟨fun _ => hI, fun p => (fit_outside hpc).mpr (hS p)⟩

/-- The locks and the data in every state that a run reaches. -/
theorem fits_run (hP : P.Wf holds) (hR : Rule P I L S) {d : σ} (hpc : holds pc = false) (hI : I d)
    (hS : ∀ p, S p pc d) {as : List (Act Op)} (hr : run P as (start d pc) = some s) :
    Locked holds s ∧ Fits holds I L S s :=
  run_induct (G := fun _ _ => True) (Q := fun s => Locked holds s ∧ Fits holds I L S s)
    (fun _ _ _ _ h _ hs => ⟨h.1.step hP hs, h.2.step hP hR h.1 hs⟩)
    ⟨locked_start hpc, fits_start hpc hI hS⟩ (guardedRun_of_forall (fun _ _ => trivial) _ _) hr

end Data

/-! ### Wakeups -/

/-- Process `p` is asleep on `c`, or about to be and out of the monitor already. -/
def Waits (c : C) (m : Mode Pc C) : Prop := ∃ k, m = .fall c k ∨ m = .asleep c k

def waiting : Mode Pc C → Bool
  | .fall _ _ => true
  | .asleep _ _ => true
  | _ => false

theorem Waits.waiting {c : C} {m : Mode Pc C} (h : Waits c m) : waiting m = true := by
  obtain ⟨k, rfl | rfl⟩ := h <;> rfl

theorem waits_of_sleepsOn [DecidableEq C] {c : C} {m : Mode Pc C} (h : m.sleepsOn c = true) :
    Waits c m := by
  cases m with
  | asleep c' k =>
    obtain rfl : c' = c := of_decide_eq_true h
    exact ⟨k, .inr rfl⟩
  | _ => cases h

/-- A process in this mode will wake up `c` before it leaves the monitor. -/
def Owing (holds : Pc → Bool) (owes : C → Pc → Bool) (c : C) : Mode Pc C → Prop
  | .code pc => holds pc = true ∧ owes c pc = true
  | .wake c' k => c' = c ∨ owes c k = true
  | .waked k => owes c k = true
  | _ => False

/-- **No wakeup is missing.** -/
structure Heard (holds : Pc → Bool) (ready : C → σ → Prop) (owes : C → Pc → Bool)
    (s : State σ Pc C) : Prop where
  heard : ∀ p c, Waits c (s.mode p) → ready c s.data → ∃ q, Owing holds owes c (s.mode q)
  drop : ∀ p c k, s.mode p = .drop c k → ¬ ready c s.data

/-- The instruction of `p` at `pc` keeps track of what it owes to those who wait. -/
def Pays (ready : C → σ → Prop) (owes : C → Pc → Bool) (s : State σ Pc C) (p : Nat) (pc : Pc) :
    Instr σ Pc C → Prop
  | .idle => True
  | .acquire _ => True
  | .release _ => ∀ q c, Waits c (s.mode q) → owes c pc = false
  | .data f => ∀ q c, Waits c (s.mode q) → (ready c s.data → owes c pc = true) →
      ready c (f s.data).1 → owes c (f s.data).2 = true
  | .killed yes no => ∀ q c, Waits c (s.mode q) → owes c pc = true →
      owes c (if s.killed p then yes else no) = true
  | .sleep c _ => ¬ ready c s.data ∧ ∀ q c, Waits c (s.mode q) → owes c pc = false
  | .wakeup c' k => ∀ q c, Waits c (s.mode q) → owes c pc = true → c' = c ∨ owes c k = true

section Wakeups

variable {P : Prog σ Pc C Op} {holds : Pc → Bool} {ready : C → σ → Prop} {owes : C → Pc → Bool}
  {s s' : State σ Pc C} {p q : Nat} {a : Act Op} {m : Mode Pc C} {pc : Pc} {c : C}

/-- Whoever owes a wakeup is inside. -/
theorem Owing.owns (h : Owing holds owes c m) : ownsLock holds m = true := by
  cases m with
  | code pc => exact h.1
  | wake c' k => rfl
  | waked k => rfl
  | _ => cases h

/-- While the monitor is free nobody sleeps on a channel that is ready. -/
theorem Heard.not_ready (h : Heard holds ready owes s) (hl : Locked holds s) (hfree : s.lock = none)
    (hw : Waits c (s.mode p)) : ¬ ready c s.data := fun hr => by
  obtain ⟨q, hq⟩ := h.heard p c hw hr
  have := (hl.lock q).mpr hq.owns
  rw [hfree] at this
  cases this

/-- A step of `p` that moves no other process: nobody waits who did not, and a debt of `p` stays. -/
theorem Heard.goto (h : Heard holds ready owes s) {s1 : State σ Pc C} (hmode : s1.mode = s.mode)
    (hdata : s1.data = s.data)
    (hwaits : ∀ c, Waits c m → Waits c (s.mode p) ∨ ¬ ready c s.data)
    (howes : ∀ q c, Waits c (s.mode q) → ready c s.data → Owing holds owes c (s.mode p) →
      Owing holds owes c m)
    (hdrop : ∀ c k, m = .drop c k → ¬ ready c s.data) :
    Heard holds ready owes (s1.goto p m) := by
  have hother : ∀ q ≠ p, (s1.goto p m).mode q = s.mode q := fun q e => by
    rw [State.mode_goto_of_ne _ _ e, hmode]
  have hdata' : (s1.goto p m).data = s.data := hdata
  refine ⟨fun q c hw hr => ?_, fun q c k hq => ?_⟩
  · rw [hdata'] at hr
    have hold : Waits c (s.mode q) := by
      rcases eq_or_ne q p with rfl | e
      · rw [State.mode_goto_self] at hw
        exact (hwaits c hw).resolve_right (not_not.mpr hr)
      · rwa [hother q e] at hw
    obtain ⟨w, how⟩ := h.heard q c hold hr
    refine ⟨w, ?_⟩
    rcases eq_or_ne w p with rfl | e
    · rw [State.mode_goto_self]
      exact howes q c hold hr how
    · rwa [hother w e]
  · rw [hdata']
    rcases eq_or_ne q p with rfl | e
    · rw [State.mode_goto_self] at hq
      exact hdrop c k hq
    · rw [hother q e] at hq
      exact h.drop q c k hq

theorem not_waits_code : ¬ Waits c (.code pc : Mode Pc C) := fun h => nomatch h.waiting

theorem Heard.mono (h : Heard holds ready owes s) (hdata : s'.data = s.data)
    (hmode : ∀ q, s'.mode q = s.mode q ∨ ∃ c k, s.mode q = .asleep c k ∧ s'.mode q = .woken k) :
    Heard holds ready owes s' := by
  have hback : ∀ q c, Waits c (s'.mode q) → Waits c (s.mode q) := fun q c hw => by
    rcases hmode q with e | ⟨c', k, -, e⟩
    · rwa [e] at hw
    · rw [e] at hw
      obtain ⟨k, hk | hk⟩ := hw <;> cases hk
  refine ⟨fun q c hw hr => ?_, fun q c k hq => ?_⟩
  · rw [hdata] at hr
    obtain ⟨w, how⟩ := h.heard q c (hback q c hw) hr
    refine ⟨w, ?_⟩
    rcases hmode w with e | ⟨c', k, e, -⟩
    · rwa [e]
    · rw [e] at how
      cases how
  · rw [hdata]
    rcases hmode q with e | ⟨c', k', -, e⟩
    · rw [e] at hq
      exact h.drop q c k hq
    · rw [e] at hq
      cases hq

variable [DecidableEq C]

theorem Heard.step (hP : P.Wf holds) (hl : Locked holds s) (h : Heard holds ready owes s)
    (hs : Step P s p a s')
    (hpay : ∀ pc, a = .exec p → s.mode p = .code pc → Pays ready owes s p pc (P.instr p pc)) :
    Heard holds ready owes s' := by
  have nowaits : ∀ {m : Mode Pc C}, waiting m = false →
      ∀ c, Waits c m → Waits c (s.mode p) ∨ ¬ ready c s.data := fun hm c hw =>
    Bool.noConfusion (hm.symm.trans hw.waiting)
  -- a process that is outside owes nothing
  have noowes : ownsLock holds (s.mode p) = false → ∀ {m : Mode Pc C}, ∀ q c, Waits c (s.mode q) →
      ready c s.data → Owing holds owes c (s.mode p) → Owing holds owes c m :=
    fun hout _ _ _ _ _ ho => by rw [ho.owns] at hout; cases hout
  cases hs with
  | call op hm hi =>
    have hwf := hP.of_instr hi
    exact h.goto rfl rfl (nowaits rfl) (noowes (by rw [hm]; exact hwf)) nofun
  | kill t hm hi _ =>
    have hwf := hP.of_instr hi
    exact h.goto rfl rfl (nowaits rfl) (noowes (by rw [hm]; exact hwf)) nofun
  | acquire hm hi _ =>
    have hwf := hP.of_instr hi
    exact h.goto rfl rfl (nowaits rfl) (noowes (by rw [hm]; exact hwf.1)) nofun
  | release hm hi _ =>
    have hp := hpay _ rfl hm
    rw [hi] at hp
    refine h.goto rfl rfl (nowaits rfl) (fun q c hw _ ho => ?_) nofun
    rw [hm] at ho
    exact absurd ho.2 (by rw [hp q c hw]; nofun)
  | @data pc f hm hi =>
    have hp := hpay _ rfl hm
    have hwf := hP.of_instr hi
    rw [hi] at hp
    have hown : ownsLock holds (s.mode p) = true := by rw [hm]; exact hwf.1
    refine ⟨fun q c hw hr => ⟨p, ?_⟩, fun q c k hq => ?_⟩
    · rw [State.mode_goto_self]
      have hold : Waits c (s.mode q) := by
        rcases eq_or_ne q p with rfl | e
        · rw [State.mode_goto_self] at hw
          exact absurd hw not_waits_code
        · rwa [State.mode_goto_of_ne _ _ e] at hw
      refine ⟨hwf.2 _, hp q c hold (fun hr0 => ?_) hr⟩
      -- who owed the wakeup before is inside, so it is `p`
      obtain ⟨w, how⟩ := h.heard q c hold hr0
      obtain rfl := hl.lock_unique how.owns hown
      rw [hm] at how
      exact how.2
    · rcases eq_or_ne q p with rfl | e
      · rw [State.mode_goto_self] at hq
        cases hq
      · rw [State.mode_goto_of_ne _ _ e] at hq
        exact absurd (hl.lock_unique (show ownsLock holds (s.mode q) = true by
          rw [show s.mode q = .drop c k from hq]; rfl) hown) e
  | killed hm hi =>
    have hp := hpay _ rfl hm
    have hwf := hP.of_instr hi
    rw [hi] at hp
    refine h.goto rfl rfl (nowaits rfl) (fun q c hw _ ho => ?_) nofun
    rw [hm] at ho
    refine ⟨?_, hp q c hw ho.2⟩
    split
    · exact hwf.2.1
    · exact hwf.2.2
  | sleep hm hi _ =>
    have hp := hpay _ rfl hm
    rw [hi] at hp
    refine h.goto rfl rfl (nowaits rfl) (fun q c hw _ ho => ?_) fun c k hk => ?_
    · rw [hm] at ho
      exact absurd ho.2 (by rw [hp.2 q c hw]; nofun)
    · cases hk
      exact hp.1
  | wakeup hm hi _ =>
    have hp := hpay _ rfl hm
    rw [hi] at hp
    refine h.goto rfl rfl (nowaits rfl) (fun q c hw _ ho => ?_) nofun
    rw [hm] at ho
    exact hp q c hw ho.2
  | @drop k c hm =>
    refine h.goto rfl rfl (fun c' hw => .inr ?_) (fun q c' _ _ ho => ?_) nofun
    · obtain ⟨k', hk | hk⟩ := hw
      · cases hk
        exact h.drop p _ _ hm
      · cases hk
    · rw [hm] at ho
      cases ho
  | @fall k c hm =>
    refine h.goto rfl rfl (fun c' hw => .inl ?_) (noowes (by rw [hm]; rfl)) nofun
    obtain ⟨k', hk | hk⟩ := hw
    · cases hk
    · cases hk
      exact ⟨k, .inl hm⟩
  | woken hm _ => exact h.goto rfl rfl (nowaits rfl) (noowes (by rw [hm]; rfl)) nofun
  | back hm => exact h.goto rfl rfl (nowaits rfl) (noowes (by rw [hm]; rfl)) nofun
  | retake hm _ => exact h.goto rfl rfl (nowaits rfl) (noowes (by rw [hm]; rfl)) nofun
  | @wake k c hm =>
    have hawake : Heard holds ready owes (s.wakeAll c) := h.mono rfl fun q => by
      rcases wakeOn_cases c (s.mode q) with h1 | ⟨k', h1, h2⟩
      · exact .inl h1
      · exact .inr ⟨c, k', h1, h2⟩
    have hp : (s.wakeAll c).mode p = .wake c k := by
      change (s.mode p).wakeOn c = _
      rw [hm]
      rfl
    refine hawake.goto rfl rfl (fun c' ⟨k', hk⟩ => nomatch hk) (fun q c' hw _ ho => ?_) nofun
    rw [hp] at ho
    refine ho.resolve_left fun e => ?_
    subst e
    -- nobody waits on `c` any more: those asleep are ready, and who falls asleep holds the table
    obtain ⟨k', hk | hk⟩ := hw
    · have hq : s.mode q = .fall c k' := by
        rcases wakeOn_cases c (s.mode q) with h1 | ⟨k'', h1, h2⟩
        · exact h1.symm.trans hk
        · exact nomatch h2.symm.trans hk
      have hqp : q = p := hl.table_unique (by rw [hq]; rfl) (by rw [hm]; rfl)
      rw [hqp, hm] at hq
      cases hq
    · rcases wakeOn_cases c (s.mode q) with h1 | ⟨k'', h1, h2⟩
      · have hq : s.mode q = .asleep c k' := h1.symm.trans hk
        change (s.mode q).wakeOn c = _ at hk
        rw [hq, Mode.wakeOn, if_pos rfl] at hk
        cases hk
      · exact nomatch h2.symm.trans hk
  | waked hm =>
    have htg := hl.target p
    rw [hm] at htg
    refine h.goto rfl rfl (nowaits rfl) (fun q c _ _ ho => ?_) nofun
    rw [hm] at ho
    exact ⟨htg, ho⟩
  | @mark k t hm =>
    have hroused : Heard holds ready owes (s.mark t) := h.mono rfl fun q => by
      change update s.mode t (s.mode t).rouse q = _ ∨ _
      rcases eq_or_ne q t with rfl | e
      · rw [update_self]
        rcases rouse_cases (s.mode q) with h1 | ⟨c, k', h1, h2⟩
        · exact .inl h1
        · refine .inr ⟨c, k', h1, ?_⟩
          change update s.mode q (s.mode q).rouse q = _
          rw [update_self, h2]
      · exact .inl (update_of_ne e ..)
    refine hroused.goto rfl rfl (fun c' ⟨k', hk⟩ => nomatch hk) (fun q c' _ _ ho => ?_) nofun
    have hp : ownsLock holds ((s.mark t).mode p) = false := by
      change ownsLock holds (update s.mode t (s.mode t).rouse p) = false
      rcases eq_or_ne p t with rfl | e
      · rw [update_self, ownsLock_rouse, hm]
        rfl
      · rw [update_of_ne e, hm]
        rfl
    rw [ho.owns] at hp
    cases hp
  | marked hm => exact h.goto rfl rfl (nowaits rfl) (noowes (by rw [hm]; rfl)) nofun

omit [DecidableEq C] in
theorem heard_start {d : σ} : Heard holds ready owes (start d pc : State σ Pc C) :=
  ⟨fun _ _ hw => absurd hw not_waits_code, nofun⟩

end Wakeups

/-! ### Kills -/

/-- The process has found out that it was not killed, and is not asleep yet; `tested pc` says this
of the program point `pc`. -/
def InWindow (tested : Pc → Bool) : Mode Pc C → Prop
  | .code pc => tested pc = true
  | .drop _ _ => True
  | .fall _ _ => True
  | .wake _ k => tested k = true
  | .waked k => tested k = true
  | _ => False

/-- The mark is tested before each `sleep`. -/
def Instr.Tests (tested : Pc → Bool) (pc : Pc) : Instr σ Pc C → Prop
  | .idle => tested pc = false
  | .acquire k => tested k = false
  | .release k => tested k = false
  | .data f => ∀ d, tested (f d).2 = false
  | .killed yes _ => tested yes = false
  | .sleep _ k => tested pc = true ∧ tested k = false
  | .wakeup _ k => tested k = true → tested pc = true

structure Prog.Tests (P : Prog σ Pc C Op) (tested : Pc → Bool) : Prop where
  instr : ∀ p pc, (P.instr p pc).Tests tested pc
  entry : ∀ op, tested (P.entry op) = false

/-- `kill` does not mark a process that has found out that it was not killed and is not asleep
yet. -/
def Seen (tested : Pc → Bool) (s : State σ Pc C) : Act Op → Prop
  | .exec p => ∀ t k, s.mode p = .mark t k → ¬ InWindow tested (s.mode t)
  | _ => True

/-- Where a process in `sleep` goes on it tests the mark again. -/
def Retests (tested : Pc → Bool) : Mode Pc C → Prop
  | .drop _ k => tested k = false
  | .fall _ k => tested k = false
  | .asleep _ k => tested k = false
  | .woken k => tested k = false
  | .back k => tested k = false
  | .retake k => tested k = false
  | .mark _ k => tested k = false
  | .marked k => tested k = false
  | _ => True

/-- **Nobody who was killed sleeps**, or is about to. -/
structure Alert (tested : Pc → Bool) (s : State σ Pc C) : Prop where
  awake : ∀ p, s.killed p = true → ¬ InWindow tested (s.mode p) ∧ ∀ c k, s.mode p ≠ .asleep c k
  retests : ∀ p, Retests tested (s.mode p)

section Kills

variable {P : Prog σ Pc C Op} {tested : Pc → Bool} {s s' : State σ Pc C} {p : Nat} {a : Act Op}
  {m : Mode Pc C} {pc : Pc}

theorem Prog.Tests.of_instr (h : P.Tests tested) {i : Instr σ Pc C} (hi : P.instr p pc = i) :
    i.Tests tested pc := hi ▸ h.instr p pc

theorem Alert.goto (h : Alert tested s) {s1 : State σ Pc C} (hmode : s1.mode = s.mode)
    (hkilled : s1.killed = s.killed)
    (hawake : s.killed p = true → ¬ InWindow tested m ∧ ∀ c k, m ≠ .asleep c k)
    (hretests : Retests tested m) : Alert tested (s1.goto p m) := by
  refine ⟨fun q hq => ?_, fun q => ?_⟩ <;> rcases eq_or_ne q p with rfl | e
  · rw [State.mode_goto_self]
    exact hawake (hkilled ▸ hq)
  · rw [State.mode_goto_of_ne _ _ e, hmode]
    exact h.awake q (hkilled ▸ hq)
  · rw [State.mode_goto_self]
    exact hretests
  · rw [State.mode_goto_of_ne _ _ e, hmode]
    exact h.retests q

variable [DecidableEq C]

theorem Alert.step (hP : P.Tests tested) (h : Alert tested s) (hg : Seen tested s a)
    (hs : Step P s p a s') : Alert tested s' := by
  have ha := h.awake p
  have hr := h.retests p
  have hno : ∀ {b : Bool}, b = false → ¬ b = true := fun h1 h2 => by rw [h1] at h2; cases h2
  cases hs with
  | call op hm hi => exact h.goto rfl rfl (fun _ => ⟨hno (hP.entry op), nofun⟩) trivial
  | kill t hm hi _ => exact h.goto rfl rfl (fun _ => ⟨nofun, nofun⟩) (hP.of_instr hi)
  | acquire hm hi _ => exact h.goto rfl rfl (fun _ => ⟨hno (hP.of_instr hi), nofun⟩) trivial
  | release hm hi _ => exact h.goto rfl rfl (fun _ => ⟨hno (hP.of_instr hi), nofun⟩) trivial
  | data hm hi => exact h.goto rfl rfl (fun _ => ⟨hno (hP.of_instr hi _), nofun⟩) trivial
  | killed hm hi =>
    refine h.goto rfl rfl (fun hk => ⟨?_, nofun⟩) trivial
    rw [if_pos hk]
    exact hno (hP.of_instr hi)
  | sleep hm hi _ =>
    have ht := hP.of_instr hi
    rw [hm] at ha
    exact h.goto rfl rfl (fun hk => absurd ht.1 (ha hk).1) ht.2
  | wakeup hm hi _ =>
    rw [hm] at ha
    exact h.goto rfl rfl (fun hk => ⟨fun ht => (ha hk).1 (hP.of_instr hi ht), nofun⟩) trivial
  | drop hm =>
    rw [hm] at ha hr
    exact h.goto rfl rfl (fun hk => absurd trivial (ha hk).1) hr
  | fall hm =>
    rw [hm] at ha hr
    exact h.goto rfl rfl (fun hk => absurd trivial (ha hk).1) hr
  | woken hm _ =>
    rw [hm] at hr
    exact h.goto rfl rfl (fun _ => ⟨nofun, nofun⟩) hr
  | back hm =>
    rw [hm] at hr
    exact h.goto rfl rfl (fun _ => ⟨nofun, nofun⟩) hr
  | retake hm _ =>
    rw [hm] at hr
    exact h.goto rfl rfl (fun _ => ⟨hno hr, nofun⟩) trivial
  | @wake k c hm =>
    rw [hm] at ha
    have hw : Alert tested (s.wakeAll c) := by
      refine ⟨fun q hq => ?_, fun q => ?_⟩
      · have hold := h.awake q hq
        rcases wakeOn_cases c (s.mode q) with h1 | ⟨k', h1, h2⟩
        · rw [show (s.wakeAll c).mode q = s.mode q from h1]
          exact hold
        · exact absurd h1 (hold.2 c k')
      · have hold := h.retests q
        rcases wakeOn_cases c (s.mode q) with h1 | ⟨k', h1, h2⟩
        · rw [show (s.wakeAll c).mode q = s.mode q from h1]
          exact hold
        · rw [h1] at hold
          rw [show (s.wakeAll c).mode q = .woken k' from h2]
          exact hold
    exact hw.goto rfl rfl (fun hk => ⟨(ha hk).1, nofun⟩) trivial
  | waked hm =>
    rw [hm] at ha
    exact h.goto rfl rfl (fun hk => ⟨(ha hk).1, nofun⟩) trivial
  | @mark k t hm =>
    have hseen := hg t k hm
    rw [hm] at hr
    have hmark : Alert tested (s.mark t) := by
      have hmode : ∀ q ≠ t, (s.mark t).mode q = s.mode q := fun q e => update_of_ne e ..
      have hself : (s.mark t).mode t = (s.mode t).rouse := update_self ..
      refine ⟨fun q hq => ?_, fun q => ?_⟩ <;> rcases eq_or_ne q t with rfl | e
      · rw [hself]
        rcases rouse_cases (s.mode q) with h1 | ⟨c, k', h1, h2⟩
        · refine ⟨h1.symm ▸ hseen, fun c k' he => ?_⟩
          rw [h1] at he
          rw [he] at h1
          cases h1
        · rw [h2]
          exact ⟨nofun, nofun⟩
      · rw [hmode q e]
        exact h.awake q ((update_of_ne e ..).symm.trans hq)
      · rw [hself]
        have hold := h.retests q
        rcases rouse_cases (s.mode q) with h1 | ⟨c, k', h1, h2⟩
        · rwa [h1]
        · rw [h1] at hold
          rw [h2]
          exact hold
      · rw [hmode q e]
        exact h.retests q
    exact hmark.goto rfl rfl (fun _ => ⟨nofun, nofun⟩) hr
  | marked hm =>
    rw [hm] at hr
    exact h.goto rfl rfl (fun _ => ⟨hno hr, nofun⟩) trivial

omit [DecidableEq C] in
theorem alert_start {d : σ} : Alert tested (start d pc : State σ Pc C) :=
  ⟨nofun, fun _ => trivial⟩

/-- Nobody who was killed sleeps, in every state that is reached by a run in which no `kill` comes
between a test and the sleep that follows it. -/
theorem alert_run (hP : P.Tests tested) {d : σ} {as : List (Act Op)}
    (hg : GuardedRun P (Seen tested) as (start d pc)) (hr : run P as (start d pc) = some s) :
    Alert tested s :=
  run_induct (fun _ _ _ _ h hg hs => h.step hP hg hs) alert_start hg hr

end Kills

end Monitor
